import PS3Native.AcyclicRelation
import PS3Native.LastWrites

/-!
# Barriers across blocks

For every input of a block, `insert_block_register_dependency` goes up the predecessors until it
finds the blocks that last wrote its lanes. Those that wrote a lane with the other width get a
barrier in their epilogue. The recursion is modelled with a bound on its depth.
-/
namespace PS3Native.FragmentProgram

inductive DependencyError
  | notPreProcessed | tooDeep
deriving DecidableEq, Repr

def DependencyError.message : DependencyError → Option String
  | notPreProcessed => some "Block has not been pre-processed"
  | tooDeep => none

/-- The lanes that already have a barrier at the end of a block, and the instructions that the pass
has appended to its epilogue. -/
structure DependencyPassContext where
  syncRegisterMap : ℕ → RegisterFile := fun _ => unknownFile
  epilogue : ℕ → List Instruction := fun _ => []

namespace FlowGraph

def execRegisterMap (g : FlowGraph) (id : ℕ) : Option RegisterFile :=
  (g.find id).map fun b => execRegisterFile unknownFile b.instructions

/-- The edge leads from an `IF` with an `ELSE` directly to the end of both. -/
def isAnchor (g : FlowGraph) (block : ℕ) (e : FlowEdge) : Bool :=
  e.type = .endIf && match g.succ e.source with
    | [_,e₁,e₂] => e₁.type = .elseBranch && e₂.type = .endIf && e₂.target=block
    | _ => false

end FlowGraph

namespace DependencyPassContext

/-- Puts a barrier for the given lanes at the end of a block. -/
def sync (ctx : DependencyPassContext) (target : ℕ) (clobbered : List ℕ) (f16 : Bool) :
    DependencyPassContext where
  syncRegisterMap := Function.update ctx.syncRegisterMap target
    ((ctx.syncRegisterMap target).setLanes clobbered .dual)
  epilogue := Function.update ctx.epilogue target
    (ctx.epilogue target++resolveDependencies clobbered f16)

def clobberedLanes (ctx : DependencyPassContext) (exec : RegisterFile) (target : ℕ)
    (lanes : List ℕ) (f16 : Bool) : List ℕ :=
  lanes.filter fun lane =>
    exec lane = expectedType (!f16) ∧ ctx.syncRegisterMap target lane = .unknown

end DependencyPassContext

def lanesToSearch (exec : RegisterFile) (lanes : List ℕ) : List ℕ :=
  lanes.filter fun lane => exec lane = .unknown

/-- The loop over the back edges of a block; `recurse` goes up from a predecessor. -/
def visitEdges (g : FlowGraph) (f16 : Bool) (block : ℕ) (lanes : List ℕ)
    (recurse : DependencyPassContext → ℕ → List ℕ → Except DependencyError DependencyPassContext) :
    List FlowEdge → DependencyPassContext → Except DependencyError DependencyPassContext
  | [], ctx => .ok ctx
  | e::rest, ctx =>
    if g.isAnchor block e ∧ rest=[] then .ok ctx
    else match g.execRegisterMap e.source with
      | none => .error .notPreProcessed
      | some exec =>
        let clobbered := ctx.clobberedLanes exec e.source lanes f16
        let search := lanesToSearch exec lanes
        let ctx := ctx.sync e.source clobbered f16
        (if search=[] ∨ g.pred e.source=[] then .ok ctx
          else recurse ctx e.source search).bind (visitEdges g f16 block lanes recurse rest)

def insertBlockRegisterDependency (g : FlowGraph) (f16 : Bool) :
    ℕ → DependencyPassContext → ℕ → List ℕ → Except DependencyError DependencyPassContext
  | 0, _, _, _ => .error .tooDeep
  | depth+1, ctx, block, lanes =>
    visitEdges g f16 block lanes (insertBlockRegisterDependency g f16 depth) (g.pred block) ctx

def insertBlockDependencies (g : FlowGraph) (ctx : DependencyPassContext) (b : BasicBlock) :
    Except DependencyError DependencyPassContext :=
  b.inputList.foldlM (fun ctx ref => insertBlockRegisterDependency g ref.reg.f16 g.blocks.length
    ctx b.id (getRegisterFileRange ref)) ctx

/-- The barriers inside each block, then those across blocks, from the last block to the first. -/
def registerDependencyPass (g : FlowGraph) : Except DependencyError FlowGraph := do
  let ctx ← g.blocks.reverse.foldlM (insertBlockDependencies g) {}
  .ok ⟨g.blocks.map fun b =>
    { b with
      instructions := insertDependencyBarriers unknownFile b.instructions
      epilogue := b.epilogue++ctx.epilogue b.id }⟩

end PS3Native.FragmentProgram
