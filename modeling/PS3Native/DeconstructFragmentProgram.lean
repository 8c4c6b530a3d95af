import PS3Native.FlowNet
import PS3Native.StructuredCode

/-!
# From a fragment program to its flow graph

`deconstruct_fragment_program` walks the words of a program once, and closes the current block where
a pending `ELSE` or end block starts. `Encodes` relates the words to structured code: an `IFE`,
`LOOP` or `REP` with an empty body counts as a `NOP`, and the end flag is on the last instruction.
-/
namespace PS3Native.FragmentProgram
open List

inductive DeconstructError
  | unimplementedCal | invalidElseNode | brokenIfLinkage | brokenLoopLinkage | pastEnd
deriving DecidableEq, Repr

/-- The text of the exception; running past the program has none in the source. -/
def DeconstructError.message : DeconstructError → Option String
  | .unimplementedCal => some "Unimplemented FP CAL instruction."
  | .invalidElseNode => some "CFG: Invalid ELSE node"
  | .brokenIfLinkage => some "CFG: Broken IF linkage. Please report to developers."
  | .brokenLoopLinkage => some "CFG: Broken LOOP linkage. Please report to developers."
  | .pastEnd => none

namespace BasicBlock

def pushInstruction (b : BasicBlock) (i : Instruction) : BasicBlock :=
  {b with instructions := b.instructions++[i]}

def popInstruction (b : BasicBlock) : BasicBlock :=
  {b with instructions := b.instructions.dropLast}

/-- `invert_conditional_execution_mask` on the last instruction of the block. -/
def invertLast (b : BasicBlock) : BasicBlock :=
  { b with
    instructions := b.instructions.dropLast ++
      (b.instructions.getLast?.map fun i =>
        {i with bytecode := i.bytecode.invertConditionalExecutionMask}).toList }

end BasicBlock

namespace FlowGraph

def mergeEdge (g : FlowGraph) (parent : ℕ) (type : EdgeType) : Option FlowEdge :=
  (g.succ parent).find? (·.type=type)

/-- The first edge into a block that does not come from a merge. -/
def frontEdge (g : FlowGraph) (bb : ℕ) : Option FlowEdge :=
  (g.pred bb).find? fun x => x.type≠.endIf ∧ x.type≠.endLoop

/-- The returned block always has the requested id, so only the graph is returned. -/
def safeInsertBlock (g : FlowGraph) (parent id : ℕ) (type : EdgeType) :
    Except DeconstructError FlowGraph :=
  if id∈g.ids then
    if g.isOfType id .elseBranch ∧ (type=.endIf ∨ type=.endLoop) then
      match (g.pred id).head?.bind fun front => g.mergeEdge front.source .endIf with
      | some endif => .ok (g.insertEdge parent endif.target type)
      | none => .error .invalidElseNode
    else .ok (g.insertEdge parent id type)
  else .ok (g.push parent id type)

/-- Links a block that ends here to the merge block of the branch or loop it belongs to. -/
def leave (g : FlowGraph) (bb : ℕ) : Except DeconstructError FlowGraph :=
  match g.frontEdge bb with
  | none => .ok g
  | some front =>
    match front.type with
    | .ifBranch | .elseBranch =>
      match g.mergeEdge front.source .endIf with
      | some merge => .ok (g.insertEdge bb merge.target .endIf)
      | none => .error .brokenIfLinkage
    | .loop =>
      match g.mergeEdge front.source .endLoop with
      | some merge => .ok (g.insertEdge bb merge.target .endLoop)
      | none => .error .brokenLoopLinkage
    | _ => .ok g

end FlowGraph

structure DeconstructState where
  pc : ℕ := 0
  ended : Bool := false
  endBlocks : List ℕ := []
  elseBlocks : List ℕ := []
  graph : FlowGraph := ⟨[{id := 0}]⟩
  bb : ℕ := 0

namespace DeconstructState

/-- The head of the loop body: leaves the current block if another one starts at `pc`. -/
def enter (s : DeconstructState) : Except DeconstructError DeconstructState :=
  if s.pc∈s.endBlocks ∨ s.pc∈s.elseBlocks then do
    let graph ← s.graph.leave s.bb
    .ok {s with graph := graph, bb := s.pc}
  else .ok s

def instruction (s : DeconstructState) (inst : Quad) : Instruction :=
  {bytecode := inst, length := 4, addr := s.pc*16, opcode := inst.opcode}

def emit (s : DeconstructState) (i : Instruction) : DeconstructState :=
  {s with graph := s.graph.modify s.bb (·.pushInstruction i)}

def execIfe (s : DeconstructState) (inst : Quad) : Except DeconstructError DeconstructState :=
  if inst.endAddr = s.pc+1 then
    .ok {s with graph := s.graph.modify s.bb (·.popInstruction), pc := s.pc+1}
  else do
    let graph ← s.graph.safeInsertBlock s.bb (s.pc+1) .ifBranch
    if inst.elseAddr = s.pc+1 then
      let graph := graph.modify s.bb (·.invertLast)
      let graph ← graph.safeInsertBlock s.bb inst.endAddr .endIf
      .ok { s with
        graph := graph, bb := s.pc+1, endBlocks := s.endBlocks++[inst.endAddr], pc := s.pc+1 }
    else if inst.endAddr≠inst.elseAddr then
      let graph ← graph.safeInsertBlock s.bb inst.elseAddr .elseBranch
      let graph ← graph.safeInsertBlock s.bb inst.endAddr .endIf
      .ok { s with
        graph := graph, bb := s.pc+1, endBlocks := s.endBlocks++[inst.endAddr],
        elseBlocks := s.elseBlocks++[inst.elseAddr], pc := s.pc+1 }
    else
      let graph ← graph.safeInsertBlock s.bb inst.endAddr .endIf
      .ok { s with
        graph := graph, bb := s.pc+1, endBlocks := s.endBlocks++[inst.endAddr], pc := s.pc+1 }

def execLoop (s : DeconstructState) (inst : Quad) : Except DeconstructError DeconstructState :=
  if inst.endAddr = s.pc+1 then
    .ok {s with graph := s.graph.modify s.bb (·.popInstruction), pc := s.pc+1}
  else do
    let graph ← s.graph.safeInsertBlock s.bb (s.pc+1) .loop
    let graph ← graph.safeInsertBlock s.bb inst.endAddr .endLoop
    .ok { s with
      graph := graph, bb := s.pc+1, endBlocks := s.endBlocks++[inst.endAddr], pc := s.pc+1 }

/-- The rest of the loop body, on the decoded instruction at `pc`. The literal is copied from
the instruction's own word, as in the source. -/
def exec (s : DeconstructState) (inst : Quad) : Except DeconstructError DeconstructState :=
  let literals := if inst.includesLiteralConstant then 1 else 0
  let s := {s with ended := inst.isEnd}
  if inst.opcode=Opcode.nop then .ok {s with pc := s.pc+1+literals}
  else if inst.opcode=Opcode.cal then .error .unimplementedCal
  else if inst.opcode∈[Opcode.brk,Opcode.fenct,Opcode.fencb,Opcode.ret] then
    .ok {s.emit (s.instruction inst) with pc := s.pc+1}
  else if inst.opcode=Opcode.ife then (s.emit (s.instruction inst)).execIfe inst
  else if inst.opcode∈[Opcode.loop,Opcode.rep] then
    (s.emit (s.instruction inst)).execLoop inst
  else if inst.includesLiteralConstant then
    .ok {s.emit {s.instruction inst with literal := inst, length := 8} with pc := s.pc+2}
  else .ok {s.emit (s.instruction inst) with pc := s.pc+1}

end DeconstructState

/-- The `while (!end)` loop. Every turn reads another word of the program, so as many turns as
there are words, and one to notice the end, are enough. -/
def deconstructLoop (data : List Quad) :
    ℕ → DeconstructState → Except DeconstructError DeconstructState
  | 0, s => if s.ended then .ok s else .error .pastEnd
  | turns+1, s =>
    if s.ended then .ok s
    else do
      let s ← s.enter
      match data[s.pc]? with
      | none => .error .pastEnd
      | some raw =>
        let s ← s.exec (decodeInstruction raw)
        deconstructLoop data turns s

def deconstructFragmentProgram (data : List Quad) : Except DeconstructError FlowGraph := do
  let s ← deconstructLoop data (data.length+1) {}
  .ok s.graph.sorted

open StructuredCode

def instructionAt (data : List Quad) (a : ℕ) : Option Quad := data[a]?.map decodeInstruction

def Quad.literals (inst : Quad) : ℕ := if inst.includesLiteralConstant then 1 else 0

def IsNop (inst : Quad) (a literals : ℕ) : Prop :=
  (inst.opcode=Opcode.nop ∧ literals=inst.literals) ∨
    (inst.opcode∈[Opcode.ife,Opcode.loop,Opcode.rep] ∧ inst.endAddr = a+1 ∧ literals=0)

/-- An instruction that does not affect control flow. `FENCT`, `FENCB` and `RET` take no literal. -/
def IsPlain (inst : Quad) (literals : ℕ) : Prop :=
  inst.opcode∉[Opcode.nop,Opcode.brk,Opcode.cal,Opcode.ife,Opcode.loop,Opcode.rep] ∧
    literals =
      if inst.opcode∈[Opcode.fenct,Opcode.fencb,Opcode.ret] then 0 else inst.literals

/-- The words of `data` from address `a` on spell out the code, in a program of `stop` words. -/
def Encodes (data : List Quad) (stop : ℕ) (inLoop : Bool) (a : ℕ) : Code → Prop
  | .done => True
  | .nop literals rest =>
    (∃ inst∈instructionAt data a, IsNop inst a literals ∧ (inst.isEnd ↔ a+1+literals=stop)) ∧
    Encodes data stop inLoop (a+1+literals) rest
  | .plain literals rest =>
    (∃ inst∈instructionAt data a, IsPlain inst literals ∧ (inst.isEnd ↔ a+1+literals=stop)) ∧
    Encodes data stop inLoop (a+1+literals) rest
  | .brk rest =>
    (∃ inst∈instructionAt data a, inst.opcode=Opcode.brk ∧ inLoop ∧ (inst.isEnd ↔ a+1=stop)) ∧
    Encodes data stop inLoop (a+1) rest
  | .branch yes no rest =>
    (∃ inst∈instructionAt data a, inst.opcode=Opcode.ife ∧ inst.isEnd=false ∧
      inst.elseAddr = a+1+yes.size ∧ inst.endAddr = a+1+yes.size+no.size ∧ 0 < yes.size+no.size) ∧
    Encodes data stop inLoop (a+1) yes ∧ Encodes data stop inLoop (a+1+yes.size) no ∧
    Encodes data stop inLoop (a+1+yes.size+no.size) rest
  | .loop body rest =>
    (∃ inst∈instructionAt data a, inst.opcode∈[Opcode.loop,Opcode.rep] ∧
      inst.isEnd=false ∧ inst.endAddr = a+1+body.size ∧ 0 < body.size) ∧
    Encodes data stop true (a+1) body ∧ Encodes data stop inLoop (a+1+body.size) rest

structure ProgramOf (data : List Quad) (c : Code) : Prop where
  ne_done : c≠.done
  size_le : c.size ≤ data.length
  encodes : Encodes data c.size false 0 c

theorem Encodes.filled {data : List Quad} {stop a : ℕ} {inLoop : Bool} {c : Code}
    (h : Encodes data stop inLoop a c) : c.Filled := by
  induction c generalizing inLoop a with
  | done => trivial
  | nop literals rest ih | plain literals rest ih | brk rest ih => exact ih h.2
  | branch yes no rest ihyes ihno ihrest =>
    obtain ⟨⟨inst,-,-,-,-,-,hpos⟩,hyes,hno,hrest⟩ := h
    exact ⟨hpos,ihyes hyes,ihno hno,ihrest hrest⟩
  | loop body rest ihbody ihrest =>
    obtain ⟨⟨inst,-,-,-,-,hpos⟩,hbody,hrest⟩ := h
    exact ⟨hpos,ihbody hbody,ihrest hrest⟩

namespace DeconstructState

variable {s : DeconstructState} {inst : Quad} {literals : ℕ}

structure IsEmitted (i : Instruction) (pc : ℕ) (inst : Quad) : Prop where
  addr : i.addr = pc*16
  opcode : i.opcode=inst.opcode
  bytecode : i.bytecode=inst ∨ i.bytecode=inst.invertConditionalExecutionMask

theorem isEmitted_instruction : IsEmitted (s.instruction inst) s.pc inst := ⟨rfl,rfl,.inl rfl⟩

theorem pop_emit (i : Instruction) : (s.emit i).graph.modify s.bb (·.popInstruction)=s.graph := by
  refine FlowGraph.modify_modify_cancel _ _ (fun b => rfl) fun b => ?_
  simp [BasicBlock.popInstruction,BasicBlock.pushInstruction]

theorem exec_ife (h : inst.opcode=Opcode.ife) : s.exec inst =
      ({s with ended := inst.isEnd}.emit (s.instruction inst)).execIfe inst := by
  rw [exec,h,if_neg (by decide),if_neg (by decide),if_neg (by decide),if_pos rfl]
  rfl

theorem exec_loop (h : inst.opcode∈[Opcode.loop,Opcode.rep]) : s.exec inst =
      ({s with ended := inst.isEnd}.emit (s.instruction inst)).execLoop inst := by
  have hne : inst.opcode≠Opcode.nop ∧ inst.opcode≠Opcode.cal ∧
      inst.opcode∉[Opcode.brk,Opcode.fenct,Opcode.fencb,Opcode.ret] ∧
      inst.opcode≠Opcode.ife := by
    revert h
    generalize inst.opcode=opcode
    simp only [mem_cons,not_mem_nil,or_false]
    rintro (rfl | rfl) <;> decide
  rw [exec,if_neg hne.1,if_neg hne.2.1,if_neg hne.2.2.1,if_neg hne.2.2.2,if_pos h]
  rfl

theorem exec_nop (h : IsNop inst s.pc literals) :
    s.exec inst = .ok {s with ended := inst.isEnd, pc := s.pc+1+literals} := by
  rcases h with ⟨hop,rfl⟩ | ⟨hop,hend,rfl⟩
  · simp [exec,hop,Quad.literals]
  · set t := {s with ended := inst.isEnd}.emit (s.instruction inst)
    have hpop : t.graph.modify s.bb (·.popInstruction)=s.graph := pop_emit _
    have hskip : (.ok {t with graph := t.graph.modify t.bb (·.popInstruction), pc := t.pc+1} :
        Except DeconstructError DeconstructState) =
        .ok {s with ended := inst.isEnd, pc := s.pc+1} :=
      congrArg (fun graph => Except.ok
        {s with ended := inst.isEnd, pc := s.pc+1, graph := graph}) hpop
    have hmem : inst.opcode=Opcode.ife ∨ inst.opcode∈[Opcode.loop,Opcode.rep] := by
      simpa using hop
    rcases hmem with hop | hop
    · exact (exec_ife hop).trans ((if_pos hend).trans hskip)
    · exact (exec_loop hop).trans ((if_pos hend).trans hskip)

theorem exec_plain (h : IsPlain inst literals) : ∃ i, IsEmitted i s.pc inst ∧
      s.exec inst = .ok {s.emit i with ended := inst.isEnd, pc := s.pc+1+literals} := by
  obtain ⟨hop,rfl⟩ := h
  simp only [mem_cons,not_mem_nil,or_false,not_or] at hop
  obtain ⟨hnop,hbrk,hcal,hife,hloop,hrep⟩ := hop
  by_cases hfence : inst.opcode∈[Opcode.fenct,Opcode.fencb,Opcode.ret]
  · refine ⟨_,isEmitted_instruction,?_⟩
    rw [exec,if_neg hnop,if_neg hcal,if_pos (mem_cons_of_mem _ hfence),if_pos hfence]
    rfl
  · have hnot : inst.opcode∉[Opcode.brk,Opcode.fenct,Opcode.fencb,Opcode.ret] := by
      simp only [mem_cons (a := inst.opcode) (b := Opcode.brk),hbrk,false_or]
      exact hfence
    have hnot' : inst.opcode∉[Opcode.loop,Opcode.rep] := by
      simp [hloop,hrep]
    rw [exec,if_neg hnop,if_neg hcal,if_neg hnot,if_neg hife,if_neg hnot',if_neg hfence,
      Quad.literals]
    by_cases hlit : inst.includesLiteralConstant
    · refine ⟨{s.instruction inst with literal := inst, length := 8},⟨rfl,rfl,.inl rfl⟩,?_⟩
      rw [if_pos hlit,if_pos hlit]
      rfl
    · refine ⟨_,isEmitted_instruction,?_⟩
      rw [if_neg hlit,if_neg hlit]
      rfl

theorem exec_brk (h : inst.opcode=Opcode.brk) : ∃ i, IsEmitted i s.pc inst ∧
      s.exec inst = .ok {s.emit i with ended := inst.isEnd, pc := s.pc+1} := by
  refine ⟨_,isEmitted_instruction,?_⟩
  rw [exec,h,if_neg (by decide),if_neg (by decide),if_pos (by decide)]
  rfl

end DeconstructState

end PS3Native.FragmentProgram
