import PS3Native.BlockDependencies

/-! # Aliasing across blocks is repaired -/
namespace PS3Native.FragmentProgram

open AcyclicRelation List

namespace FlowGraph

def IsPred (g : FlowGraph) (block source : ℕ) : Prop := ∃ e∈g.pred block, e.source=source

structure IsDag (g : FlowGraph) : Prop where
  nodup : g.ids.Nodup
  closed : ∀ b∈g.blocks, ∀ e∈b.pred, e.source∈g.ids
  acyclic : Acyclic g.IsPred

def execFile (g : FlowGraph) (id : ℕ) : RegisterFile := (g.execRegisterMap id).getD unknownFile

/-- A path of back edges to the nearest block that knows the lane, without anchor edges. -/
inductive UpwardPath (g : FlowGraph) (lane : ℕ) : ℕ → ℕ → Prop
  | found {block e} : e∈g.pred block → ¬ g.isAnchor block e →
      g.execFile e.source lane≠.unknown → UpwardPath g lane block e.source
  | skip {block e p} : e∈g.pred block → ¬ g.isAnchor block e →
      g.execFile e.source lane = .unknown → UpwardPath g lane e.source p →
      UpwardPath g lane block p

variable {g : FlowGraph}

theorem IsDag.source_mem (h : g.IsDag) {block : ℕ} {e : FlowEdge} (he : e∈g.pred block) :
    e.source∈g.ids := by
  rw [pred] at he
  cases hfind : g.find block with
  | none => simp [hfind] at he
  | some b =>
    rw [hfind] at he
    exact h.closed b (mem_of_find?_eq_some hfind) e he

theorem IsDag.execRegisterMap (h : g.IsDag) {block : ℕ} {e : FlowEdge} (he : e∈g.pred block) :
    g.execRegisterMap e.source = some (g.execFile e.source) := by
  obtain ⟨b,-,-,hfind⟩ := exists_find (h.source_mem he)
  rw [execFile,FlowGraph.execRegisterMap,hfind]
  rfl

theorem execFile_eq (g : FlowGraph) (id : ℕ) :
    ∃ insts, g.execFile id = execRegisterFile unknownFile insts := by
  rw [execFile,execRegisterMap]
  cases g.find id with
  | none => exact ⟨[],rfl⟩
  | some b => exact ⟨b.instructions,rfl⟩

theorem execFile_paired (g : FlowGraph) (id : ℕ) : Paired (g.execFile id) := by
  obtain ⟨insts,h⟩ := g.execFile_eq id
  exact h ▸ execRegisterFile_paired insts

theorem execFile_halfBounded (g : FlowGraph) (id : ℕ) : HalfBounded (g.execFile id) := by
  obtain ⟨insts,h⟩ := g.execFile_eq id
  exact h ▸ execRegisterFile_halfBounded insts

end FlowGraph

/-- A set of lanes that is made of whole words of registers of the given width. -/
structure IsLaneSet (f16 : Bool) (lanes : List ℕ) : Prop where
  paired : ∀ lane, 2*(lane/2)∈lanes ↔ lane∈lanes
  bounded : f16 → ∀ lane∈lanes, lane < 384

theorem isLaneSet_getRegisterFileRange (ref : RegisterRef) :
    IsLaneSet ref.reg.f16 (getRegisterFileRange ref) :=
  ⟨fun _ => even_mem_getRegisterFileRange,fun hf16 lane hlane => by
    simpa [hf16] using lt_of_mem_getRegisterFileRange hlane⟩

theorem IsLaneSet.filter {f16 : Bool} {lanes : List ℕ} (h : IsLaneSet f16 lanes) {p : ℕ → Prop}
    [DecidablePred p] (hp : ∀ lane, p (2*(lane/2)) ↔ p lane) :
    IsLaneSet f16 (lanes.filter fun lane => p lane) :=
  ⟨fun lane => by simp only [mem_filter,h.paired,hp],fun hf16 lane hlane =>
    h.bounded hf16 lane (mem_filter.mp hlane).1⟩

section Synced

variable {g : FlowGraph} {ctx ctx' ctx'' : DependencyPassContext}

structure Synced (g : FlowGraph) (ctx : DependencyPassContext) : Prop where
  paired : ∀ id, Paired (ctx.syncRegisterMap id)
  covered : ∀ id lane f16, ctx.syncRegisterMap id lane≠.unknown →
    g.execFile id lane = expectedType (!f16) → ∃ b∈ctx.epilogue id, Covers b f16 lane

def Extends (ctx ctx' : DependencyPassContext) : Prop :=
  ∀ id lane, ctx.syncRegisterMap id lane≠.unknown → ctx'.syncRegisterMap id lane≠.unknown

theorem Extends.trans (h : Extends ctx ctx') (h' : Extends ctx' ctx'') : Extends ctx ctx'' :=
  fun id lane hsync => h' id lane (h id lane hsync)

def Settled (g : FlowGraph) (ctx : DependencyPassContext) (f16 : Bool) (block : ℕ)
    (lanes : List ℕ) : Prop :=
  ∀ lane∈lanes, ∀ p, g.UpwardPath lane block p → g.execFile p lane = expectedType (!f16) →
    ctx.syncRegisterMap p lane≠.unknown

theorem Settled.mono {f16 : Bool} {block : ℕ} {lanes : List ℕ} (h : Settled g ctx f16 block lanes)
    (hext : Extends ctx ctx') : Settled g ctx' f16 block lanes :=
  fun lane hlane p hpath hexec => hext p lane (h lane hlane p hpath hexec)

variable {f16 : Bool} {target : ℕ} {lanes : List ℕ}

theorem mem_clobberedLanes {exec : RegisterFile} {lane : ℕ} :
    lane∈ctx.clobberedLanes exec target lanes f16 ↔ lane∈lanes ∧
      exec lane = expectedType (!f16) ∧ ctx.syncRegisterMap target lane = .unknown := by
  simp [DependencyPassContext.clobberedLanes]

theorem expectedType_injective : Function.Injective expectedType := by
  decide

theorem sync_syncRegisterMap (clobbered : List ℕ) (id lane : ℕ) :
    (ctx.sync target clobbered f16).syncRegisterMap id lane =
      if id=target ∧ lane∈clobbered then .dual else ctx.syncRegisterMap id lane := by
  simp only [DependencyPassContext.sync,Function.update_apply]
  split_ifs with hid hand hand
  · rw [setLanes_apply,if_pos hand.2]
  · rw [setLanes_apply,if_neg fun hmem => hand ⟨hid,hmem⟩,hid]
  · exact absurd hand.1 hid
  · rfl

theorem sync_epilogue (clobbered : List ℕ) (id : ℕ) : (ctx.sync target clobbered f16).epilogue id =
      if id=target then ctx.epilogue id++resolveDependencies clobbered f16
      else ctx.epilogue id := by
  simp only [DependencyPassContext.sync,Function.update_apply]
  split_ifs with hid
  · rw [hid]
  · rfl

theorem extends_sync (target : ℕ) (clobbered : List ℕ) :
    Extends ctx (ctx.sync target clobbered f16) := by
  intro id lane hsync
  rw [sync_syncRegisterMap]
  split_ifs
  · nofun
  · exact hsync

theorem isLaneSet_clobberedLanes (h : Synced g ctx) (hlanes : IsLaneSet f16 lanes) (target : ℕ) :
    IsLaneSet f16 (ctx.clobberedLanes (g.execFile target) target lanes f16) :=
  hlanes.filter fun lane => by rw [g.execFile_paired target lane,h.paired target lane]

theorem clobberedLanes_resolves (hlanes : IsLaneSet f16 lanes) (target : ℕ) :
    Resolves (resolveDependencies (ctx.clobberedLanes (g.execFile target) target lanes f16) f16) f16
      fun w => 2*w∈ctx.clobberedLanes (g.execFile target) target lanes f16 := by
  refine resolveDependencies_resolves (fun lane hlane => ?_) f16
  obtain ⟨hmem,hexec,-⟩ := mem_clobberedLanes.mp hlane
  cases f16 with
  | false => exact g.execFile_halfBounded target lane hexec
  | true => exact hlanes.bounded rfl lane hmem

theorem Synced.sync (h : Synced g ctx) (hlanes : IsLaneSet f16 lanes) (target : ℕ) :
    Synced g (ctx.sync target (ctx.clobberedLanes (g.execFile target) target lanes f16) f16) := by
  have hset := isLaneSet_clobberedLanes h hlanes target
  refine ⟨fun id lane => ?_,fun id lane width hsync hexec => ?_⟩
  · simp only [sync_syncRegisterMap,hset.paired,h.paired id lane]
  · rw [sync_syncRegisterMap] at hsync
    rw [sync_epilogue]
    split_ifs at hsync with hand
    · obtain ⟨rfl,hmem⟩ := hand
      have hwidth : f16=width := Bool.not_inj
        (expectedType_injective ((mem_clobberedLanes.mp hmem).2.1.symm.trans hexec))
      obtain ⟨b,hb,hcovers⟩ :=
        (clobberedLanes_resolves hlanes id).covers ((hset.paired lane).mpr hmem)
      rw [if_pos rfl]
      exact ⟨b,mem_append_right _ hb,hwidth ▸ hcovers⟩
    · obtain ⟨b,hb,hcovers⟩ := h.covered id lane width hsync hexec
      refine ⟨b,?_,hcovers⟩
      split_ifs with hid
      · exact mem_append_left _ hb
      · exact hb

theorem sync_clobbers {lane : ℕ} (hlane : lane∈lanes)
    (hexec : g.execFile target lane = expectedType (!f16)) :
    (ctx.sync target (ctx.clobberedLanes (g.execFile target) target lanes f16) f16).syncRegisterMap
      target lane≠.unknown := by
  rw [sync_syncRegisterMap]
  split_ifs with hand
  · nofun
  · intro hunknown
    exact hand ⟨rfl,mem_clobberedLanes.mpr ⟨hlane,hexec,hunknown⟩⟩

end Synced

section Visit

variable {g : FlowGraph} {f16 : Bool} {ctx ctx' : DependencyPassContext}

/-- A call ends in a synchronised context in which `post` holds, and loses nothing. -/
def Completes (g : FlowGraph) (ctx : DependencyPassContext)
    (result : Except DependencyError DependencyPassContext)
    (post : DependencyPassContext → Prop) : Prop :=
  ∃ ctx', result = .ok ctx' ∧ Synced g ctx' ∧ Extends ctx ctx' ∧ post ctx'

def EdgeSettled (g : FlowGraph) (f16 : Bool) (lanes : List ℕ) (e : FlowEdge)
    (ctx : DependencyPassContext) : Prop :=
  (∀ lane∈lanes, g.execFile e.source lane = expectedType (!f16) →
    ctx.syncRegisterMap e.source lane≠.unknown) ∧
  Settled g ctx f16 e.source (lanesToSearch (g.execFile e.source) lanes)

theorem EdgeSettled.mono {lanes : List ℕ} {e : FlowEdge} (h : EdgeSettled g f16 lanes e ctx)
    (hext : Extends ctx ctx') : EdgeSettled g f16 lanes e ctx' :=
  ⟨fun lane hlane hexec => hext _ _ (h.1 lane hlane hexec),h.2.mono hext⟩

variable {block : ℕ}

theorem settled_of_pred_nil {lanes : List ℕ} (h : g.pred block=[]) :
    Settled g ctx f16 block lanes := by
  intro lane _ p hpath
  cases hpath with
  | found he | skip he => simp [h] at he

theorem visitEdges_completes (hg : g.IsDag) {lanes : List ℕ} (hlanes : IsLaneSet f16 lanes)
    {recurse : DependencyPassContext → ℕ → List ℕ → Except DependencyError DependencyPassContext}
    (hrecurse : ∀ ctx, ∀ e∈g.pred block, ∀ search, Synced g ctx → IsLaneSet f16 search →
      Completes g ctx (recurse ctx e.source search) fun ctx' => Settled g ctx' f16 e.source search)
    {es : List FlowEdge} (hes : ∀ e∈es, e∈g.pred block) (h : Synced g ctx) :
    Completes g ctx (visitEdges g f16 block lanes recurse es ctx)
      fun ctx' => ∀ e∈es, ¬ g.isAnchor block e → EdgeSettled g f16 lanes e ctx' := by
  induction es generalizing ctx with
  | nil => exact ⟨ctx,rfl,h,fun _ _ => id,by simp⟩
  | cons e es ih =>
    have he := hes e mem_cons_self
    by_cases hanchor : g.isAnchor block e ∧ es=[]
    · refine ⟨ctx,by rw [visitEdges,if_pos hanchor],h,fun _ _ => id,?_⟩
      rw [hanchor.2]
      intro e' he' hnot
      rw [mem_singleton.mp he'] at hnot
      exact absurd hanchor.1 hnot
    · set exec := g.execFile e.source with hexec
      set ctx₁ := ctx.sync e.source (ctx.clobberedLanes exec e.source lanes f16) f16 with hctx₁
      set search := lanesToSearch exec lanes with hsearch
      have h₁ : Synced g ctx₁ := h.sync hlanes e.source
      have hset : IsLaneSet f16 search :=
        hlanes.filter fun lane => by rw [hexec,g.execFile_paired e.source lane]
      have hup : Completes g ctx₁ (if search=[] ∨ g.pred e.source=[] then .ok ctx₁
          else recurse ctx₁ e.source search) fun ctx' => Settled g ctx' f16 e.source search := by
        split_ifs with hnone
        · refine ⟨ctx₁,rfl,h₁,fun _ _ => id,?_⟩
          rcases hnone with hnone | hnone
          · rw [hnone]
            exact fun lane hlane => nomatch hlane
          · exact settled_of_pred_nil hnone
        · exact hrecurse ctx₁ e he search h₁ hset
      obtain ⟨ctx₂,hresult,h₂,hext₂,hsettled⟩ := hup
      obtain ⟨ctx₃,hrest,h₃,hext₃,hall⟩ := ih (fun e' he' => hes e' (mem_cons_of_mem _ he')) h₂
      refine ⟨ctx₃,?_,h₃,(extends_sync e.source _).trans (hext₂.trans hext₃),?_⟩
      · rw [visitEdges,if_neg hanchor,hg.execRegisterMap he]
        simp only [← hexec,← hctx₁,← hsearch,hresult,Except.bind,hrest]
      · intro e' he' hnot
        rcases mem_cons.mp he' with rfl | he'
        · refine EdgeSettled.mono ⟨fun lane hlane hclobbers => ?_,hsettled⟩ hext₃
          exact hext₂ _ _ (sync_clobbers hlane hclobbers)
        · exact hall e' he' hnot

theorem settled_of_edges {lanes : List ℕ}
    (h : ∀ e∈g.pred block, ¬ g.isAnchor block e → EdgeSettled g f16 lanes e ctx) :
    Settled g ctx f16 block lanes := by
  intro lane hlane p hpath hexec
  cases hpath with
  | found he hnot _ => exact (h _ he hnot).1 lane hlane hexec
  | skip he hnot hunknown hpath =>
    exact (h _ he hnot).2 lane (by simp [lanesToSearch,hlane,hunknown]) p hpath hexec

/-- The recursion ends, and everything above the block is synchronised. -/
theorem insertBlockRegisterDependency_completes (hg : g.IsDag) {depth : ℕ} {lanes : List ℕ}
    (hdepth : rank g.IsPred g.ids.toFinset block < depth) (hlanes : IsLaneSet f16 lanes)
    (h : Synced g ctx) :
    Completes g ctx (insertBlockRegisterDependency g f16 depth ctx block lanes)
      fun ctx' => Settled g ctx' f16 block lanes := by
  induction depth generalizing ctx block lanes with
  | zero => exact absurd hdepth (Nat.not_lt_zero _)
  | succ depth ih =>
    have hrecurse : ∀ ctx, ∀ e∈g.pred block, ∀ search, Synced g ctx → IsLaneSet f16 search →
        Completes g ctx (insertBlockRegisterDependency g f16 depth ctx e.source search)
          fun ctx' => Settled g ctx' f16 e.source search := by
      intro ctx e he search hctx hsearch
      have hrank := rank_lt_rank hg.acyclic (mem_toFinset.mpr (hg.source_mem he))
        (⟨e,he,rfl⟩ : g.IsPred block e.source)
      exact ih (by omega) hsearch hctx
    obtain ⟨ctx',hresult,h',hext,hall⟩ := visitEdges_completes hg hlanes hrecurse (fun _ => id) h
    exact ⟨ctx',hresult,h',hext,settled_of_edges hall⟩

end Visit

section Fold

variable {g : FlowGraph} {ctx : DependencyPassContext}

/-- Calls one after the other keep what each of them has achieved. -/
theorem foldlM_completes {β : Type}
    {call : DependencyPassContext → β → Except DependencyError DependencyPassContext}
    {post : β → DependencyPassContext → Prop}
    (hmono : ∀ x ctx ctx', post x ctx → Extends ctx ctx' → post x ctx') {l : List β}
    (hcall : ∀ x∈l, ∀ ctx, Synced g ctx → Completes g ctx (call ctx x) (post x))
    (h : Synced g ctx) : Completes g ctx (l.foldlM call ctx) fun ctx' => ∀ x∈l, post x ctx' := by
  induction l generalizing ctx with
  | nil => exact ⟨ctx,rfl,h,fun _ _ => id,by simp⟩
  | cons x l ih =>
    obtain ⟨ctx₁,hx,h₁,hext₁,hpost⟩ := hcall x mem_cons_self ctx h
    obtain ⟨ctx₂,hl,h₂,hext₂,hall⟩ := ih (fun y hy => hcall y (mem_cons_of_mem _ hy)) h₁
    refine ⟨ctx₂,?_,h₂,hext₁.trans hext₂,?_⟩
    · rw [foldlM_cons,hx]
      exact hl
    · intro y hy
      rcases mem_cons.mp hy with rfl | hy
      · exact hmono _ _ _ hpost hext₂
      · exact hall y hy

theorem synced_initial : Synced g {} := ⟨fun _ _ => rfl,fun _ _ _ hsync => absurd rfl hsync⟩

theorem insertBlockDependencies_completes (hg : g.IsDag) {b : BasicBlock} (hb : b∈g.blocks)
    (h : Synced g ctx) :
    Completes g ctx (insertBlockDependencies g ctx b) fun ctx' => ∀ ref∈b.inputList,
      Settled g ctx' ref.reg.f16 b.id (getRegisterFileRange ref) := by
  refine foldlM_completes (fun _ _ _ hpost hext => hpost.mono hext) (fun ref _ ctx hctx => ?_) h
  refine insertBlockRegisterDependency_completes hg ?_ (isLaneSet_getRegisterFileRange ref) hctx
  have hcard : g.ids.toFinset.card=g.blocks.length := by
    rw [toFinset_card_of_nodup hg.nodup,FlowGraph.ids,length_map]
  exact hcard ▸ rank_lt_card hg.acyclic (mem_toFinset.mpr (mem_map_of_mem hb))

end Fold

/-- The pass repairs aliasing across blocks, whatever the input lists are. -/
theorem registerDependencyPass_repairs {g : FlowGraph} (hg : g.IsDag) :
    ∃ g', registerDependencyPass g = .ok g' ∧
      ∀ b∈g.blocks, ∀ ref∈b.inputList, ∀ lane∈getRegisterFileRange ref, ∀ p∈g.blocks,
        g.UpwardPath lane b.id p.id → lastWrite p.instructions lane = some (!ref.reg.f16) →
        ∃ p'∈g'.blocks, p'.id=p.id ∧ ((∃ i∈p'.epilogue, Covers i ref.reg.f16 lane) ∨
            RepairedInside p.instructions p'.instructions ref.reg.f16 lane) := by
  have hcall : ∀ b∈g.blocks.reverse, ∀ ctx, Synced g ctx →
      Completes g ctx (insertBlockDependencies g ctx b) fun ctx' => ∀ ref∈b.inputList,
        Settled g ctx' ref.reg.f16 b.id (getRegisterFileRange ref) := fun b hb ctx h =>
    insertBlockDependencies_completes hg (mem_reverse.mp hb) h
  obtain ⟨ctx,hctx,hsynced,-,hall⟩ := foldlM_completes
    (fun _ _ _ hpost hext ref href => (hpost ref href).mono hext) hcall synced_initial
  refine ⟨_,by rw [registerDependencyPass,hctx]; rfl,?_⟩
  intro b hb ref href lane hlane p hp hpath hwrite
  refine ⟨_,mem_map_of_mem hp,rfl,?_⟩
  have hexec : g.execFile p.id = execRegisterFile unknownFile p.instructions := by
    rw [FlowGraph.execFile,FlowGraph.execRegisterMap,FlowGraph.find_of_mem hg.nodup hp]
    rfl
  rcases (execRegisterFile_spec p.instructions).2 _ hwrite with hwidth | ⟨-,hrepaired⟩
  · rw [← hexec] at hwidth
    have hsync := hall b (mem_reverse.mpr hb) ref href lane hlane p.id hpath hwidth
    obtain ⟨i,hi,hcovers⟩ := hsynced.covered p.id lane ref.reg.f16 hsync hwidth
    exact .inl ⟨i,mem_append_right _ hi,hcovers⟩
  · rw [Bool.not_not] at hrepaired
    exact .inr hrepaired

section Annotated

variable {g : FlowGraph}

theorem ids_annotateBlocks : (annotateBlocks g).ids=g.ids := by
  rw [annotateBlocks,FlowGraph.ids,map_map]
  rfl

theorem pred_annotateBlocks (id : ℕ) : (annotateBlocks g).pred id = g.pred id := by
  have hfind : (annotateBlocks g).find id = (g.find id).map annotateBlockIo := find?_map ..
  rw [FlowGraph.pred,FlowGraph.pred,hfind]
  cases g.find id <;> rfl

theorem FlowGraph.IsDag.annotateBlocks (hg : g.IsDag) : (annotateBlocks g).IsDag := by
  refine ⟨by rw [ids_annotateBlocks]; exact hg.nodup,fun b hb e he => ?_,?_⟩
  · obtain ⟨b',hb',rfl⟩ := mem_map.mp hb
    rw [ids_annotateBlocks]
    exact hg.closed b' hb' e he
  · have hpred : (FragmentProgram.annotateBlocks g).IsPred=g.IsPred := by
      funext block source
      rw [FlowGraph.IsPred,pred_annotateBlocks,FlowGraph.IsPred]
    exact hpred ▸ hg.acyclic

end Annotated

/-- After both passes, aliasing is repaired on every upward path from an input of a block. -/
theorem annotated_aliasing_repaired {g : FlowGraph} (hg : g.IsDag) :
    ∃ g', registerDependencyPass (annotateBlocks g) = .ok g' ∧
      ∀ b∈(annotateBlocks g).blocks, ∀ ref∈b.inputList, ∀ lane∈getRegisterFileRange ref,
        ∀ p∈(annotateBlocks g).blocks, (annotateBlocks g).UpwardPath lane b.id p.id →
        lastWrite p.instructions lane = some (!ref.reg.f16) →
        ∃ p'∈g'.blocks, p'.id=p.id ∧ ((∃ i∈p'.epilogue, Covers i ref.reg.f16 lane) ∨
            RepairedInside p.instructions p'.instructions ref.reg.f16 lane) :=
  registerDependencyPass_repairs hg.annotateBlocks

def writerBlock : BasicBlock where
  instructions := [{dsts := [⟨⟨0,false⟩,1⟩]}]
  succ := [⟨.endIf,0,1⟩]

def readerBlock : BasicBlock where
  id := 1
  instructions := [{srcs := [⟨⟨0,true⟩,1⟩]}]
  pred := [⟨.endIf,0,1⟩]

def writeThenRead : FlowGraph := ⟨[writerBlock,readerBlock]⟩

theorem writeThenRead_isDag : writeThenRead.IsDag := by
  refine ⟨by decide,by decide,acyclic_of_lt ?_⟩
  rintro a b ⟨e,he,rfl⟩
  rw [FlowGraph.pred] at he
  cases hfind : writeThenRead.find a with
  | none => simp [hfind] at he
  | some block =>
    rw [hfind] at he
    have hid : block.id=a := by simpa using find?_some hfind
    exact hid ▸ (by decide : ∀ b∈writeThenRead.blocks, ∀ e∈b.pred, e.source < b.id) block
      (mem_of_find?_eq_some hfind) e he

theorem annotated_aliasing_repaired_writeThenRead :
    ∃ g', registerDependencyPass (annotateBlocks writeThenRead) = .ok g' ∧
      ∃ p'∈g'.blocks, p'.id=0 ∧ ((∃ i∈p'.epilogue, Covers i true 0) ∨
        RepairedInside writerBlock.instructions p'.instructions true 0) := by
  obtain ⟨g',hpass,hrepaired⟩ := annotated_aliasing_repaired writeThenRead_isDag
  have hpath : (annotateBlocks writeThenRead).UpwardPath 0 1 0 :=
    .found (e := ⟨.endIf,0,1⟩) (by decide) (by decide) (by decide)
  have hsplit : readerBlock.instructions = []++{srcs := [⟨⟨0,true⟩,1⟩]}::[] := rfl
  obtain ⟨ref,href,hf16,hlane⟩ := mem_inputList hsplit
    (by decide : (true,0)∈Instruction.reads _) (by decide) nofun
  have hresult := hrepaired _ (mem_cons_of_mem _ mem_cons_self) ref href 0 hlane _
    mem_cons_self hpath (by rw [hf16]; decide)
  exact ⟨g',hpass,hf16 ▸ hresult⟩

end PS3Native.FragmentProgram
