import PS3Native.DeconstructFragmentProgram
import PS3Native.FragmentWiring

/-!
# How blocks get linked

The edges that `safe_insert_block` and the end of a block insert, read off the net that the flow
graph represents: where an end block at a given address lands, and what a block exits to.
-/
namespace PS3Native.FragmentProgram

open StructuredCode List

/-- Entering the end block at `stop` links to `landing`: to the merge block of a branch whose
`ELSE` part starts at `stop`, or else to `stop` itself. -/
def Lands (n : Net) (stop landing : ℕ) : Prop :=
  (∃ front merge, n.pred stop = [front] ∧ front.type=.elseBranch ∧
    (n.succ front.source).find? (·.type = .endIf) = some merge ∧ merge.target=landing ∧
    landing≠stop) ∨
  (landing=stop ∧ ∃ front more, n.pred stop = front::more ∧ front.type≠.elseBranch)

/-- Leaving the block links it to `landing` with an edge of type `exit`, or not at all. -/
def ExitsTo (n : Net) (cur : ℕ) (exit : Option EdgeType) (landing : ℕ) : Prop :=
  match exit with
  | none => ∀ e∈n.pred cur, e.type.isMerge
  | some leave => ∃ front merge,
    (n.pred cur).find? (fun x => x.type≠.endIf ∧ x.type≠.endLoop) = some front ∧
    ((leave=.endIf ∧ (front.type=.ifBranch ∨ front.type=.elseBranch)) ∨
      (leave=.endLoop ∧ front.type=.loop)) ∧
    (n.succ front.source).find? (·.type=leave) = some merge ∧ merge.target=landing

variable {g : FlowGraph} {n : Net} {landing stop id : ℕ}

section

variable (h : Represents g n)

include h

theorem Represents.mergeEdge (parent : ℕ) (type : EdgeType) :
    g.mergeEdge parent type = (n.succ parent).find? (·.type=type) := by
  rw [FlowGraph.mergeEdge,h.graph_succ]

theorem Represents.frontEdge (bb : ℕ) :
    g.frontEdge bb = (n.pred bb).find? fun x => x.type≠.endIf ∧ x.type≠.endLoop := by
  rw [FlowGraph.frontEdge,h.graph_pred]

theorem Represents.target_mem {parent : ℕ} {p : FlowEdge → Bool} {e : FlowEdge}
    (he : (n.succ parent).find? p = some e) : e.target∈n.ids :=
  (h.closed e (mem_filter.mp (mem_of_find?_eq_some he)).1).2

theorem Lands.mem (hl : Lands n stop landing) : landing∈n.ids ∧ stop∈n.ids := by
  have hstop : ∀ {e}, e∈n.pred stop → stop∈n.ids := by
    intro e he
    obtain ⟨hmem,htarget⟩ := mem_filter.mp he
    rw [← of_decide_eq_true htarget]
    exact (h.closed e hmem).2
  rcases hl with ⟨front,merge,hpred,-,hmerge,rfl,-⟩ | ⟨rfl,front,more,hpred,-⟩
  · exact ⟨h.target_mem hmerge,hstop (hpred ▸ mem_cons_self)⟩
  · have := hstop (hpred ▸ mem_cons_self)
    exact ⟨this,this⟩

theorem Represents.safeInsertBlock_stop (parent : ℕ) {type : EdgeType} (hl : Lands n stop landing)
    (htype : type.isMerge) :
    g.safeInsertBlock parent stop type = .ok (g.insertEdge parent landing type) := by
  have hmerge : type=.endIf ∨ type=.endLoop := of_decide_eq_true htype
  rw [FlowGraph.safeInsertBlock,if_pos (h.ids ▸ (hl.mem h).2),FlowGraph.isOfType,h.graph_pred]
  rcases hl with ⟨front,merge,hpred,hfront,hfind,rfl,-⟩ | ⟨rfl,front,more,hpred,hfront⟩
  · rw [if_pos ⟨by simp [hpred,hfront],hmerge⟩,hpred]
    simp only [head?_cons,Option.bind_some,h.mergeEdge,hfind]
  · rw [if_neg (by simp [hpred,hfront])]

theorem Represents.leave {cur : ℕ} {exit : Option EdgeType} (hcur : cur∈n.ids)
    (hexit : ExitsTo n cur exit landing) :
    ∃ g', g.leave cur = .ok g' ∧
      Represents g' {n with edges := n.edges++exit.toList.map (⟨·,cur,landing⟩)} := by
  cases exit with
  | none =>
    refine ⟨g,?_,by simpa using h⟩
    have hnone : g.frontEdge cur=none := by
      rw [h.frontEdge]
      refine find?_eq_none.mpr fun e he => ?_
      have hmerge : e.type=.endIf ∨ e.type=.endLoop := of_decide_eq_true (hexit e he)
      simp only [decide_eq_true_eq,not_and,ne_eq,not_not]
      exact hmerge.resolve_left
    rw [FlowGraph.leave,hnone]
  | some type =>
    obtain ⟨front,merge,hfront,htype,hmerge,rfl⟩ := hexit
    refine ⟨g.insertEdge cur merge.target type,?_,h.insertEdge type hcur (h.target_mem hmerge)⟩
    rw [FlowGraph.leave,h.frontEdge,hfront]
    rcases htype with ⟨rfl,hfront | hfront⟩ | ⟨rfl,hfront⟩
    all_goals simp only [hfront,h.mergeEdge,hmerge]

end

theorem Lands.append {n' : Net} {new : List FlowEdge} (h : Lands n stop landing)
    (hedges : n'.edges = n.edges++new) (hnew : ∀ e∈new, e.target=stop → landing=stop) :
    Lands n' stop landing := by
  have hpred : n'.pred stop = n.pred stop++new.filter (·.target=stop) := by
    rw [Net.pred,hedges,filter_append,Net.pred]
  rcases h with ⟨front,merge,hfront,htype,hmerge,hland,hne⟩ | ⟨rfl,front,more,hfront,htype⟩
  · refine .inl ⟨front,merge,?_,htype,?_,hland,hne⟩
    · have hnil : new.filter (·.target=stop)=[] := filter_eq_nil_iff.mpr fun e he htarget =>
          hne (hnew e he (of_decide_eq_true htarget))
      rw [hpred,hfront,hnil,append_nil]
    · rw [Net.succ,hedges,filter_append,find?_append]
      rw [Net.succ] at hmerge
      rw [hmerge,Option.some_or]
  · exact .inr ⟨rfl,front,_,by rw [hpred,hfront,cons_append],htype⟩

theorem ExitsTo.append {n' : Net} {cur : ℕ} {leave : EdgeType} {new : List FlowEdge}
    (h : ExitsTo n cur (some leave) landing) (hedges : n'.edges = n.edges++new) :
    ExitsTo n' cur (some leave) landing := by
  obtain ⟨front,merge,hfront,htype,hmerge,hland⟩ := h
  refine ⟨front,merge,?_,htype,?_,hland⟩
  · rw [Net.pred,hedges,filter_append,find?_append]
    rw [Net.pred] at hfront
    rw [hfront,Option.some_or]
  · rw [Net.succ,hedges,filter_append,find?_append]
    rw [Net.succ] at hmerge
    rw [hmerge,Option.some_or]

theorem Represents.emit (h : Represents g n) {bb : ℕ} (i : Instruction) (hbb : bb∈n.ids) :
    Represents (g.modify bb (·.pushInstruction i)) (n.emit bb i) := by
  refine h.modify_instructions (fun b => rfl) ?_ ?_ ?_
  · intro p hp
    rcases mem_append.mp hp with hp | hp
    · exact h.placed p hp
    · rw [mem_singleton.mp hp]
      exact hbb
  · rintro b hb rfl
    simp [BasicBlock.pushInstruction,Net.instructions,h.instructions b hb]
  · intro id hid
    simp [Net.instructions,Ne.symm hid]

theorem Represents.invertLast {bb : ℕ} {i : Instruction} (h : Represents g (n.emit bb i)) :
    Represents (g.modify bb (·.invertLast))
      (n.emit bb {i with bytecode := i.bytecode.invertConditionalExecutionMask}) := by
  refine h.modify_instructions (fun b => rfl) ?_ ?_ ?_
  · intro p hp
    rcases mem_append.mp hp with hp | hp
    · exact h.placed p (mem_append_left _ hp)
    · rw [mem_singleton.mp hp]
      exact h.placed (bb,i) (mem_append_right _ mem_cons_self)
  · rintro b hb rfl
    have hb := h.instructions b hb
    simp only [Net.instructions,Net.emit,filter_append,map_append] at hb
    simp [BasicBlock.invertLast,Net.instructions,hb]
  · intro id hid
    simp [Net.instructions,Net.emit,Ne.symm hid]

theorem Represents.insertFresh (h : Represents g n) (cur : ℕ) (type : EdgeType) (hcur : cur∈n.ids)
    (hid : id∉n.ids) :
    ∃ g', g.safeInsertBlock cur id type = .ok g' ∧
      Represents g' ⟨n.ids++[id],n.edges++[⟨type,cur,id⟩],n.emitted⟩ :=
  ⟨_,by rw [FlowGraph.safeInsertBlock,if_neg (h.ids ▸ hid)],h.push type hcur hid⟩

/-- The end block of a fork exists already, or it is started with the given id. -/
def EndBlock (n : Net) (stop merge : ℕ) (new : List ℕ) : Prop :=
  (Lands n stop merge ∧ new=[]) ∨ (stop∉n.ids ∧ merge=stop ∧ new = [stop])

theorem EndBlock.add {n' : Net} {merge cur : ℕ} {new : List ℕ} {type : EdgeType}
    (h : EndBlock n stop merge new) (hne : id≠stop) (hids : n'.ids = n.ids++[id])
    (hedges : n'.edges = n.edges++[⟨type,cur,id⟩]) : EndBlock n' stop merge new := by
  rcases h with ⟨hlands,rfl⟩ | ⟨hstop,hmerge,hnew⟩
  · refine .inl ⟨hlands.append hedges fun e he htarget => ?_,rfl⟩
    rw [mem_singleton.mp he] at htarget
    exact absurd htarget hne
  · refine .inr ⟨fun hmem => ?_,hmerge,hnew⟩
    rw [hids] at hmem
    rcases mem_append.mp hmem with hmem | hmem
    · exact hstop hmem
    · exact hne (mem_singleton.mp hmem).symm

theorem Represents.insertEnd (h : Represents g n) (cur : ℕ) {merge : ℕ} {new : List ℕ}
    (leave : EdgeType) (hcur : cur∈n.ids) (hleave : leave.isMerge)
    (hstop : EndBlock n stop merge new) :
    ∃ g', g.safeInsertBlock cur stop leave = .ok g' ∧
      Represents g' ⟨n.ids++new,n.edges++[⟨leave,cur,merge⟩],n.emitted⟩ := by
  rcases hstop with ⟨hlands,rfl⟩ | ⟨hstop,rfl,rfl⟩
  · refine ⟨_,h.safeInsertBlock_stop cur hlands hleave,?_⟩
    rw [append_nil]
    exact h.insertEdge leave hcur (hlands.mem h).1
  · exact h.insertFresh cur leave hcur hstop

def IsFork (enter leave : EdgeType) : Prop :=
  (enter=.ifBranch ∧ leave=.endIf) ∨ (enter=.loop ∧ leave=.endLoop)

structure Opened (n n' : Net) (enter leave : EdgeType) (a cur : ℕ) (yes no : Code) (merge : ℕ) :
    Prop where
  fork : IsFork enter leave
  no_done : enter=.loop → no=.done
  edges : n'.edges = n.edges++forkEdges enter leave a cur yes no merge
  sources : ∀ e∈n.edges, e.source < cur
  cur_le : cur ≤ a
  enter_fresh : ∀ e∈n.edges, e.target≠a+1
  else_fresh : no≠.done → ∀ e∈n.edges, e.target≠a+1+yes.size
  merge_gt : a+1+yes.size < merge ∨ (no=.done ∧ a+1 < merge)

namespace Opened

variable {n' : Net} {enter leave : EdgeType} {a cur merge : ℕ} {yes no : Code}

section

variable (h : Opened n n' enter leave a cur yes no merge)

include h

theorem succ_cur : (n'.succ cur).find? (·.type=leave) = some ⟨leave,cur,merge⟩ := by
  have hnil : n.edges.filter (·.source=cur)=[] := filter_eq_nil_iff.mpr fun e he hsource => by
      have := h.sources e he
      have := of_decide_eq_true hsource
      omega
  have hne : enter≠leave ∧ leave≠.elseBranch := by
    rcases h.fork with ⟨rfl,rfl⟩ | ⟨rfl,rfl⟩ <;> decide
  rw [Net.succ,h.edges,filter_append,hnil,forkEdges]
  by_cases hboth : yes=.done ∨ no=.done <;> simp [hboth,hne,Ne.symm hne.2]

theorem exitsTo_enter : ExitsTo n' (a+1) (some leave) merge := by
  have hnil : n.edges.filter (·.target = a+1)=[] := filter_eq_nil_iff.mpr fun e he htarget =>
      h.enter_fresh e he (of_decide_eq_true htarget)
  refine ⟨⟨enter,cur,a+1⟩,_,?_,?_,h.succ_cur,rfl⟩
  · rw [Net.pred,h.edges,filter_append,hnil,forkEdges]
    rcases h.fork with ⟨rfl,rfl⟩ | ⟨rfl,rfl⟩ <;> simp
  · rcases h.fork with ⟨rfl,rfl⟩ | ⟨rfl,rfl⟩ <;> simp

theorem pred_else (hyes : yes≠.done) (hno : no≠.done) :
    n'.pred (a+1+yes.size) = [⟨.elseBranch,cur,a+1+yes.size⟩] := by
  have hnil : n.edges.filter (·.target = a+1+yes.size)=[] :=
    filter_eq_nil_iff.mpr fun e he htarget =>
      h.else_fresh hno e he (of_decide_eq_true htarget)
  have hpos := Code.size_pos hyes
  have hmerge : merge≠a+1+yes.size := (h.merge_gt.resolve_right fun hgt => hno hgt.1).ne'
  rw [Net.pred,h.edges,filter_append,hnil,forkEdges]
  simp [hyes,hno,hmerge,hpos.ne']

theorem leave_eq (hno : no≠.done) : leave=.endIf := by
  rcases h.fork with ⟨-,rfl⟩ | ⟨rfl,-⟩
  · rfl
  · exact absurd (h.no_done rfl) hno

theorem exitsTo_else (hyes : yes≠.done) (hno : no≠.done) :
    ExitsTo n' (a+1+yes.size) (some leave) merge := by
  refine ⟨⟨.elseBranch,cur,a+1+yes.size⟩,_,?_,.inl ⟨h.leave_eq hno,.inr rfl⟩, h.succ_cur,rfl⟩
  rw [h.pred_else hyes hno]
  simp

theorem lands_else (hyes : yes≠.done) (hno : no≠.done) : Lands n' (a+1+yes.size) merge := by
  refine .inl ⟨_,⟨leave,cur,merge⟩,h.pred_else hyes hno,rfl,?_,rfl,?_⟩
  · rw [← h.leave_eq hno]
    exact h.succ_cur
  · exact (h.merge_gt.resolve_right fun hgt => hno hgt.1).ne'

/-- The block after the fork, whether it exists already or is started by the fork. -/
theorem lands_stop (hpos : 0 < yes.size+no.size)
    (hstop : Lands n (a+1+yes.size+no.size) merge ∨ (merge = a+1+yes.size+no.size ∧
        ∀ e∈n.edges, e.target≠a+1+yes.size+no.size)) : Lands n' (a+1+yes.size+no.size) merge := by
  rcases hstop with hstop | ⟨hmerge,hfresh⟩
  · refine hstop.append h.edges fun e he htarget => ?_
    rcases mem_forkEdges.mp he with rfl | ⟨hyes,hno,rfl⟩ | rfl
    · simp only at htarget
      omega
    · have := Code.size_pos hno
      simp only at htarget
      omega
    · exact htarget
  · have hnil : n.edges.filter (·.target = a+1+yes.size+no.size)=[] :=
      filter_eq_nil_iff.mpr fun e he htarget => hfresh e he (of_decide_eq_true htarget)
    refine .inr ⟨hmerge,⟨leave,cur,merge⟩,[],?_,?_⟩
    · rw [Net.pred,h.edges,filter_append,hnil,forkEdges]
      have henter : a+1≠a+1+yes.size+no.size := by omega
      have helse : yes≠.done → no≠.done → a+1+yes.size≠a+1+yes.size+no.size := by
        intro _ hno
        have := Code.size_pos hno
        omega
      by_cases hyes : yes=.done <;> by_cases hno : no=.done <;>
        simp_all
    · rcases h.fork with ⟨-,rfl⟩ | ⟨-,rfl⟩ <;> exact EdgeType.noConfusion

end

end Opened

end PS3Native.FragmentProgram
