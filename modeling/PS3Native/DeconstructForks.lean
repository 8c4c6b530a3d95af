import PS3Native.DeconstructWalk

/-!
# How the walk passes a fork

The head of a branch or loop starts the blocks of its parts and of what follows. The walk then
passes the parts one after the other and stands in the block after the fork.
-/
namespace PS3Native.FragmentProgram

open StructuredCode DeconstructState List

section Walk

variable {data : List Quad} {s t : DeconstructState} {n n' : Net} {a cur landing : ℕ}
  {c rest : Code} {exit : Option EdgeType} {enclosed last : Bool}

structure Forks (t : DeconstructState) (n : Net) (i : Instruction) (t' : DeconstructState) (n' : Net)
    (enter leave : EdgeType) (yes no : Code) (merge : ℕ) (new : List ℕ) : Prop where
  represents : Represents t'.graph n'
  pc : t'.pc = t.pc+1
  bb : t'.bb = t.pc+1
  ended : t'.ended=t.ended
  pending : ∀ id, Pending t' id ↔ Pending t id ∨ id = t.pc+1+yes.size+no.size ∨
    (yes≠.done ∧ no≠.done ∧ id = t.pc+1+yes.size)
  ids : n'.ids = n.ids++((t.pc+1) :: (if yes=.done ∨ no=.done then [] else [t.pc+1+yes.size])++new)
  edges : n'.edges = n.edges++forkEdges enter leave t.pc t.bb yes no merge
  emitted : n'.emitted = n.emitted++[(t.bb,i)] ∨ n'.emitted = n.emitted ++
    [(t.bb,{i with bytecode := i.bytecode.invertConditionalExecutionMask})]

theorem execLoop_forks {t : DeconstructState} {inst : Quad} {i : Instruction} (body : Code)
    {merge : ℕ} {new : List ℕ} (h : Represents t.graph (n.emit t.bb i)) (hcur : t.bb∈n.ids)
    (hpos : 0 < body.size) (hend : inst.endAddr = t.pc+1+body.size)
    (hfresh : t.pc+1∉n.ids) (hstop : EndBlock n (t.pc+1+body.size) merge new) :
    ∃ t' n', t.execLoop inst = .ok t' ∧ Forks t n i t' n' .loop .endLoop body .done merge new := by
  obtain ⟨g₁,hg₁,h₁⟩ := h.insertFresh t.bb .loop hcur hfresh
  obtain ⟨g₂,hg₂,h₂⟩ := h₁.insertEnd t.bb .endLoop (mem_append_left _ hcur) rfl
    (hstop.add (by omega) rfl rfl)
  refine ⟨{ t with
    graph := g₂, bb := t.pc+1, endBlocks := t.endBlocks++[inst.endAddr], pc := t.pc+1 },_,?_,
    h₂,rfl,rfl,rfl,fun id => ?_,?_,?_,.inl rfl⟩
  · rw [← hend] at hg₂
    rw [DeconstructState.execLoop,if_neg (by omega)]
    simp only [bind,Except.bind,hg₁,hg₂]
  · simp only [Pending,mem_append,mem_singleton,hend,Code.size]
    tauto
  · simp [Net.emit]
  · simp [Net.emit,forkEdges]

theorem execIfe_forks {t : DeconstructState} {inst : Quad} {i : Instruction} (yes no : Code)
    {merge : ℕ} {new : List ℕ} (h : Represents t.graph (n.emit t.bb i)) (hcur : t.bb∈n.ids)
    (hpos : 0 < yes.size+no.size) (helse : inst.elseAddr = t.pc+1+yes.size)
    (hend : inst.endAddr = t.pc+1+yes.size+no.size) (hfresh : t.pc+1∉n.ids)
    (hfresh' : no≠.done → t.pc+1+yes.size∉n.ids)
    (hstop : EndBlock n (t.pc+1+yes.size+no.size) merge new) :
    ∃ t' n', t.execIfe inst = .ok t' ∧ Forks t n i t' n' .ifBranch .endIf yes no merge new := by
  obtain ⟨g₁,hg₁,h₁⟩ := h.insertFresh t.bb .ifBranch hcur hfresh
  have hcur₁ := mem_append_left [t.pc+1] hcur
  by_cases hyes : yes=.done
  · subst hyes
    simp only [Code.size,Nat.add_zero,Nat.zero_add] at *
    obtain ⟨g₂,hg₂,h₂⟩ := (Represents.invertLast (n := ⟨_,_,_⟩) h₁).insertEnd t.bb .endIf hcur₁
      rfl (hstop.add (by omega) rfl rfl)
    refine ⟨{ t with
      graph := g₂, bb := t.pc+1, endBlocks := t.endBlocks++[inst.endAddr], pc := t.pc+1 },_,
      ?_,h₂,rfl,rfl,rfl,fun id => ?_,?_,?_,.inr rfl⟩
    · rw [← hend] at hg₂
      rw [DeconstructState.execIfe,if_neg (by omega)]
      simp only [bind,Except.bind,hg₁,hg₂,helse,if_true]
    · simp [Pending,hend,Code.size]
      tauto
    · simp [Net.emit]
    · simp [Net.emit,forkEdges]
  · have hposYes := Code.size_pos hyes
    by_cases hno : no=.done
    · subst hno
      simp only [Code.size,Nat.add_zero] at *
      obtain ⟨g₂,hg₂,h₂⟩ := h₁.insertEnd t.bb .endIf hcur₁ rfl (hstop.add (by omega) rfl rfl)
      refine ⟨{ t with
        graph := g₂, bb := t.pc+1, endBlocks := t.endBlocks++[inst.endAddr], pc := t.pc+1 },
        _,?_,h₂,rfl,rfl,rfl,fun id => ?_,?_,?_,.inl rfl⟩
      · rw [← hend] at hg₂
        rw [DeconstructState.execIfe,if_neg (by omega)]
        simp only [bind,Except.bind,hg₁,hg₂]
        rw [if_neg (by omega),if_neg (by omega)]
      · simp [Pending,hend,Code.size]
        tauto
      · simp [Net.emit]
      · simp [Net.emit,forkEdges]
    · have hposNo := Code.size_pos hno
      have helseFresh : t.pc+1+yes.size∉(n.emit t.bb i).ids++[t.pc+1] := by
        simpa [Net.emit,hposYes.ne'] using hfresh' hno
      obtain ⟨g₂,hg₂,h₂⟩ := h₁.insertFresh t.bb .elseBranch hcur₁ helseFresh
      have hstop₁ : EndBlock ⟨n.ids++[t.pc+1],n.edges++[⟨.ifBranch,t.bb,t.pc+1⟩],
          n.emitted⟩ (t.pc+1+yes.size+no.size) merge new := hstop.add (by omega) rfl rfl
      obtain ⟨g₃,hg₃,h₃⟩ := h₂.insertEnd t.bb .endIf (mem_append_left _ hcur₁) rfl
        (hstop₁.add (by omega) rfl rfl)
      refine ⟨{ t with
        graph := g₃, bb := t.pc+1, endBlocks := t.endBlocks++[inst.endAddr],
        elseBlocks := t.elseBlocks++[inst.elseAddr], pc := t.pc+1 },
        _,?_,h₃,rfl,rfl,rfl,fun id => ?_,?_,?_,.inl rfl⟩
      · rw [← hend] at hg₃
        rw [← helse] at hg₂
        rw [DeconstructState.execIfe,if_neg (by omega)]
        simp only [bind,Except.bind,hg₁,hg₂,hg₃]
        rw [if_neg (by omega),if_pos (by omega)]
      · simp [Pending,hend,helse,hyes,hno]
        tauto
      · simp [Net.emit,hyes,hno]
      · simp [Net.emit,forkEdges,hyes,hno]

def openedBlocks (a : ℕ) (yes no : Code) (new : List ℕ) : List ℕ :=
  (a+1)::(if yes=.done ∨ no=.done then [] else [a+1+yes.size])++new

def bodyWires (leave : EdgeType) (a : ℕ) (yes no : Code) (merge : ℕ) (last : Bool) : List FlowEdge :=
  (if yes=.done then [] else
    wire (a+1) yes (a+1) (some leave) merge (last && no = .done)) ++
  (if no=.done then [] else
    wire (a+1+yes.size) no (a+1+yes.size) (some leave) merge last)

theorem bodyWires_range {leave : EdgeType} {yes no : Code} {merge : ℕ} {e : FlowEdge}
    (he : e∈bodyWires leave a yes no merge last) (hleave : leave.isMerge) (hyes : yes.Filled)
    (hno : no.Filled) :
    (a < e.source ∧ e.source < a+1+yes.size+no.size) ∧
      ((a < e.target ∧ e.target < a+1+yes.size+no.size) ∨ (e.target=merge ∧ e.type.isMerge)) := by
  rcases mem_append.mp he with he | he
  · by_cases hdone : yes=.done
    · simp [hdone] at he
    · rw [if_neg hdone] at he
      have hpos := Code.size_pos hdone
      have hsource := wire_source he
      refine ⟨by omega,(wire_target he hleave hyes).imp_left fun h => by omega⟩
  · by_cases hdone : no=.done
    · simp [hdone] at he
    · rw [if_neg hdone] at he
      have hpos := Code.size_pos hdone
      have hsource := wire_source he
      refine ⟨by omega,(wire_target he hleave hno).imp_left fun h => by omega⟩

/-- The walk stands in the first block after the head of a fork at `a`, which has a non-empty part
and ends at `stop`. -/
structure StandsInFork (s : DeconstructState) (n : Net) (t : DeconstructState) (n' : Net)
    (enter leave : EdgeType) (a cur : ℕ) (yes no : Code) (stop merge : ℕ) (new : List ℕ) :
    Prop where
  opened : Opened n n' enter leave a cur yes no merge
  ids : n'.ids = n.ids++openedBlocks a yes no new
  represents : Represents t.graph n'
  running : t.ended=false
  pc : t.pc = a+1
  bb : t.bb = a+1
  pending_stop : Pending t stop
  pending_else : yes≠.done → no≠.done → Pending t (a+1+yes.size)
  pending : ∀ i, Pending t i → i∈n'.ids
  kept : ∀ i, Pending s i → Pending t i
  lands : Lands n' stop merge
  stop_le : stop ≤ merge
  stop_eq : stop = a+1+yes.size+no.size
  filled : 0 < yes.size+no.size ∧ yes.Filled ∧ no.Filled
  new_eq : ∀ i∈new, i=stop
  gap : ∀ i∈n.ids, i ≤ a ∨ stop ≤ i

namespace StandsInFork

variable {enter leave : EdgeType} {yes no : Code} {stop merge : ℕ} {new : List ℕ}

section

variable (h : StandsInFork s n t n' enter leave a cur yes no stop merge new)

include h

theorem gap_part {lo hi : ℕ} (hlo : a+1 ≤ lo) (hhi : hi ≤ stop)
    (helse : yes=.done ∨ no=.done ∨ a+1+yes.size ≤ lo ∨ hi ≤ a+1+yes.size) :
    ∀ i∈n'.ids, i ≤ lo ∨ hi ≤ i := by
  intro i hi'
  rw [h.ids,openedBlocks] at hi'
  by_cases hboth : yes=.done ∨ no=.done
  · simp only [hboth,if_true,mem_append,mem_cons,cons_append, nil_append] at hi'
    rcases hi' with hi' | rfl | hi'
    · have := h.gap i hi'
      omega
    · omega
    · have := h.new_eq i hi'
      omega
  · simp only [hboth,if_false,mem_append,mem_cons,cons_append, nil_append] at hi'
    simp only [not_or] at hboth
    simp only [hboth,false_or] at helse
    rcases hi' with hi' | rfl | rfl | hi'
    · have := h.gap i hi'
      omega
    · omega
    · omega
    · have := h.new_eq i hi'
      omega

theorem source_le : ∀ e∈n'.edges, e.source ≤ a := by
  intro e he
  rw [h.opened.edges] at he
  have hcur := h.opened.cur_le
  rcases mem_append.mp he with he | he
  · have := h.opened.sources e he
    omega
  · have := forkEdges_source he
    omega

theorem stands_first {stop' : ℕ} (body : Code) (hbody : a+1+body.size=stop')
    (hstop' : stop' ≤ stop) (helse : yes=.done ∨ no=.done ∨ stop' ≤ a+1+yes.size)
    (hpending : Pending t stop') (hlands : Lands n' stop' merge) :
    Stands t n' (a+1) body (a+1) (some leave) merge true := by
  refine ⟨h.represents,h.pc,h.running,h.bb,?_,le_rfl,?_,h.pending,fun e he => ?_,
    .inl ⟨rfl,hbody ▸ hpending,hbody ▸ hlands⟩,by have := h.stop_le; omega,
    h.opened.exitsTo_enter⟩
  · simp [h.ids,openedBlocks]
  · rw [hbody]
    exact h.gap_part le_rfl hstop' (helse.imp_right (Or.imp_right Or.inr))
  · have := h.source_le e he
    omega

theorem stands_else (hyes : yes≠.done) (hno : no≠.done) {t' : DeconstructState} {m : Net}
    {places : List (ℕ × ℕ)} {turns : ℕ} {lastYes : Bool}
    (hran : Ran data t n' t' m (startedBlocks (a+1) yes true)
      (wire (a+1) yes (a+1) (some leave) merge lastYes) places turns)
    (hended : t'.ended=false) (hpc : t'.pc = a+1+yes.size ∧ t'.bb = a+1+yes.size) :
    Stands t' m (a+1+yes.size) no (a+1+yes.size) (some leave) merge true := by
  have hstop := h.stop_eq
  have hpos := Code.size_pos hyes
  have hmem : a+1+yes.size∈m.ids := by
    rw [hran.ids,h.ids,openedBlocks]
    simp [hyes,hno]
  refine hran.stands hended hpc hmem (fun i hi => ?_) (fun e he => ?_)
    (.inl ⟨rfl,?_,?_⟩) (hstop ▸ h.stop_le) ((h.opened.exitsTo_else hyes hno).append hran.edges)
  · rcases mem_append.mp hi with hi | hi
    · exact h.gap_part (by omega) hstop.ge (.inr (.inr (.inl le_rfl))) i hi
    · have := startedBlocks_range hi
      omega
  · rcases mem_append.mp he with he | he
    · have := h.source_le e he
      omega
    · have := wire_source he
      omega
  · rw [← hstop]
    exact hran.kept _ h.pending_stop
  · rw [← hstop]
    refine h.lands.append hran.edges fun e he htarget => ?_
    have hmerge : leave.isMerge := by
      rcases h.opened.fork with ⟨-,rfl⟩ | ⟨-,rfl⟩ <;> rfl
    rcases wire_target he hmerge h.filled.2.1 with hrange | ⟨hland,-⟩
    · omega
    · exact hland.symm.trans htarget

theorem passes_bodies {last' : Bool}
    (ihyes : Walks data (a+1) yes (a+1) (some leave) merge true (last' && no = .done))
    (ihno : Walks data (a+1+yes.size) no (a+1+yes.size) (some leave) merge true last') :
    Passes data t n' stop last' (startedBlocks (a+1) yes true++startedBlocks (a+1+yes.size) no true)
      (bodyWires leave a yes no merge last')
      (place (a+1) yes (a+1)++place (a+1+yes.size) no (a+1+yes.size))
      (yes.size+no.size) := by
  have hstop := h.stop_eq
  unfold bodyWires
  by_cases hyes : yes=.done
  · subst hyes
    have hno : no≠.done := fun hno => by simpa [hno,Code.size] using h.filled.1
    have hstands := h.stands_first no (by simp [hstop,Code.size]) le_rfl (.inl rfl)
      h.pending_stop h.lands
    simpa [hno,startedBlocks,place,Code.size,hstop] using ihno t n' hno hstands
  · by_cases hno : no=.done
    · subst hno
      have hstands := h.stands_first yes (by simp [hstop,Code.size]) le_rfl
        (.inr (.inl rfl)) h.pending_stop h.lands
      simpa [hyes,startedBlocks,place,Code.size,hstop] using ihyes t n' hyes hstands
    · have hstands := h.stands_first yes rfl (by omega) (.inr (.inr le_rfl))
        (h.pending_else hyes hno) (h.opened.lands_else hyes hno)
      obtain ⟨t',m,hran,hended,hpc⟩ := ihyes t n' hyes hstands
      have hlast : (last' && decide (no=Code.done))=false := by simp [hno]
      rw [hlast] at hended
      have hno' := ihno t' m hno (h.stands_else hyes hno hran hended (hpc hlast))
      simpa [hyes,hno,hstop] using hran.passes hno'

end

theorem stands_rest (h : StandsInFork s n t n' enter leave a cur yes no stop stop [stop])
    (hs : Stands s n a c cur exit landing enclosed) (hsize : stop+rest.size = a+c.size)
    (hrest : rest≠.done) {t' : DeconstructState} {m : Net} {places : List (ℕ × ℕ)} {turns : ℕ}
    {last' : Bool} (hran : Ran data t n' t' m
      (startedBlocks (a+1) yes true++startedBlocks (a+1+yes.size) no true)
      (bodyWires leave a yes no stop last') places turns) (hended : t'.ended=false)
    (hpc : t'.pc=stop ∧ t'.bb=stop) : Stands t' m stop rest stop none landing enclosed := by
  have hstop := h.stop_eq
  have hpos := Code.size_pos hrest
  have hfilled := h.filled
  have hleave : leave.isMerge := by
    rcases h.opened.fork with ⟨-,rfl⟩ | ⟨-,rfl⟩ <;> rfl
  have hids : ∀ i∈m.ids, i∈n.ids ∨ i ≤ stop := by
    intro i hi
    have helse : i∈(if yes=.done ∨ no=.done then [] else [a+1+yes.size]) →
        i = a+1+yes.size := by
      split <;> simp
    rw [hran.ids,h.ids,openedBlocks] at hi
    simp only [cons_append,mem_append,mem_cons,not_mem_nil,or_false] at hi
    rcases hi with (hi | hi | hi | hi) | hi | hi
    · exact .inl hi
    · omega
    · have := helse hi
      omega
    · omega
    · have := startedBlocks_range hi
      omega
    · have := startedBlocks_range hi
      omega
  have hedges : m.edges = n.edges ++
      (forkEdges enter leave a cur yes no stop++bodyWires leave a yes no stop last') := by
    rw [hran.edges,h.opened.edges,append_assoc]
  have htarget : ∀ e∈forkEdges enter leave a cur yes no stop ++
      bodyWires leave a yes no stop last', e.target < stop ∨ (e.target=stop ∧ e.type.isMerge) := by
    intro e he
    rcases mem_append.mp he with he | he
    · rcases forkEdges_target he hleave with he | ⟨hno,he⟩ | he
      · omega
      · have := Code.size_pos hno
        omega
      · exact .inr he
    · exact (bodyWires_range he hleave h.filled.2.1 h.filled.2.2).2.imp_left fun h => by omega
  refine ⟨hran.represents,hpc.1,hended,hpc.2,?_,le_rfl,fun i hi => ?_,hran.pending,
    fun e he => ?_,?_,hsize ▸ hs.le_landing,fun e he => ?_⟩
  · rw [hran.ids,h.ids,openedBlocks]
    simp
  · rcases hids i hi with hi | hi
    · have := hs.gap i hi
      omega
    · omega
  · rw [hran.edges] at he
    rcases mem_append.mp he with he | he
    · have := h.source_le e he
      omega
    · have := (bodyWires_range he hleave h.filled.2.1 h.filled.2.2).1
      omega
  · rw [hsize]
    rcases hs.stop with ⟨henclosed,hpending,hlands⟩ | ⟨hfree,hfresh,hlanding⟩
    · refine .inl ⟨henclosed,hran.kept _ (h.kept _ hpending),hlands.append hedges fun e he heq => ?_⟩
      have := htarget e he
      omega
    · refine .inr ⟨hfree,fun hmem => ?_,hlanding⟩
      rcases hids _ hmem with hmem | hmem
      · exact hfresh hmem
      · omega
  · obtain ⟨hmem,heq⟩ := mem_filter.mp he
    have heq : e.target=stop := of_decide_eq_true heq
    rw [hedges] at hmem
    rcases mem_append.mp hmem with hmem | hmem
    · have hstopMem := (hs.represents.closed e hmem).2
      have := hs.gap _ hstopMem
      omega
    · rcases htarget e hmem with hlt | ⟨-,hmerge⟩
      · omega
      · exact hmerge

end StandsInFork

end Walk

end PS3Native.FragmentProgram
