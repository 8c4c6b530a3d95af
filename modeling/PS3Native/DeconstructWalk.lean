import PS3Native.DeconstructLinks

/-!
# The walk of the graph construction

The loop of `deconstruct_fragment_program` as a walk over structured code: `Stands` says where the
walk is and what it will link the current block to, `Ran` what it has added to the flow graph, and
`Passes` that it gets past a piece of code.
-/
namespace PS3Native.FragmentProgram

open StructuredCode DeconstructState List

def resumeLoop (data : List Quad) (turns : ℕ) (s : DeconstructState) :
    Except DeconstructError DeconstructState :=
  if s.ended then .ok s
  else
    match data[s.pc]? with
    | none => .error .pastEnd
    | some raw => do
      let s ← s.exec (decodeInstruction raw)
      deconstructLoop data turns s

/-- How the loop goes on from `s`: it ends there, or it reaches the head of its body. -/
def Arrives (s s' : DeconstructState) : Prop :=
  (s.ended=true ∧ s'=s) ∨ (s.ended=false ∧ s.enter = .ok s' ∧ s'.ended=false)

variable {s' : DeconstructState} {edges : List FlowEdge} {ids : List ℕ} {places : List (ℕ × ℕ)}
  {turns turns' stop : ℕ}

theorem Arrives.loop {s : DeconstructState} (h : Arrives s s') (data : List Quad) (turns : ℕ) :
    deconstructLoop data (turns+1) s = resumeLoop data turns s' := by
  rcases h with ⟨hended,rfl⟩ | ⟨hrun,henter,hrun'⟩
  · simp [deconstructLoop,resumeLoop,hended]
  · simp only [deconstructLoop,resumeLoop,hrun,hrun',henter]
    rfl

theorem resumeLoop_succ {data : List Quad} {s t : DeconstructState} {inst : Quad}
    (hrun : s.ended=false) (hinst : inst∈instructionAt data s.pc) (hexec : s.exec inst = .ok t)
    (harrive : Arrives t s') (turns : ℕ) :
    resumeLoop data (turns+1) s = resumeLoop data turns s' := by
  obtain ⟨raw,hraw,rfl⟩ := Option.map_eq_some_iff.mp hinst
  rw [← harrive.loop data turns,resumeLoop,hrun]
  simp only [hraw,hexec]
  rfl

theorem enter_of_not_pending {s : DeconstructState}
    (h : ¬ (s.pc∈s.endBlocks ∨ s.pc∈s.elseBlocks)) : s.enter = .ok s :=
  if_neg h

def Emits (data : List Quad) (p : ℕ × Instruction) (q : ℕ × ℕ) : Prop :=
  p.1=q.1 ∧ ∃ inst∈instructionAt data q.2, IsEmitted p.2 q.2 inst

def Pending (s : DeconstructState) (id : ℕ) : Prop := id∈s.endBlocks ∨ id∈s.elseBlocks

/-- The walk goes from one state to another in at most `turns` turns, and adds the given blocks,
edges and instructions to the net that its graph represents. -/
structure Ran (data : List Quad) (s : DeconstructState) (n : Net) (s' : DeconstructState) (n' : Net)
    (ids : List ℕ) (edges : List FlowEdge) (places : List (ℕ × ℕ)) (turns : ℕ) : Prop where
  represents : Represents s'.graph n'
  ids : n'.ids = n.ids++ids
  edges : n'.edges = n.edges++edges
  emitted : ∃ new, n'.emitted = n.emitted++new ∧ List.Forall₂ (Emits data) new places
  pending : ∀ i, Pending s' i → i∈n'.ids
  kept : ∀ i, Pending s i → Pending s' i
  reaches : ∃ k ≤ turns, ∀ m, resumeLoop data (m+k) s = resumeLoop data m s'

theorem Ran.trans {data : List Quad} {s s'' : DeconstructState} {n n' n'' : Net} {ids' : List ℕ}
    {edges' : List FlowEdge} {places' : List (ℕ × ℕ)}
    (h : Ran data s n s' n' ids edges places turns)
    (h' : Ran data s' n' s'' n'' ids' edges' places' turns') :
    Ran data s n s'' n'' (ids++ids') (edges++edges') (places++places') (turns+turns') where
  represents := h'.represents
  ids := by rw [h'.ids,h.ids,append_assoc]
  edges := by rw [h'.edges,h.edges,append_assoc]
  emitted := by
    obtain ⟨new,hnew,hplaces⟩ := h.emitted
    obtain ⟨new',hnew',hplaces'⟩ := h'.emitted
    exact ⟨new++new',by rw [hnew',hnew,append_assoc],rel_append hplaces hplaces'⟩
  pending := h'.pending
  kept i hi := h'.kept i (h.kept i hi)
  reaches := by
    obtain ⟨k,hk,hreach⟩ := h.reaches
    obtain ⟨k',hk',hreach'⟩ := h'.reaches
    refine ⟨k'+k,by omega,fun m => ?_⟩
    rw [← Nat.add_assoc,hreach,hreach']

structure Stands (s : DeconstructState) (n : Net) (a : ℕ) (c : Code) (cur : ℕ)
    (exit : Option EdgeType) (landing : ℕ) (enclosed : Bool) : Prop where
  represents : Represents s.graph n
  pc : s.pc=a
  running : s.ended=false
  bb : s.bb=cur
  cur_mem : cur∈n.ids
  cur_le : cur ≤ a
  gap : ∀ i∈n.ids, i ≤ a ∨ a+c.size ≤ i
  pending : ∀ i, Pending s i → i∈n.ids
  sources : ∀ e∈n.edges, e.source < cur
  stop : (enclosed=true ∧ Pending s (a+c.size) ∧ Lands n (a+c.size) landing) ∨
    (enclosed=false ∧ a+c.size∉n.ids ∧ landing = a+c.size)
  le_landing : a+c.size ≤ landing
  exits : ExitsTo n cur exit landing

/-- The walk has passed the code at `a`: it has ended, or it stands in the block after the code. -/
def Passes (data : List Quad) (s : DeconstructState) (n : Net) (stop : ℕ) (last : Bool)
    (ids : List ℕ) (edges : List FlowEdge) (places : List (ℕ × ℕ)) (turns : ℕ) : Prop :=
  ∃ s' n', Ran data s n s' n' ids edges places turns ∧ s'.ended=last ∧
    (last=false → s'.pc=stop ∧ s'.bb=stop)

/-- The walk passes the code wherever it stands before it, and adds what the wiring lists. -/
def Walks (data : List Quad) (a : ℕ) (c : Code) (cur : ℕ) (exit : Option EdgeType) (landing : ℕ)
    (enclosed last : Bool) : Prop :=
  ∀ s n, c≠.done → Stands s n a c cur exit landing enclosed →
    Passes data s n (a+c.size) last (startedBlocks a c enclosed)
      (wire a c cur exit landing last) (place a c cur) c.size

theorem Passes.mono {data : List Quad} {s : DeconstructState} {n : Net} {last : Bool}
    (h : Passes data s n stop last ids edges places turns) (hle : turns ≤ turns') :
    Passes data s n stop last ids edges places turns' := by
  obtain ⟨s',n',hran,hrest⟩ := h
  obtain ⟨k,hk,hreach⟩ := hran.reaches
  exact ⟨s',n',{hran with reaches := ⟨k,hk.trans hle,hreach⟩},hrest⟩

theorem Ran.passes {data : List Quad} {s : DeconstructState} {n n' : Net} {last : Bool}
    {ids' : List ℕ} {edges' : List FlowEdge} {places' : List (ℕ × ℕ)}
    (h : Ran data s n s' n' ids edges places turns)
    (h' : Passes data s' n' stop last ids' edges' places' turns') :
    Passes data s n stop last (ids++ids') (edges++edges') (places++places') (turns+turns') := by
  obtain ⟨s'',n'',hran,hrest⟩ := h'
  exact ⟨s'',n'',h.trans hran,hrest⟩

/-- One turn of the walk that stays in its block. `t` is the state after the instruction. -/
structure Advances (data : List Quad) (s : DeconstructState) (n : Net) (t : DeconstructState)
    (n' : Net) (inst : Quad) (a' : ℕ) (places : List (ℕ × ℕ)) : Prop where
  fetch : inst∈instructionAt data s.pc
  exec : s.exec inst = .ok t
  represents : Represents t.graph n'
  pc : t.pc=a'
  ended : t.ended=inst.isEnd
  bb : t.bb=s.bb
  endBlocks : t.endBlocks=s.endBlocks
  elseBlocks : t.elseBlocks=s.elseBlocks
  ids : n'.ids=n.ids
  edges : n'.edges=n.edges
  emitted : ∃ new, n'.emitted = n.emitted++new ∧ List.Forall₂ (Emits data) new places

theorem ExitsTo.congr {n n' : Net} {cur landing : ℕ} {exit : Option EdgeType}
    (h : ExitsTo n cur exit landing) (hedges : n'.edges=n.edges) : ExitsTo n' cur exit landing := by
  simpa only [ExitsTo,Net.pred,Net.succ,hedges] using h

theorem Lands.congr {n n' : Net} {landing : ℕ} (h : Lands n stop landing)
    (hedges : n'.edges=n.edges) : Lands n' stop landing := by
  simpa only [Lands,Net.pred,Net.succ,hedges] using h

section Walk

variable {data : List Quad} {s t : DeconstructState} {n n' : Net} {a cur landing total : ℕ}
  {c rest : Code} {exit : Option EdgeType} {enclosed last : Bool} {a' : ℕ} {places : List (ℕ × ℕ)}

theorem Advances.pending {inst : Quad} (h : Advances data s n t n' inst a' places) (i : ℕ) :
    Pending t i ↔ Pending s i := by
  rw [Pending,Pending,h.endBlocks,h.elseBlocks]

theorem Stands.advance {inst : Quad} (h : Stands s n a c cur exit landing enclosed)
    (hstep : Advances data s n t n' inst a' places) (ha : a < a') (hsize : a'+rest.size = a+c.size)
    (hend : inst.isEnd ↔ a'=total) (htotal : a+c.size ≤ total)
    (hlast : last = decide (a+c.size=total)) (henclosed : last=false → enclosed)
    (ih : Walks data a' rest cur exit landing enclosed last) :
    Passes data s n (a+c.size) last (startedBlocks a' rest enclosed)
      (wire a' rest cur exit landing last) (places++place a' rest cur) c.size := by
  have hpending : ∀ i, Pending t i → i∈n'.ids := fun i hi => by
    rw [hstep.ids]
    exact h.pending i ((hstep.pending i).mp hi)
  have hrun : ∀ {s'}, Arrives t s' → ∃ k ≤ 1, ∀ m,
      resumeLoop data (m+k) s = resumeLoop data m s' := fun harrive =>
    ⟨1,le_rfl,resumeLoop_succ h.running hstep.fetch hstep.exec harrive⟩
  by_cases hdone : rest=.done
  · subst hdone
    subst hsize
    cases last with
    | true =>
      have htotal : a+c.size=total := of_decide_eq_true hlast.symm
      have hended : t.ended := hstep.ended.trans (hend.mpr htotal)
      refine ⟨t,n',⟨hstep.represents,by simp [startedBlocks,hstep.ids],
        by simp [wire,hstep.edges],by simpa [place] using hstep.emitted,hpending,
        fun i hi => (hstep.pending i).mpr hi,?_⟩,hended,by rintro ⟨⟩⟩
      obtain ⟨k,hk,hreach⟩ := hrun (.inl ⟨hended,rfl⟩)
      exact ⟨k,by omega,hreach⟩
    | false =>
      have hne : a+c.size≠total := of_decide_eq_false hlast.symm
      have hrunning : t.ended=false := by
        rw [hstep.ended,← Bool.not_eq_true,hend]
        exact hne
      have hstop : Pending s (a+c.size) := by
        rcases h.stop with ⟨-,hstop,-⟩ | ⟨hfree,-⟩
        · exact hstop
        · rw [henclosed rfl] at hfree
          cases hfree
      obtain ⟨g',hleave,hg'⟩ := hstep.represents.leave (hstep.ids ▸ h.cur_mem)
        (h.exits.congr hstep.edges)
      have henter : t.enter = .ok {t with graph := g', bb := t.pc} := by
        have hmem : t.pc∈t.endBlocks ∨ t.pc∈t.elseBlocks := by
          rw [hstep.pc]
          exact (hstep.pending _).mpr hstop
        rw [DeconstructState.enter,if_pos hmem,hstep.bb,h.bb,hleave]
        rfl
      refine ⟨{t with graph := g', bb := t.pc},_,⟨hg',by simp [startedBlocks,hstep.ids],
        by simp [wire,hstep.edges],by simpa [place] using hstep.emitted,hpending,
        fun i hi => (hstep.pending i).mpr hi,?_⟩,hrunning,fun _ => ⟨hstep.pc,hstep.pc⟩⟩
      obtain ⟨k,hk,hreach⟩ := hrun (.inr ⟨hrunning,henter,hrunning⟩)
      exact ⟨k,by omega,hreach⟩
  · have hpos := Code.size_pos hdone
    have hnot : inst.isEnd=false := by
      rw [← Bool.not_eq_true,hend]
      omega
    have hrunning : t.ended=false := hstep.ended.trans hnot
    have henter : t.enter = .ok t := by
      refine enter_of_not_pending fun hmem => ?_
      have := h.gap _ (h.pending _ ((hstep.pending _).mp hmem))
      rw [hstep.pc] at this
      omega
    have hstands : Stands t n' a' rest cur exit landing enclosed := by
      refine ⟨hstep.represents,hstep.pc,hrunning,hstep.bb.trans h.bb,hstep.ids ▸ h.cur_mem,
        h.cur_le.trans ha.le,fun i hi => ?_,hpending,hstep.edges ▸ h.sources,?_,
        hsize ▸ h.le_landing,h.exits.congr hstep.edges⟩
      · have := h.gap i (hstep.ids ▸ hi)
        omega
      · rw [hsize,hstep.pending,hstep.ids]
        exact h.stop.imp_left (And.imp_right (And.imp_right fun hl => hl.congr hstep.edges))
    have hran : Ran data s n t n' [] [] places 1 :=
      ⟨hstep.represents,by simp [hstep.ids],by simp [hstep.edges],hstep.emitted,hpending,
        fun i hi => (hstep.pending i).mpr hi,hrun (.inr ⟨hrunning,henter,hrunning⟩)⟩
    rw [← hsize]
    exact (hran.passes (ih t n' hdone hstands)).mono (by omega)

/-- Where the block after a fork links to, from where the enclosing code links to. -/
theorem Stands.endBlock (rest : Code) {stop : ℕ} (h : Stands s n a c cur exit landing enclosed)
    (ha : a < stop) (hsize : stop+rest.size = a+c.size) :
    EndBlock n stop (mergeBlock rest stop landing)
      (if rest=.done ∧ enclosed then [] else [stop]) := by
  by_cases hdone : rest=.done
  · have hstop : stop = a+c.size := by simpa [hdone,Code.size] using hsize
    rw [hstop,mergeBlock,if_pos hdone]
    rcases h.stop with ⟨henclosed,-,hlands⟩ | ⟨hfree,hfresh,hlanding⟩
    · exact .inl ⟨hlands,by simp [hdone,henclosed]⟩
    · exact .inr ⟨hfresh,hlanding,by simp [hfree]⟩
  · have hpos := Code.size_pos hdone
    refine .inr ⟨fun hmem => ?_,by simp [mergeBlock,hdone],by simp [hdone]⟩
    have := h.gap stop hmem
    omega

/-- The walk stands at the start of the code that follows what it has run over. -/
theorem Ran.stands {s' : DeconstructState} {ids : List ℕ} {edges : List FlowEdge} {turns : ℕ}
    (h : Ran data s n s' n' ids edges places turns) (hended : s'.ended=false)
    (hpc : s'.pc=a' ∧ s'.bb=a') (hmem : a'∈n'.ids)
    (hgap : ∀ i∈n.ids++ids, i ≤ a' ∨ a'+rest.size ≤ i)
    (hsources : ∀ e∈n.edges++edges, e.source < a')
    (hstop : (enclosed ∧ Pending s' (a'+rest.size) ∧ Lands n' (a'+rest.size) landing) ∨
      (enclosed=false ∧ a'+rest.size∉n'.ids ∧ landing = a'+rest.size))
    (hlanding : a'+rest.size ≤ landing) (hexit : ExitsTo n' a' exit landing) :
    Stands s' n' a' rest a' exit landing enclosed where
  __ := h
  pc := hpc.1
  running := hended
  bb := hpc.2
  cur_mem := hmem
  cur_le := le_rfl
  gap := h.ids ▸ hgap
  sources := h.edges ▸ hsources
  stop := hstop
  le_landing := hlanding
  exits := hexit

end Walk

theorem Stands.advances_emit {data : List Quad} {s : DeconstructState} {n : Net} {a cur landing : ℕ}
    {c : Code} {exit : Option EdgeType} {enclosed : Bool} {inst : Quad} {i : Instruction}
    (h : Stands s n a c cur exit landing enclosed) (literals : ℕ)
    (hfetch : inst∈instructionAt data a) (hi : IsEmitted i s.pc inst)
    (hexec : s.exec inst = .ok {s.emit i with ended := inst.isEnd, pc := s.pc+1+literals}) :
    Advances data s n {s.emit i with ended := inst.isEnd, pc := s.pc+1+literals}
      (n.emit cur i) inst (a+1+literals) [(cur,a)] where
  fetch := h.pc ▸ hfetch
  exec := hexec
  represents := by
    rw [← h.bb]
    exact h.represents.emit i (h.bb ▸ h.cur_mem)
  pc := by rw [← h.pc]
  ended := rfl
  bb := rfl
  endBlocks := rfl
  elseBlocks := rfl
  ids := rfl
  edges := rfl
  emitted := ⟨[(cur,i)],rfl,.cons ⟨rfl,inst,hfetch,h.pc ▸ hi⟩ .nil⟩

end PS3Native.FragmentProgram
