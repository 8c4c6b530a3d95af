import PS3Native.DeconstructForks

/-! # Simulation of the graph construction -/
namespace PS3Native.FragmentProgram

open StructuredCode DeconstructState

variable {data : List Quad} {s t : DeconstructState} {n n' : Net} {a cur landing total : ℕ}
  {c yes no rest : Code} {exit : Option EdgeType} {enter leave : EdgeType}
  {enclosed last inLoop : Bool}

section

variable (h : Stands s n a c cur exit landing enclosed)

include h

section

variable {stop : ℕ} {inst : Quad} {u : DeconstructState}
  (hu : u = {s with ended := false}.emit (s.instruction inst))
  (hfetch : inst∈instructionAt data s.pc) (hexec : s.exec inst = .ok t)
  (hforks : Forks u n (s.instruction inst) t n' enter leave yes no
    (mergeBlock rest stop landing) (if rest=.done ∧ enclosed then [] else [stop]))
  (hc : Fork c enter leave yes no rest) (hfilled : 0 < yes.size+no.size ∧ yes.Filled ∧ no.Filled)
  (hstop : stop = a+1+yes.size+no.size)

include hu hfetch hexec hforks hc hfilled hstop

theorem Stands.opens :
    StandsInFork s n t n' enter leave a cur yes no stop (mergeBlock rest stop landing)
        (if rest=.done ∧ enclosed then [] else [stop]) ∧
      Ran data s n t n' (openedBlocks a yes no (if rest=.done ∧ enclosed then [] else [stop]))
        (forkEdges enter leave a cur yes no (mergeBlock rest stop landing)) [(cur,a)] 1 := by
  have hsize : stop+rest.size = a+c.size := by
    rw [hc.size_eq]
    omega
  have hfork : IsFork enter leave := by
    cases hc
    · exact .inl ⟨rfl,rfl⟩
    · exact .inr ⟨rfl,rfl⟩
  have hloop : enter=.loop → no=.done := by
    rintro rfl
    cases hc
    rfl
  have hpc : u.pc=a := by rw [hu]; exact h.pc
  have hbb : u.bb=cur := by rw [hu]; exact h.bb
  have hpending : ∀ i, Pending u i ↔ Pending s i := fun i => by rw [hu]; rfl
  have hfresh : ∀ {id}, a < id → id < a+c.size → ∀ e∈n.edges, e.target≠id := by
    rintro id hlo hhi e he rfl
    have := h.gap _ (h.represents.closed e he).2
    omega
  obtain ⟨hrep,htpc,htbb,htended,htpending,hids,hedges,hemitted⟩ := hforks
  rw [hpc] at htpc htbb hids hedges
  rw [hbb] at hedges hemitted
  simp only [hpc,← hstop,hpending] at htpending
  have hpos := hfilled.1
  have hend := h.endBlock rest (by omega) hsize
  have hstopLe : stop ≤ mergeBlock rest stop landing := by
    have := h.le_landing
    unfold mergeBlock
    split <;> omega
  have hopened : Opened n n' enter leave a cur yes no (mergeBlock rest stop landing) := by
    refine ⟨hfork,hloop,hedges,h.sources,h.cur_le,hfresh (by omega) (by omega), fun hno => ?_,?_⟩
    · have := Code.size_pos hno
      exact hfresh (by omega) (by omega)
    · by_cases hno : no=.done
      · exact .inr ⟨hno,by omega⟩
      · have := Code.size_pos hno
        exact .inl (by omega)
  have hkept : ∀ i, Pending s i → Pending t i := fun i hi => (htpending i).mpr (.inl hi)
  have hrunning : t.ended=false := by rw [htended,hu]; rfl
  have hlands : Lands n' stop (mergeBlock rest stop landing) := by
    subst hstop
    refine hopened.lands_stop hpos (Or.imp And.left (fun ⟨hnot,hmerge,_⟩ => ⟨hmerge,?_⟩) hend)
    intro e he htarget
    exact hnot (htarget ▸ (h.represents.closed e he).2)
  have hmem : ∀ i, Pending t i → i∈n'.ids := by
    intro i hi
    rcases (htpending i).mp hi with hi | rfl | ⟨hyes,hno,rfl⟩
    · rw [hids]
      exact List.mem_append_left _ (h.pending i hi)
    · exact (hlands.mem hrep).2
    · rw [hids]
      simp [hyes,hno]
  refine ⟨⟨hopened,hids,hrep,hrunning,htpc,htbb,(htpending stop).mpr (.inr (.inl rfl)),
    fun hyes hno => (htpending _).mpr (.inr (.inr ⟨hyes,hno,rfl⟩)),hmem,hkept,hlands,hstopLe,
    hstop,hfilled,fun i hi => ?_,fun i hi => ?_⟩,⟨hrep,hids,hedges,?_,hmem,hkept,?_⟩⟩
  · split at hi <;> simp_all
  · have := h.gap i hi
    omega
  · have hemit : IsEmitted (s.instruction inst) a inst := h.pc ▸ isEmitted_instruction
    have hfetch' : inst∈instructionAt data a := h.pc ▸ hfetch
    rcases hemitted with hemitted | hemitted
    · exact ⟨_,hemitted,.cons ⟨rfl,inst,hfetch',hemit⟩ .nil⟩
    · exact ⟨_,hemitted,.cons ⟨rfl,inst,hfetch',hemit.addr,hemit.opcode,.inr rfl⟩ .nil⟩
  · have hnot : ¬ (t.pc∈t.endBlocks ∨ t.pc∈t.elseBlocks) := by
      intro hin
      rcases (htpending t.pc).mp hin with hin | hin | ⟨hyes,hno,hin⟩
      · have := h.gap _ (h.pending _ hin)
        omega
      · omega
      · have := Code.size_pos hyes
        omega
    exact ⟨1,le_rfl,resumeLoop_succ h.running hfetch hexec
      (.inr ⟨hrunning,enter_of_not_pending hnot,hrunning⟩)⟩

theorem Stands.passes_fork
    (ihyes : Walks data (a+1) yes (a+1) (some leave) (mergeBlock rest stop landing) true
      ((last && rest = .done) && no = .done))
    (ihno : Walks data (a+1+yes.size) no (a+1+yes.size) (some leave)
      (mergeBlock rest stop landing) true (last && rest = .done))
    (ihrest : Walks data stop rest stop none landing enclosed last) :
    Passes data s n (a+c.size) last (startedBlocks a c enclosed)
      (wire a c cur exit landing last) (place a c cur) c.size := by
  obtain ⟨hin,hran⟩ := h.opens hu hfetch hexec hforks hc hfilled hstop
  have hsize : stop+rest.size = a+c.size := by
    rw [hc.size_eq]
    omega
  have hpass : Passes data s n (a+c.size) last
      (openedBlocks a yes no (if rest=.done ∧ enclosed then [] else [stop]) ++
        ((startedBlocks (a+1) yes true++startedBlocks (a+1+yes.size) no true) ++
          startedBlocks stop rest enclosed))
      (forkEdges enter leave a cur yes no (mergeBlock rest stop landing) ++
        (bodyWires leave a yes no (mergeBlock rest stop landing) (last && rest = .done) ++
          wire stop rest stop none landing last))
      ([(cur,a)]++((place (a+1) yes (a+1) ++
        place (a+1+yes.size) no (a+1+yes.size))++place stop rest stop)) c.size := by
    have hbodies := hin.passes_bodies ihyes ihno
    by_cases hrest : rest=.done
    · subst hrest
      have hdone : stop = a+c.size := by simpa [Code.size] using hsize
      have hpass := hran.passes hbodies
      simp only [decide_true,Bool.and_true,hdone] at hpass ⊢
      simpa [startedBlocks,place,wire_done_none] using hpass.mono (by omega)
    · obtain ⟨t',m,hran',hended,hpc⟩ := hbodies
      have hlast : (last && decide (rest=Code.done))=false := by simp [hrest]
      have hmerge : mergeBlock rest stop landing=stop := by simp [mergeBlock,hrest]
      have hnew : (if rest=.done ∧ enclosed then [] else [stop]) = [stop] := by simp [hrest]
      rw [hmerge,hnew] at hin
      rw [hmerge] at hran'
      rw [hlast] at hended
      have hstands := hin.stands_rest h hsize hrest hran' hended (hpc hlast)
      rw [hmerge] at hran ⊢
      have hpass := hran.passes (hran'.passes (ihrest t' m hrest hstands))
      rw [hsize] at hpass
      exact hpass.mono (by omega)
  subst hstop
  cases hc <;> simpa [startedBlocks,wire,place,openedBlocks,bodyWires,mergeBlock,Code.size]
    using hpass

end

/-- What the word of a fork does, and what the words of its parts spell out. -/
theorem Stands.forks (hc : Fork c enter leave yes no rest) (hcode : Encodes data total inLoop a c) :
    ∃ inst t n', inst∈instructionAt data s.pc ∧ s.exec inst = .ok t ∧
      Forks ({s with ended := false}.emit (s.instruction inst)) n (s.instruction inst) t n' enter
        leave yes no (mergeBlock rest (a+1+yes.size+no.size) landing)
        (if rest=.done ∧ enclosed then [] else [a+1+yes.size+no.size]) ∧
      (∃ inLoop', Encodes data total inLoop' (a+1) yes) ∧
      Encodes data total inLoop (a+1+yes.size) no ∧
      Encodes data total inLoop (a+1+yes.size+no.size) rest := by
  have hpos := (hc.filled hcode.filled).1
  have hsize := hc.size_eq
  have hend : EndBlock n (a+1+yes.size+no.size) _ _ := h.endBlock rest (by omega) (by omega)
  have henter : a+1∉n.ids := fun hmem => by
    have := h.gap _ hmem
    omega
  have helse : no≠.done → a+1+yes.size∉n.ids := fun hne hmem => by
    have := Code.size_pos hne
    have := h.gap _ hmem
    omega
  have hrep : ∀ i, Represents (s.emit i).graph (n.emit s.bb i) :=
    fun i => h.represents.emit i (h.bb ▸ h.cur_mem)
  obtain rfl := h.pc
  cases hc with
  | branch =>
    obtain ⟨⟨inst,hfetch,hop,hrun,helseAddr,hstop,-⟩,hyes,hno,hrest⟩ := hcode
    obtain ⟨t,n',ht,hforks⟩ := execIfe_forks (t := {s with ended := false}.emit
      (s.instruction inst)) yes no (hrep _) (h.bb ▸ h.cur_mem) hpos helseAddr hstop henter helse hend
    exact ⟨inst,t,n',hfetch,by rw [exec_ife hop,hrun,ht],hforks,⟨_,hyes⟩,hno,hrest⟩
  | loop =>
    obtain ⟨⟨inst,hfetch,hop,hrun,hstop,-⟩,hbody,hrest⟩ := hcode
    obtain ⟨t,n',ht,hforks⟩ := execLoop_forks (t := {s with ended := false}.emit
      (s.instruction inst)) yes (hrep _) (h.bb ▸ h.cur_mem) hpos hstop henter hend
    exact ⟨inst,t,n',hfetch,by rw [exec_loop hop,hrun,ht],hforks,⟨_,hbody⟩,trivial,hrest⟩

/-- What a word does after which the walk stays in its block. -/
theorem Stands.advances {literals : ℕ} (hc : Stays c literals rest)
    (hcode : Encodes data total inLoop a c) :
    ∃ inst t n' places, Advances data s n t n' inst (a+1+literals) places ∧
      (inst.isEnd ↔ a+1+literals=total) ∧
      place a c cur = places++place (a+1+literals) rest cur ∧
      Encodes data total inLoop (a+1+literals) rest := by
  cases hc with
  | nop =>
    obtain ⟨⟨inst,hfetch,hnop,hend⟩,hrest⟩ := hcode
    exact ⟨inst,_,n,[],⟨h.pc ▸ hfetch,exec_nop (h.pc ▸ hnop),h.represents,by rw [← h.pc],rfl,
      rfl,rfl,rfl,rfl,rfl,[],by simp,.nil⟩,hend,rfl,hrest⟩
  | plain =>
    obtain ⟨⟨inst,hfetch,hplain,hend⟩,hrest⟩ := hcode
    obtain ⟨i,hi,hexec⟩ := exec_plain (s := s) hplain
    exact ⟨inst,_,_,_,h.advances_emit literals hfetch hi hexec,hend,rfl,hrest⟩
  | brk =>
    obtain ⟨⟨inst,hfetch,hop,-,hend⟩,hrest⟩ := hcode
    obtain ⟨i,hi,hexec⟩ := exec_brk (s := s) hop
    exact ⟨inst,_,_,_,h.advances_emit 0 hfetch hi hexec,hend,rfl,hrest⟩

end

theorem decide_last {stop : ℕ} (h : stop+rest.size ≤ total) :
    (decide (stop+rest.size=total) && decide (rest=.done)) = decide (stop=total) := by
  rw [Bool.eq_iff_iff]
  simp only [Bool.and_eq_true,decide_eq_true_eq,← Code.size_eq_zero]
  omega

/-- The walk passes structured code, and adds to the net exactly what the wiring lists. -/
theorem Encodes.walks (hcode : Encodes data total inLoop a c) (htotal : a+c.size ≤ total)
    (hlast : last = decide (a+c.size=total)) (henclosed : last=false → enclosed) :
    Walks data a c cur exit landing enclosed last := by
  induction c using code_induction generalizing a cur landing exit enclosed last inLoop with
  | done => exact fun s n hne => absurd rfl hne
  | @stays c literals rest hc ih =>
    intro s n _ h
    have hsize : a+1+literals+rest.size = a+c.size := by
      rw [hc.size_eq]
      omega
    obtain ⟨inst,t,n',places,hstep,hend,hplace,hrest⟩ := h.advances hc hcode
    rw [hc.startedBlocks_eq,hc.wire_eq,hplace]
    exact h.advance hstep (by omega) hsize hend htotal hlast henclosed
      (ih hrest (hsize ▸ htotal) (hsize ▸ hlast) henclosed)
  | @fork c enter leave yes no rest hc ihyes ihno ihrest =>
    intro s n _ h
    obtain ⟨hpos,hyesFilled,hnoFilled,-⟩ := hc.filled hcode.filled
    obtain ⟨inst,t,n',hfetch,hexec,hforks,⟨_,hyes⟩,hno,hrest⟩ := h.forks hc hcode
    have hsize : a+c.size = a+1+yes.size+no.size+rest.size := by
      rw [hc.size_eq]
      omega
    rw [hsize] at hlast htotal
    have hlastRest : (last && decide (rest=Code.done)) =
        decide (a+1+yes.size+no.size=total) := by rw [hlast,decide_last htotal]
    have hlastNo : ((last && decide (rest=Code.done)) && decide (no=Code.done)) =
        decide (a+1+yes.size=total) := by rw [hlastRest,decide_last (by omega)]
    exact h.passes_fork rfl hfetch hexec hforks hc ⟨hpos,hyesFilled,hnoFilled⟩ rfl
      (ihyes hyes (by omega) hlastNo fun _ => rfl) (ihno hno (by omega) hlastRest fun _ => rfl)
      (ihrest hrest htotal hlast henclosed)

end PS3Native.FragmentProgram
