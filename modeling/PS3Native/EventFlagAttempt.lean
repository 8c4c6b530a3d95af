import PS3Native.BitSet
import PS3Native.EventFlag

/-!
# One attempt of `sys_event_flag_set`

When a waiter is satisfied and what it leaves, in terms of the bits of the pattern, and
what the loop over the waiters does to the variables of the attempt.
-/
namespace PS3Native.EventFlag
open BitSet List

section Patterns
variable {pattern pattern' kept bitptn : BitVec 64} {mode : Mode}

def Satisfies (pattern bitptn : BitVec 64) : Wait → Prop
  | .and => ∀ i∈bits bitptn, i∈bits pattern
  | .or => ∃ i∈bits bitptn, i∈bits pattern

theorem satisfies_or : Satisfies pattern bitptn .or ↔ pattern &&& bitptn≠0 := by
  rw [Ne,eq_zero_iff]
  simp only [mem_bits_and,Satisfies,not_forall,not_not]
  exact exists_congr fun i => and_comm

def leaves (pattern bitptn : BitVec 64) : Clear → BitVec 64
  | .keep => pattern
  | .clear => pattern &&& ~~~bitptn
  | .clearAll => 0

theorem checkPattern_of_satisfies (h : Satisfies pattern bitptn mode.wait) :
    checkPattern pattern bitptn mode = some (leaves pattern bitptn mode.clear) := by
  obtain ⟨wait,after⟩ := mode
  rw [checkPattern,if_neg]
  · cases after <;> rfl
  · cases wait with
    | and => simpa using and_eq_right_iff.mpr h
    | or => simpa using satisfies_or.mp h

theorem checkPattern_of_not_satisfies (h : ¬Satisfies pattern bitptn mode.wait) :
    checkPattern pattern bitptn mode=none := by
  obtain ⟨wait,after⟩ := mode
  rw [checkPattern,if_pos]
  cases wait with
  | and => simpa using fun heq => h (and_eq_right_iff.mp heq)
  | or => simpa using satisfies_or.not.mp h

theorem Satisfies.mono {wait : Wait} (h : Satisfies pattern bitptn wait)
    (hsub : bits pattern ⊆ bits pattern') : Satisfies pattern' bitptn wait := by
  cases wait with
  | and => exact fun i hi => hsub (h i hi)
  | or =>
    obtain ⟨i,hi,hmem⟩ := h
    exact ⟨i,hi,hsub hmem⟩

theorem leaves_and (kept : BitVec 64) (after : Clear) :
    leaves (pattern &&& kept) bitptn after = leaves pattern bitptn after &&& kept := by
  cases after with
  | keep => rfl
  | clear => simp only [leaves,BitVec.and_assoc,BitVec.and_comm kept]
  | clearAll => simp [leaves]

theorem bits_leaves_subset (after : Clear) : bits (leaves pattern bitptn after) ⊆ bits pattern := by
  intro i hi
  cases after with
  | keep => exact hi
  | clear => exact (mem_bits_and.mp hi).1
  | clearAll => exact absurd hi not_mem_bits_zero

theorem leaves_zero (bitptn : BitVec 64) (after : Clear) : leaves 0 bitptn after=0 := by
  cases after with
  | keep => rfl
  | clear => simp [leaves]
  | clearAll => rfl

end Patterns

variable {τ : Type*} [DecidableEq τ] {w : Waiter τ} {rest order : List (Waiter τ)} {bitptn kept : BitVec 64}
  {a : Attempt τ}

theorem examine_of_satisfies (h : Satisfies a.toWrite w.bitptn w.mode.wait) : examine bitptn a w =
      { toWrite := leaves a.toWrite w.bitptn w.mode.clear
        dependantMask := a.dependantMask ||| dependantMaskOr bitptn a.toWrite w
        count := a.count+1
        regs := Function.update a.regs w.thread ⟨true,a.toWrite⟩ } := by
  rw [examine,checkPattern_of_satisfies h]

theorem examine_of_not_satisfies (h : ¬Satisfies a.toWrite w.bitptn w.mode.wait) :
    examine bitptn a w = {a with regs := Function.update a.regs w.thread ⟨false,a.toWrite⟩} := by
  rw [examine,checkPattern_of_not_satisfies h]

theorem attemptList_of_stop (h : Satisfies a.toWrite w.bitptn w.mode.wait)
    (hzero : leaves a.toWrite w.bitptn w.mode.clear=0) :
    attemptList bitptn (w::rest) a = examine bitptn a w := by
  rw [attemptList,if_pos]
  rw [stops,checkPattern_of_satisfies h,hzero]
  rfl

theorem attemptList_of_go (h : Satisfies a.toWrite w.bitptn w.mode.wait →
    leaves a.toWrite w.bitptn w.mode.clear≠0) :
    attemptList bitptn (w::rest) a = attemptList bitptn rest (examine bitptn a w) := by
  rw [attemptList,if_neg]
  by_cases hsat : Satisfies a.toWrite w.bitptn w.mode.wait
  · simpa [stops,checkPattern_of_satisfies hsat] using h hsat
  · simp [stops,checkPattern_of_not_satisfies hsat]

theorem examine_regs_of_ne {t : τ} (hne : t≠w.thread) : (examine bitptn a w).regs t = a.regs t := by
  by_cases h : Satisfies a.toWrite w.bitptn w.mode.wait
  · rw [examine_of_satisfies h]
    exact Function.update_of_ne hne _ _
  · rw [examine_of_not_satisfies h]
    exact Function.update_of_ne hne _ _

theorem examine_ok_of_satisfies (h : Satisfies a.toWrite w.bitptn w.mode.wait) :
    ((examine bitptn a w).regs w.thread).ok := by
  simp [examine_of_satisfies h]

theorem examine_ok_of_not_satisfies (h : ¬Satisfies a.toWrite w.bitptn w.mode.wait) :
    ((examine bitptn a w).regs w.thread).ok=false := by
  simp [examine_of_not_satisfies h]

theorem bits_dependantMask_examine : bits a.dependantMask ⊆ bits (examine bitptn a w).dependantMask := by
  by_cases h : Satisfies a.toWrite w.bitptn w.mode.wait
  · rw [examine_of_satisfies h]
    exact fun i hi => mem_bits_or.mpr (.inl hi)
  · rw [examine_of_not_satisfies h]

theorem count_examine_le : a.count ≤ (examine bitptn a w).count := by
  by_cases h : Satisfies a.toWrite w.bitptn w.mode.wait
  · rw [examine_of_satisfies h]
    exact Nat.le_succ _
  · rw [examine_of_not_satisfies h]

theorem attemptList_induct {P : Attempt τ → Prop} (order : List (Waiter τ)) (ha : P a)
    (hstep : ∀ w∈order, ∀ a, P a → P (examine bitptn a w)) : P (attemptList bitptn order a) := by
  induction order generalizing a with
  | nil => exact ha
  | cons w rest ih =>
    have hw := hstep w mem_cons_self a ha
    rw [attemptList]
    split_ifs
    · exact hw
    · exact ih hw fun v hv => hstep v (mem_cons_of_mem _ hv)

theorem attemptList_regs {t : τ} (ht : t∉order.map Waiter.thread) :
    (attemptList bitptn order a).regs t = a.regs t := by
  apply attemptList_induct (P := fun a' => a'.regs t = a.regs t) order rfl
  intro w hw a' ha'
  have hne : t≠w.thread := fun heq => ht (heq ▸ mem_map_of_mem hw)
  rw [examine_regs_of_ne hne,ha']

theorem bits_dependantMask_attemptList (order : List (Waiter τ)) :
    bits a.dependantMask ⊆ bits (attemptList bitptn order a).dependantMask :=
  attemptList_induct (P := fun a' => bits a.dependantMask ⊆ bits a'.dependantMask) order
    (Finset.Subset.refl _) fun _ _ _ h => h.trans bits_dependantMask_examine

theorem count_attemptList_le (bitptn : BitVec 64) (a : Attempt τ) (order : List (Waiter τ)) :
    a.count ≤ (attemptList bitptn order a).count :=
  attemptList_induct (P := fun a' => a.count ≤ a'.count) order (Nat.le_refl _)
    fun _ _ _ h => h.trans count_examine_le

theorem bits_toWrite_examine : bits (examine bitptn a w).toWrite ⊆ bits a.toWrite := by
  by_cases h : Satisfies a.toWrite w.bitptn w.mode.wait
  · rw [examine_of_satisfies h]
    exact bits_leaves_subset _
  · rw [examine_of_not_satisfies h]

theorem attemptList_ok_head (bitptn : BitVec 64) (hw : w.thread∉rest.map Waiter.thread)
    (h : Satisfies a.toWrite w.bitptn w.mode.wait) :
    ((attemptList bitptn (w::rest) a).regs w.thread).ok := by
  rw [attemptList]
  split_ifs
  · exact examine_ok_of_satisfies h
  · rw [attemptList_regs hw]
    exact examine_ok_of_satisfies h

theorem bits_dependantMask_head (rest : List (Waiter τ)) :
    bits (examine bitptn a w).dependantMask ⊆ bits (attemptList bitptn (w::rest) a).dependantMask := by
  rw [attemptList]
  split_ifs
  · exact Finset.Subset.refl _
  · exact bits_dependantMask_attemptList rest

/-- A satisfied AND waiter depends on all of its bits, so that it finds them again. -/
theorem Satisfies.and_kept (h : Satisfies a.toWrite w.bitptn w.mode.wait)
    (hb : bits bitptn ⊆ bits kept)
    (hdep : ∀ i∈bits (attemptList bitptn (w::rest) a).dependantMask, i∈bits a.toWrite → i∈bits kept)
    (hor : w.mode.wait=.or → ∀ i∈bits w.bitptn, i∈bits a.toWrite → i∈bits kept) :
    Satisfies (a.toWrite &&& kept) w.bitptn w.mode.wait := by
  have hexamined : (examine bitptn a w).dependantMask =
      a.dependantMask ||| dependantMaskOr bitptn a.toWrite w := by rw [examine_of_satisfies h]
  cases hwait : w.mode.wait with
  | or =>
    rw [hwait] at h
    obtain ⟨i,hi,hmem⟩ := h
    exact ⟨i,hi,mem_bits_and.mpr ⟨hmem,hor hwait i hi hmem⟩⟩
  | and =>
    rw [hwait] at h
    intro i hi
    refine mem_bits_and.mpr ⟨h i hi,?_⟩
    by_cases hown : bitptn &&& w.bitptn &&& a.toWrite=w.bitptn
    · rw [← hown,mem_bits_and,mem_bits_and] at hi
      exact hb hi.1.1
    · apply hdep i (bits_dependantMask_head rest _) (h i hi)
      have hmask : dependantMaskOr bitptn a.toWrite w=w.bitptn := by
        rw [dependantMaskOr,if_neg]
        simp [hwait,hown]
      rw [hexamined,mem_bits_or,hmask]
      exact .inr hi

/-- If nobody was counted, everybody was refused. -/
theorem ok_of_count_eq_zero (hnodup : (order.map Waiter.thread).Nodup)
    (hcount : (attemptList bitptn order a).count=0) :
    ∀ v∈order, ((attemptList bitptn order a).regs v.thread).ok=false := by
  induction order generalizing a with
  | nil => simp
  | cons w rest ih =>
    rw [map_cons,nodup_cons] at hnodup
    have hsat : ¬Satisfies a.toWrite w.bitptn w.mode.wait := by
      intro h
      have hpos : 0 < (examine bitptn a w).count := by
        rw [examine_of_satisfies h]
        exact Nat.succ_pos _
      by_cases hzero : leaves a.toWrite w.bitptn w.mode.clear=0
      · rw [attemptList_of_stop h hzero] at hcount
        omega
      · rw [attemptList_of_go fun _ => hzero] at hcount
        have hle := count_attemptList_le bitptn (examine bitptn a w) rest
        omega
    rw [attemptList_of_go fun h => absurd h hsat] at hcount ⊢
    intro v hv
    rcases mem_cons.mp hv with rfl | hv
    · rw [attemptList_regs hnodup.1,examine_ok_of_not_satisfies hsat]
    · exact ih hnodup.2 hcount v hv

end PS3Native.EventFlag
