import PS3Native.EventFlagAttempt

/-!
# The last attempt against the sequential meaning

The update meets a pattern with less bits than the last attempt has read. Both runs over the waiters
agree if the satisfied waiters keep the bits they need, and if there are no answers of an earlier
attempt or the loop does not end early.
-/
namespace PS3Native.EventFlag
open BitSet List

variable {τ : Type*}

/-- The waiters one after another, each with what the earlier ones have left. -/
def sequential : List (Waiter τ) → BitVec 64 → List τ × BitVec 64
  | [], pattern => ([],pattern)
  | w::rest, pattern =>
    match checkPattern pattern w.bitptn w.mode with
    | some pattern' => (w.thread::(sequential rest pattern').1,(sequential rest pattern').2)
    | none => sequential rest pattern

variable {w : Waiter τ} {rest order : List (Waiter τ)} {pattern kept : BitVec 64} {f : Attempt τ}

theorem sequential_of_satisfies (h : Satisfies pattern w.bitptn w.mode.wait) :
    sequential (w::rest) pattern =
      (w.thread::(sequential rest (leaves pattern w.bitptn w.mode.clear)).1,
        (sequential rest (leaves pattern w.bitptn w.mode.clear)).2) := by
  rw [sequential,checkPattern_of_satisfies h]

theorem sequential_of_not_satisfies (h : ¬Satisfies pattern w.bitptn w.mode.wait) :
    sequential (w::rest) pattern = sequential rest pattern := by
  rw [sequential,checkPattern_of_not_satisfies h]

theorem sequential_subset (order : List (Waiter τ)) (pattern : BitVec 64) :
    (sequential order pattern).1 ⊆ order.map Waiter.thread := by
  induction order generalizing pattern with
  | nil => exact List.Subset.refl _
  | cons w rest ih =>
    by_cases h : Satisfies pattern w.bitptn w.mode.wait
    · rw [sequential_of_satisfies h,map_cons]
      exact cons_subset_cons _ (ih _)
    · rw [sequential_of_not_satisfies h,map_cons]
      exact subset_cons_of_subset _ (ih _)

theorem sequential_zero (hnodup : (order.map Waiter.thread).Nodup) :
    (sequential order 0).2=0 ∧ ∀ v∈order, v.thread∈(sequential order 0).1 ↔
      (checkPattern 0 v.bitptn v.mode).isSome := by
  induction order with
  | nil => exact ⟨rfl,by simp⟩
  | cons w rest ih =>
    rw [map_cons,nodup_cons] at hnodup
    obtain ⟨hpattern,hmem⟩ := ih hnodup.2
    have hw : w.thread∉(sequential rest 0).1 := fun h => hnodup.1 (sequential_subset _ _ h)
    by_cases h : Satisfies 0 w.bitptn w.mode.wait
    · rw [sequential_of_satisfies h,leaves_zero]
      refine ⟨hpattern,?_⟩
      intro v hv
      rcases mem_cons.mp hv with rfl | hv
      · rw [checkPattern_of_satisfies h]
        exact iff_of_true mem_cons_self rfl
      · have hne : v.thread≠w.thread := fun heq => hnodup.1 (heq ▸ mem_map_of_mem hv)
        rw [mem_cons,← hmem v hv]
        exact or_iff_right hne
    · rw [sequential_of_not_satisfies h]
      refine ⟨hpattern,?_⟩
      intro v hv
      rcases mem_cons.mp hv with rfl | hv
      · rw [checkPattern_of_not_satisfies h]
        exact iff_of_false hw Bool.false_ne_true
      · exact hmem v hv

def Agrees (f : Attempt τ) (order : List (Waiter τ)) (pattern : BitVec 64) : Prop :=
  ∀ v∈order, (f.regs v.thread).ok=true ↔ v.thread∈(sequential order pattern).1

theorem agrees_cons_of_not_satisfies (hw : w.thread∉rest.map Waiter.thread)
    (h : ¬Satisfies pattern w.bitptn w.mode.wait) :
    Agrees f (w::rest) pattern ↔ (f.regs w.thread).ok=false ∧ Agrees f rest pattern := by
  have hnot : w.thread∉(sequential rest pattern).1 := fun h => hw (sequential_subset _ _ h)
  unfold Agrees
  rw [sequential_of_not_satisfies h,forall_mem_cons,iff_false_right hnot,Bool.not_eq_true]

theorem agrees_cons_of_satisfies (hw : w.thread∉rest.map Waiter.thread)
    (h : Satisfies pattern w.bitptn w.mode.wait) :
    Agrees f (w::rest) pattern ↔ (f.regs w.thread).ok ∧
      Agrees f rest (leaves pattern w.bitptn w.mode.clear) := by
  unfold Agrees
  rw [sequential_of_satisfies h,forall_mem_cons,iff_true_right mem_cons_self]
  refine and_congr_right fun _ => forall₂_congr fun v hv => ?_
  have hne : v.thread≠w.thread := fun heq => hw (heq ▸ mem_map_of_mem hv)
  rw [mem_cons,or_iff_right hne]

variable [DecidableEq τ] {bitptn : BitVec 64} {a : Attempt τ}

/-- An attempt depends on the bits of the AND waiters that the sequential run satisfies. -/
theorem mem_dependantMask {i : Fin 64} (order : List (Waiter τ))
    (hi : i∈bits (attemptList bitptn order a).dependantMask) :
    i∈bits a.dependantMask ∨ ∃ w∈order, w.mode.wait=.and ∧
      w.thread∈(sequential order a.toWrite).1 ∧ i∈bits w.bitptn := by
  induction order generalizing a with
  | nil => exact .inl hi
  | cons w rest ih =>
    by_cases h : Satisfies a.toWrite w.bitptn w.mode.wait
    · have hown : i∈bits (examine bitptn a w).dependantMask → i∈bits a.dependantMask ∨
          ∃ v∈w::rest, v.mode.wait=.and ∧ v.thread∈(sequential (w::rest) a.toWrite).1 ∧
            i∈bits v.bitptn := by
        rw [examine_of_satisfies h,sequential_of_satisfies h,mem_bits_or,dependantMaskOr]
        rintro (hmem | hmem)
        · exact .inl hmem
        · split_ifs at hmem with hfree
          · exact absurd hmem not_mem_bits_zero
          · refine .inr ⟨w,mem_cons_self,?_,mem_cons_self,hmem⟩
            cases hwait : w.mode.wait with
            | and => rfl
            | or => exact absurd (.inl hwait) hfree
      rw [attemptList] at hi
      split_ifs at hi with hstop
      · exact hown hi
      · rcases ih hi with hmem | ⟨v,hv,hwait,hwoken,hmem⟩
        · exact hown hmem
        · rw [examine_of_satisfies h] at hwoken
          rw [sequential_of_satisfies h]
          exact .inr ⟨v,mem_cons_of_mem _ hv,hwait,mem_cons_of_mem _ hwoken,hmem⟩
    · rw [attemptList_of_go fun hsat => absurd hsat h,examine_of_not_satisfies h] at hi
      rw [sequential_of_not_satisfies h]
      rcases ih hi with hmem | ⟨v,hv,hrest⟩
      · exact .inl hmem
      · exact .inr ⟨v,mem_cons_of_mem _ hv,hrest⟩

/-- The run of the last attempt gives the answers and the pattern of the sequential run on what is
kept. The bits of the OR waiters are kept, and there are no answers from before, or the sequential run
leaves bits. -/
theorem agrees_of_kept (hb : bits bitptn ⊆ bits kept) (hnodup : (order.map Waiter.thread).Nodup)
    (hdep : ∀ i∈bits (attemptList bitptn order a).dependantMask, i∈bits a.toWrite → i∈bits kept)
    (hor : ∀ w∈order, w.mode.wait=.or → ∀ i∈bits w.bitptn, i∈bits a.toWrite → i∈bits kept)
    (hend : (∀ v∈order, (a.regs v.thread).ok=false ∧ ¬Satisfies 0 v.bitptn v.mode.wait) ∨
      (sequential order (a.toWrite &&& kept)).2≠0) :
    Agrees (attemptList bitptn order a) order (a.toWrite &&& kept) ∧
      (sequential order (a.toWrite &&& kept)).2 = (attemptList bitptn order a).toWrite &&& kept := by
  induction order generalizing a with
  | nil => exact ⟨nofun,rfl⟩
  | cons w rest ih =>
    rw [map_cons,nodup_cons] at hnodup
    have hne : ∀ v∈rest, v.thread≠w.thread := fun v hv heq => hnodup.1 (heq ▸ mem_map_of_mem hv)
    have hregs : (∀ v∈w::rest, (a.regs v.thread).ok=false ∧ ¬Satisfies 0 v.bitptn v.mode.wait) →
        ∀ v∈rest, ((examine bitptn a w).regs v.thread).ok=false ∧
          ¬Satisfies 0 v.bitptn v.mode.wait := by
      intro h v hv
      rw [examine_regs_of_ne (hne v hv)]
      exact h v (mem_cons_of_mem _ hv)
    have hnext : attemptList bitptn (w::rest) a = attemptList bitptn rest (examine bitptn a w) →
        ((∀ v∈rest, ((examine bitptn a w).regs v.thread).ok=false ∧
            ¬Satisfies 0 v.bitptn v.mode.wait) ∨
          (sequential rest ((examine bitptn a w).toWrite &&& kept)).2≠0) →
        Agrees (attemptList bitptn rest (examine bitptn a w)) rest
            ((examine bitptn a w).toWrite &&& kept) ∧
          (sequential rest ((examine bitptn a w).toWrite &&& kept)).2 =
            (attemptList bitptn rest (examine bitptn a w)).toWrite &&& kept := by
      intro hgo hend
      rw [hgo] at hdep
      exact ih hnodup.2 (fun i hi hmem => hdep i hi (bits_toWrite_examine hmem))
        (fun v hv hwait i hi hmem => hor v (mem_cons_of_mem _ hv) hwait i hi (bits_toWrite_examine hmem))
        hend
    by_cases h : Satisfies a.toWrite w.bitptn w.mode.wait
    · have hkept := h.and_kept hb hdep (hor w mem_cons_self)
      have hok := attemptList_ok_head bitptn hnodup.1 h
      have hsame : (examine bitptn a w).toWrite = leaves a.toWrite w.bitptn w.mode.clear := by
        rw [examine_of_satisfies h]
      rw [sequential_of_satisfies hkept,leaves_and] at hend
      rw [agrees_cons_of_satisfies hnodup.1 hkept,sequential_of_satisfies hkept,leaves_and,
        and_iff_right hok]
      by_cases hzero : leaves a.toWrite w.bitptn w.mode.clear=0
      · have hnone : (0 : BitVec 64) &&& kept=0 := BitVec.zero_and
        obtain ⟨hpattern,hmem⟩ := sequential_zero hnodup.2
        rw [hzero,hnone] at hend
        rw [attemptList_of_stop h hzero,hsame,hzero,hnone]
        refine ⟨fun v hv => ?_,hpattern⟩
        obtain ⟨hfalse,hsat⟩ := hregs (hend.resolve_right (not_not.2 hpattern)) v hv
        rw [hmem v hv,hfalse,checkPattern_of_not_satisfies hsat]
        rfl
      · have hgo : attemptList bitptn (w::rest) a = _ := attemptList_of_go fun _ => hzero
        rw [← hsame] at hend ⊢
        rw [hgo]
        exact hnext hgo (hend.imp_left hregs)
    · have hgo : attemptList bitptn (w::rest) a = _ := attemptList_of_go fun hsat => absurd hsat h
      have hkept : ¬Satisfies (a.toWrite &&& kept) w.bitptn w.mode.wait :=
        fun hsat => h (hsat.mono fun i hi => (mem_bits_and.mp hi).1)
      have hsame : (examine bitptn a w).toWrite=a.toWrite := by rw [examine_of_not_satisfies h]
      rw [sequential_of_not_satisfies hkept,← hsame] at hend
      rw [agrees_cons_of_not_satisfies hnodup.1 hkept,sequential_of_not_satisfies hkept,hgo,
        attemptList_regs hnodup.1,examine_ok_of_not_satisfies h,← hsame,and_iff_right rfl]
      exact hnext hgo (hend.imp_left hregs)

end PS3Native.EventFlag
