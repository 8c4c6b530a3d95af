import Mathlib.Data.List.Basic

/-!
# Reader-writer locks

A lock with its holders: at most one writer, or any number of readers.
-/
namespace PS3Native.ReaderWriter
open List

variable {τ : Type*}

structure Lock (τ : Type*) where
  writer : Option τ
  readers : List τ

def free : Lock τ := ⟨none,[]⟩

variable {m m' : Lock τ} {full full' : Bool} {t u : τ}

/-- Whether the thread holds the lock, as its writer if `full` is set and as a reader if not. -/
def Lock.Holds (m : Lock τ) (full : Bool) (t : τ) : Prop :=
  if full then m.writer = some t else t∈m.readers

structure Lock.WellFormed (m : Lock τ) : Prop where
  nodup : m.readers.Nodup
  exclusive : m.writer≠none → m.readers=[]

theorem free_wellFormed : (free : Lock τ).WellFormed := ⟨nodup_nil,fun _ => rfl⟩

theorem not_holds_free (full : Bool) (t : τ) : ¬(free : Lock τ).Holds full t := by
  cases full <;> simp [free,Lock.Holds]

/-- The lock when the thread has got it, if it can. -/
def Lock.tryLock (m : Lock τ) (full : Bool) (t : τ) : Option (Lock τ) :=
  match m.writer, full with
  | some _, _ => none
  | none, true => if m.readers.isEmpty then some ⟨some t,[]⟩ else none
  | none, false => some ⟨none,t::m.readers⟩

def Lock.unlock [DecidableEq τ] (m : Lock τ) (full : Bool) (t : τ) : Lock τ :=
  if full then {m with writer := none} else {m with readers := m.readers.erase t}

theorem Lock.WellFormed.eq_of_holds (hm : m.WellFormed) (ht : m.Holds full t) (hu : m.Holds full' u)
    (hfull : full ∨ full') : t=u := by
  cases full with
  | true =>
    cases full' with
    | true => exact Option.some.inj (ht.symm.trans hu)
    | false =>
      have hempty := hm.exclusive (by rw [ht]; exact Option.some_ne_none t)
      rw [Holds,hempty] at hu
      cases hu
  | false =>
    obtain rfl := hfull.resolve_left Bool.false_ne_true
    have hempty := hm.exclusive (by rw [hu]; exact Option.some_ne_none u)
    rw [Holds,hempty] at ht
    cases ht

theorem tryLock_eq_some (h : m.tryLock full t = some m') :
    m.writer=none ∧ (full → m.readers=[]) ∧
      m' = if full then ⟨some t,[]⟩ else ⟨none,t::m.readers⟩ := by
  unfold Lock.tryLock at h
  split at h
  · cases h
  · next hwriter =>
    split at h
    · next hempty =>
      cases h
      exact ⟨hwriter,fun _ => isEmpty_iff.1 hempty,rfl⟩
    · cases h
  · next hwriter =>
    cases h
    exact ⟨hwriter,by rintro ⟨⟩,rfl⟩

theorem holds_tryLock (h : m.tryLock full t = some m') :
    m'.Holds full' u ↔ m.Holds full' u ∨ (full'=full ∧ u=t) := by
  obtain ⟨hwriter,hreaders,rfl⟩ := tryLock_eq_some h
  cases full with
  | true => cases full' <;> simp [Lock.Holds,hwriter,hreaders rfl,eq_comm]
  | false => cases full' <;> simp [Lock.Holds,hwriter,or_comm]

theorem Lock.WellFormed.tryLock (hm : m.WellFormed) (h : m.tryLock full t = some m')
    (ht : ¬m.Holds full t) : m'.WellFormed := by
  obtain ⟨hwriter,hreaders,rfl⟩ := tryLock_eq_some h
  cases full with
  | true => exact ⟨nodup_nil,fun _ => rfl⟩
  | false => exact ⟨nodup_cons.2 ⟨ht,hm.nodup⟩,fun h => absurd rfl h⟩

/-- A thread gets the lock if nobody holds it in a way that excludes it. -/
theorem exists_tryLock (h : ∀ full' u, m.Holds full' u → full'=false ∧ full=false) (t : τ) :
    ∃ m', m.tryLock full t = some m' := by
  have hwriter : m.writer=none := by
    cases hw : m.writer with
    | none => rfl
    | some u => cases (h true u hw).1
  cases full with
  | false => exact ⟨⟨none,t::m.readers⟩,by simp [Lock.tryLock,hwriter]⟩
  | true =>
    have hempty : m.readers=[] := by
      refine eq_nil_iff_forall_not_mem.2 fun u hu => ?_
      cases (h false u hu).2
    exact ⟨⟨some t,[]⟩,by simp [Lock.tryLock,hwriter,hempty]⟩

section Unlock

variable [DecidableEq τ]

theorem Lock.WellFormed.holds_unlock (hm : m.WellFormed) (ht : m.Holds full t) :
    (m.unlock full t).Holds full' u ↔ m.Holds full' u ∧ ¬(full'=full ∧ u=t) := by
  cases full with
  | true =>
    have hempty := hm.exclusive (by rw [ht]; exact Option.some_ne_none t)
    have hwriter : m.writer = some t := ht
    cases full' <;> simp [Lock.unlock,Lock.Holds,hempty,hwriter,eq_comm]
  | false =>
    cases full' with
    | true => simp [Lock.unlock,Lock.Holds]
    | false => simp [Lock.unlock,Lock.Holds,hm.nodup.mem_erase_iff,and_comm]

theorem Lock.WellFormed.unlock (hm : m.WellFormed) (ht : m.Holds full t) :
    (m.unlock full t).WellFormed := by
  cases full with
  | true => exact ⟨hm.nodup,fun h => absurd rfl h⟩
  | false =>
    refine ⟨hm.nodup.erase t,fun h => ?_⟩
    have hempty := hm.exclusive h
    change m.readers.erase t=[]
    rw [hempty]
    rfl

end Unlock

end PS3Native.ReaderWriter
