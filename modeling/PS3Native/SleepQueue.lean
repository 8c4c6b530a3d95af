import Mathlib.Data.BitVec

/-!
# The queue of sleeping threads

The threads that wait for an object of the kernel stand in a linked list, the newest first.
`schedule` takes the oldest, or the one with the best priority, where an order drawn from a global
counter decides between equal ones.
-/
namespace PS3Native.SleepQueue
open List

inductive Protocol
  | fifo | priority | priorityInherit | retry
  deriving DecidableEq, Repr

/-- A thread of the queue, with its `ppu_prio_t`. -/
structure Sleeper (τ : Type*) where
  thread : τ
  prio : ℤ
  order : ℤ
  deriving DecidableEq, Repr

/-- The bit field `order` has 50 bits and a sign. -/
def tagOrder (tag : ℕ) : ℤ := (BitVec.ofNat 50 tag).toInt

theorem tagOrder_eq {tag : ℕ} (h : tag < 2^49) : tagOrder tag=tag := by
  rw [tagOrder,BitVec.toInt_eq_toNat_bmod,BitVec.toNat_ofNat,Nat.mod_eq_of_lt (by omega),
    Int.bmod_eq_of_le (by omega) (by omega)]

variable {τ : Type*}

def Precedes (v w : Sleeper τ) : Prop := v.prio < w.prio ∨ (v.prio=w.prio ∧ v.order < w.order)

instance (v w : Sleeper τ) : Decidable (Precedes v w) :=
  inferInstanceAs (Decidable (v.prio < w.prio ∨ (v.prio=w.prio ∧ v.order < w.order)))

def scheduleLoop (found : Sleeper τ) : List (Sleeper τ) → Sleeper τ
  | [] => found
  | next::rest => scheduleLoop (if Precedes next found then next else found) rest

/-- The thread that `schedule` finds in a list with the head `it`. -/
def schedule (protocol : Protocol) (it : Sleeper τ) (rest : List (Sleeper τ)) : Sleeper τ :=
  if protocol=.fifo then (it::rest).getLast (List.cons_ne_nil it rest) else scheduleLoop it rest

/-- The protocol serves `w` first: it is the oldest, or nobody goes before it. -/
def First (protocol : Protocol) (queue : List (Sleeper τ)) (w : Sleeper τ) : Prop :=
  if protocol=.fifo then queue.getLast? = some w else w∈queue ∧ ∀ v∈queue, ¬Precedes v w

theorem not_precedes_trans {u v w : Sleeper τ} (huv : ¬Precedes v u) (hvw : ¬Precedes w v) :
    ¬Precedes w u := by
  unfold Precedes at *
  omega

theorem Precedes.asymm {v w : Sleeper τ} (h : Precedes v w) : ¬Precedes w v := by
  unfold Precedes at *
  omega

theorem scheduleLoop_spec (found : Sleeper τ) (rest : List (Sleeper τ)) :
    scheduleLoop found rest∈found::rest ∧
      ∀ v∈found::rest, ¬Precedes v (scheduleLoop found rest) := by
  induction rest generalizing found with
  | nil =>
    refine ⟨mem_cons_self,?_⟩
    intro v hv
    rw [mem_singleton] at hv
    subst hv
    exact fun h => h.asymm h
  | cons next rest ih =>
    rw [scheduleLoop]
    obtain ⟨hmem,hfirst⟩ := ih (if Precedes next found then next else found)
    set best := if Precedes next found then next else found with hbest
    have hnext : ¬Precedes next best := by
      rw [hbest]
      split_ifs with h
      · exact fun h => h.asymm h
      · exact h
    have hfound : ¬Precedes found best := by
      rw [hbest]
      split_ifs with h
      · exact h.asymm
      · exact fun h => h.asymm h
    have hbestFirst := hfirst best mem_cons_self
    constructor
    · rcases mem_cons.mp hmem with heq | hmem
      · rw [heq,hbest]
        split_ifs <;> simp
      · exact mem_cons_of_mem _ (mem_cons_of_mem _ hmem)
    · intro v hv
      rcases mem_cons.mp hv with rfl | hv
      · exact not_precedes_trans hbestFirst hfound
      · rcases mem_cons.mp hv with rfl | hv
        · exact not_precedes_trans hbestFirst hnext
        · exact hfirst v (mem_cons_of_mem _ hv)

/-- `schedule` finds the thread that the protocol serves first. -/
theorem schedule_first (protocol : Protocol) (it : Sleeper τ) (rest : List (Sleeper τ)) :
    First protocol (it::rest) (schedule protocol it rest) := by
  unfold First schedule
  split_ifs
  · exact getLast?_eq_some_getLast _
  · exact scheduleLoop_spec it rest

theorem First.mem {protocol : Protocol} {queue : List (Sleeper τ)} {w : Sleeper τ}
    (h : First protocol queue w) : w∈queue := by
  unfold First at h
  split_ifs at h
  · exact mem_of_getLast? h
  · exact h.1

/-- `lv2_obj::unqueue`. -/
def unqueue [DecidableEq τ] (queue : List (Sleeper τ)) (t : τ) : List (Sleeper τ) :=
  queue.eraseP fun w => w.thread=t

theorem unqueue_perm [DecidableEq τ] {queue : List (Sleeper τ)} {t : τ}
    (hmem : t∈queue.map Sleeper.thread) : ∃ e, e.thread=t ∧ queue.Perm (e::unqueue queue t) := by
  obtain ⟨w,hw,hwt⟩ := mem_map.mp hmem
  obtain ⟨e,front,back,-,he,hqueue,herase⟩ :=
    exists_of_eraseP (p := fun w => decide (w.thread=t)) hw (decide_eq_true hwt)
  refine ⟨e,of_decide_eq_true he,?_⟩
  rw [unqueue,herase,hqueue]
  exact perm_middle

end PS3Native.SleepQueue
