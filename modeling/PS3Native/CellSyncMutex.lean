import PS3Native.Schedule
import Mathlib.Data.BitVec

/-!
# `CellSyncMutex`

A ticket lock of two 16-bit counters. A thread takes a ticket from `acq`, and has the mutex
once `rel` has come to its ticket. A thread unlocks what it holds. One that is being stopped
leaves its loop without the mutex, and takes no more steps.
-/
namespace PS3Native.CellSyncMutex
open Function List

structure Counter where
  rel : BitVec 16
  acq : BitVec 16
  deriving DecidableEq, Repr

def Counter.lockBegin (c : Counter) : BitVec 16 × Counter := (c.acq,{c with acq := c.acq+1})

def Counter.tryLock (c : Counter) : Option Counter :=
  if c.rel≠c.acq then none else some {c with acq := c.acq+1}

def Counter.unlock (c : Counter) : Counter := {c with rel := c.rel+1}

inductive Loc
  | idle
  | waiting (order : BitVec 16)
  | holding
  deriving DecidableEq, Repr

/-- `taken` are the threads that have taken tickets and `acquired` those that have got the
mutex, in the order in which they did, and `released` counts the unlocks. -/
structure State (τ : Type*) where
  ctrl : Counter
  loc : τ → Loc
  taken : List τ
  acquired : List τ
  released : ℕ

/-- `lock` takes the ticket of `cellSyncMutexLock`, and `poll` is one load of its loop. -/
inductive Act
  | lock | poll | tryLock | unlock
  deriving DecidableEq, Repr

variable {τ : Type*}

section Step

variable [DecidableEq τ] (s : State τ) (t : τ)

def State.lock : State τ :=
  { s with
    ctrl := s.ctrl.lockBegin.2
    loc := update s.loc t (.waiting s.ctrl.lockBegin.1)
    taken := s.taken++[t] }

def State.acquire : State τ :=
  {s with loc := update s.loc t .holding, acquired := s.acquired++[t]}

def State.unlock : State τ :=
  {s with ctrl := s.ctrl.unlock, loc := update s.loc t .idle, released := s.released+1}

def step (act : Act) : Option (State τ) :=
  match act with
  | .lock => if s.loc t = .idle then some (s.lock t) else none
  | .poll =>
    match s.loc t with
    | .waiting order => some (if s.ctrl.rel≠order then s else s.acquire t)
    | _ => none
  | .tryLock =>
    if s.loc t = .idle then
      some (match s.ctrl.tryLock with
        | none => s
        | some ctrl => {s with ctrl, taken := s.taken++[t]}.acquire t)
    else none
  | .unlock => if s.loc t = .holding then some (s.unlock t) else none

end Step

/-- The word that `cellSyncMutexInitialize` stores. -/
def initial (τ : Type*) : State τ := ⟨⟨0,0⟩,fun _ => .idle,[],[],0⟩

/-- Fewer than 65536 tickets are outstanding. -/
def State.Bounded (s : State τ) : Prop := s.taken.length < s.released+65536

def Next [DecidableEq τ] (s s' : State τ) : Prop := (∃ t act, step s t act = some s') ∧ s'.Bounded

def Reachable [DecidableEq τ] (s : State τ) : Prop := Relation.ReflTransGen Next (initial τ) s

/-- Where the thread with ticket `n` is until it unlocks, after `acquired` threads have got the
mutex. -/
def turn (acquired n : ℕ) : Loc := if n < acquired then .holding else .waiting (BitVec.ofNat 16 n)

structure Inv (s : State τ) : Prop where
  rel : s.ctrl.rel = BitVec.ofNat 16 s.released
  acq : s.ctrl.acq = BitVec.ofNat 16 s.taken.length
  ordered : s.acquired <+: s.taken
  released : s.released ≤ s.acquired.length ∧ s.acquired.length ≤ s.released+1
  bounded : s.Bounded
  loc : ∀ t l, l≠.idle →
    (s.loc t=l ↔ ∃ n, s.released ≤ n ∧ s.taken[n]? = some t ∧ turn s.acquired.length n=l)

variable {s s' : State τ} {t u : τ} {n : ℕ}

theorem ofNat_inj {m : ℕ} (h : BitVec.ofNat 16 m = BitVec.ofNat 16 n) (hle : m ≤ n)
    (hlt : n < m+65536) : m=n := by
  have hmod := congrArg BitVec.toNat h
  simp only [BitVec.toNat_ofNat] at hmod
  omega

theorem Inv.ticket_lt (h : Inv s) (hn : s.taken[n]? = some t) : n < s.released+65536 := by
  obtain ⟨hlt,_⟩ := List.getElem?_eq_some_iff.mp hn
  exact hlt.trans h.bounded

theorem Inv.loc_eq (h : Inv s) (hle : s.released ≤ n) (hn : s.taken[n]? = some t) :
    s.loc t = turn s.acquired.length n := by
  refine (h.loc t _ ?_).mpr ⟨n,hle,hn,rfl⟩
  rw [turn]
  split_ifs <;> rintro ⟨⟩

theorem Inv.held (h : Inv s) (hloc : s.loc t = .holding) :
    s.acquired.length = s.released+1 ∧ s.taken[s.released]? = some t := by
  obtain ⟨n,hle,hn,hturn⟩ := (h.loc t _ (by rintro ⟨⟩)).mp hloc
  rw [turn] at hturn
  split_ifs at hturn with hlt
  have hreleased := h.released.2
  obtain rfl : s.released=n := by omega
  exact ⟨by omega,hn⟩

theorem Inv.ticket_unique {m : ℕ} (h : Inv s) (hm : s.released ≤ m) (hmt : s.taken[m]? = some t)
    (hn : s.released ≤ n) (hnt : s.taken[n]? = some t) : m=n := by
  have hturn := (h.loc_eq hm hmt).symm.trans (h.loc_eq hn hnt)
  have hreleased := h.released.2
  have hlt := h.ticket_lt hmt
  have hlt' := h.ticket_lt hnt
  rw [turn,turn] at hturn
  split_ifs at hturn
  · omega
  · rcases Nat.le_total m n with hle | hle
    · exact ofNat_inj (Loc.waiting.inj hturn) hle (by omega)
    · exact (ofNat_inj (Loc.waiting.inj hturn).symm hle (by omega)).symm

/-- Only the ticket that is served next passes the test of the loop. -/
theorem Inv.served (h : Inv s) {order : BitVec 16} (hloc : s.loc t = .waiting order)
    (hrel : s.ctrl.rel=order) :
    s.acquired.length=s.released ∧ s.taken[s.released]? = some t := by
  obtain ⟨n,hle,hn,hturn⟩ := (h.loc t _ (by rintro ⟨⟩)).mp hloc
  rw [turn,← hrel,h.rel] at hturn
  split_ifs at hturn with hlt
  obtain rfl := ofNat_inj (Loc.waiting.inj hturn).symm hle (h.ticket_lt hn)
  have hreleased := h.released.1
  exact ⟨by omega,hn⟩

/-- Equal counters say that all tickets are released. -/
theorem Inv.idle_of_eq (h : Inv s) (heq : s.ctrl.rel=s.ctrl.acq) (u : τ) : s.loc u = .idle := by
  have hle := h.ordered.length_le
  have hreleased := h.released.1
  rw [h.rel,h.acq] at heq
  have hlength := ofNat_inj heq (by omega) h.bounded
  by_contra hloc
  obtain ⟨n,hn,hsome,_⟩ := (h.loc u _ hloc).mp rfl
  obtain ⟨hlt,_⟩ := List.getElem?_eq_some_iff.mp hsome
  omega

theorem inv_initial : Inv (initial τ) :=
  ⟨rfl,rfl,prefix_rfl,⟨Nat.le_refl 0,Nat.zero_le 1⟩,Nat.zero_lt_succ _,by simp [initial,eq_comm]⟩

variable [DecidableEq τ]

theorem Inv.lock (h : Inv s) (hloc : s.loc t = .idle)
    (hbounded : s.taken.length+1 < s.released+65536) : Inv (s.lock t) := by
  unfold State.lock
  have hle := h.ordered.length_le
  refine ⟨h.rel,?_,h.ordered.trans (prefix_append ..),h.released,?_,fun u l hl => ?_⟩
  · simp [Counter.lockBegin,h.acq,BitVec.ofNat_add]
  · simpa [State.Bounded] using hbounded
  · have htaken : ∀ n, (s.taken++[t])[n]? = some u ↔
        s.taken[n]? = some u ∨ n=s.taken.length ∧ u=t := by
      intro n
      rcases Nat.lt_trichotomy n s.taken.length with hn | rfl | hn
      · simp [getElem?_append_left hn,hn.ne]
      · simp [eq_comm]
      · simp [getElem?_append_right hn.le,hn.le,hn.ne',show n-s.taken.length≠0 by omega]
    simp only [htaken]
    by_cases hu : u=t
    · subst hu
      have hturn : turn s.acquired.length s.taken.length = .waiting s.ctrl.lockBegin.1 := by
        rw [turn,if_neg (by omega),Counter.lockBegin,h.acq]
      rw [update_self,← hturn]
      constructor
      · rintro rfl
        exact ⟨_,h.released.1.trans hle,.inr ⟨rfl,rfl⟩,rfl⟩
      · rintro ⟨n,hn,hsome | ⟨rfl,_⟩,rfl⟩
        · exact absurd (hloc.symm.trans (h.loc_eq hn hsome)) hl.symm
        · rfl
    · simpa [hu] using h.loc u l hl

theorem Inv.poll (h : Inv s) {order : BitVec 16} (hloc : s.loc t = .waiting order)
    (hrel : s.ctrl.rel=order) : Inv (s.acquire t) := by
  unfold State.acquire
  obtain ⟨hlength,hnext⟩ := h.served hloc hrel
  refine ⟨h.rel,h.acq,?_,by simp [hlength],h.bounded,fun u l hl => ?_⟩
  · obtain ⟨hlt,hget⟩ := List.getElem?_eq_some_iff.mp hnext
    rw [prefix_iff_eq_take.mp h.ordered,← hget,hlength,← take_succ_eq_append_getElem]
    exact take_prefix ..
  · simp only [length_append,length_singleton,hlength]
    by_cases hu : u=t
    · subst hu
      rw [update_self]
      constructor
      · rintro rfl
        exact ⟨_,Nat.le_refl _,hnext,if_pos (Nat.lt_succ_self _)⟩
      · rintro ⟨n,hn,hsome,rfl⟩
        obtain rfl := h.ticket_unique (Nat.le_refl _) hnext hn hsome
        exact (if_pos (Nat.lt_succ_self _)).symm
    · rw [update_of_ne hu,h.loc u l hl,hlength]
      refine exists_congr fun n => and_congr_right fun hn => and_congr_right fun hsome => ?_
      have hne : s.released≠n := by
        rintro rfl
        exact hu (Option.some.inj (hsome.symm.trans hnext))
      rw [turn,turn,if_neg (by omega),if_neg (by omega)]

/-- A successful try takes a ticket that is served at once. -/
theorem Inv.tryLock (h : Inv s) (hloc : s.loc t = .idle) (heq : s.ctrl.rel=s.ctrl.acq)
    (hbounded : s.taken.length+1 < s.released+65536) :
    Inv ({s with ctrl := s.ctrl.lockBegin.2, taken := s.taken++[t]}.acquire t) := by
  have hpoll := (h.lock hloc hbounded).poll (update_self t _ s.loc) heq
  rwa [State.acquire,State.lock,update_idem] at hpoll

theorem Inv.unlock (h : Inv s) (hloc : s.loc t = .holding) : Inv (s.unlock t) := by
  unfold State.unlock
  obtain ⟨hlength,hnext⟩ := h.held hloc
  refine ⟨by simp [Counter.unlock,h.rel,BitVec.ofNat_add],h.acq,h.ordered,
    ⟨hlength.ge,by simp [hlength]⟩,?_,fun u l hl => ?_⟩
  · exact h.bounded.trans (Nat.add_lt_add_right (Nat.lt_succ_self _) _)
  · by_cases hu : u=t
    · subst hu
      refine iff_of_false (by simpa using hl.symm) ?_
      rintro ⟨n,hn,hsome,_⟩
      have heq := h.ticket_unique (Nat.le_refl _) hnext (Nat.le_of_succ_le hn) hsome
      exact Nat.ne_of_lt hn heq
    · simp only [update_of_ne hu,h.loc u l hl]
      refine exists_congr fun n => and_congr_left fun hsome => ⟨fun hn => ?_,Nat.le_of_succ_le⟩
      refine Nat.lt_of_le_of_ne hn ?_
      rintro rfl
      exact hu (Option.some.inj (hsome.1.symm.trans hnext))

theorem Inv.step {act : Act} (h : Inv s) (hstep : step s t act = some s') (hbounded : s'.Bounded) :
    Inv s' := by
  cases act with
  | lock =>
    simp only [CellSyncMutex.step] at hstep
    split_ifs at hstep with hloc
    cases hstep
    exact h.lock hloc (by simpa [State.Bounded,State.lock] using hbounded)
  | poll =>
    simp only [CellSyncMutex.step] at hstep
    split at hstep
    · next order hloc =>
      cases hstep
      split_ifs with hrel
      · exact h
      · exact h.poll hloc (not_not.mp hrel)
    · cases hstep
  | tryLock =>
    simp only [CellSyncMutex.step,Counter.tryLock] at hstep
    split_ifs at hstep with hloc hrel
    · cases hstep
      exact h
    · cases hstep
      exact h.tryLock hloc (not_not.mp hrel) (by simpa [State.Bounded,State.acquire] using hbounded)
  | unlock =>
    simp only [CellSyncMutex.step] at hstep
    split_ifs at hstep with hloc
    cases hstep
    exact h.unlock hloc

theorem Reachable.inv (h : Reachable s) : Inv s := by
  induction h with
  | refl => exact inv_initial
  | tail _ hnext ih =>
    obtain ⟨⟨t,act,hstep⟩,hbounded⟩ := hnext
    exact ih.step hstep hbounded

structure Correct (s : State τ) : Prop where
  exclusive : ∀ t u, s.loc t = .holding → s.loc u = .holding → t=u
  /-- Threads get the mutex in the order of their tickets. -/
  ordered : s.acquired <+: s.taken
  /-- A try succeeds only when nobody holds the mutex or waits for it. -/
  tryLock : ∀ t s', step s t .tryLock = some s' → s'.loc t = .holding → ∀ u, s.loc u = .idle
  /-- After an unlock the thread with the next ticket gets the mutex at its next load. -/
  unlock : ∀ t s', step s t .unlock = some s' → ∀ u, s'.taken[s'.released]? = some u →
    ∃ s'', step s' u .poll = some s'' ∧ s''.loc u = .holding

theorem Inv.tryLock_free (h : Inv s) (hstep : CellSyncMutex.step s t .tryLock = some s')
    (hheld : s'.loc t = .holding) (u : τ) : s.loc u = .idle := by
  simp only [CellSyncMutex.step,Counter.tryLock] at hstep
  split_ifs at hstep with hloc hrel
  · cases hstep
    rw [hloc] at hheld
    cases hheld
  · exact h.idle_of_eq (not_not.mp hrel) u

theorem Inv.poll_next (h : Inv s) (hfree : s.acquired.length ≤ s.released)
    (hu : s.taken[s.released]? = some u) :
    ∃ s', CellSyncMutex.step s u .poll = some s' ∧ s'.loc u = .holding := by
  have hloc : s.loc u = .waiting (BitVec.ofNat 16 s.released) := by
    rw [h.loc_eq (Nat.le_refl _) hu,turn,if_neg (by omega)]
  refine ⟨s.acquire u,?_,update_self ..⟩
  simp only [CellSyncMutex.step,hloc]
  rw [if_neg (not_not.mpr h.rel)]

theorem Inv.unlock_next (h : Inv s) (hstep : CellSyncMutex.step s t .unlock = some s')
    (hu : s'.taken[s'.released]? = some u) :
    ∃ s'', CellSyncMutex.step s' u .poll = some s'' ∧ s''.loc u = .holding := by
  simp only [CellSyncMutex.step] at hstep
  split_ifs at hstep with hloc
  cases hstep
  exact (h.unlock hloc).poll_next h.released.2 hu

/-- In every state of every interleaving, with fewer than 65536 tickets outstanding at any
time, the mutex is held by one thread, and goes from ticket to ticket. -/
theorem cell_sync_mutex_correct (h : Reachable s) : Correct s where
  exclusive := by
    intro t u ht hu
    have hnext := (h.inv.held ht).2
    rw [(h.inv.held hu).2] at hnext
    exact (Option.some.inj hnext).symm
  ordered := h.inv.ordered
  tryLock := fun _ _ hstep hheld => h.inv.tryLock_free hstep hheld
  unlock := fun _ _ hstep _ hu => h.inv.unlock_next hstep hu

/-- The second thread waits while the first one unlocks, and then has the mutex. -/
theorem cell_sync_mutex_correct_handed_over :
    ∃ s : State Bool, (s.acquired,s.loc true) = ([false,true],.holding) ∧ Correct s := by
  have hrun : (Schedule.run (fun (s : State Bool) (c : Bool × Act) =>
      (step s c.1 c.2).filter fun s' => s'.taken.length < s'.released+65536) (initial Bool)
      [(false,.tryLock),(true,.lock),(true,.poll),(false,.unlock),(true,.poll)]).map
      (fun s => (s.acquired,s.loc true)) = some ([false,true],.holding) := by decide
  obtain ⟨s,hreach,hs⟩ := Schedule.exists_of_run (R := Next) (fun s c s' htake => by
    obtain ⟨hstep,hbounded⟩ := Option.filter_eq_some_iff.mp htake
    exact ⟨⟨c.1,c.2,hstep⟩,by simpa [State.Bounded] using hbounded⟩) hrun
  exact ⟨s,hs,cell_sync_mutex_correct hreach⟩

end PS3Native.CellSyncMutex
