import PS3Native.SleepQueue

/-!
# `sys_event_flag_set`

A set works out which waiters its bits satisfy, in the order of the protocol and outside of the
atomic update of the pattern. The update commits when the bits this depends on have not changed,
else all is done again. New waiters are put at the front of the queue, so the older of two stands
further behind. Savestates are not modelled.
-/
namespace PS3Native.EventFlag
open SleepQueue (Protocol)

inductive Wait
  | and | or
  deriving DecidableEq, Repr

inductive Clear
  | keep | clear | clearAll
  deriving DecidableEq, Repr

/-- The modes `check_mode` accepts. -/
structure Mode where
  wait : Wait
  clear : Clear
  deriving DecidableEq, Repr

/-- The pattern a wait for `bitptn` leaves behind, if it is satisfied. -/
def checkPattern (pattern bitptn : BitVec 64) (mode : Mode) : Option (BitVec 64) :=
  if (mode.wait=.and ∧ pattern &&& bitptn≠bitptn) ∨ (mode.wait=.or ∧ pattern &&& bitptn=0) then
    none
  else
    match mode.clear with
    | .keep => some pattern
    | .clear => some (pattern &&& ~~~bitptn)
    | .clearAll => some 0

/-- A thread of the sleep queue with the arguments of its wait. Priorities are `s32`. -/
structure Waiter (τ : Type*) where
  thread : τ
  bitptn : BitVec 64
  mode : Mode
  prio : ℤ
  prio_le : prio ≤ 2^31-1
  deriving DecidableEq

/-- Registers 3 and 6 of a waiter: whether the answer is `CELL_OK`, and the pattern that
was last tested. -/
structure Regs where
  ok : Bool
  result : BitVec 64
  deriving DecidableEq, Repr

variable {τ : Type*} [DecidableEq τ]

/-- The loop of `get_next`, with `it` and `prio`; `marked` is register 7. -/
def getNextLoop (protocol : Protocol) (marked : τ → Bool) :
    List (Waiter τ) → Option (Waiter τ) → ℤ → Option (Waiter τ)
  | [], it, _ => it
  | w::rest, it, prio =>
    if marked w.thread=false ∧ (protocol≠.priority ∨ w.prio ≤ prio) then
      getNextLoop protocol marked rest (some w) w.prio
    else getNextLoop protocol marked rest it prio

def getNext (protocol : Protocol) (queue : List (Waiter τ)) (marked : τ → Bool) :
    Option (Waiter τ) :=
  getNextLoop protocol marked queue none (2^31-1)

structure Attempt (τ : Type*) where
  toWrite : BitVec 64
  dependantMask : BitVec 64
  count : ℕ
  regs : τ → Regs

/-- The bits outside of the set that a satisfied waiter depends on. -/
def dependantMaskOr (bitptn toWrite : BitVec 64) (w : Waiter τ) : BitVec 64 :=
  if w.mode.wait=.or ∨ bitptn &&& w.bitptn &&& toWrite=w.bitptn then 0 else w.bitptn

def examine (bitptn : BitVec 64) (a : Attempt τ) (w : Waiter τ) : Attempt τ :=
  match checkPattern a.toWrite w.bitptn w.mode with
  | some toWrite =>
    { toWrite
      dependantMask := a.dependantMask ||| dependantMaskOr bitptn a.toWrite w
      count := a.count+1
      regs := Function.update a.regs w.thread ⟨true,a.toWrite⟩ }
  | none => {a with regs := Function.update a.regs w.thread ⟨false,a.toWrite⟩}

/-- The loop ends early at a satisfied waiter that leaves no bits. -/
def stops (a : Attempt τ) (w : Waiter τ) : Bool :=
  checkPattern a.toWrite w.bitptn w.mode == some 0

/-- The loop over the waiters; `get_next` yields every waiter at most once. -/
def attemptLoop (protocol : Protocol) (queue : List (Waiter τ)) (bitptn : BitVec 64) :
    ℕ → (τ → Bool) → Attempt τ → Attempt τ
  | 0, _, a => a
  | n+1, marked, a =>
    match getNext protocol queue marked with
    | none => a
    | some w =>
      if stops a w then examine bitptn a w
      else attemptLoop protocol queue bitptn n (Function.update marked w.thread true)
        (examine bitptn a w)

def attempt (protocol : Protocol) (queue : List (Waiter τ)) (bitptn pattern : BitVec 64)
    (regs : τ → Regs) : Attempt τ :=
  attemptLoop protocol queue bitptn queue.length (fun _ => false) ⟨pattern ||| bitptn,0,0,regs⟩

/-- The atomic update of the pattern, which is `x` by then. -/
def commit (x pattern bitptn : BitVec 64) (a : Attempt τ) : Option (BitVec 64) :=
  if (x ^^^ pattern) &&& (a.dependantMask &&& ~~~bitptn)≠0 then none
  else some ((x ||| bitptn) &&& ~~~((pattern ||| bitptn) &&& ~~~a.toWrite))

/-- What other threads do to the pattern without the mutex of the flag. -/
inductive Interference
  | clear (bitptn : BitVec 64)
  | trywait (bitptn : BitVec 64) (mode : Mode)

def Interference.apply (pattern : BitVec 64) : Interference → BitVec 64
  | .clear bitptn => pattern &&& bitptn
  | .trywait bitptn mode => (checkPattern pattern bitptn mode).getD pattern

/-- How a set ends that updates the pattern, with the pattern that the update met. -/
structure Committed (τ : Type*) where
  woken : List τ
  queue : List (Waiter τ)
  pattern : BitVec 64
  found : BitVec 64

/-- The waiters with `CELL_OK` leave the queue, unless nobody was counted. -/
def finish (queue : List (Waiter τ)) (found pattern : BitVec 64) (a : Attempt τ) : Committed τ :=
  let woken := if a.count=0 then [] else
    (queue.filter fun w => (a.regs w.thread).ok).map Waiter.thread
  ⟨woken,queue.filter (fun w => w.thread∉woken),pattern,found⟩

/-- The attempts from the `n`-th on; before its update the interference `env n` happens. -/
def setLoop (protocol : Protocol) (queue : List (Waiter τ)) (bitptn : BitVec 64)
    (env : ℕ → List Interference) : ℕ → ℕ → BitVec 64 → (τ → Regs) → Option (Committed τ)
  | 0, _, _, _ => none
  | fuel+1, n, pattern, regs =>
    let a := attempt protocol queue bitptn pattern regs
    let x := (env n).foldl Interference.apply pattern
    match commit x pattern bitptn a with
    | some new => some (finish queue x new a)
    | none => setLoop protocol queue bitptn env fuel (n+1) x a.regs

inductive Outcome (τ : Type*)
  | alreadySet
  | committed (c : Committed τ)
  | unfinished

/-- Every retry has seen a bit go, so that 65 attempts are enough. The waiters come with
`-1` in register 3; `env 0` and `env 1` happen before the two reads. -/
def sysEventFlagSet (protocol : Protocol) (queue : List (Waiter τ)) (bitptn : BitVec 64)
    (env : ℕ → List Interference) (pattern : BitVec 64) : Outcome τ :=
  let first := (env 0).foldl Interference.apply pattern
  if first &&& bitptn=bitptn then .alreadySet
  else
    let read := (env 1).foldl Interference.apply first
    match setLoop protocol queue bitptn env 65 2 read (fun _ => ⟨false,0⟩) with
    | some c => .committed c
    | none => .unfinished

open Function List

variable {τ : Type*} {protocol : Protocol} {queue : List (Waiter τ)} {marked : τ → Bool}

/-- The protocol serves `w` before `v`: it has a better priority, or it is older. -/
def Before (protocol : Protocol) (queue : List (Waiter τ)) (w v : Waiter τ) : Prop :=
  if protocol=.priority then w.prio < v.prio ∨ (w.prio=v.prio ∧ [v,w].Sublist queue)
  else [v,w].Sublist queue

instance [DecidableEq τ] (protocol : Protocol) (queue : List (Waiter τ)) (w v : Waiter τ) :
    Decidable (Before protocol queue w v) :=
  inferInstanceAs (Decidable (if protocol=.priority then _ else _))

variable {v w : Waiter τ}

theorem Before.cons (h : Before protocol queue w v) (a : Waiter τ) :
    Before protocol (a::queue) w v := by
  unfold Before at h ⊢
  split_ifs at h ⊢
  · exact h.imp_right fun h => ⟨h.1,h.2.cons a⟩
  · exact h.cons a

/-- A waiter at the front is served after a waiter behind that is not less urgent. -/
theorem before_head {a : Waiter τ} (hw : w∈queue) (hprio : protocol=.priority → w.prio ≤ a.prio) :
    Before protocol (a::queue) w a := by
  have hsub : [a,w].Sublist (a::queue) := (singleton_sublist.mpr hw).cons_cons a
  unfold Before
  split_ifs with hp
  · rcases lt_or_eq_of_le (hprio hp) with hlt | heq
    · exact .inl hlt
    · exact .inr ⟨heq,hsub⟩
  · exact hsub

theorem Before.of_lt (hp : protocol=.priority) (h : w.prio < v.prio) :
    Before protocol queue w v := by
  rw [Before,if_pos hp]
  exact .inl h

/-- `get_next` keeps what it has when the rest is less urgent, else it finds the first
waiter of the rest in the order of the protocol. -/
theorem getNextLoop_spec (rest : List (Waiter τ)) (it : Option (Waiter τ)) (prio : ℤ) :
    (getNextLoop protocol marked rest it prio=it ∧
      ∀ v∈rest, marked v.thread=false → protocol=.priority ∧ prio < v.prio) ∨
    ∃ w∈rest, getNextLoop protocol marked rest it prio = some w ∧ marked w.thread=false ∧
      (protocol=.priority → w.prio ≤ prio) ∧
      ∀ v∈rest, marked v.thread=false → v≠w → Before protocol rest w v := by
  induction rest generalizing it prio with
  | nil => exact .inl ⟨rfl,by simp⟩
  | cons a rest ih =>
    rw [getNextLoop]
    split_ifs with hchosen
    · refine .inr ?_
      rcases ih (some a) a.prio with ⟨hresult,hrest⟩ | ⟨w,hw,hresult,hmark,hprio,hbefore⟩
      · refine ⟨a,mem_cons_self,hresult,hchosen.1,?_,?_⟩
        · intro hp
          exact hchosen.2.resolve_left fun h => h hp
        · intro v hv hvmark hne
          obtain ⟨hp,hlt⟩ := hrest v ((mem_cons.mp hv).resolve_left hne) hvmark
          exact .of_lt hp hlt
      · refine ⟨w,mem_cons_of_mem _ hw,hresult,hmark,?_,?_⟩
        · intro hp
          exact (hprio hp).trans (hchosen.2.resolve_left fun h => h hp)
        · intro v hv hvmark hne
          rcases mem_cons.mp hv with rfl | hv
          · exact before_head hw hprio
          · exact (hbefore v hv hvmark hne).cons a
    · have hskip : marked a.thread=false → protocol=.priority ∧ prio < a.prio := by
        intro hmark
        rw [not_and,not_or,not_not,not_le] at hchosen
        exact hchosen hmark
      rcases ih it prio with ⟨hresult,hrest⟩ | ⟨w,hw,hresult,hmark,hprio,hbefore⟩
      · refine .inl ⟨hresult,?_⟩
        intro v hv hvmark
        rcases mem_cons.mp hv with rfl | hv
        · exact hskip hvmark
        · exact hrest v hv hvmark
      · refine .inr ⟨w,mem_cons_of_mem _ hw,hresult,hmark,hprio,?_⟩
        intro v hv hvmark hne
        rcases mem_cons.mp hv with rfl | hv
        · obtain ⟨hp,hlt⟩ := hskip hvmark
          exact .of_lt hp ((hprio hp).trans_lt hlt)
        · exact (hbefore v hv hvmark hne).cons a

theorem getNext_spec (protocol : Protocol) (queue : List (Waiter τ)) (marked : τ → Bool) :
    (getNext protocol queue marked=none ∧ ∀ v∈queue, marked v.thread) ∨
    ∃ w∈queue, getNext protocol queue marked = some w ∧ marked w.thread=false ∧
      ∀ v∈queue, marked v.thread=false → v≠w → Before protocol queue w v := by
  rcases @getNextLoop_spec τ protocol marked queue none (2^31-1) with
    ⟨hresult,hrest⟩ | ⟨w,hw,hresult,hmark,-,hbefore⟩
  · refine .inl ⟨hresult,?_⟩
    intro v hv
    by_contra hmark
    rw [Bool.not_eq_true] at hmark
    exact absurd (hrest v hv hmark).2 (not_lt.mpr v.prio_le)
  · exact .inr ⟨w,hw,hresult,hmark,hbefore⟩

variable [DecidableEq τ]

def serviceOrder (protocol : Protocol) (queue : List (Waiter τ)) : ℕ → (τ → Bool) → List (Waiter τ)
  | 0, _ => []
  | n+1, marked =>
    match getNext protocol queue marked with
    | none => []
    | some w => w::serviceOrder protocol queue n (update marked w.thread true)

def attemptList (bitptn : BitVec 64) : List (Waiter τ) → Attempt τ → Attempt τ
  | [], a => a
  | w::rest, a =>
    if stops a w then examine bitptn a w else attemptList bitptn rest (examine bitptn a w)

theorem attemptLoop_eq (protocol : Protocol) (queue : List (Waiter τ)) (bitptn : BitVec 64) (n : ℕ)
    (marked : τ → Bool) (a : Attempt τ) : attemptLoop protocol queue bitptn n marked a =
      attemptList bitptn (serviceOrder protocol queue n marked) a := by
  induction n generalizing marked a with
  | zero => rfl
  | succ n ih =>
    rw [attemptLoop,serviceOrder]
    cases getNext protocol queue marked with
    | none => rfl
    | some w =>
      simp only [attemptList]
      rw [ih]

def Distinct (queue : List (Waiter τ)) : Prop := (queue.map Waiter.thread).Nodup

instance : Decidable (Distinct queue) := inferInstanceAs (Decidable (List.Nodup _))

omit [DecidableEq τ] in
theorem Distinct.eq_of_thread (h : Distinct queue) (hw : w∈queue) (hv : v∈queue)
    (heq : w.thread=v.thread) : w=v := inj_on_of_nodup_map h hw hv heq

theorem Distinct.marked_update (h : Distinct queue) (hw : w∈queue) (hv : v∈queue) :
    update marked w.thread true v.thread=false ↔ marked v.thread=false ∧ v≠w := by
  by_cases heq : v=w
  · subst heq
    simp
  · have hne : v.thread≠w.thread := fun hthread => heq (h.eq_of_thread hv hw hthread)
    simp [update_of_ne hne,heq]

theorem Distinct.filter_update_lt (h : Distinct queue) (hw : w∈queue)
    (hmark : marked w.thread=false) :
    (queue.filter fun v => update marked w.thread true v.thread=false).length <
      (queue.filter fun v => marked v.thread=false).length := by
  have heq : queue.filter (fun v => update marked w.thread true v.thread=false) =
      (queue.filter fun v => marked v.thread=false).filter fun v => v≠w := by
    rw [filter_filter]
    apply filter_congr
    intro v hv
    rw [← Bool.decide_and,decide_eq_decide,h.marked_update hw hv,and_comm]
  rw [heq,length_filter_lt_length_iff_exists]
  exact ⟨w,by simp [hw,hmark],by simp⟩

/-- With enough passes the order has all unmarked waiters, as the protocol serves them. -/
theorem serviceOrder_spec (protocol : Protocol) (h : Distinct queue) (n : ℕ) (marked : τ → Bool)
    (hn : (queue.filter fun v => marked v.thread=false).length ≤ n) :
    (∀ v, v∈serviceOrder protocol queue n marked ↔ v∈queue ∧ marked v.thread=false) ∧
      (serviceOrder protocol queue n marked).Nodup ∧
      (serviceOrder protocol queue n marked).Pairwise (Before protocol queue) := by
  induction n generalizing marked with
  | zero =>
    have hnone : queue.filter (fun v => marked v.thread=false)=[] :=
      length_eq_zero_iff.mp (Nat.le_zero.mp hn)
    refine ⟨?_,nodup_nil,List.Pairwise.nil⟩
    intro v
    rw [filter_eq_nil_iff] at hnone
    constructor
    · intro hv
      cases hv
    · rintro ⟨hv,hmark⟩
      exact absurd (decide_eq_true hmark) (hnone v hv)
  | succ n ih =>
    rw [serviceOrder]
    rcases getNext_spec protocol queue marked with ⟨hresult,hall⟩ | ⟨w,hw,hresult,hmark,hbefore⟩
    · rw [hresult]
      refine ⟨?_,nodup_nil,List.Pairwise.nil⟩
      intro v
      constructor
      · intro hv
        cases hv
      · rintro ⟨hv,hmark⟩
        rw [hall v hv] at hmark
        cases hmark
    · rw [hresult]
      have hlt := h.filter_update_lt hw hmark
      obtain ⟨hmem,hnodup,hsorted⟩ := ih (update marked w.thread true) (by omega)
      have hmem' : ∀ v, v∈serviceOrder protocol queue n (update marked w.thread true) ↔
          v∈queue ∧ marked v.thread=false ∧ v≠w := by
        intro v
        rw [hmem v]
        exact and_congr_right fun hv => h.marked_update hw hv
      refine ⟨?_,nodup_cons.mpr ⟨?_,hnodup⟩,pairwise_cons.mpr ⟨?_,hsorted⟩⟩
      · intro v
        rw [mem_cons,hmem' v]
        by_cases heq : v=w
        · subst heq
          simp [hw,hmark]
        · simp [heq]
      · intro hmemw
        exact ((hmem' w).mp hmemw).2.2 rfl
      · intro v hv
        obtain ⟨hv,hvmark,hne⟩ := (hmem' v).mp hv
        exact hbefore v hv hvmark hne

omit [DecidableEq τ] in
/-- Of two waiters only one is the older. -/
theorem not_sublist_swap (h : queue.Nodup) (hwv : [w,v].Sublist queue) : ¬[v,w].Sublist queue := by
  induction queue with
  | nil => simp at hwv
  | cons a queue ih =>
    obtain ⟨ha,hnodup⟩ := nodup_cons.mp h
    intro hvw
    rw [sublist_cons_iff] at hwv hvw
    rcases hwv with hwv | ⟨r,hr,hwv⟩ <;> rcases hvw with hvw | ⟨r',hr',hvw⟩
    · exact ih hnodup hwv hvw
    · cases hr'
      exact ha (hwv.subset (by simp))
    · cases hr
      exact ha (hvw.subset (by simp))
    · cases hr
      cases hr'
      exact ha (hvw.subset (by simp))

omit [DecidableEq τ] in
theorem Before.antisymm (h : queue.Nodup) (hw : Before protocol queue w v)
    (hv : Before protocol queue v w) : w=v := by
  exfalso
  unfold Before at hw hv
  split_ifs at hw hv
  · rcases hw with hw | ⟨hw,hsub⟩ <;> rcases hv with hv | ⟨hv,hsub'⟩
    · omega
    · omega
    · omega
    · exact not_sublist_swap h hsub hsub'
  · exact not_sublist_swap h hw hv

/-- An arrangement of the queue in the order of the protocol. -/
structure InOrder (protocol : Protocol) (queue order : List (Waiter τ)) : Prop where
  perm : order.Perm queue
  pairwise : order.Pairwise (Before protocol queue)

omit [DecidableEq τ] in
theorem InOrder.nodup_thread {order : List (Waiter τ)} (h : Distinct queue)
    (horder : InOrder protocol queue order) : (order.map Waiter.thread).Nodup :=
  (horder.perm.map _).nodup_iff.mpr h

theorem serviceOrder_inOrder (protocol : Protocol) (h : Distinct queue) :
    InOrder protocol queue (serviceOrder protocol queue queue.length fun _ => false) := by
  obtain ⟨hmem,hnodup,hsorted⟩ := serviceOrder_spec protocol h queue.length
    (fun _ => false) (length_filter_le _ _)
  refine ⟨(perm_ext_iff_of_nodup hnodup (List.Nodup.of_map _ h)).mpr ?_,hsorted⟩
  intro v
  rw [hmem v]
  simp

/-- There is only one such arrangement, the one `get_next` yields. -/
theorem InOrder.eq_serviceOrder (h : Distinct queue) {order : List (Waiter τ)}
    (horder : InOrder protocol queue order) :
    order = serviceOrder protocol queue queue.length fun _ => false := by
  have hservice := serviceOrder_inOrder protocol h
  apply List.Perm.eq_of_pairwise _ horder.pairwise hservice.pairwise
    (horder.perm.trans hservice.perm.symm)
  intro w v _ _ hwv hvw
  exact hwv.antisymm (List.Nodup.of_map _ h) hvw

end PS3Native.EventFlag
