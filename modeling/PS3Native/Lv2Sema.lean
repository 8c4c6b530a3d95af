import PS3Native.HandOff
import PS3Native.SleepQueue

/-!
# `lv2_sema`

The word `val` counts the permits that are left, or below zero the threads that wait. Every atomic
operation on it is a step. The queue changes under the mutex of the object, and so does a word that
is not positive. A wait with a timeout may end at any time. Savestates are not modelled.
-/
namespace PS3Native.Lv2Sema
open SleepQueue
open HandOff (Ticket)

inductive Ret
  | ok | einval | ebusy | etimedout
  deriving DecidableEq, Repr

/-- Where a thread is in the code. `val` is the word that it has loaded, `n` the number of
threads that it has still to take from the queue and `ts` are the ones it has taken. -/
inductive Loc (τ : Type*)
  | idle
  | returned (ret : Ret)
  | failed
  | wait (timed : Bool)
  | waitCas (timed : Bool) (val : ℤ)
  | waitMutex (timed : Bool)
  | waitDec (timed : Bool)
  | emplace (timed : Bool)
  | emplaced (timed : Bool)
  | sleep (timed awoken : Bool)
  | timeoutLock
  | unqueue
  | missed
  | restore
  | trywait
  | post (count : BitVec 32)
  | postCas (count : BitVec 32) (val : ℤ)
  | postMutex (count : BitVec 32)
  | postAdd (count : BitVec 32)
  | postWake (n : ℕ) (ts : List τ)
  | awake (ts : List τ)
  | leave (ret : Ret)
  deriving DecidableEq, Repr

structure Attr where
  protocol : Protocol
  initial : BitVec 32
  max : BitVec 32

/-- `queue` is `sq`, `mutex` the thread that holds the mutex of the object, `tag` the global
`g_priority_order_tag`. The rest is not in the source: `due` are the threads that were
taken from the queue and have not returned yet, `posted` is what the calls of `post` have
added to the word, and `waited` counts the waits that have succeeded. -/
structure State (τ : Type*) where
  val : ℤ
  queue : List (Sleeper τ)
  mutex : Option τ
  tag : ℕ
  loc : τ → Loc τ
  due : List τ
  posted : ℤ
  waited : ℕ

def threads {τ : Type*} (queue : List (Sleeper τ)) : List τ := queue.map Sleeper.thread

def create (τ : Type*) (attr : Attr) (tag : ℕ) : Except Ret (State τ) :=
  if attr.max.toInt ≤ 0 ∨ attr.initial.toInt > attr.max.toInt ∨ attr.initial.toInt < 0 then
    .error .einval
  else if attr.protocol≠.fifo ∧ attr.protocol≠.priority then .error .einval
  else .ok ⟨attr.initial.toInt,[],none,tag,fun _ => .idle,[],0,0⟩

variable {τ : Type*} [DecidableEq τ]

def State.go (s : State τ) (t : τ) (loc : Loc τ) : State τ :=
  {s with loc := Function.update s.loc t loc}

def State.enter (s : State τ) (t : τ) (loc : Loc τ) : Option (State τ) :=
  if s.mutex=none then some ({s with mutex := some t}.go t loc) else none

def State.decrement (s : State τ) : State τ := {s with val := s.val-1, waited := s.waited+1}

def State.add (s : State τ) (count : ℤ) : State τ :=
  {s with val := s.val+count, posted := s.posted+count}

def State.accept (s : State τ) (t : τ) : State τ :=
  {s with due := s.due.erase t, waited := s.waited+1}

inductive Call
  | wait (timed : Bool)
  | trywait
  | post (count : BitVec 32)
  deriving DecidableEq, Repr

def Call.start : Call → Loc τ
  | .wait timed => .wait timed
  | .trywait => .trywait
  | .post count => .post count

def call (s : State τ) (t : τ) (c : Call) : Option (State τ) :=
  match s.loc t with
  | .idle | .returned _ => some (s.go t c.start)
  | _ => none

def Loc.awaken : Loc τ → Loc τ
  | .sleep timed _ => .sleep timed true
  | loc => loc

def State.awakeAll (s : State τ) (ts : List τ) : State τ :=
  {s with loc := fun u => if u∈ts then (s.loc u).awaken else s.loc u}

/-- The number of threads that a `post` of `count` takes from the queue when it finds `val`. -/
def toAwake (val count : ℤ) : ℕ := (min (-(min val 0)) count).toNat

/-- One step of thread `t`. `late` says that its timeout is over. -/
def advance (attr : Attr) (prio : τ → ℤ) (s : State τ) (t : τ) (late : Bool) : Option (State τ) :=
  match s.loc t with
  | .idle | .returned _ | .failed => none
  | .wait timed => some (s.go t (if 0 < s.val then .waitCas timed s.val else .waitMutex timed))
  | .waitCas timed val =>
    some (if s.val=val then s.decrement.go t (.returned .ok) else s.go t (.waitMutex timed))
  | .waitMutex timed => s.enter t (.waitDec timed)
  | .waitDec timed =>
    some (if s.val ≤ 0 then {s with val := s.val-1}.go t (.emplace timed)
      else s.decrement.go t (.leave .ok))
  | .emplace timed =>
    let tag := s.tag+1
    some ({s with tag, queue := ⟨t,prio t,tagOrder tag⟩::s.queue}.go t (.emplaced timed))
  | .emplaced timed => some ({s with mutex := none}.go t (.sleep timed false))
  | .sleep timed awoken =>
    if late then (if timed then some (s.go t .timeoutLock) else none)
    else if awoken then some ((s.accept t).go t (.returned .ok)) else none
  | .timeoutLock => s.enter t .unqueue
  | .unqueue =>
    some (if t∈threads s.queue then {s with queue := SleepQueue.unqueue s.queue t}.go t .restore
      else s.go t .missed)
  | .missed => some ({s.accept t with mutex := none}.go t (.returned .ok))
  | .restore =>
    some (if s.val < 0 then {s with val := s.val+1}.go t (.leave .etimedout) else s.go t .failed)
  | .trywait =>
    some (if 0 < s.val then s.decrement.go t (.returned .ok) else s.go t (.returned .ebusy))
  | .post count =>
    some (s.go t (if 0 ≤ s.val ∧ 0 < count.toInt ∧ count.toInt ≤ attr.max.toInt-s.val then
        .postCas count s.val
      else if count.toInt ≤ 0 then .returned .einval else .postMutex count))
  | .postCas count val =>
    some (if s.val=val then (s.add count.toInt).go t (.returned .ok) else s.go t (.postMutex count))
  | .postMutex count => s.enter t (.postAdd count)
  | .postAdd count =>
    -- the comparison of the source is one of unsigned words
    some (if (count.toNat : ℤ) ≤ (attr.max.toInt-s.val)%4294967296 then
        (s.add count.toInt).go t (.postWake (toAwake s.val count.toInt) [])
      else s.go t (.leave .ebusy))
  | .postWake 0 ts => some (s.go t (.awake ts))
  | .postWake (n+1) ts =>
    match s.queue with
    | [] => some (s.go t .failed)
    | it::rest =>
      let cpu := (schedule attr.protocol it rest).thread
      some ({s with queue := SleepQueue.unqueue s.queue cpu, due := cpu::s.due}.go t
        (.postWake n (cpu::ts)))
  | .awake ts => some ((s.awakeAll ts).go t (.leave .ok))
  | .leave ret => some ({s with mutex := none}.go t (.returned ret))

inductive Choice (τ : Type*)
  | call (t : τ) (c : Call)
  | advance (t : τ) (late : Bool)
  | drawn

def take (attr : Attr) (prio : τ → ℤ) (s : State τ) : Choice τ → Option (State τ)
  | .call t c => call s t c
  | .advance t late => advance attr prio s t late
  | .drawn => some {s with tag := s.tag+1}

def Step (attr : Attr) (prio : τ → ℤ) (s s' : State τ) : Prop := ∃ c, take attr prio s c = some s'

def Reachable (attr : Attr) (prio : τ → ℤ) (s : State τ) : Prop :=
  ∃ tag s₀, create τ attr tag = .ok s₀ ∧ Relation.ReflTransGen (Step attr prio) s₀ s

def Loc.Locked : Loc τ → Prop
  | .waitDec _ | .emplace _ | .emplaced _ | .unqueue | .missed | .restore | .postAdd _ | .postWake _ _
  | .awake _ | .leave _ => True
  | _ => False

def Loc.Waits : Loc τ → Prop
  | .emplaced _ | .sleep _ _ | .timeoutLock | .unqueue | .missed => True
  | _ => False

def Loc.Taken : Loc τ → Prop
  | .sleep _ true | .missed => True
  | _ => False

def Loc.waking : Loc τ → List τ
  | .postWake _ ts | .awake ts => ts
  | _ => []

def Loc.expired : Loc τ → Bool
  | .restore | .leave .etimedout => true
  | _ => false

def State.ticket (s : State τ) (t : τ) : Ticket :=
  if t∈threads s.queue then .queued
  else if t∈s.due then .handed
  else if (s.loc t).expired then .expired else .outside

end PS3Native.Lv2Sema
