import PS3Native.SharedHandOff
import PS3Native.SleepQueue

/-!
# `lv2_rwlock`

The owner word is `-2` for every reader, or twice the id of the writer, and its lowest bit says
that threads wait. Every atomic operation on it is a step; the queues change under the mutex of the
object. A thread unlocks what it holds. A wait with a timeout may end at any time. Savestates are
not modelled.
-/
namespace PS3Native.Lv2Rwlock
open SleepQueue SharedHandOff
open HandOff (Ticket)

inductive Ret
  | ok | ebusy | edeadlk | eperm | etimedout
  deriving DecidableEq, Repr

/-- Where a thread is in the code. `val` is the owner word that it has loaded, `deadlk`
says that the writer it found is the thread itself, and `ts` are the threads it wakes. -/
inductive Loc (τ : Type*)
  | idle
  | returned (ret : Ret)
  | failed
  | rlock (timed : Bool)
  | rlockCas (timed : Bool) (val : ℤ)
  | tryrlock
  | wlock (timed : Bool)
  | wlockCas (timed : Bool)
  | trywlock
  | trywlockCas
  | lockMutex (side : Side) (timed : Bool)
  | lockSlow (side : Side) (timed : Bool)
  | emplace (side : Side) (timed deadlk : Bool)
  | emplaced (side : Side) (timed deadlk : Bool)
  | wait (side : Side) (timed awoken : Bool)
  | timedOut (side : Side)
  | lockUnlock
  | timeoutLock (side : Side)
  | unqueue (side : Side)
  | unqueued
  | addReaders (ts : List τ)
  | clearBit
  | runlock
  | runlockCas (val : ℤ)
  | wunlock
  | wunlockCas
  | unlockMutex (side : Side)
  | runlockSlow
  | runlockHand
  | runlockZero
  | ensureEmpty
  | wunlockHand
  | wunlockZero
  | grantWriter (own : Side) (w : τ)
  | grantReaders (ts : List τ)
  | awake (ts : List τ) (ret : Ret)
  | leave (ret : Ret)
  deriving DecidableEq, Repr

/-- The ids of the threads, which a shift by one leaves within 32 bits. -/
structure Ids (τ : Type*) where
  id : τ → ℕ
  injective : Function.Injective id
  pos : ∀ t, 0 < id t
  lt : ∀ t, id t < 2^31

/-- `queue` is `rq` and `wq`, `mutex` the thread that holds the mutex of the object, `tag`
the global `g_priority_order_tag`. The rest is not in the source: `picked` are the threads
that were taken from a queue and are not in the owner word yet, `holders` the threads that
are in it, and `held` counts the calls of a thread that have got the lock, less the calls
that have begun to give it up. -/
structure State (τ : Type*) where
  owner : ℤ
  queue : Side → List (Sleeper τ)
  mutex : Option τ
  tag : ℕ
  loc : τ → Loc τ
  picked : List τ
  holders : Side → List τ
  held : Side → τ → ℕ

/-- `val | 1`. -/
def setBit (val : ℤ) : ℤ := val+(1-val%2)

/-- `val & -2`. -/
def clearBit (val : ℤ) : ℤ := val-val%2

def threads {τ : Type*} (queue : List (Sleeper τ)) : List τ := queue.map Sleeper.thread

variable {τ : Type*} [DecidableEq τ]

def State.go (s : State τ) (t : τ) (loc : Loc τ) : State τ :=
  {s with loc := Function.update s.loc t loc}

def State.take (s : State τ) (t : τ) (side : Side) (owner : ℤ) : State τ :=
  { s with
    owner
    holders := grant s.holders side [t]
    held := count s.held side t (s.held side t+1) }

def State.release (s : State τ) (t : τ) (side : Side) (owner : ℤ) : State τ :=
  {s with owner, holders := drop s.holders side t}

def State.accept (s : State τ) (t : τ) (side : Side) : State τ :=
  {s with held := count s.held side t (s.held side t+1)}

def State.setQueue (s : State τ) (side : Side) (queue : List (Sleeper τ)) : State τ :=
  {s with queue := Function.update s.queue side queue}

def State.pick (s : State τ) (side : Side) (queue : List (Sleeper τ)) (ts : List τ) : State τ :=
  {s.setQueue side queue with picked := ts}

def State.enter (s : State τ) (t : τ) (loc : Loc τ) : Option (State τ) :=
  if s.mutex=none then some ({s with mutex := some t}.go t loc) else none

inductive Call
  | lock (side : Side) (timed : Bool)
  | trylock (side : Side)
  | unlock (side : Side)
  deriving DecidableEq, Repr

def Call.start : Call → Loc τ
  | .lock .reader timed => .rlock timed
  | .lock .writer timed => .wlock timed
  | .trylock .reader => .tryrlock
  | .trylock .writer => .trywlock
  | .unlock .reader => .runlock
  | .unlock .writer => .wunlock

/-- A thread calls `unlock` for what it holds. -/
def call (s : State τ) (t : τ) (c : Call) : Option (State τ) :=
  match s.loc t with
  | .idle | .returned _ =>
    match c with
    | .unlock side =>
      if 0 < s.held side t then
        some ({s with held := count s.held side t (s.held side t-1)}.go t c.start)
      else none
    | _ => some (s.go t c.start)
  | _ => none

def Loc.awaken : Loc τ → Loc τ
  | .wait side timed _ => .wait side timed true
  | loc => loc

def State.awakeAll (s : State τ) (ts : List τ) : State τ :=
  {s with loc := fun u => if u∈ts then (s.loc u).awaken else s.loc u}

def Readable (val : ℤ) : Prop := val ≤ 0 ∧ val%2=0

instance (val : ℤ) : Decidable (Readable val) := inferInstanceAs (Decidable (val ≤ 0 ∧ val%2=0))

def trywlockRet (ids : Ids τ) (t : τ) (val : ℤ) : Ret :=
  if val/2 = ids.id t then .edeadlk else .ebusy

/-- How `sys_rwlock_wunlock` goes on after its load or its exchange has returned `ret`. -/
def wunlockNext (ids : Ids τ) (t : τ) (ret : ℤ) : Loc τ :=
  if ret/2≠ids.id t then .returned .eperm
  else if ret%2=1 then .unlockMutex .writer else .returned .ok

/-- One step of thread `t`. `late` says that its timeout is over. -/
def advance (ids : Ids τ) (protocol : Protocol) (prio : τ → ℤ) (s : State τ) (t : τ) (late : Bool) :
    Option (State τ) :=
  match s.loc t with
  | .idle | .returned _ | .failed => none
  | .rlock timed =>
    some (s.go t (if Readable s.owner then .rlockCas timed s.owner else .lockMutex .reader timed))
  | .rlockCas timed val =>
    some (if s.owner=val then (s.take t .reader (val-2)).go t (.returned .ok)
      else s.go t (.lockMutex .reader timed))
  | .tryrlock =>
    some (if Readable s.owner then (s.take t .reader (s.owner-2)).go t (.returned .ok)
      else s.go t (.returned .ebusy))
  | .wlock timed =>
    some (s.go t (if s.owner=0 then .wlockCas timed
      else if s.owner/2 = ids.id t then .returned .edeadlk else .lockMutex .writer timed))
  | .wlockCas timed =>
    some (if s.owner=0 then (s.take t .writer (2*ids.id t)).go t (.returned .ok)
      else s.go t (.lockMutex .writer timed))
  | .trywlock =>
    some (s.go t (if s.owner≠0 then .returned (trywlockRet ids t s.owner) else .trywlockCas))
  | .trywlockCas =>
    some (if s.owner=0 then (s.take t .writer (2*ids.id t)).go t (.returned .ok)
      else s.go t (.returned (trywlockRet ids t s.owner)))
  | .lockMutex side timed => s.enter t (.lockSlow side timed)
  | .lockSlow .reader timed =>
    some (if Readable s.owner then (s.take t .reader (s.owner-2)).go t (.leave .ok)
      else {s with owner := setBit s.owner}.go t (.emplace .reader timed false))
  | .lockSlow .writer timed =>
    some (if s.owner=0 then (s.take t .writer (2*ids.id t)).go t (.leave .ok)
      else {s with owner := setBit s.owner}.go t
        (.emplace .writer timed (s.owner/2 = ids.id t)))
  | .emplace side timed deadlk =>
    let tag := s.tag+1
    some (({s with tag}.setQueue side (⟨t,prio t,tagOrder tag⟩::s.queue side)).go t
      (.emplaced side timed deadlk))
  | .emplaced side timed deadlk =>
    some ({s with mutex := none}.go t
      (if deadlk then .returned .edeadlk else .wait side timed false))
  | .wait side timed awoken =>
    if late then (if timed then some (s.go t (.timedOut side)) else none)
    else if awoken then some ((s.accept t side).go t (.returned .ok)) else none
  | .timedOut side =>
    some (s.go t (if side=.reader ∧ s.queue .reader=[] then .lockUnlock else .timeoutLock side))
  | .lockUnlock => if s.mutex=none then some ((s.accept t .reader).go t (.returned .ok)) else none
  | .timeoutLock side => s.enter t (.unqueue side)
  | .unqueue side =>
    some (if t∈threads (s.queue side) then
        (s.setQueue side (SleepQueue.unqueue (s.queue side) t)).go t
          (match side with | .reader => .leave .etimedout | .writer => .unqueued)
      else (s.accept t side).go t (.leave .ok))
  | .unqueued =>
    some (if s.queue .reader≠[] ∧ s.queue .writer=[] ∧ s.owner < 0 then
        (s.pick .reader [] (threads (s.queue .reader))).go t (.addReaders (threads (s.queue .reader)))
      else s.go t (if s.queue .reader=[] ∧ s.queue .writer=[] then .clearBit else .leave .etimedout))
  | .addReaders ts =>
    some ({ s with
      owner := clearBit (s.owner-2*ts.length)
      holders := grant s.holders .reader ts
      picked := [] }.go t (.awake ts .etimedout))
  | .clearBit => some ({s with owner := clearBit s.owner}.go t (.leave .etimedout))
  | .runlock =>
    some (s.go t (if s.owner < 0 ∧ s.owner%2=0 then .runlockCas s.owner else .unlockMutex .reader))
  | .runlockCas val =>
    some (if s.owner=val then (s.release t .reader (val+2)).go t (.returned .ok)
      else s.go t (.unlockMutex .reader))
  | .wunlock =>
    some (s.go t (if s.owner≠2*ids.id t then wunlockNext ids t s.owner else .wunlockCas))
  | .wunlockCas =>
    some (if s.owner = 2*ids.id t then (s.release t .writer 0).go t (wunlockNext ids t s.owner)
      else s.go t (wunlockNext ids t s.owner))
  | .unlockMutex side =>
    s.enter t (match side with | .reader => .runlockSlow | .writer => .wunlockHand)
  | .runlockSlow =>
    some (if s.owner < -1 then (s.release t .reader (s.owner+2)).go t (.leave .ok)
      else s.go t (if s.owner ≥ 0 then .leave .eperm else .runlockHand))
  | .runlockHand =>
    match s.queue .writer with
    | [] => some (s.go t .runlockZero)
    | it::rest =>
      let cpu := (schedule protocol it rest).thread
      some ((s.pick .writer (SleepQueue.unqueue (s.queue .writer) cpu) [cpu]).go t
        (.grantWriter .reader cpu))
  | .runlockZero => some ((s.release t .reader 0).go t .ensureEmpty)
  | .ensureEmpty => some (s.go t (if s.queue .reader=[] then .leave .ok else .failed))
  | .wunlockHand =>
    match s.queue .writer with
    | [] =>
      some (if s.queue .reader≠[] then
          (s.pick .reader [] (threads (s.queue .reader))).go t
            (.grantReaders (threads (s.queue .reader)))
        else s.go t .wunlockZero)
    | it::rest =>
      let cpu := (schedule protocol it rest).thread
      some ((s.pick .writer (SleepQueue.unqueue (s.queue .writer) cpu) [cpu]).go t
        (.grantWriter .writer cpu))
  | .wunlockZero => some ((s.release t .writer 0).go t (.leave .ok))
  | .grantWriter own w =>
    some ({ s with
      owner := 2*ids.id w+if s.queue .writer≠[] ∨ s.queue .reader≠[] then 1 else 0
      holders := grant (drop s.holders own t) .writer [w]
      picked := [] }.go t (.awake [w] .ok))
  | .grantReaders ts =>
    some ({ s with
      owner := -2*ts.length
      holders := grant (drop s.holders .writer t) .reader ts
      picked := [] }.go t (.awake ts .ok))
  | .awake ts ret => some ((s.awakeAll ts).go t (.leave ret))
  | .leave ret => some ({s with mutex := none}.go t (.returned ret))

inductive Step (ids : Ids τ) (protocol : Protocol) (prio : τ → ℤ) (s : State τ) : State τ → Prop
  | call (t : τ) (c : Call) {s' : State τ} (h : Lv2Rwlock.call s t c = some s') :
    Step ids protocol prio s s'
  | advance (t : τ) (late : Bool) {s' : State τ}
    (h : Lv2Rwlock.advance ids protocol prio s t late = some s') : Step ids protocol prio s s'
  | drawn : Step ids protocol prio s {s with tag := s.tag+1}

def initial (τ : Type*) (tag : ℕ) : State τ :=
  ⟨0,fun _ => [],none,tag,fun _ => .idle,[],fun _ => [],fun _ _ => 0⟩

def Reachable (ids : Ids τ) (protocol : Protocol) (prio : τ → ℤ) (s : State τ) : Prop :=
  ∃ tag, Relation.ReflTransGen (Step ids protocol prio) (initial τ tag) s

/-- Where a thread at this location is, when it is in no queue and was not taken from one. -/
def Loc.place : Loc τ → Place
  | .emplaced side _ _ | .wait side _ _ | .timedOut side | .timeoutLock side | .unqueue side =>
    .granted side
  | .lockUnlock => .granted .reader
  | .unqueued | .addReaders _ | .clearBit | .awake _ .etimedout | .leave .etimedout => .expired
  | .runlock | .runlockCas _ | .runlockSlow | .runlockHand | .runlockZero => .releasing .reader
  | .wunlock | .wunlockCas | .wunlockHand | .wunlockZero | .grantReaders _ => .releasing .writer
  | .unlockMutex side | .grantWriter side _ => .releasing side
  | _ => .outside

def State.place (s : State τ) (t : τ) : Place :=
  match (s.loc t).place with
  | .granted side =>
    if t∈threads (s.queue side) then .queued side
    else if t∈s.picked then .picked side else .granted side
  | place => place

def State.lock (s : State τ) : SharedHandOff.Lock τ := ⟨s.holders,s.held,s.place⟩

def State.ticket (s : State τ) (t : τ) : Ticket := (s.place t).ticket

end PS3Native.Lv2Rwlock
