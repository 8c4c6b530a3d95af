import PS3Native.HandOff
import PS3Native.SleepQueue

/-!
# `lv2_mutex`

Every atomic operation on the control word, the owner and the head of the sleep queue, is a step,
with the changes of the links that go with it under the mutex of the object. Busy waiting may end
at any time, and so may a wait with a timeout. Savestates and waits for condition variables are not
modelled.
-/
namespace PS3Native.Lv2Mutex
open SleepQueue HandOff

inductive Ret
  | ok | ebusy | edeadlk | ekresource | eperm | etimedout
  deriving DecidableEq, Repr

/-- Who calls `try_lock`: `sys_mutex_trylock`, or `sys_mutex_lock` with a timeout or
without, and with so many more attempts before it sleeps. -/
inductive Caller
  | trylock
  | lock (timed : Bool) (left : ℕ)
  deriving DecidableEq, Repr

structure Control (τ : Type*) where
  owner : Option τ
  sq : Option τ
  deriving DecidableEq, Repr

/-- Where a thread is in the code; `it` is the control word that it has loaded. -/
inductive Loc (τ : Type*)
  | idle
  | returned (ret : Ret)
  | tryLock (caller : Caller)
  | tryLockCas (caller : Caller) (it : Control τ)
  | lockAgain (caller : Caller)
  | busyWait (timed : Bool) (left : ℕ)
  | tryOwn (timed : Bool)
  | sleep (timed awoken : Bool)
  | wait (timed awoken : Bool)
  | timedOut
  | lockUnlock
  | timeoutLock
  | unqueue
  | unqueueCas (it : Control τ)
  | unqueued (success : Bool)
  | tryUnlock
  | unlockCount (it : Control τ)
  | tryUnlockCas (it : Control τ)
  | reownLock
  | reown
  | reownCas (it : Control τ) (res : Option (Sleeper τ))
  | reownStore (res : Sleeper τ)
  | awake (res : Option τ)
  | reowned
  deriving DecidableEq, Repr

structure Attr where
  protocol : Protocol
  recursive : Bool
  deriving DecidableEq, Repr

/-- `mutex` is the thread that holds the mutex of the object, `tag` the global
`g_priority_order_tag`. `held` counts for each thread the calls that have returned with
the mutex, less the calls of `sys_mutex_unlock` that have found it the owner. -/
structure State (τ : Type*) where
  owner : Option τ
  queue : List (Sleeper τ)
  lockCount : ℕ
  mutex : Option τ
  tag : ℕ
  loc : τ → Loc τ
  held : τ → ℕ

def State.control {τ : Type*} (s : State τ) : Control τ := ⟨s.owner,s.queue.head?.map Sleeper.thread⟩

variable {τ : Type*} [DecidableEq τ]

def State.go (s : State τ) (t : τ) (loc : Loc τ) : State τ :=
  {s with loc := Function.update s.loc t loc}

def State.acquired (s : State τ) (t : τ) : State τ :=
  {s with loc := Function.update s.loc t (.returned .ok), held := Function.update s.held t (s.held t+1)}

def State.finish (s : State τ) (t : τ) : Caller → Ret → State τ
  | .lock timed left, .ebusy => s.go t (.busyWait timed left)
  | _, .ok => s.acquired t
  | _, ret => s.go t (.returned ret)

inductive Call
  | lock (timed : Bool) | trylock | unlock
  deriving DecidableEq, Repr

def Call.start : Call → Loc τ
  | .lock timed => .tryLock (.lock timed 10)
  | .trylock => .tryLock .trylock
  | .unlock => .tryUnlock

def call (s : State τ) (t : τ) (c : Call) : Option (State τ) :=
  match s.loc t with
  | .idle | .returned _ => some (s.go t c.start)
  | _ => none

/-- `lv2_obj::awake` of a thread that is about to sleep or sleeps. -/
def Loc.awaken : Loc τ → Loc τ
  | .sleep timed _ => .sleep timed true
  | .wait timed _ => .wait timed true
  | loc => loc

/-- One step of thread `t`. `late` says that its busy waiting or its timeout is over. -/
def advance (attr : Attr) (prio : τ → ℤ) (s : State τ) (t : τ) (late : Bool) : Option (State τ) :=
  match s.loc t with
  | .idle | .returned _ => none
  | .tryLock caller =>
    match s.owner with
    | none => some (s.go t (.tryLockCas caller s.control))
    | some u => some (if u=t then s.go t (.lockAgain caller) else s.finish t caller .ebusy)
  | .tryLockCas caller it =>
    some (if s.control=it then {s with owner := some t}.finish t caller .ok
      else s.finish t caller .ebusy)
  | .lockAgain caller =>
    some (if attr.recursive=false then s.finish t caller .edeadlk
      else if s.lockCount=0xffffffff then s.finish t caller .ekresource
      else {s with lockCount := s.lockCount+1}.finish t caller .ok)
  | .busyWait timed left =>
    some (if late=false ∧ s.control.sq=none ∧ 0 < left then
        s.go t (.tryLock (.lock timed (left-1)))
      else s.go t (.tryOwn timed))
  | .tryOwn timed =>
    match s.owner with
    | none => some ({s with owner := some t}.acquired t)
    | some _ =>
      let tag := s.tag+1
      some ({s with tag, queue := ⟨t,prio t,tagOrder tag⟩::s.queue}.go t (.sleep timed false))
  | .sleep timed awoken => some (if awoken then s.acquired t else s.go t (.wait timed false))
  | .wait timed awoken =>
    if late then (if timed then some (s.go t .timedOut) else none)
    else if awoken then some (s.acquired t) else none
  | .timedOut => some (s.go t (if s.control.sq=none then .lockUnlock else .timeoutLock))
  | .lockUnlock => if s.mutex=none then some (s.acquired t) else none
  | .timeoutLock => if s.mutex=none then some ({s with mutex := some t}.go t .unqueue) else none
  | .unqueue =>
    some (if s.control.sq = some t then s.go t (.unqueueCas s.control)
      else if t∈s.queue.map Sleeper.thread then
        {s with queue := unqueue s.queue t}.go t (.unqueued true)
      else s.go t (.unqueued false))
  | .unqueueCas it =>
    some (if s.control=it then {s with queue := s.queue.tail}.go t (.unqueued true)
      else s.go t .unqueue)
  | .unqueued success =>
    some (if success then {s with mutex := none}.go t (.returned .etimedout)
      else {s with mutex := none}.acquired t)
  | .tryUnlock =>
    some (if s.owner = some t then
        {s with held := Function.update s.held t (s.held t-1)}.go t (.unlockCount s.control)
      else s.go t (.returned .eperm))
  | .unlockCount it =>
    some (if s.lockCount≠0 then {s with lockCount := s.lockCount-1}.go t (.returned .ok)
      else s.go t (if it.sq=none then .tryUnlockCas it else .reownLock))
  | .tryUnlockCas it =>
    some (if s.control=it then {s with owner := none}.go t (.returned .ok) else s.go t .reownLock)
  | .reownLock => if s.mutex=none then some ({s with mutex := some t}.go t .reown) else none
  | .reown =>
    match s.queue with
    | [] => some (s.go t (.reownCas s.control none))
    | it::rest =>
      let res := schedule attr.protocol it rest
      some (if res.thread=it.thread then s.go t (.reownCas s.control (some res))
        else {s with queue := unqueue s.queue res.thread}.go t (.reownStore res))
  | .reownCas it res =>
    some (if s.control=it then
        {s with owner := res.map Sleeper.thread, queue := s.queue.tail}.go t
          (.awake (res.map Sleeper.thread))
      else s.go t .reown)
  | .reownStore res => some ({s with owner := some res.thread}.go t (.awake (some res.thread)))
  | .awake none => some (s.go t .reowned)
  | .awake (some u) => some ((s.go u (s.loc u).awaken).go t .reowned)
  | .reowned => some ({s with mutex := none}.go t (.returned .ok))

inductive Step (attr : Attr) (prio : τ → ℤ) (s : State τ) : State τ → Prop
  | call (t : τ) (c : Call) {s' : State τ} (h : Lv2Mutex.call s t c = some s') : Step attr prio s s'
  | advance (t : τ) (late : Bool) {s' : State τ} (h : Lv2Mutex.advance attr prio s t late = some s') :
    Step attr prio s s'
  | drawn : Step attr prio s {s with tag := s.tag+1}

def initial (τ : Type*) (tag : ℕ) : State τ := ⟨none,[],0,none,tag,fun _ => .idle,fun _ => 0⟩

def Reachable (attr : Attr) (prio : τ → ℤ) (s : State τ) : Prop :=
  ∃ tag, Relation.ReflTransGen (Step attr prio) (initial τ tag) s

def Loc.role : Loc τ → Role τ
  | .sleep _ _ | .wait _ _ | .timedOut | .lockUnlock | .timeoutLock | .unqueue | .unqueueCas _
  | .unqueued false => .waiting
  | .unqueued true => .expired
  | .unlockCount _ => .unlocking
  | .tryUnlockCas _ | .reownLock | .reown | .reownCas _ _ => .releasing
  | .reownStore res => .passing res.thread
  | _ => .outside

def State.lock (s : State τ) : Lock τ (Sleeper τ) :=
  ⟨s.owner,s.lockCount,s.queue,Loc.role ∘ s.loc,s.held⟩

/-- Where a thread is on its way through the sleep queue: it has not joined it, it is in
it, it has got the mutex, or it has taken itself out. -/
def State.ticket (s : State τ) (t : τ) : Ticket := HandOff.ticket Sleeper.thread s.lock t

end PS3Native.Lv2Mutex
