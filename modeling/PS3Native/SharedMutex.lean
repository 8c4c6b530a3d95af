import PS3Native.Interleaving
import Mathlib.Data.BitVec

/-!
# `shared_mutex`

One 32-bit word holds the readers, in units of `c_one` the writer and the queued waiters, and the
bit `c_sig` of a wake-up signal. A step is an atomic operation on the word with what is computed
after it. The variants for hardware lock elision do the same operations.
-/
namespace PS3Native.SharedMutex

abbrev cOne : BitVec 32 := 0x4000#32
abbrev cSig : BitVec 32 := 0x40000000#32
abbrev cErr : BitVec 32 := 0x80000000#32

inductive After
  | downgrade | hold | unlock
  deriving DecidableEq, Repr

/-- Where a thread is: at rest, or at an atomic operation, with its local variables. -/
inductive Loc
  | idle
  | shared
  | exclusive
  /-- An `ensure` has failed. -/
  | failed
  | tryLockSharedCas (value : BitVec 32)
  | lockSharedCas (value : BitVec 32)
  | stealShared (val : BitVec 32)
  | spinShared (i : ℕ)
  | spinSharedCas (i : ℕ) (value : BitVec 32)
  | spinSharedLoad (i : ℕ)
  | spinSharedSteal (i : ℕ) (old : BitVec 32)
  | addShared
  | downgrade
  | stealLock (val : BitVec 32)
  | spinLock (i : ℕ)
  | spinTryLock (i : ℕ)
  | spinSteal (i : ℕ) (old : BitVec 32)
  | addLock
  | upgradeCas (value : BitVec 32)
  | spinUpgrade (i : ℕ)
  | spinUpgradeCas (i : ℕ) (value : BitVec 32)
  | addUpgrade
  | spinFree (i : ℕ) (max : BitVec 32)
  | addFree
  | unlock
  | waitCheck (after : After)
  | waitSleep (after : After) (old : BitVec 32)
  | asleep (after : After)
  | signal
  | notify
  deriving DecidableEq, Repr

inductive Call
  | tryLockShared | lockShared | unlockShared
  | tryLock | lock | unlock
  | lockUpgrade | lockDowngrade | lockUnlock
  deriving DecidableEq, Repr

def After.loc : After → Loc
  | .downgrade => .downgrade
  | .hold => .exclusive
  | .unlock => .unlock

def impLockShared (val : BitVec 32) : Loc :=
  if ¬val < cErr then .failed
  else if val &&& cSig≠0 then .stealShared val
  else .spinShared 0

def impLock (val : BitVec 32) : Loc :=
  if ¬val < cErr then .failed
  else if val &&& cSig≠0 then .stealLock val
  else .spinLock 0

def impUnlockShared (old : BitVec 32) : Loc :=
  if ¬old-1 < cErr then .failed
  else if (old-1)%cOne=0 then .signal
  else .idle

def impUnlock (old : BitVec 32) : Loc :=
  if ¬old-cOne < cErr then .failed
  else if old-cOne≠0 then .signal
  else .idle

def nextPass (passes i : ℕ) (again : ℕ → Loc) (done : Loc) : Loc :=
  if i+1 < passes then again (i+1) else done

/-- `try_lock_upgrade` may convert a single reader into a writer. -/
def upgradable (value : BitVec 32) : Bool := (value+cOne-1)%cOne == 0

/-- The operations a thread at rest begins with. -/
def call (m : BitVec 32) : Loc → Call → Option (BitVec 32 × Loc)
  | .idle, .tryLockShared => some (m,if m < cOne-1 then .tryLockSharedCas m else .idle)
  | .idle, .lockShared => some (m,if cOne-1 ≤ m then impLockShared m else .lockSharedCas m)
  | .idle, .tryLock => some (if m=0 then (cOne,.exclusive) else (m,.idle))
  | .idle, .lock => some (if m=0 then (cOne,.exclusive) else (m,impLock m))
  | .idle, .lockUnlock => some (m,if m=0 then .idle else .spinFree 0 1)
  | .shared, .unlockShared => some (m-1,if cOne ≤ m then impUnlockShared m else .idle)
  | .shared, .lockUpgrade => some (m,if upgradable m then .upgradeCas m else .spinUpgrade 0)
  | .exclusive, .unlock => some (m-cOne,if m≠cOne then impUnlock m else .idle)
  | .exclusive, .lockDowngrade => some (m-(cOne-1),.shared)
  | _, _ => none

/-- The operation a thread inside of a call is at; `notify_one` is left to the system. -/
def advance (m : BitVec 32) : Loc → Option (BitVec 32 × Loc)
  | .tryLockSharedCas value => some (if m=value then (value+1,.shared) else (m,.idle))
  | .lockSharedCas value =>
    some (if m=value then (value+1,.shared) else (m,impLockShared value))
  | .stealShared val => some (if m=val then (val-cSig+1,.shared) else (m,.spinShared 0))
  | .spinShared i => some (m,if m < cOne-1 then .spinSharedCas i m else .spinSharedLoad i)
  | .spinSharedCas i value =>
    some (if m=value then (value+1,.shared) else (m,.spinSharedLoad i))
  | .spinSharedLoad i => some (m,if m &&& cSig≠0 then .spinSharedSteal i m
      else nextPass 10 i .spinShared .addShared)
  | .spinSharedSteal i old => some (if m=old then (old-cSig+1,.shared)
      else (m,nextPass 10 i .spinShared .addShared))
  | .addShared => some (m+cOne,if m=0 then .downgrade
      else if m%cSig+cOne < cSig then .waitCheck .downgrade else .failed)
  | .downgrade => some (m-(cOne-1),.shared)
  | .stealLock val => some (if m=val then (val-cSig+cOne,.exclusive) else (m,.spinLock 0))
  | .spinLock i => some (m,if m=0 then .spinTryLock i
      else if m &&& cSig≠0 then .spinSteal i m else nextPass 10 i .spinLock .addLock)
  | .spinTryLock i =>
    some (if m=0 then (cOne,.exclusive) else (m,nextPass 10 i .spinLock .addLock))
  | .spinSteal i old => some (if m=old then (old-cSig+cOne,.exclusive)
      else (m,nextPass 10 i .spinLock .addLock))
  | .addLock => some (m+cOne,if m=0 then .exclusive
      else if m%cSig+cOne < cSig then .waitCheck .hold else .failed)
  | .upgradeCas value =>
    some (if m=value then (value+cOne-1,.exclusive) else (m,.spinUpgrade 0))
  | .spinUpgrade i => some (m,if upgradable m then .spinUpgradeCas i m
      else nextPass 10 i .spinUpgrade .addUpgrade)
  | .spinUpgradeCas i value => some (if m=value then (value+cOne-1,.exclusive)
      else (m,nextPass 10 i .spinUpgrade .addUpgrade))
  | .addUpgrade => some (m+(cOne-1),if ¬m%cSig+cOne-1 < cSig then .failed
      else if m%cOne=1 then .exclusive else .waitCheck .hold)
  | .spinFree i max => some (m,if m%cOne=0 ∧ (m/cOne < max ∨ cSig ≤ m) then .idle
      else nextPass 30 i (fun i => .spinFree i (m/cOne)) .addFree)
  | .addFree => some (m+cOne,if m=0 then .unlock else .waitCheck .unlock)
  | .unlock => some (m-cOne,if m≠cOne then impUnlock m else .idle)
  | .waitCheck after =>
    some (if cSig ≤ m then (m-cSig,after.loc) else (m,.waitSleep after m))
  | .waitSleep after old => some (m,if m=old then .asleep after else .waitCheck after)
  | .asleep after => some (m,.waitCheck after)
  | .signal => some (m+cSig,.notify)
  | .idle | .shared | .exclusive | .failed | .notify => none

structure State (τ : Type*) where
  value : BitVec 32
  loc : τ → Loc

variable {τ : Type*} [DecidableEq τ]

def State.move (s : State τ) (t : τ) (value : BitVec 32) (loc : Loc) : State τ :=
  ⟨value,Function.update s.loc t loc⟩

@[simp] theorem State.move_loc (s : State τ) (t : τ) (value : BitVec 32) (loc : Loc) :
    (s.move t value loc).loc = Function.update s.loc t loc := rfl

/-- One atomic operation of one thread. `notify_one` wakes a thread that is asleep, if
there is one; a thread may also wake up by itself. -/
inductive Step (s : State τ) : State τ → Prop
  | call (t : τ) (c : Call) {value : BitVec 32} {loc : Loc}
    (h : SharedMutex.call s.value (s.loc t) c = some (value,loc)) : Step s (s.move t value loc)
  | advance (t : τ) {value : BitVec 32} {loc : Loc}
    (h : SharedMutex.advance s.value (s.loc t) = some (value,loc)) : Step s (s.move t value loc)
  | notifyOne (t u : τ) (after : After) (ht : s.loc t = .notify) (hu : s.loc u = .asleep after) :
    Step s ((s.move t s.value .idle).move u s.value (.waitCheck after))
  | notifyNone (t : τ) (ht : s.loc t = .notify) (hnone : ∀ u after, s.loc u≠.asleep after) :
    Step s (s.move t s.value .idle)

def initial (τ : Type*) : State τ := ⟨0,fun _ => .idle⟩

def Reachable (s : State τ) : Prop := Relation.ReflTransGen Step (initial τ) s

inductive Role
  | outside | reader | writer | waiter | signaller
  deriving DecidableEq, Repr

instance : Fintype Role :=
  ⟨{.outside, .reader, .writer, .waiter, .signaller},by intro r; cases r <;> decide⟩

/-- A `signaller` has given the mutex up and is about to signal. -/
def Loc.role : Loc → Role
  | .shared | .upgradeCas _ | .spinUpgrade _ | .spinUpgradeCas _ _ | .addUpgrade => .reader
  | .exclusive | .downgrade | .unlock => .writer
  | .waitCheck _ | .waitSleep _ _ | .asleep _ => .waiter
  | .signal => .signaller
  | _ => .outside

def Loc.Sound : Loc → Prop
  | .tryLockSharedCas value | .lockSharedCas value | .spinSharedCas _ value => value < cOne-1
  | .stealShared val | .spinSharedSteal _ val | .stealLock val | .spinSteal _ val => val &&& cSig≠0
  | .upgradeCas value | .spinUpgradeCas _ value => upgradable value=true
  | .waitSleep _ old => old < cSig
  | .failed => False
  | _ => True

/-- How many threads have each role, and one of them has gone from role `a` to `b`. -/
structure Moved (c c' : Role → ℕ) (a b : Role) : Prop where
  left : c' a+1 = c a
  entered : c' b = c b+1
  others : ∀ r, r≠a → r≠b → c' r = c r

/-- The changes of role the lock allows, with the signals before and after. -/
inductive Change (c : Role → ℕ) : ℕ → Role → ℕ → Role → Prop
  | acquireShared : c .writer+c .waiter=0 → Change c 0 .outside 0 .reader
  | stealShared : Change c 1 .outside 0 .reader
  | acquire : c .reader+c .writer+c .waiter=0 → Change c 0 .outside 0 .writer
  | steal : Change c 1 .outside 0 .writer
  | enqueue {signals : ℕ} : 0 < c .reader+c .writer+c .waiter+signals →
    Change c signals .outside signals .waiter
  | take : Change c 1 .waiter 0 .writer
  | downgrade {signals : ℕ} : Change c signals .writer signals .reader
  | upgrade {signals : ℕ} : c .reader=1 → Change c signals .reader signals .writer
  | upgradeWait {signals : ℕ} : c .reader≠1 → Change c signals .reader signals .waiter
  | releaseShared {signals : ℕ} : (0 < c .waiter → c .reader≠1) →
    Change c signals .reader signals .outside
  | releaseSharedSignal {signals : ℕ} : 0 < c .writer+c .waiter+signals → c .reader=1 →
    Change c signals .reader signals .signaller
  | release {signals : ℕ} : c .waiter=0 → Change c signals .writer signals .outside
  | releaseSignal {signals : ℕ} : 1 < c .reader+c .writer+c .waiter+signals →
    Change c signals .writer signals .signaller
  | signal {signals : ℕ} : Change c signals .signaller (signals+1) .outside

/-- The mutex is open to readers, and then nobody waits for a mutex without readers, or a
writer is alone, or it is being handed over to a waiter by a signaller or a signal. -/
def Mode (c : Role → ℕ) (signals : ℕ) : Prop :=
  (c .signaller+signals=0 ∧ c .writer=0 ∧ (c .reader=0 → c .waiter=0)) ∨
  (c .signaller+signals=0 ∧ c .writer=1 ∧ c .reader=0) ∨
  (c .signaller+signals=1 ∧ c .writer=0 ∧ c .reader=0 ∧ 0 < c .waiter)

theorem Mode.change {c c' : Role → ℕ} {signals signals' : ℕ} {a b : Role} (h : Mode c signals)
    (hchange : Change c signals a signals' b) (hmoved : Moved c c' a b) : Mode c' signals' := by
  obtain ⟨hleft,hentered,hothers⟩ := hmoved
  have hr := hothers .reader
  have hw := hothers .writer
  have hq := hothers .waiter
  have hp := hothers .signaller
  unfold Mode at h
  cases hchange <;> simp only [ne_eq,reduceCtorEq,not_false_eq_true,not_true_eq_false,
    forall_const,IsEmpty.forall_iff] at hr hw hq hp
  case acquireShared => exact .inl (by omega)
  case stealShared => exact .inl (by omega)
  case acquire => exact .inr (.inl (by omega))
  case steal => exact .inr (.inl (by omega))
  case enqueue =>
    -- a new waiter leaves the mutex with whoever has it
    rcases h with hopen | hwriter | hhandover
    · exact .inl (by omega)
    · exact .inr (.inl (by omega))
    · exact .inr (.inr (by omega))
  case take => exact .inr (.inl (by omega))
  case downgrade => exact .inl (by omega)
  case upgrade => exact .inr (.inl (by omega))
  case upgradeWait => exact .inl (by omega)
  case releaseShared => exact .inl (by omega)
  case releaseSharedSignal => exact .inr (.inr (by omega))
  case release => exact .inl (by omega)
  case releaseSignal => exact .inr (.inr (by omega))
  case signal => exact .inr (.inr (by omega))

/-- What an atomic operation does to the word and to the role of its thread. -/
inductive Effect (v : ℕ) : Role → ℕ → Role → Prop
  | keep (r : Role) : Effect v r v r
  | acquireShared : v < 2^14-1 → Effect v .outside (v+1) .reader
  | stealShared : 2^30 ≤ v → Effect v .outside (v-2^30+1) .reader
  | acquire : v=0 → Effect v .outside (2^14) .writer
  | steal : 2^30 ≤ v → Effect v .outside (v-2^30+2^14) .writer
  | enqueue : v≠0 → Effect v .outside (v+2^14) .waiter
  | take : 2^30 ≤ v → Effect v .waiter (v-2^30) .writer
  | downgrade : Effect v .writer (v-(2^14-1)) .reader
  | upgrade : v%2^14=1 → Effect v .reader (v+(2^14-1)) .writer
  | upgradeWait : v%2^14≠1 → Effect v .reader (v+(2^14-1)) .waiter
  | releaseShared : (2^14 ≤ v → v%2^14≠1) → Effect v .reader (v-1) .outside
  | releaseSharedSignal : 2^14 ≤ v → v%2^14=1 → Effect v .reader (v-1) .signaller
  | release : v = 2^14 → Effect v .writer 0 .outside
  | releaseSignal : v≠2^14 → Effect v .writer (v-2^14) .signaller
  | signal : Effect v .signaller (v+2^30) .outside

/-- The word counts the readers, the writers with the waiters, and the signals. -/
def Word (c : Role → ℕ) (v signals : ℕ) : Prop :=
  v = c .reader+2^14*(c .writer+c .waiter)+2^30*signals

def Fits (c : Role → ℕ) : Prop := c .reader+c .writer+c .waiter+c .signaller < 16383

/-- Every operation on the word is a change of role the lock allows. -/
theorem Effect.change {c c' : Role → ℕ} {v v' signals : ℕ} {a b : Role} (h : Effect v a v' b)
    (hab : a≠b) (hword : Word c v signals) (hsignals : signals ≤ 1) (hfits : Fits c)
    (hmoved : Moved c c' a b) : ∃ signals', Change c signals a signals' b ∧ Word c' v' signals' := by
  obtain ⟨hleft,hentered,hothers⟩ := hmoved
  have hr := hothers .reader
  have hw := hothers .writer
  have hq := hothers .waiter
  unfold Fits at hfits
  unfold Word at hword ⊢
  cases h <;> simp only [ne_eq,reduceCtorEq,not_false_eq_true,not_true_eq_false,forall_const,
    IsEmpty.forall_iff] at hr hw hq hab
  case acquireShared hv =>
    obtain rfl : signals=0 := by omega
    exact ⟨0,.acquireShared (by omega),by omega⟩
  case stealShared hv =>
    obtain rfl : signals=1 := by omega
    exact ⟨0,.stealShared,by omega⟩
  case acquire hv =>
    obtain rfl : signals=0 := by omega
    exact ⟨0,.acquire (by omega),by omega⟩
  case steal hv =>
    obtain rfl : signals=1 := by omega
    exact ⟨0,.steal,by omega⟩
  case enqueue hv => exact ⟨signals,.enqueue (by omega),by omega⟩
  case take hv =>
    obtain rfl : signals=1 := by omega
    exact ⟨0,.take,by omega⟩
  case downgrade => exact ⟨signals,.downgrade,by omega⟩
  case upgrade hv => exact ⟨signals,.upgrade (by omega),by omega⟩
  case upgradeWait hv => exact ⟨signals,.upgradeWait (by omega),by omega⟩
  case releaseShared hv => exact ⟨signals,.releaseShared (by omega),by omega⟩
  case releaseSharedSignal hv hv' =>
    exact ⟨signals,.releaseSharedSignal (by omega) (by omega),by omega⟩
  case release hv => exact ⟨signals,.release (by omega),by omega⟩
  case releaseSignal hv => exact ⟨signals,.releaseSignal (by omega),by omega⟩
  case signal => exact ⟨signals+1,.signal,by omega⟩

end PS3Native.SharedMutex
