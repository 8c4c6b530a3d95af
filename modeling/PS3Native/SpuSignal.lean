import Mathlib.Logic.Relation
import PS3Native.SpuChannel

/-!
# Signals to a waiting SPU

One SPU calls `spu_channel::pop_wait`, any number of threads call `push`. A step is one access to
`data` or `jostling_value`, or a notification. `pop_wait` arms `jostling_value` inside the retried
update of `data`, so it may be armed while `data` does not show a waiting SPU.
-/
namespace PS3Native.SpuSignal

open SpuChannel

structure Push where
  value : UInt32
  toOr : Bool
  deriving DecidableEq, Repr

/-- Where the SPU stands in `pop_wait`, with the word that its update has loaded or the
number of times it still looks before it goes to sleep. -/
inductive SpuLoc
  | idle
  | load
  | update (old : Data)
  | exchange (old : Data)
  | check (left : ℕ)
  | waitOn
  | asleep
  | take
  deriving DecidableEq, Repr

inductive Loc
  | idle
  | load (p : Push)
  | exchange (p : Push) (old : Data)
  | jostle (p : Push) (old : Data)
  | release (p : Push) (old : Data)
  | notify (p : Push) (old : Data)
  | ensureFailed
  deriving DecidableEq, Repr

structure State (τ : Type*) where
  data : Data
  jostlingValue : Jostling
  spu : SpuLoc
  loc : τ → Loc
  /-- The pushes since the last pop, each with its thread. -/
  since : List (τ × Push)
  /-- The pushes that each pop took. -/
  groups : List (List (τ × Push))
  /-- The values that `pop_wait` has returned. -/
  results : List UInt32
  /-- The pushes of each thread that have returned. -/
  finished : τ → List Push

variable {τ : Type*} [DecidableEq τ]

def initial (τ : Type*) : State τ :=
  ⟨.zero,.value 0,.idle,fun _ => .idle,[],[],[],fun _ => []⟩

/-- The value that a push leaves where there was another. -/
def Push.apply (old : UInt32) (p : Push) : UInt32 := if p.toOr then old ||| p.value else p.value

def combine (pushes : List (τ × Push)) : UInt32 := (pushes.map Prod.snd).foldl Push.apply 0

def State.go (s : State τ) (t : τ) (l : Loc) : State τ := {s with loc := Function.update s.loc t l}

def State.finish (s : State τ) (t : τ) (p : Push) : State τ :=
  { s with
    loc := Function.update s.loc t .idle
    finished := Function.update s.finished t (s.finished t++[p]) }

/-- The word that the update of a push has loaded decides where it goes on. -/
def loaded (p : Push) (old : Data) : Loc := if old.occupy then .jostle p old else .exchange p old

/-- After the value is in place: notify a thread that waited, or return. -/
def State.pushed (s : State τ) (t : τ) (p : Push) (old : Data) : State τ :=
  if old.wait then s.go t (.notify p old) else s.finish t p

def SpuLoc.awaken : SpuLoc → SpuLoc
  | .asleep => .check 0
  | l => l

def advance (s : State τ) (t : τ) : Option (State τ) :=
  match s.loc t with
  | .idle => none
  | .load p => some (s.go t (loaded p s.data))
  | .exchange p old =>
    if s.data=old then
      (pushUpdate p.value p.toOr old).map fun data =>
        State.pushed {s with data := data, since := s.since++[(t,p)]} t p old
    else some (s.go t (loaded p s.data))
  | .jostle p old =>
    if s.jostlingValue=.occupy then
      some (State.go { s with
        jostlingValue := .value p.value
        groups := s.groups++[s.since++[(t,p)]]
        since := [] } t (.release p old))
    else some (s.go t (.load p))
  | .release p old =>
    let cleared := {s with data := s.data.release}
    if s.data.wait ∧ old.wait then some (cleared.go t (.notify p old))
    else some (cleared.go t .ensureFailed)
  | .notify p _ => some (State.finish {s with spu := s.spu.awaken} t p)
  | .ensureFailed => none

def call (s : State τ) (t : τ) (p : Push) : Option (State τ) :=
  if s.loc t = .idle then some (s.go t (.load p)) else none

def State.popped (s : State τ) (v : UInt32) : State τ :=
  {s with spu := .idle, results := s.results++[v]}

/-- The next step of the SPU. It looks ten times before it sleeps. -/
def advanceSpu (s : State τ) : Option (State τ) :=
  match s.spu with
  | .idle => some {s with spu := .load}
  | .load => some {s with spu := .update s.data}
  | .update old =>
    if old.count then some {s with spu := .exchange old}
    else some {s with jostlingValue := .occupy, spu := .exchange old}
  | .exchange old =>
    if s.data=old then
      if old.count then
        some (State.popped { s with
          data := popWaitUpdate old
          groups := s.groups++[s.since]
          since := [] } old.value)
      else some {s with data := popWaitUpdate old, spu := .check 9}
    else some {s with spu := .update s.data}
  | .check left =>
    if s.data.wait then
      some {s with spu := if left=0 then .waitOn else .check (left-1)}
    else some {s with spu := .take}
  | .waitOn => some {s with spu := if s.data.wait then .asleep else .check 0}
  | .asleep => none
  | .take => some (State.popped {s with jostlingValue := .value 0} s.jostlingValue.low)

inductive Step (s : State τ) : State τ → Prop
  | call {t : τ} {p : Push} {s' : State τ} (h : call s t p = some s') : Step s s'
  | push {t : τ} {s' : State τ} (h : advance s t = some s') : Step s s'
  | spu {s' : State τ} (h : advanceSpu s = some s') : Step s s'

/-- The thread is about to claim an armed `jostling_value` while no SPU waits. -/
def Premature (s : State τ) (t : τ) : Prop :=
  ∃ p old, s.loc t = .jostle p old ∧ s.jostlingValue=.occupy ∧ s.data.wait=false

/-- The steps in which no push claims `jostling_value` before the SPU waits. -/
inductive TimelyStep (s : State τ) : State τ → Prop
  | call {t : τ} {p : Push} {s' : State τ} (h : call s t p = some s') : TimelyStep s s'
  | push {t : τ} {s' : State τ} (htimely : ¬Premature s t) (h : advance s t = some s') :
    TimelyStep s s'
  | spu {s' : State τ} (h : advanceSpu s = some s') : TimelyStep s s'

def Reachable (s : State τ) : Prop := Relation.ReflTransGen Step (initial τ) s

def TimelyReachable (s : State τ) : Prop := Relation.ReflTransGen TimelyStep (initial τ) s

end PS3Native.SpuSignal
