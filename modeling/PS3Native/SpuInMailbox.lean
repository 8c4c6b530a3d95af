import Mathlib.Logic.Relation
import PS3Native.History

/-!
# The inbound mailbox of an SPU

`spu_channel_4_t` holds three values in the word `values` and the fourth in `value3`. The callers
of `push` hold a mutex, so one pusher makes all the pushes. A step is one access to `values`,
`value3` or `jostling_value`. `wait_on` may return at any time. The last fields of the state record
what was pushed and popped.
-/
namespace PS3Native.SpuInMailbox

open History

/-- `jostling_value`: the flag of an SPU that waits, or a value. -/
inductive Jostling
  | flag
  | value (v : UInt32)
  deriving DecidableEq, Repr

def Jostling.low : Jostling → UInt32
  | .flag => 0
  | .value v => v

/-- `sync_var_t`, with the two bits of `waiting`. -/
structure Values where
  wait : Bool
  occupy : Bool
  count : ℕ
  value3Inval : UInt16
  value0 : UInt32
  value1 : UInt32
  value2 : UInt32
  deriving DecidableEq, Repr

section Words

def Values.zero : Values := ⟨false,false,0,0,0,0,0⟩

/-- The word without its first value, where `value3` moves up. -/
def popUpdate (value3 : UInt32) (data : Values) : Values :=
  ⟨false,false,data.count-1,data.value3Inval,data.value1,data.value2,value3⟩

/-- The word with another value, unless it is the fourth, which is in `value3`. -/
def pushUpdate (value : UInt32) (data : Values) : Values :=
  match data.count with
  | 0 => {data with count := 1, value0 := value}
  | 1 => {data with count := 2, value1 := value}
  | 2 => {data with count := 3, value2 := value}
  | _ => {data with count := 4, value3Inval := data.value3Inval+1}

end Words

inductive Op
  | tryPop
  | popWait (popValue : Bool)
  deriving DecidableEq, Repr

def Op.pops : Op → Bool
  | .tryPop => true
  | .popWait popValue => popValue

inductive SpuLoc
  | idle
  | load (op : Op)
  | update (op : Op) (old : Values)
  | exchange (op : Op) (old new : Values)
  | check (popValue : Bool) (left : ℕ)
  | waitOn (popValue : Bool)
  | reload (popValue : Bool)
  | take
  deriving DecidableEq, Repr

inductive Loc
  | idle
  | store (v : UInt32)
  | load (v : UInt32)
  | exchange (v : UInt32) (old : Values)
  | jostle (v : UInt32) (old : Values)
  | reset (v : UInt32) (old : Values)
  | notDone
  deriving DecidableEq, Repr

structure State where
  values : Values
  jostlingValue : Jostling
  value3 : UInt32
  spu : SpuLoc
  pusher : Loc
  /-- What was pushed and popped, in the order in which it took effect. -/
  log : List (QueueEvent UInt32)
  /-- The values that the pops have returned. -/
  results : List UInt32
  /-- The values whose pushes have returned. -/
  pushed : List UInt32
  /-- The last value that took the fourth place. -/
  fourth : UInt32
  /-- How many pushes have updated `values`. -/
  updates : ℕ
  /-- How many had done so when the SPU loaded the word. -/
  loadedAt : ℕ
  /-- Whether a push was between its two writes when the SPU read `value3`. -/
  overlapped : Bool

def initial : State :=
  ⟨.zero,.value 0,0,.idle,.idle,[],[],[],0,0,0,false⟩

section Spu

def State.spuLoads (s : State) (op : Op) : State :=
  {s with spu := .update op s.values, loadedAt := s.updates}

/-- The pusher has stored `value3` and not updated `values` yet. -/
def Loc.between : Loc → Bool
  | .load _ | .exchange _ _ | .jostle _ _ => true
  | _ => false

def State.spuUpdates (s : State) (op : Op) (old : Values) : State :=
  if old.count≠0 then
    if op.pops then
      {s with spu := .exchange op old (popUpdate s.value3 old), overlapped := s.pusher.between}
    else {s with spu := .exchange op old old}
  else
    match op with
    | .tryPop => {s with spu := .exchange op old old}
    | .popWait popValue =>
      { s with
        jostlingValue := if popValue then .flag else .value 0
        spu := .exchange op old {old with wait := true, occupy := popValue} }

/-- The SPU has replaced the word: it returns, or waits if there was nothing to pop. -/
def State.spuExchanged (s : State) (op : Op) (old : Values) : State :=
  if old.count≠0 then
    if op.pops then
      { s with
        spu := .idle
        log := s.log++[.pop old.value0]
        results := s.results++[old.value0] }
    else {s with spu := .idle, log := s.log++[.peek old.value0]}
  else
    match op with
    | .tryPop => {s with spu := .idle}
    | .popWait popValue => {s with spu := .check popValue 9}

def advanceSpu (s : State) : Option State :=
  match s.spu with
  | .idle => none
  | .load op => some (s.spuLoads op)
  | .update op old => some (s.spuUpdates op old)
  | .exchange op old new =>
    if s.values=old then some (State.spuExchanged {s with values := new} op old)
    else some (s.spuLoads op)
  | .check popValue left =>
    if s.values.wait ∨ s.values.occupy then
      some {s with spu := if left=0 then .waitOn popValue else .check popValue (left-1)}
    else some {s with spu := if popValue then .take else .idle}
  | .waitOn popValue => some {s with spu := .reload popValue}
  | .reload popValue =>
    if s.values.wait then some {s with spu := .waitOn popValue}
    else some {s with spu := if popValue then .take else .idle}
  | .take =>
    some { s with
      spu := .idle
      jostlingValue := .value 0
      results := s.results++[s.jostlingValue.low] }

def callSpu (s : State) (op : Op) : Option State :=
  if s.spu=.idle then some {s with spu := .load op} else none

end Spu

section Pusher

def loaded (v : UInt32) (old : Values) : Loc := if old.occupy then .jostle v old else .exchange v old

def State.finish (s : State) (v : UInt32) : State :=
  {s with pusher := .idle, pushed := s.pushed++[v]}

/-- The value is in place: the push ends the wait of an SPU, or returns. -/
def State.placed (s : State) (v : UInt32) (old : Values) : State :=
  if old.wait then {s with pusher := .reset v old} else s.finish v

def advance (s : State) : Option State :=
  match s.pusher with
  | .idle => none
  | .store v => some {s with value3 := v, pusher := .load v}
  | .load v => some {s with pusher := loaded v s.values}
  | .exchange v old =>
    if s.values=old then
      some (State.placed { s with
        values := pushUpdate v old
        log := s.log++[.push v]
        fourth := if 3 ≤ old.count then v else s.fourth
        updates := s.updates+1 } v old)
    else some {s with pusher := loaded v s.values}
  | .jostle v old =>
    if s.jostlingValue=.flag then
      some (State.placed { s with
        jostlingValue := .value v
        log := s.log++[.push v,.pop v] } v old)
    else some {s with pusher := .store v}
  | .reset v _ =>
    let ended := {s with values := {s.values with wait := false, occupy := false}}
    if s.values.wait then some (ended.finish v) else some {ended with pusher := .notDone}
  | .notDone => none

def call (s : State) (v : UInt32) : Option State :=
  if s.pusher=.idle then some {s with pusher := .store v} else none

end Pusher

inductive Step (s : State) : State → Prop
  | callSpu {op : Op} {s' : State} (h : callSpu s op = some s') : Step s s'
  | spu {s' : State} (h : advanceSpu s = some s') : Step s s'
  | call {v : UInt32} {s' : State} (h : call s v = some s') : Step s s'
  | push {s' : State} (h : advance s = some s') : Step s s'

/-- The SPU is about to pop from a full mailbox and has read in `value3` something else than
the fourth value. -/
def Torn (s : State) : Prop :=
  ∃ op old new, s.spu = .exchange op old new ∧ s.values=old ∧ op.pops=true ∧ old.count=4 ∧
    new.value2≠s.fourth

/-- The steps in which no torn pop takes effect. -/
inductive WholeStep (s : State) : State → Prop
  | callSpu {op : Op} {s' : State} (h : callSpu s op = some s') : WholeStep s s'
  | spu {s' : State} (hwhole : ¬Torn s) (h : advanceSpu s = some s') : WholeStep s s'
  | call {v : UInt32} {s' : State} (h : call s v = some s') : WholeStep s s'
  | push {s' : State} (h : advance s = some s') : WholeStep s s'

def Reachable (s : State) : Prop := Relation.ReflTransGen Step initial s

def WholeReachable (s : State) : Prop := Relation.ReflTransGen WholeStep initial s

end PS3Native.SpuInMailbox
