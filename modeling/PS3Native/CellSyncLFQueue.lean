import PS3Native.CellSyncBarrier
import PS3Native.RingSlots

/-!
# Push pointers of `CellSyncLFQueue`

A producer takes a push pointer with two loads and a compare-and-swap, while the
consumer may move `pop1.m_h1` at any point in between. The counters are `u16` and
run modulo `2 * depth`; the producer reads `m_h8` through an `s16` cast.
-/
namespace PS3Native.CellSyncLFQueue

/-- `CellSyncQueueDirection` -/
inductive Direction
  | spu2spu | spu2ppu | ppu2spu | any2any
  deriving DecidableEq, Repr

structure Push1 where
  h5 : BitVec 16
  h6 : BitVec 16
  h7 : BitVec 16
  h8 : BitVec 16
  deriving DecidableEq, Repr

structure Pop1 where
  h1 : BitVec 16
  h2 : BitVec 16
  h3 : BitVec 16
  h4 : BitVec 16
  deriving DecidableEq, Repr

/-- The fields that taking a push pointer reads or writes. `bs` is `m_bs` as one word. -/
structure LFQueue where
  pop1 : Pop1
  push1 : Push1
  depth : BitVec 32
  bs : BitVec 32
  direction : Direction

/-- `syncLFQueueInitialize`; some half words and bytes keep what `old` has there. -/
def syncLFQueueInitialize (old : LFQueue) (depth : BitVec 32) (direction : Direction) : LFQueue :=
  if direction=.any2any then
    { pop1 := ⟨0#16,0#16,0#16,0#16⟩
      push1 := ⟨0#16,0#16,0#16,0#16⟩
      depth := depth
      bs := (old.bs &&& 0xffff0000#32) ||| 0xffff#32
      direction := direction }
  else
    { pop1 := ⟨0#16,0#16,old.pop1.h3,0#16⟩
      push1 := ⟨0#16,0#16,old.push1.h7,0#16⟩
      depth := depth
      bs := 0xffffffff#32
      direction := direction }

def cleared : LFQueue :=
  ⟨⟨0#16,0#16,0#16,0#16⟩,⟨0#16,0#16,0#16,0#16⟩,0#32,0#32,.spu2spu⟩

inductive Decision
  | fail (code : CellSyncError)
  | reload
  | await
  | swap (push : Push1) (res : Option CellSyncError) (pointer : Option ℤ)
  deriving DecidableEq

/-- The loop body of `_cellSyncLFQueueGetPushPointer` between its loads and its
compare-and-swap. `push` is `push1` with `m_h7` cleared after a wait. -/
def pushDecision (queue : LFQueue) (isBlocking useEventQueue : BitVec 32) (push : Push1)
    (h1 : BitVec 16) : Decision :=
  let depth : ℤ := queue.depth.toInt
  if isBlocking≠0#32 ∧ useEventQueue≠0#32 ∧ queue.bs.toInt = -1 then .fail .stat
  else if useEventQueue≠0#32 ∧ ((push.h5.toNat : ℤ)≠push.h8.toInt ∨ push.h7≠0#16) then
    .swap push (some .busy) none
  else
    let distance := push.h8.toInt-h1.toNat
    let distance := if distance < 0 then distance+depth*2 else distance
    if distance < depth then
      let pointer := push.h8.toInt
      .swap {push with h8 := if pointer+1 ≥ depth*2 then 0#16 else push.h8+1#16} none
        (some pointer)
    else if isBlocking = 0#32 then .fail .again
    else if useEventQueue = 0#32 then .reload
    else if isBlocking≠3#32 then .await
    else .swap {push with h7 := 3#16} none none

/-- The buffer slot that `_cellSyncLFQueuePushBody` writes for a push pointer. -/
def bufferSlot (depth pos : ℤ) : ℤ := if pos ≥ depth then pos-depth else pos

/-- The producer inside a call with `isBlocking = 0` and `useEventQueue = 0`. -/
inductive Pc
  | idle
  | loadPush
  | loadPop (old : Push1)
  | swap (old push : Push1) (res : Option CellSyncError) (pointer : Option ℤ)
  | receive

structure State where
  queue : LFQueue
  pc : Pc
  pointers : List ℤ

inductive Input
  | call
  | produce
  | consume (k : ℕ)

/-- The distance from `pop1.m_h1` to `push1.m_h8` modulo `2 * depth`. -/
def LFQueue.distance (q : LFQueue) : ℕ :=
  RingSlots.distance (2*q.depth.toNat) q.pop1.h1.toNat q.push1.h8.toNat

def produce (s : State) : Option State :=
  match s.pc with
  | .idle => none
  | .loadPush => some {s with pc := .loadPop s.queue.push1}
  | .loadPop old =>
    match pushDecision s.queue 0#32 0#32 old s.queue.pop1.h1 with
    | .fail _ => some {s with pc := .idle}
    | .reload => some {s with pc := .loadPush}
    | .await => some {s with pc := .receive}
    | .swap push res pointer => some {s with pc := .swap old push res pointer}
  | .swap old push res pointer =>
    if s.queue.push1=old then
      some { s with
        queue := {s.queue with push1 := push}
        pc := if push.h7 = 0#16 ∨ res≠none then .idle else .receive
        pointers := s.pointers++pointer.toList }
    else some {s with pc := .loadPush}
  | .receive => none

def step (s : State) : Input → Option State
  | .call =>
    match s.pc with
    | .idle => some {s with pc := if s.queue.direction=.ppu2spu then .loadPush else .idle}
    | _ => none
  | .produce => produce s
  | .consume k =>
    if k ≤ s.queue.distance then
      some { s with queue := { s.queue with pop1 := { s.queue.pop1 with
        h1 := BitVec.ofNat 16 ((s.queue.pop1.h1.toNat+k)%(2*s.queue.depth.toNat)) } } }
    else none

def run : State → List Input → Option State
  | s, [] => some s
  | s, input::inputs => (step s input).bind fun s => run s inputs

def initial (depth : BitVec 32) : State :=
  ⟨syncLFQueueInitialize cleared depth .ppu2spu,.idle,[]⟩

structure PointersOk (s : State) : Prop where
  range : ∀ p∈s.pointers, 0 ≤ p ∧ p < 2*(s.queue.depth.toNat : ℤ)
  consecutive : s.pointers.IsChain fun p q => q = (p+1)%(2*(s.queue.depth.toNat : ℤ))
  capacity : s.queue.distance ≤ s.queue.depth.toNat
  slot : ∀ p∈s.pointers, 0 ≤ bufferSlot s.queue.depth.toInt p ∧
    bufferSlot s.queue.depth.toInt p < s.queue.depth.toInt

end PS3Native.CellSyncLFQueue
