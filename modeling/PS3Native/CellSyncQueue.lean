import PS3Native.CellSyncBarrier
import PS3Native.History
import PS3Native.RingSlots

/-!
# `CellSyncQueue`

A step is an atomic operation on the control word, its load in `check_depth`, its final store in a
clear, or the copy of one byte of a `memcpy`. Calls with null or misaligned pointers return before
they touch the queue and are left out.
-/
namespace PS3Native.CellSyncQueue
open Interleaving

structure Ctrl where
  next : BitVec 24
  pop : BitVec 8
  count : BitVec 24
  push : BitVec 8
  deriving DecidableEq, Repr

def emptyCtrl : Ctrl := ⟨0#24,0#8,0#24,0#8⟩

structure Config where
  size : BitVec 32
  depth : BitVec 32

def tryPushBegin (ctrl : Ctrl) (depth : BitVec 32) : Option (BitVec 32 × Ctrl) :=
  let count := ctrl.count.setWidth 32
  if ctrl.push≠0#8 || count+ctrl.pop.setWidth 32 ≥ depth then none
  else
    let position := ctrl.next.setWidth 32
    some (position,{ ctrl with
        next := (if position+1#32≠depth then position+1#32 else 0#32).setWidth 24
        count := (count+1#32).setWidth 24
        push := 1#8 })

def pushEnd (ctrl : Ctrl) : Ctrl := {ctrl with push := 0#8}

def tryPopBegin (ctrl : Ctrl) (depth : BitVec 32) : Option (BitVec 32 × Ctrl) :=
  let count := ctrl.count.setWidth 32
  if ctrl.pop≠0#8 || count ≤ ctrl.push.setWidth 32 then none
  else some (ctrl.next.setWidth 32+depth-count,
    {ctrl with pop := 1#8, count := (count-1#32).setWidth 24})

def tryPeekBegin (ctrl : Ctrl) (depth : BitVec 32) : Option (BitVec 32 × Ctrl) :=
  let count := ctrl.count.setWidth 32
  if ctrl.pop≠0#8 || count ≤ ctrl.push.setWidth 32 then none
  else some (ctrl.next.setWidth 32+depth-count,{ctrl with pop := 1#8})

def popEnd (ctrl : Ctrl) : Ctrl := {ctrl with pop := 0#8}

def tryClearBegin1 (ctrl : Ctrl) : Option Ctrl :=
  if ctrl.pop≠0#8 then none else some {ctrl with pop := 1#8}

def tryClearBegin2 (ctrl : Ctrl) : Option Ctrl :=
  if ctrl.push≠0#8 then none else some {ctrl with push := 1#8}

/-- `check_depth` passes when it does not throw. -/
def checkDepth (ctrl : Ctrl) (depth : BitVec 32) : Bool :=
  !(ctrl.next.setWidth 32 > depth || ctrl.count.setWidth 32 > depth)

abbrev Byte := BitVec 8

structure Memory where
  ctrl : Ctrl
  buffer : ℕ → Byte

/-- The blocking calls repeat the first atomic operation, the `Try` calls do not. -/
inductive Op
  | push (blocking : Bool) (data : List Byte)
  | pop (blocking : Bool)
  | peek (blocking : Bool)
  | clear

inductive Pc
  | idle
  | check (op : Op)
  | loop (op : Op)
  | copyIn (position : BitVec 32) (data : List Byte) (copied : ℕ)
  | copyOut (peek : Bool) (position : BitVec 32) (copied : List Byte)
  | clearLoop
  | clearStore
  | thrown

inductive Input
  | call (op : Op)
  | step (stopped : Bool)

abbrev Event := History.QueueEvent (List Byte)

def Op.fits (cfg : Config) : Op → Bool
  | .push _ data => data.length=cfg.size.toNat
  | _ => true

/-- After a failed atomic operation a blocking call goes round its loop again. -/
def retry (blocking stopped : Bool) (op : Op) : Pc :=
  if blocking && !stopped then .loop op else .idle

def slotByte (cfg : Config) (position : BitVec 32) (i : ℕ) : ℕ := (position*cfg.size).toNat+i

def attempt (cfg : Config) (m : Memory) (stopped : Bool) : Op → Memory × Pc
  | .push blocking data =>
    match tryPushBegin m.ctrl cfg.depth with
    | some (position,ctrl) => ({m with ctrl := ctrl},.copyIn position data 0)
    | none => (m,retry blocking stopped (.push blocking data))
  | .pop blocking =>
    match tryPopBegin m.ctrl cfg.depth with
    | some (position,ctrl) => ({m with ctrl := ctrl},.copyOut false position [])
    | none => (m,retry blocking stopped (.pop blocking))
  | .peek blocking =>
    match tryPeekBegin m.ctrl cfg.depth with
    | some (position,ctrl) => ({m with ctrl := ctrl},.copyOut true position [])
    | none => (m,retry blocking stopped (.peek blocking))
  | .clear =>
    match tryClearBegin1 m.ctrl with
    | some ctrl => ({m with ctrl := ctrl},.clearLoop)
    | none => (m,retry true stopped .clear)

def program (cfg : Config) : Program Memory Pc Input Event
  | m, .idle, .call op => if op.fits cfg then some (m,.check op,[]) else none
  | m, .check op, .step _ =>
    some (m,if checkDepth m.ctrl cfg.depth then .loop op else .thrown,[])
  | m, .loop op, .step stopped =>
    let (m,pc) := attempt cfg m stopped op
    some (m,pc,[])
  | m, .copyIn position data copied, .step _ =>
    match data[copied]? with
    | some byte => some ({ m with
        buffer := Function.update m.buffer (slotByte cfg position copied) byte },
        .copyIn position data (copied+1),[])
    | none => some ({m with ctrl := pushEnd m.ctrl},.idle,[.push data])
  | m, .copyOut peek position copied, .step _ =>
    if copied.length < cfg.size.toNat then
      some (m,.copyOut peek position
        (copied++[m.buffer (slotByte cfg (position%cfg.depth) copied.length)]),[])
    else some ({m with ctrl := popEnd m.ctrl},.idle,[if peek then .peek copied else .pop copied])
  | m, .clearLoop, .step stopped =>
    match tryClearBegin2 m.ctrl with
    | some ctrl => some ({m with ctrl := ctrl},.clearStore,[])
    | none => some (m,if stopped then .idle else .clearLoop,[])
  | m, .clearStore, .step _ => some ({m with ctrl := emptyCtrl},.idle,[.clear])
  | _, _, _ => none

abbrev State (τ : Type*) := System Memory Pc Event τ

def initial (τ : Type*) (bytes : ℕ → Byte) : State τ :=
  ⟨⟨emptyCtrl,bytes⟩,fun _ => .idle,[]⟩

end PS3Native.CellSyncQueue
