import PS3Native.CellSyncBarrier
import PS3Native.History

/-!
# `CellSyncRwm`

A reader announces itself unless there is a writer, a writer announces itself and waits for the
readers. A step is an atomic operation on the control word or the copy of one byte of a `memcpy`.
Calls with null or misaligned pointers are left out.
-/
namespace PS3Native.CellSyncRwm
open Interleaving

structure Ctrl where
  readers : BitVec 16
  writers : BitVec 16
  deriving DecidableEq, Repr

def tryReadBegin (ctrl : Ctrl) : Option Ctrl :=
  if ctrl.writers≠0#16 then none else some {ctrl with readers := ctrl.readers+1#16}

def tryReadEnd (ctrl : Ctrl) : Option Ctrl :=
  if ctrl.readers = 0#16 then none else some {ctrl with readers := ctrl.readers-1#16}

def tryWriteBegin (ctrl : Ctrl) : Option Ctrl :=
  if ctrl.writers≠0#16 then none else some {ctrl with writers := 1#16}

def compareAndSwapTest (ctrl old new : Ctrl) : Option Ctrl :=
  if ctrl=old then some new else none

abbrev Byte := BitVec 8

structure Memory where
  ctrl : Ctrl
  buffer : ℕ → Byte

inductive Pc
  | idle
  | readLoop (blocking : Bool)
  | copyOut (copied : List Byte)
  | writeLoop (data : List Byte)
  | writeWait (data : List Byte)
  | tryWrite (data : List Byte)
  | copyIn (data : List Byte) (copied : ℕ)

inductive Input
  | read (blocking : Bool)
  | write (blocking : Bool) (data : List Byte)
  | step (stopped : Bool)

inductive Event
  | read (data : List Byte)
  | write (data : List Byte)
  | failed (outcome : CellSyncOutcome)
  deriving DecidableEq

def program (size : BitVec 32) : Program Memory Pc Input Event
  | m, .idle, .read blocking => some (m,.readLoop blocking,[])
  | m, .idle, .write blocking data =>
    if data.length=size.toNat then
      some (m,if blocking then .writeLoop data else .tryWrite data,[])
    else none
  | m, .readLoop blocking, .step stopped =>
    match tryReadBegin m.ctrl with
    | some ctrl => some ({m with ctrl := ctrl},.copyOut [],[])
    | none =>
      if !blocking then some (m,.idle,[.failed (.error .busy)])
      else if stopped then some (m,.idle,[.failed .stopped])
      else some (m,.readLoop blocking,[])
  | m, .copyOut copied, .step _ =>
    if copied.length < size.toNat then
      some (m,.copyOut (copied++[m.buffer copied.length]),[])
    else
      match tryReadEnd m.ctrl with
      | some ctrl => some ({m with ctrl := ctrl},.idle,[.read copied])
      | none => some (m,.idle,[.failed (.error .abort)])
  | m, .writeLoop data, .step stopped =>
    match tryWriteBegin m.ctrl with
    | some ctrl => some ({m with ctrl := ctrl},.writeWait data,[])
    | none =>
      if stopped then some (m,.idle,[.failed .stopped]) else some (m,.writeLoop data,[])
  | m, .writeWait data, .step stopped =>
    if m.ctrl.readers = 0#16 then some (m,.copyIn data 0,[])
    else if stopped then some (m,.idle,[.failed .stopped])
    else some (m,.writeWait data,[])
  | m, .tryWrite data, .step _ =>
    match compareAndSwapTest m.ctrl ⟨0#16,0#16⟩ ⟨0#16,1#16⟩ with
    | some ctrl => some ({m with ctrl := ctrl},.copyIn data 0,[])
    | none => some (m,.idle,[.failed (.error .busy)])
  | m, .copyIn data copied, .step _ =>
    match data[copied]? with
    | some byte => some ({m with buffer := Function.update m.buffer copied byte},
        .copyIn data (copied+1),[])
    | none => some ({m with ctrl := ⟨0#16,0#16⟩},.idle,[.write data])
  | _, _, _ => none

abbrev State (τ : Type*) := System Memory Pc Event τ

def initial (τ : Type*) (bytes : ℕ → Byte) : State τ :=
  ⟨⟨⟨0#16,0#16⟩,bytes⟩,fun _ => .idle,[]⟩

def transfers (log : List Event) : List (History.RegisterEvent (List Byte)) :=
  log.filterMap fun
    | .read data => some (.read data)
    | .write data => some (.write data)
    | .failed _ => none

def record (size : BitVec 32) (buffer : ℕ → Byte) : List Byte :=
  (List.range size.toNat).map buffer

end PS3Native.CellSyncRwm
