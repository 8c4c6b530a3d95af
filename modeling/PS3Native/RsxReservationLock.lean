import PS3Native.AddressRange
import PS3Native.ReaderWriter

/-!
# Locks on main memory for the RSX

`rsx_iomap_table` has a `shared_mutex` for each block of 8 KiB. A `reservation_lock` locks the
blocks of a range, from the first one in steps of its stride. A step is an operation on one
`shared_mutex`, which is a lock with its holders here, or a call that does none.
-/
namespace PS3Native.RsxReservationLock

open ReaderWriter

def cLockStride : ℕ := 8192

def localMemBase : BitVec 32 := 0xC0000000#32

inductive Stride
  | one
  | default
  deriving DecidableEq, Repr

def Stride.value : Stride → ℕ
  | .one => 1
  | .default => 128

/-- A `reservation_lock<IsFullLock, Stride>`. Nothing is locked while `length` is zero. -/
structure ReservationLock where
  full : Bool
  stride : Stride
  addr : BitVec 32
  length : BitVec 32
  deriving DecidableEq, Repr

/-- The first block that the loops of `lock` and `unlock` visit. -/
def ReservationLock.first (l : ReservationLock) : ℕ := l.addr.toNat/cLockStride

def ReservationLock.last (l : ReservationLock) : ℕ := (l.addr+l.length-1#32).toNat/cLockStride

section Constructors

/-- The constructors, with what they read of the configuration. -/
inductive Constructor
  | range (rsxAccurateResAccess : Bool) (addr length : BitVec 32)
  | setting (addr length : BitVec 32) (setting : Bool)
  | ranges (rsxAccurateResAccess : Bool) (dstAddr dstLength srcAddr srcLength : BitVec 32)
  deriving DecidableEq, Repr

def Constructor.target : Constructor → Option (BitVec 32 × BitVec 32)
  | .range accurate addr length =>
    if accurate ∧ addr < localMemBase then some (addr,length) else none
  | .setting addr length enabled => if enabled then some (addr,length) else none
  | .ranges accurate dstAddr dstLength srcAddr srcLength =>
    if accurate then
      let range1 := AddressRange.startLength dstAddr dstLength
      let range2 := AddressRange.startLength srcAddr srcLength
      let target :=
        if range1.overlaps range2 then range1.getMinMax range2
        else if dstAddr < localMemBase then range1
        else range2
      if target.start < localMemBase then some (target.start,target.length) else none
    else none

end Constructors

/-- What follows the release of the blocks: `unlock` returns, `update_if_enabled` locks a new
range, or the object is gone. -/
inductive Next
  | keep
  | relock (addr length : BitVec 32)
  | gone
  deriving DecidableEq, Repr

inductive Loc
  | idle
  | locking (l : ReservationLock) (block : ℕ)
  | object (l : ReservationLock)
  | unlocking (l : ReservationLock) (block : ℕ) (next : Next)
  deriving DecidableEq, Repr

structure State (τ : Type*) where
  rs : ℕ → Lock τ
  loc : τ → Loc
  /-- How often each thread has locked a block. -/
  acquired : τ → ℕ → ℕ
  /-- How often each thread has released a block. -/
  released : τ → ℕ → ℕ

variable {τ : Type*} [DecidableEq τ]

def initial (τ : Type*) : State τ := ⟨fun _ => free,fun _ => .idle,fun _ _ => 0,fun _ _ => 0⟩

def State.go (s : State τ) (t : τ) (l : Loc) : State τ := {s with loc := Function.update s.loc t l}

def bump (f : τ → ℕ → ℕ) (t : τ) (block : ℕ) : τ → ℕ → ℕ :=
  Function.update f t (Function.update (f t) block (f t block+1))

/-- `lock_range`: `rsx_iomap_table::lock` refuses a range of at most one byte. -/
def State.lockRange (s : State τ) (t : τ) (full : Bool) (stride : Stride) (addr length : BitVec 32) :
    State τ :=
  if length ≤ 1#32 then s.go t (.object ⟨full,stride,addr,0#32⟩)
  else
    let l : ReservationLock := ⟨full,stride,addr,length⟩
    s.go t (.locking l l.first)

def advance (s : State τ) (t : τ) : Option (State τ) :=
  match s.loc t with
  | .locking l block =>
    if block ≤ l.last then
      ((s.rs block).tryLock l.full t).map fun m =>
        State.go { s with
          rs := Function.update s.rs block m
          acquired := bump s.acquired t block } t (.locking l (block+l.stride.value))
    else some (s.go t (.object l))
  | .unlocking l block next =>
    if block ≤ l.last then
      some (State.go { s with
        rs := Function.update s.rs block ((s.rs block).unlock l.full t)
        released := bump s.released t block } t (.unlocking l (block+l.stride.value) next))
    else
      match next with
      | .keep => some (s.go t (.object {l with length := 0#32}))
      | .relock addr length => some (s.lockRange t l.full l.stride addr length)
      | .gone => some (s.go t .idle)
  | _ => none

inductive Call
  | construct (full : Bool) (stride : Stride) (constructor : Constructor)
  | updateIfEnabled (addr length : BitVec 32)
  | unlock
  | destroy
  deriving DecidableEq, Repr

/-- The first block of the new range is another one, or the range goes on past its end. -/
def shouldUpdate (l : ReservationLock) (addr length : BitVec 32) : Bool :=
  l.addr.toNat/cLockStride≠addr.toNat/cLockStride ||
    8192#32 < addr%8192#32+length

def call (s : State τ) (t : τ) : Call → Option (State τ)
  | .construct full stride constructor =>
    if s.loc t = .idle then
      match constructor.target with
      | none => some (s.go t (.object ⟨full,stride,0#32,0#32⟩))
      | some (addr,length) => some (s.lockRange t full stride addr length)
    else none
  | .updateIfEnabled addr length =>
    match s.loc t with
    | .object l =>
      if l.length = 0#32 then some s
      else if shouldUpdate l addr length then
        some (s.go t (.unlocking l l.first (.relock addr length)))
      else some s
    | _ => none
  | .unlock =>
    match s.loc t with
    | .object l =>
      if l.length = 0#32 then some s else some (s.go t (.unlocking l l.first .keep))
    | _ => none
  | .destroy =>
    match s.loc t with
    | .object l =>
      if l.length = 0#32 then some (s.go t .idle)
      else some (s.go t (.unlocking l l.first .gone))
    | _ => none

inductive Step (s : State τ) : State τ → Prop
  | call {t : τ} {c : Call} {s' : State τ} (h : call s t c = some s') : Step s s'
  | advance {t : τ} {s' : State τ} (h : advance s t = some s') : Step s s'

def Reachable (s : State τ) : Prop := Relation.ReflTransGen Step (initial τ) s

end PS3Native.RsxReservationLock
