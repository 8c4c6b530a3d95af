import Mathlib.Tactic.Common

/-!
# The words of an SPU channel

`spu_channel` keeps one value in a word with three flags, and a second word through which
a value is handed to a thread that waits for it. Here are the updates that `push`,
`pop_wait`, `push_wait` and `pop` make to the first word, and what a `push` reports.
-/
namespace PS3Native.SpuChannel

/-- The word `data`: the bits 63, 33 and 32, and the low half. No other bit is ever set. -/
structure Data where
  count : Bool
  occupy : Bool
  wait : Bool
  value : UInt32
  deriving DecidableEq, Repr

/-- The word `jostling_value`: the bit 33 alone, or a value. -/
inductive Jostling
  | occupy
  | value (v : UInt32)
  deriving DecidableEq, Repr

def Jostling.low : Jostling → UInt32
  | .occupy => 0
  | .value v => v

structure OpState where
  oldCount : ℕ
  count : ℕ
  notify : Bool
  opDone : Bool
  deriving DecidableEq, Repr

def Data.zero : Data := ⟨false,false,false,0⟩

/-- `bit_count | value` -/
def Data.full (value : UInt32) : Data := ⟨true,false,false,value⟩

/-- `bit_occupy | bit_wait` -/
def Data.waiting : Data := ⟨false,true,true,0⟩

/-- `data & ~occupy_ored_wait` -/
def Data.release (data : Data) : Data := {data with occupy := false, wait := false}

/-- What `push` makes of the word, unless a thread waits to pop. -/
def pushUpdate (value : UInt32) (toOr : Bool) (data : Data) : Option Data :=
  if data.occupy then none
  else if toOr then some (.full (data.value ||| value))
  else some (.full value)

def pushState (old : Data) : OpState := ⟨if old.count then 0 else 1,1,old.wait,true⟩

def popWaitUpdate (data : Data) : Data := if data.count then .zero else .waiting

section Push

structure Channel where
  data : Data
  jostlingValue : Jostling
  deriving DecidableEq, Repr

inductive PushResult
  | returned (channel : Channel) (state : OpState)
  | ensureFails
  | retries
  deriving DecidableEq, Repr

/-- A round of `push` that nobody disturbs. -/
def push (channel : Channel) (value : UInt32) (toOr : Bool) : PushResult :=
  match pushUpdate value toOr channel.data with
  | some data => .returned {channel with data := data} (pushState channel.data)
  | none =>
    if channel.jostlingValue≠.occupy then .retries
    else if channel.data.wait then
      .returned ⟨channel.data.release,.value value⟩ (pushState channel.data)
    else .ensureFails

def getCount (channel : Channel) : ℕ := if channel.data.count then 1 else 0

structure Snr where
  chSnr1 : Channel
  chSnr2 : Channel
  snrConfig : UInt64
  deriving DecidableEq, Repr

def spuEventS1 : UInt32 := 0x200

def Snr.channel (snr : Snr) (number : UInt32) : Channel :=
  if number &&& 1≠0 then snr.chSnr2 else snr.chSnr1

def pushSnr (snr : Snr) (number value : UInt32) : Option UInt32 :=
  let eventBit := spuEventS1 >>> (number &&& 1)
  let bitorBit := (snr.snrConfig >>> number.toUInt64) &&& 1≠0
  match push (snr.channel number) value bitorBit with
  | .returned _ state => if state.oldCount < state.count then some eventBit else none
  | _ => none

/-- A signal channel between two operations: empty, full, or with the SPU in `pop_wait`. -/
inductive AtRest : Channel → Prop
  | empty (value : UInt32) (jostlingValue : Jostling) :
    AtRest ⟨⟨false,false,false,value⟩,jostlingValue⟩
  | full (value : UInt32) (jostlingValue : Jostling) : AtRest ⟨.full value,jostlingValue⟩
  | waiting : AtRest ⟨.waiting,.occupy⟩

theorem push_atRest {channel : Channel} (h : AtRest channel) (value : UInt32) (toOr : Bool) :
    ∃ channel', push channel value toOr = .returned channel' (pushState channel.data) ∧
      (pushState channel.data).oldCount = 1-getCount channel := by
  cases h <;> cases toOr <;> exact ⟨_,rfl,rfl⟩

theorem getCount_cases (channel : Channel) : getCount channel=0 ∨ getCount channel=1 := by
  unfold getCount
  split
  · exact .inr rfl
  · exact .inl rfl

theorem pushSnr_atRest {snr : Snr} {number : UInt32} (h : AtRest (snr.channel number))
    (value : UInt32) : pushSnr snr number value≠none ↔ getCount (snr.channel number)=1 := by
  obtain ⟨channel',hpush,hold⟩ := push_atRest h value ((snr.snrConfig >>> number.toUInt64) &&& 1≠0)
  have hraise : (pushState (snr.channel number).data).oldCount <
      (pushState (snr.channel number).data).count ↔ getCount (snr.channel number)=1 := by
    have hcases := getCount_cases (snr.channel number)
    have hone : (pushState (snr.channel number).data).count=1 := rfl
    omega
  simp only [pushSnr,hpush,hraise]
  split
  · simp [*]
  · simp [*]

/-- No push on a channel at rest reports the old count, and `push_snr` raises the event for
the pushes on a full channel, never for those that fill an empty one. -/
theorem push_old_count_iff {snr : Snr} {number : UInt32} (h : AtRest (snr.channel number))
    (value : UInt32) (toOr : Bool) :
    ((∃ channel' state, push (snr.channel number) value toOr = .returned channel' state ∧
        state.oldCount = getCount (snr.channel number)) ↔ False) ∧
    ((pushSnr snr number value≠none ↔ getCount (snr.channel number)=0) ↔ False) ∧
    (pushSnr snr number value≠none ↔ getCount (snr.channel number)=1) := by
  obtain ⟨channel',hpush,hold⟩ := push_atRest h value toOr
  have hsnr := pushSnr_atRest h value
  refine ⟨iff_false_intro ?_,iff_false_intro ?_,hsnr⟩
  · rintro ⟨channel'',state,hreturned,hcount⟩
    rw [hpush] at hreturned
    cases hreturned
    rcases getCount_cases (snr.channel number) with hzero | hone
    · omega
    · omega
  · intro hzero
    rw [hsnr] at hzero
    rcases getCount_cases (snr.channel number) with hcount | hcount
    · omega
    · omega

def emptySnr : Snr := ⟨⟨.zero,.value 0⟩,⟨.zero,.value 0⟩,0⟩

theorem push_old_count_iff_empty :
    pushSnr emptySnr 0 5≠none ↔ getCount (emptySnr.channel 0)=1 := by
  have hrest : AtRest (emptySnr.channel 0) := .empty 0 (.value 0)
  exact (push_old_count_iff hrest 5 false).2.2

/-- A push on an empty channel reports one entry and raises no event, a push on a full one
reports none and raises it. -/
theorem push_reports_inverted_count :
    push ⟨.zero,.value 0⟩ 5 false = .returned ⟨.full 5,.value 0⟩ ⟨1,1,false,true⟩ ∧
    push ⟨.full 3,.value 0⟩ 5 false = .returned ⟨.full 5,.value 0⟩ ⟨0,1,false,true⟩ ∧
    pushSnr emptySnr 0 5=none ∧
    pushSnr {emptySnr with chSnr1 := ⟨.full 3,.value 0⟩} 0 5 = some spuEventS1 := by decide

end Push

end PS3Native.SpuChannel
