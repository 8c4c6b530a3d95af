import PS3Native.RegisterFile
import PS3Native.SplitStore

/-!
# What register barriers move

The `R` and the `H` registers as two copies of one file of 16-bit words: copy `false` holds the
`R` registers and copy `true` the `H` registers.
-/
namespace PS3Native.FragmentProgram

open SplitStore List

/-- The word that holds one half of a channel. A channel of an `H` register is a single word. -/
def channelWord (f16 : Bool) (id ch half : ℕ) : ℕ :=
  if f16 then id*4+ch else id*8+ch*2+half

namespace Quad

def IsUnmodified (q : Quad) : Prop :=
  OpDest.noDest.get q.dst=0 ∧ OpDest.saturate.get q.dst=0 ∧
    Src0.execIfLt.get q.src0=1 ∧ Src0.execIfEq.get q.src0=1 ∧ Src0.execIfGr.get q.src0=1 ∧
    Src.neg.get q.src0=0 ∧ Src0.abs.get q.src0=0 ∧ Src.neg.get q.src1=0 ∧
    Src1.abs.get q.src1=0 ∧ Src1.src0PrecMod.get q.src1=0 ∧
    Src1.src1PrecMod.get q.src1=0 ∧ Src1.src2PrecMod.get q.src1=0 ∧ Src1.scale.get q.src1=0

def IsTemp (src : BitVec 32) (f16 : Bool) : Prop :=
  Src.regType.get src=registerTypeTemp ∧ Src.fp16.get src=f16.toNat

instance (q : Quad) : Decidable q.IsUnmodified := inferInstanceAs (Decidable (_ ∧ _))

instance (src : BitVec 32) (f16 : Bool) : Decidable (IsTemp src f16) :=
  inferInstanceAs (Decidable (_ ∧ _))

def operandWord (src : BitVec 32) (f16 : Bool) (swizzle : BitField) (half : ℕ) : ℕ :=
  channelWord f16 (Src.tmpRegIndex.get src) (swizzle.get src) half

def writtenChannels (q : Quad) : List ℕ :=
  (List.range 4).filter fun ch => (OpDest.writeMask.get q.dst).testBit ch

def writeReal {α : Type} (q : Quad) (low high : α) : List (Write ℕ α) :=
  q.writtenChannels.flatMap fun ch =>
    [⟨false,channelWord false (OpDest.destReg.get q.dst) ch 0,low⟩,
      ⟨false,channelWord false (OpDest.destReg.get q.dst) ch 1,high⟩]

/-- What an instruction that only moves words writes: `UP2` is `unpackHalf2x16($0.x).xyxy`, `PK2`
is `packHalf2x16($0.xy)`, and `OR16_LO` and `OR16_HI` replace one half of `$0.x` by `$1.x`. -/
def move {α : Type} (q : Quad) (s : Copies ℕ α) : Option (List (Write ℕ α)) :=
  if ¬ q.IsUnmodified then none
  else if q.opcode=Opcode.up2 ∧ IsTemp q.src0 false ∧ OpDest.fp16.get q.dst=1 then
    some (q.writtenChannels.map fun ch =>
      ⟨true,channelWord true (OpDest.destReg.get q.dst) ch 0,
        s false (operandWord q.src0 false Src.swizzleX (ch%2))⟩)
  else if q.opcode=Opcode.pk2 ∧ IsTemp q.src0 true ∧ OpDest.fp16.get q.dst=0 then
    some (q.writeReal (s true (operandWord q.src0 true Src.swizzleX 0))
      (s true (operandWord q.src0 true Src.swizzleY 0)))
  else if q.opcode=Opcode.or16Lo ∧ IsTemp q.src0 false ∧ IsTemp q.src1 true ∧
      OpDest.fp16.get q.dst=0 then
    some (q.writeReal (s true (operandWord q.src1 true Src.swizzleX 0))
      (s false (operandWord q.src0 false Src.swizzleX 1)))
  else if q.opcode=Opcode.or16Hi ∧ IsTemp q.src0 false ∧ IsTemp q.src1 true ∧
      OpDest.fp16.get q.dst=0 then
    some (q.writeReal (s false (operandWord q.src0 false Src.swizzleX 0))
      (s true (operandWord q.src1 true Src.swizzleX 0)))
  else none

end Quad

/-- The instruction brings the registers of one width up to date at a list of words. -/
def IsBarrier (b : Instruction) (f16 : Bool) (words : List ℕ) : Prop :=
  ∀ (α : Type) (s : Copies ℕ α), ∃ ws, b.bytecode.move s = some ws ∧
    ws.foldl Copies.write s = s.sync f16 (·∈words)

section Fields

variable {id ch : ℕ}

/-- The swizzle through which an `UP2` barrier reads its `R` register. -/
def barrier16Swizzle (id ch : ℕ) : ℕ :=
  if ch < 2 then (if id%2=1 then 2 else 0) else (if id%2=1 then 3 else 1)

theorem barrier16_fields {mask : BitVec 4} {q : Quad} (hid : id < 48)
    (hq : q = (barrier16Instruction id ch mask).bytecode) :
    q.IsUnmodified ∧ q.opcode=Opcode.up2 ∧ Quad.IsTemp q.src0 false ∧
      OpDest.fp16.get q.dst=1 ∧ OpDest.destReg.get q.dst=id ∧
      OpDest.writeMask.get q.dst=mask.toNat ∧ Src.tmpRegIndex.get q.src0 = id/2 ∧
      Src.swizzleX.get q.src0 = barrier16Swizzle id ch := by
  have hreg : id < 2^OpDest.destReg.width := lt_trans hid (by decide)
  have hsrc : id/2 < 2^Src.tmpRegIndex.width := lt_of_le_of_lt (Nat.div_le_self _ _) hreg
  have hmask : mask.toNat < 2^OpDest.writeMask.width := mask.isLt
  have hswizzle : barrier16Swizzle id ch < 2^Src.swizzleX.width := by
    unfold barrier16Swizzle
    split <;> split <;> decide
  have hopcode : Opcode.up2 ||| 0 <<< 6=Opcode.up2 := rfl
  rw [barrier16Swizzle] at hswizzle ⊢
  simp (disch := first | decide | assumption) only [hq,barrier16Instruction,execAlways,
    Quad.IsUnmodified,Quad.opcode,Quad.opcodeHi,Quad.IsTemp,BitField.get_set_self,
    BitField.get_set_of_apart,BitField.get_zero,hopcode,Bool.toNat_false,and_self]

theorem barrier16_isBarrier {mask : BitVec 4} (hid : id < 48)
    (hmask : ∀ c, mask.getLsbD c → c/2 = ch/2) :
    IsBarrier (barrier16Instruction id ch mask) true
      (((range 4).filter (mask.getLsbD ·)).map (id*4+·)) := by
  intro α s
  obtain ⟨hunmodified,hopcode,hsrc,hdst,hreg,hchannels,htmp,hswizzle⟩ :=
    barrier16_fields hid (rfl : _ = (barrier16Instruction id ch mask).bytecode)
  refine ⟨_,?_,exec_syncEffect s true _⟩
  rw [Quad.move,if_neg (not_not.mpr hunmodified),if_pos ⟨hopcode,hsrc,hdst⟩,syncEffect,
    map_map,Quad.writtenChannels,hchannels]
  refine congrArg some (map_congr_left fun c hc => ?_)
  have hbit : mask.getLsbD c := (mem_filter.mp hc).2
  have hc4 : c < 4 := mem_range.mp (mem_filter.mp hc).1
  have hword : channelWord false (id/2) (barrier16Swizzle id ch) (c%2) = id*4+c := by
    have := hmask c hbit
    rw [channelWord,if_neg Bool.false_ne_true,barrier16Swizzle]
    split <;> split <;> omega
  rw [Quad.operandWord,htmp,hswizzle,hword,hreg]
  rfl

variable {f : BitField} {f16 : Bool} {half word : ℕ} {src : BitVec 32}

theorem get_halfOperand_of_high (h : 17 ≤ f.offset) : f.get (halfOperand id ch)=0 := by
  have hapart : ∀ {g : BitField}, g.offset+g.width ≤ 17 → g.Apart f := fun hg => .inl (hg.trans h)
  simp (disch := exact hapart (by decide)) only [halfOperand,BitField.get_set_of_apart,
    BitField.get_zero]

theorem get_realOperand_of_high (h : 17 ≤ f.offset) : f.get (realOperand id ch)=0 := by
  have hapart : ∀ {g : BitField}, g.offset+g.width ≤ 17 → g.Apart f := fun hg => .inl (hg.trans h)
  simp (disch := exact hapart (by decide)) only [realOperand,BitField.get_set_of_apart,
    BitField.get_zero]

theorem oneShift_channels :
    ∀ ch < 4, ((range 4).filter fun c => (1 <<< ch).testBit c) = [ch] := by decide

theorem barrier32_fields {flags : Register32BarrierFlags} {q : Quad} (hid : id < 24) (hch : ch < 4)
    (hq : q = (barrier32Instruction id ch flags).bytecode) :
    q.IsUnmodified ∧ OpDest.fp16.get q.dst=0 ∧ OpDest.destReg.get q.dst=id ∧
      q.writtenChannels = [ch] := by
  have hreg : id < 2^OpDest.destReg.width := lt_trans hid (by decide)
  have hmask : 1 <<< ch < 2^OpDest.writeMask.width :=
    (by decide : ∀ ch < 4, 1 <<< ch < 2^OpDest.writeMask.width) ch hch
  cases flags <;>
    simp (disch := first | decide | assumption) only [hq,barrier32Instruction,execAlways,
      Quad.IsUnmodified,Quad.writtenChannels,BitField.get_set_self,BitField.get_set_of_apart,
      BitField.get_zero,get_halfOperand_of_high,get_realOperand_of_high,oneShift_channels,and_self]

theorem halfOperand_fields (hid : id < 24) (hch : ch < 4) :
    Src.regType.get (halfOperand id ch)=registerTypeTemp ∧ Src.fp16.get (halfOperand id ch)=1 ∧
      Src.tmpRegIndex.get (halfOperand id ch) = ch/2+id*2 ∧
      Src.swizzleX.get (halfOperand id ch) = (if ch%2=0 then 0 else 2) ∧
      Src.swizzleY.get (halfOperand id ch) = (if ch%2=0 then 1 else 3) := by
  have hsrc : ch/2+id*2 < 2^Src.tmpRegIndex.width := by
    show _ < 64
    omega
  have hx : (if ch%2=0 then 0 else 2) < 2^Src.swizzleX.width := by split <;> decide
  have hy : (if ch%2=0 then 1 else 3) < 2^Src.swizzleY.width := by split <;> decide
  simp (disch := first | decide | assumption) only [halfOperand,BitField.get_set_self,
    BitField.get_set_of_apart,and_self]

theorem realOperand_fields (hid : id < 24) (hch : ch < 4) :
    Src.regType.get (realOperand id ch)=registerTypeTemp ∧
      Src.fp16.get (realOperand id ch)=0 ∧ Src.tmpRegIndex.get (realOperand id ch)=id ∧
      Src.swizzleX.get (realOperand id ch)=ch := by
  have hreg : id < 2^Src.tmpRegIndex.width := lt_trans hid (by decide)
  have hx : ch < 2^Src.swizzleX.width := hch
  simp (disch := first | decide | assumption) only [realOperand,BitField.get_set_self,
    BitField.get_set_of_apart,BitField.get_zero,and_self]

def ReadsWord (src : BitVec 32) (f16 : Bool) (swizzle : BitField) (half word : ℕ) : Prop :=
  Quad.IsTemp src f16 ∧ Quad.operandWord src f16 swizzle half=word

/-- The fields above the operand's own do not affect it. -/
theorem ReadsWord.set {swizzle : BitField} (h : ReadsWord src f16 swizzle half word)
    (hswizzle : swizzle.offset+swizzle.width ≤ 17) (hf : 17 ≤ f.offset) (value : ℕ) :
    ReadsWord (f.set value src) f16 swizzle half word := by
  have hapart : ∀ {g : BitField}, g.offset+g.width ≤ 17 → f.Apart g := fun hg => .inr (hg.trans hf)
  have hkept : swizzle.get (f.set value src) = swizzle.get src :=
    BitField.get_set_of_apart value src (hapart hswizzle)
  simpa (disch := exact hapart (by decide)) only [ReadsWord,Quad.IsTemp,Quad.operandWord,
    BitField.get_set_of_apart,hkept] using h

theorem ReadsWord.execAlways {swizzle : BitField} (h : ReadsWord src f16 swizzle half word)
    (hswizzle : swizzle.offset+swizzle.width ≤ 17) :
    ReadsWord (execAlways src) f16 swizzle half word :=
  ((h.set hswizzle (by decide) 1).set hswizzle (by decide) 1).set hswizzle (by decide) 1

/-- The second `H` channel, moved to the front. -/
theorem ReadsWord.front (h : ReadsWord src f16 Src.swizzleY half word) :
    ReadsWord (Src.swizzleX.set (Src.swizzleY.get src) src) f16 Src.swizzleX half word := by
  have hfit : Src.swizzleY.get src < 2^Src.swizzleX.width :=
    (src.extractLsb' Src.swizzleY.offset Src.swizzleY.width).isLt
  simpa (disch := first | decide | assumption) only [ReadsWord,Quad.IsTemp,Quad.operandWord,
    BitField.get_set_of_apart,BitField.get_set_self] using h

theorem halfOperand_words (hid : id < 24) (hch : ch < 4) :
    ReadsWord (halfOperand id ch) true Src.swizzleX 0 (id*8+ch*2) ∧
      ReadsWord (halfOperand id ch) true Src.swizzleY 0 (id*8+ch*2+1) := by
  obtain ⟨htype,hfp,htmp,hx,hy⟩ := halfOperand_fields hid hch
  refine ⟨⟨⟨htype,hfp⟩,?_⟩,⟨htype,hfp⟩,?_⟩
  · rw [Quad.operandWord,channelWord,if_pos rfl,htmp,hx]
    split <;> omega
  · rw [Quad.operandWord,channelWord,if_pos rfl,htmp,hy]
    split <;> omega

theorem realOperand_word (hid : id < 24) (hch : ch < 4) (half : ℕ) :
    ReadsWord (realOperand id ch) false Src.swizzleX half (id*8+ch*2+half) := by
  obtain ⟨htype,hfp,htmp,hx⟩ := realOperand_fields hid hch
  refine ⟨⟨htype,hfp⟩,?_⟩
  rw [Quad.operandWord,channelWord,if_neg Bool.false_ne_true,htmp,hx]

theorem opcode_barrier32 {flags : Register32BarrierFlags} :
    (barrier32Instruction id ch flags).bytecode.opcode =
      (barrier32Instruction id ch flags).opcode := by
  cases flags <;>
    simp (disch := decide) only [barrier32Instruction,Quad.opcode,Quad.opcodeHi,
      BitField.get_set_self] <;> rfl

section Moves

variable {α : Type} {q : Quad} {low high : ℕ} (s : Copies ℕ α)

theorem move_pk2 (hq : q.IsUnmodified) (hop : q.opcode=Opcode.pk2)
    (hlow : ReadsWord q.src0 true Src.swizzleX 0 low)
    (hhigh : ReadsWord q.src0 true Src.swizzleY 0 high) (hdst : OpDest.fp16.get q.dst=0) :
    q.move s = some (q.writeReal (s true low) (s true high)) := by
  have hother : q.opcode≠Opcode.up2 := by rw [hop]; decide
  rw [Quad.move,if_neg (not_not.mpr hq),if_neg fun h => hother h.1,if_pos ⟨hop,hlow.1,hdst⟩,
    hlow.2,hhigh.2]

theorem move_or16Lo (hq : q.IsUnmodified) (hop : q.opcode=Opcode.or16Lo)
    (hhigh : ReadsWord q.src0 false Src.swizzleX 1 high)
    (hlow : ReadsWord q.src1 true Src.swizzleX 0 low) (hdst : OpDest.fp16.get q.dst=0) :
    q.move s = some (q.writeReal (s true low) (s false high)) := by
  have hother : q.opcode≠Opcode.up2 ∧ q.opcode≠Opcode.pk2 := by rw [hop]; decide
  rw [Quad.move,if_neg (not_not.mpr hq),if_neg fun h => hother.1 h.1,
    if_neg fun h => hother.2 h.1,if_pos ⟨hop,hhigh.1,hlow.1,hdst⟩,hlow.2,hhigh.2]

theorem move_or16Hi (hq : q.IsUnmodified) (hop : q.opcode=Opcode.or16Hi)
    (hlow : ReadsWord q.src0 false Src.swizzleX 0 low)
    (hhigh : ReadsWord q.src1 true Src.swizzleX 0 high) (hdst : OpDest.fp16.get q.dst=0) :
    q.move s = some (q.writeReal (s false low) (s true high)) := by
  have hother : q.opcode≠Opcode.up2 ∧ q.opcode≠Opcode.pk2 ∧ q.opcode≠Opcode.or16Lo := by
    rw [hop]; decide
  rw [Quad.move,if_neg (not_not.mpr hq),if_neg fun h => hother.1 h.1,
    if_neg fun h => hother.2.1 h.1,if_neg fun h => hother.2.2 h.1,
    if_pos ⟨hop,hlow.1,hhigh.1,hdst⟩,hlow.2,hhigh.2]

end Moves

def Register32BarrierFlags.words (low : ℕ) : Register32BarrierFlags → List ℕ
  | orWord0 => [low]
  | orWord1 => [low+1]
  | default => [low,low+1]

theorem writeReal_sync {α : Type} (s : Copies ℕ α) (low : ℕ) (flags : Register32BarrierFlags) :
    [⟨false,low,s (decide (low∈flags.words low)) low⟩,
      ⟨false,low+1,s (decide (low+1∈flags.words low)) (low+1)⟩].foldl Copies.write s =
      s.sync false (·∈flags.words low) := by
  funext c index
  simp only [foldl_cons,foldl_nil,Copies.write,Function.update_apply,Copies.sync]
  cases flags <;> grind [Register32BarrierFlags.words]

theorem barrier32_move {α : Type} (s : Copies ℕ α) (hid : id < 24) (hch : ch < 4)
    (flags : Register32BarrierFlags) {low : ℕ} (hlow : low = id*8+ch*2) :
    (barrier32Instruction id ch flags).bytecode.move s =
      some ((barrier32Instruction id ch flags).bytecode.writeReal
        (s (decide (low∈flags.words low)) low) (s (decide (low+1∈flags.words low)) (low+1))) := by
  obtain ⟨hunmodified,hdst,-,-⟩ :=
    barrier32_fields hid hch (rfl : _ = (barrier32Instruction id ch flags).bytecode)
  obtain ⟨hx,hy⟩ := halfOperand_words hid hch
  have hreal := realOperand_word hid hch
  subst hlow
  cases flags with
  | default =>
    simpa [Register32BarrierFlags.words] using move_pk2 s hunmodified opcode_barrier32
      (hx.execAlways (by decide)) (hy.execAlways (by decide)) hdst
  | orWord0 =>
    simpa [Register32BarrierFlags.words] using move_or16Lo s hunmodified opcode_barrier32
      ((hreal 1).execAlways (by decide)) (hx.set (by decide) (by decide) 1) hdst
  | orWord1 =>
    simpa [Register32BarrierFlags.words] using move_or16Hi s hunmodified opcode_barrier32
      ((hreal 0).execAlways (by decide)) (hy.front.set (by decide) (by decide) 1) hdst

theorem barrier32_isBarrier (hid : id < 24) (hch : ch < 4) (flags : Register32BarrierFlags) :
    IsBarrier (barrier32Instruction id ch flags) false (flags.words (id*8+ch*2)) := by
  intro α s
  obtain ⟨-,-,hreg,hchannels⟩ :=
    barrier32_fields hid hch (rfl : _ = (barrier32Instruction id ch flags).bytecode)
  refine ⟨_,barrier32_move s hid hch flags rfl,?_⟩
  rw [Quad.writeReal,hchannels,hreg]
  exact writeReal_sync s _ flags

end Fields

end PS3Native.FragmentProgram
