import PS3Native.FragmentBytecode

/-!
# The register file and its barriers

The passes track what each byte lane of the register file holds: `R(i)` overlaps `H(2i)` and
`H(2i + 1)`. Barriers move 16-bit words between the two: `UP2` unpacks an `R` channel, `PK2` packs
one, and `OR16_LO` and `OR16_HI` replace one half of it.
-/
namespace PS3Native.FragmentProgram
open List

def registerFileMaxLen : ℕ := 48*16

inductive Content
  | unknown | float32 | float16 | dual
deriving DecidableEq, Repr

abbrev RegisterFile := ℕ → Content

def unknownFile : RegisterFile := fun _ => .unknown

def expectedType (f16 : Bool) : Content := if f16 then .float16 else .float32

def getRegisterFileRange (ref : RegisterRef) : List ℕ :=
  if ref.mask=0 ∨ 48 ≤ ref.reg.id then []
  else
    let laneWidth := if ref.reg.f16 then 2 else 4
    let fileOffset := ref.reg.id*laneWidth*4
    (List.range 4).flatMap fun lane =>
      if ref.mask.getLsbD lane then
        (List.range laneWidth).map (fileOffset+lane*laneWidth+·)
      else []

def RegisterFile.setLanes (file : RegisterFile) (lanes : List ℕ) (content : Content) :
    RegisterFile :=
  fun index => if index∈lanes then content else file index

variable {ref : RegisterRef} {index : ℕ}

theorem mem_getRegisterFileRange : index∈getRegisterFileRange ref ↔
    ref.reg.id < 48 ∧ ∃ lane < 4, ref.mask.getLsbD lane ∧
      index/(if ref.reg.f16 then 2 else 4) = ref.reg.id*4+lane := by
  have hwidth : 0 < (if ref.reg.f16 then 2 else 4) := by split <;> omega
  unfold getRegisterFileRange
  split
  case isTrue hempty =>
    rcases hempty with hmask | hid
    · simp [hmask]
    · simp [Nat.not_lt.mpr hid]
  case isFalse hsome =>
    have hid : ref.reg.id < 48 := by omega
    simp only [mem_flatMap,mem_range,hid,true_and]
    refine exists_congr fun lane => and_congr_right fun hlane => ?_
    set laneWidth := if ref.reg.f16 then 2 else 4
    have hoffset : ref.reg.id*laneWidth*4+lane*laneWidth = (ref.reg.id*4+lane)*laneWidth := by
      rw [Nat.mul_right_comm,← Nat.add_mul]
    by_cases hbit : ref.mask.getLsbD lane
    · simp only [hbit,if_true,mem_map,mem_range,true_and,hoffset]
      constructor
      · rintro ⟨i,hi,rfl⟩
        rw [Nat.mul_comm,Nat.mul_add_div hwidth,Nat.div_eq_of_lt hi,Nat.add_zero]
      · intro hdiv
        refine ⟨index%laneWidth,Nat.mod_lt _ hwidth,?_⟩
        rw [← hdiv,Nat.mul_comm,Nat.div_add_mod]
    · simp [hbit]

theorem lt_of_mem_getRegisterFileRange (h : index∈getRegisterFileRange ref) :
    index < if ref.reg.f16 then 384 else registerFileMaxLen := by
  obtain ⟨hid,lane,hlane,-,hdiv⟩ := mem_getRegisterFileRange.mp h
  unfold registerFileMaxLen
  split at hdiv <;> simp_all <;> omega

/-- Both bytes of a 16-bit word are in the range, or none is. -/
theorem even_mem_getRegisterFileRange :
    2*(index/2)∈getRegisterFileRange ref ↔ index∈getRegisterFileRange ref := by
  have hdiv : 2*(index/2)/(if ref.reg.f16 then 2 else 4) =
      index/(if ref.reg.f16 then 2 else 4) := by split <;> omega
  rw [mem_getRegisterFileRange,mem_getRegisterFileRange,hdiv]

def channelMask (p : ℕ → Bool) : BitVec 4 :=
  (List.range 4).foldl (fun mask ch => if p ch then mask ||| 1#4 <<< ch else mask) 0

inductive Register32BarrierFlags
  | orWord0 | orWord1 | default
deriving DecidableEq, Repr

def Register32BarrierFlags.ofWords : Bool → Bool → Option Register32BarrierFlags
  | false, false => none
  | true, false => some orWord0
  | false, true => some orWord1
  | true, true => some default

/-- The flags of each channel of an `R` register; a channel with flags is in the mask. -/
structure RegisterBarrier32 where
  id : ℕ
  flags : ℕ → Option Register32BarrierFlags

def decodeLanes16 (lanes : List ℕ) : List RegisterRef :=
  (List.range 48).filterMap fun index =>
    let fileOffset := index*8
    let mask := channelMask fun ch => fileOffset+2*ch∈lanes
    if mask=0 then none else some {reg := {id := index, f16 := true}, mask := mask}

def decodeLanes32 (lanes : List ℕ) : List RegisterBarrier32 :=
  (List.range 48).filterMap fun index =>
    let fileOffset := index*16
    let flags := fun ch => Register32BarrierFlags.ofWords
      (fileOffset+4*ch∈lanes) (fileOffset+4*ch+2∈lanes)
    if (List.range 4).all fun ch => (flags ch).isNone then none
    else some {id := index, flags := flags}

def execAlways (src0 : BitVec 32) : BitVec 32 :=
  src0 |> Src0.execIfEq.set 1 |> Src0.execIfGr.set 1 |> Src0.execIfLt.set 1

/-- The operand with the two `H` channels that overlap a channel of an `R` register. -/
def halfOperand (regId ch : ℕ) : BitVec 32 :=
  let isWord0 := ch%2=0
  (0 : BitVec 32) |> Src.swizzleX.set (if isWord0 then 0 else 2)
    |> Src.swizzleY.set (if isWord0 then 1 else 3) |> Src.swizzleZ.set 2 |> Src.swizzleW.set 3
    |> Src.regType.set registerTypeTemp |> Src.tmpRegIndex.set (ch/2+regId*2)
    |> Src.fp16.set 1

def realOperand (regId ch : ℕ) : BitVec 32 :=
  (0 : BitVec 32) |> Src.regType.set registerTypeTemp |> Src.tmpRegIndex.set regId
    |> Src.swizzleX.set ch |> Src.swizzleY.set ch |> Src.swizzleZ.set ch |> Src.swizzleW.set ch

def barrier32Instruction (regId ch : ℕ) (flags : Register32BarrierFlags) : Instruction :=
  let dst := (0 : BitVec 32) |> OpDest.prec.set precisionReal |> OpDest.fp16.set 0
    |> OpDest.destReg.set regId |> OpDest.writeMask.set (1 <<< ch)
  let src0 := halfOperand regId ch
  let src1 := realOperand regId ch
  let (opcode,src0,src1) := match flags with
    | .default => (Opcode.pk2,src0,src1)
    | .orWord0 => (Opcode.or16Lo,src1,src0)
    | .orWord1 => (Opcode.or16Hi,src1,Src.swizzleX.set (Src.swizzleY.get src0) src0)
  { bytecode :=
      { dst := OpDest.opcode.set (opcode &&& 0x3f) dst
        src0 := execAlways src0
        src1 := Src1.opcodeHi.set (if 0x3f < opcode then 1 else 0) src1
        src2 := 0 }
    opcode := opcode
    srcs := [{reg := {id := ch/2+regId*2, f16 := true}, mask := 0xf}]
    dsts := [{reg := {id := regId, f16 := false}, mask := 1#4 <<< ch}] }

def buildBarrier32 (barrier : RegisterBarrier32) : List Instruction :=
  (List.range 4).filterMap fun ch => (barrier.flags ch).map (barrier32Instruction barrier.id ch)

/-- The barrier for the channels `mask`, from `ch` on, of an `H` register. -/
def barrier16Instruction (regId ch : ℕ) (mask : BitVec 4) : Instruction :=
  let dst := (0 : BitVec 32) |> OpDest.opcode.set Opcode.up2 |> OpDest.prec.set precisionHalf
    |> OpDest.fp16.set 1 |> OpDest.destReg.set regId |> OpDest.writeMask.set mask.toNat
  let srcRegId := regId/2
  let isOddReg := regId%2=1
  let swizzle := if ch < 2 then (if isOddReg then 2 else 0) else (if isOddReg then 3 else 1)
  let src0 := execAlways 0 |> Src.swizzleX.set swizzle |> Src.swizzleY.set 1
    |> Src.swizzleZ.set 2 |> Src.swizzleW.set 3 |> Src.regType.set registerTypeTemp
    |> Src.tmpRegIndex.set srcRegId
  { bytecode := {dst := dst, src0 := src0, src1 := 0, src2 := 0}
    opcode := Opcode.up2
    srcs := [{reg := {id := srcRegId, f16 := true}, mask := 0xf}]
    dsts := [{reg := {id := regId, f16 := false}, mask := mask}] }

/-- The loop of `build_barrier16` with the channels of `mask`, shifted down by `ch`, to go. An even
channel takes the next one along. -/
def buildBarrier16Loop (regId : ℕ) : ℕ → BitVec 4 → ℕ → List Instruction
  | 0, _, _ => []
  | turns+1, mask, ch =>
    if mask=0 then []
    else if mask.getLsbD 0=false then buildBarrier16Loop regId turns (mask >>> 1) (ch+1)
    else if ch%2=0 ∧ mask.getLsbD 1 then
      barrier16Instruction regId ch (1#4 <<< ch ||| 1#4 <<< (ch+1)) ::
        buildBarrier16Loop regId turns (mask >>> 2) (ch+2)
    else
      barrier16Instruction regId ch (1#4 <<< ch) ::
        buildBarrier16Loop regId turns (mask >>> 1) (ch+1)

def buildBarrier16 (ref : RegisterRef) : List Instruction :=
  buildBarrier16Loop ref.reg.id 4 ref.mask 0

def resolveDependencies (lanes : List ℕ) (f16 : Bool) : List Instruction :=
  if f16 then (decodeLanes16 lanes).flatMap buildBarrier16
  else (decodeLanes32 lanes).flatMap buildBarrier32

end PS3Native.FragmentProgram
