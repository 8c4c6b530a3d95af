import Mathlib.Tactic.Ring
import PS3Native.Lz

/-!
# What the decompressor accesses

The number that a back reference is decoded from may have more bits than an `int`. As long as it has
not, the reference is to bytes that have been written.
-/
namespace PS3Native.Lz

variable {src : Source} {size : ℕ} {d : Decoder} {s : State} {c sect : ℕ}

theorem decodeBit_some (src : Source) (d : Decoder) (h : c < tableSize) :
    ∃ bit d', decodeBit src d c = some (bit,d') := by
  rw [decodeBit,if_pos h]
  simp only
  split
  · exact ⟨_,_,rfl⟩
  · exact ⟨_,_,rfl⟩

theorem decodeInto_some (src : Source) (d : Decoder) (h : c < tableSize) (index : ℕ) :
    ∃ i d', decodeInto src d c index = some (i,d') ∧ 2*index ≤ i := by
  obtain ⟨bit,d',hbit⟩ := decodeBit_some src d h
  exact ⟨_,d',by rw [decodeInto,hbit]; rfl,Nat.le_add_right _ _⟩

theorem decodeWhen_some (p : Bool) (src : Source) (h : c < tableSize) (r : ℕ × Decoder) :
    ∃ i d', decodeWhen p src c r = some (i,d') ∧ r.1 ≤ i := by
  obtain ⟨index,d⟩ := r
  rw [decodeWhen]
  split
  · obtain ⟨i,d',hi,hle⟩ := decodeInto_some src d h index
    exact ⟨i,d',hi,show index ≤ i by omega⟩
  · exact ⟨index,d,rfl,Nat.le_refl _⟩

theorem le_directBits (n i : ℕ) (d : Decoder) : i ≤ (directBits n i d).1 := by
  induction n generalizing i d with
  | zero => exact Nat.le_refl i
  | succ n ih =>
    rw [directBits]
    dsimp only
    split
    · exact Nat.le_trans (by omega) (ih (2*i+1) _)
    · exact Nat.le_trans (by omega) (ih (2*i) _)

theorem decodeValue_some {high mid low ptr : ℕ} (hhigh : ptr+high < tableSize)
    (hmid : ptr+mid < tableSize) (hlow : ptr+low < tableSize) (src : Source) (index : ℕ)
    (d : Decoder) : ∃ i d', decodeValue high mid low src ptr index d = some (i,d') ∧ 1 ≤ i := by
  obtain ⟨i,d,h₁,hle₁⟩ := decodeWhen_some (index ≥ 3) src hhigh (1,d)
  obtain ⟨i,d,h₂,hle₂⟩ := decodeWhen_some (index ≥ 4) src hhigh (i,d)
  have hle : i ≤ (if index ≥ 5 then directBits (index-4) i (decodeRange src d) else (i,d)).1 := by
    split
    · exact le_directBits _ _ _
    · exact Nat.le_refl i
  obtain ⟨j,d',h₃,hle₃⟩ := decodeWhen_some true src (show ptr < tableSize by omega)
    (if index ≥ 5 then directBits (index-4) i (decodeRange src d) else (i,d))
  obtain ⟨j,d',h₄,hle₄⟩ := decodeWhen_some (index ≥ 1) src hmid (j,d')
  obtain ⟨j,d',h₅,hle₅⟩ := decodeWhen_some (index ≥ 2) src hlow (j,d')
  refine ⟨j,d',?_,by dsimp only at *; omega⟩
  simp only [decodeValue,h₁,h₂,h₃,h₄,h₅,Option.bind_eq_bind,Option.bind_some]

theorem decodeByte_some (hsect : sect+256 ≤ tableSize) (src : Source) (fuel : ℕ) {index : ℕ}
    (hindex : index < 256) (hfuel : 256 ≤ index*2^fuel) (d : Decoder) :
    ∃ i d', decodeByte src sect fuel index d = some (i,d') := by
  induction fuel generalizing index d with
  | zero => omega
  | succ fuel ih =>
    obtain ⟨i,d',hi,hle⟩ := decodeInto_some src d (show sect+index-1 < tableSize by omega) index
    simp only [decodeByte,hi,Option.bind_eq_bind,Option.bind_some]
    split
    next hshort =>
      refine ih (by omega) ?_ d'
      calc 256 ≤ index*2^(fuel+1) := hfuel
        _ = 2*index*2^fuel := by rw [Nat.pow_succ]; ring
        _ ≤ i*2^fuel := Nat.mul_le_mul_right _ hle
    next => exact ⟨i,d',rfl⟩

theorem lengthField_some (src : Source) (n : ℕ) (hsect : sect+8*n < tableSize) (d : Decoder) :
    ∃ k d', lengthField src n sect d = some (k,d') ∧ k ≤ n := by
  induction n generalizing sect d with
  | zero => exact ⟨0,d,rfl,Nat.le_refl 0⟩
  | succ n ih =>
    obtain ⟨bit,d',hbit⟩ := decodeBit_some src d (show sect+8 < tableSize by omega)
    simp only [lengthField,hbit,Option.bind_eq_bind,Option.bind_some]
    cases bit with
    | false => exact ⟨0,d',rfl,Nat.zero_le _⟩
    | true =>
      obtain ⟨k,d'',hk,hle⟩ := ih (show sect+8+8*n < tableSize by omega) d'
      exact ⟨k+1,d'',by rw [if_pos rfl,hk]; rfl,by omega⟩

/-- The shift doubles until it has reached the block size. -/
theorem offsetField_some (src : Source) {bSize : ℕ} (hsect : sect+bSize+8 ≤ tableSize) (fuel : ℕ)
    {shift : ℕ} (hshift : 8*shift < bSize+8) (hfuel : bSize ≤ 16*shift*2^fuel) (d : Decoder) :
    ∃ diff bit d', offsetField src bSize sect (fuel+1) shift d = some (diff,bit,d') ∧
      diff < bSize+16 := by
  induction fuel generalizing shift d with
    obtain ⟨bit,d',hbit⟩ := decodeBit_some src d (show sect+8*shift < tableSize by omega)
  | zero =>
    refine ⟨_,bit,d',?_,show 16*shift-bSize < bSize+16 by omega⟩
    simp only [offsetField,hbit,Option.bind_eq_bind,Option.bind_some]
    rw [if_neg (by omega)]
  | succ fuel ih =>
    rw [offsetField]
    simp only [hbit,Option.bind_eq_bind,Option.bind_some]
    split
    next hshort =>
      have hbitLe := bit.toNat_le
      refine ih (by omega) ?_ d'
      calc bSize ≤ 16*shift*2^(fuel+1) := hfuel
        _ = 16*(2*shift)*2^fuel := by rw [Nat.pow_succ]; ring
        _ ≤ 16*(2*shift+bit.toNat)*2^fuel := by gcongr; omega
    next => exact ⟨_,bit,d',rfl,by omega⟩

theorem decodeWord_some {ptr : ℕ} (hptr : ptr+4 < tableSize) (src : Source) (index : ℕ)
    (d : Decoder) : ∃ i d', decodeWord src ptr index d = some (i,d') ∧ 1 ≤ i :=
  decodeValue_some hptr (by omega) (by omega) src _ d

theorem decodeLength_some {k : ℕ} (hsect : sect < 256) (src : Source) (d : Decoder) :
    ∃ length d', decodeLength src k sect d = some (length,d') := by
  unfold decodeLength
  split
  · obtain ⟨i,d',hi,-⟩ := @decodeValue_some 0x18 0x8 0x10 (0xBA8+sect)
      (by unfold tableSize; omega) (by unfold tableSize; omega) (by unfold tableSize; omega) src (k-1) d
    exact ⟨i,d',hi⟩
  · exact ⟨1,d,rfl⟩

theorem decodeCopy_some (h : s.offset ≤ 7) (src : Source) (d : Decoder) :
    ∃ token d', decodeCopy src s d = some (token,d') ∧ (∀ b, token≠.byte b) ∧
      ∀ length offset, token = .copy length offset → 1 ≤ offset := by
  have htable : tableSize=3272 := rfl
  obtain ⟨k,d,hk,hle⟩ := lengthField_some src 7 (show s.offset+0xB68+8*7 < tableSize by omega) d
  have hsect : ((k-1) <<< 5) ||| (((s.out.length <<< (k-1))%4) <<< 3) ||| (s.offset%8) < 2^8 := by
    refine Nat.or_lt_two_pow (Nat.or_lt_two_pow ?_ ?_) (by omega)
    · omega
    · omega
  obtain ⟨length,d,hlength⟩ := decodeLength_some (k := k) hsect src d
  simp only [decodeCopy,hk,hlength,Option.bind_eq_bind,Option.bind_some]
  split
  · exact ⟨.done,d,rfl,nofun,nofun⟩
  obtain ⟨sect,hsect⟩ : ∃ n, n = if length ≤ 2 then k+0x7F0+0xF8 else k+0x7F0 := ⟨_,rfl⟩
  obtain ⟨bSize,hbSize⟩ : ∃ n, n = if length ≤ 2 then 0x40 else 0x160 := ⟨_,rfl⟩
  have hbounds : sect+bSize+8 ≤ tableSize ∧ 8*1 < bSize+8 ∧ bSize ≤ 16*1*2^5 := by
    rw [hsect,hbSize,htable]
    split <;> omega
  obtain ⟨diff,bit,d,hdiff,hlt⟩ := offsetField_some src hbounds.1 5 hbounds.2.1 hbounds.2.2 d
  simp only [← hsect,← hbSize,hdiff,Option.bind_some]
  split
  · have hptr : 0x928+(if bit then diff else diff-8)+4 < tableSize := by
      split <;> omega
    obtain ⟨i,d,hi,hpos⟩ := decodeWord_some hptr src (if bit then diff else diff-8) d
    refine ⟨.copy length i,d,by rw [hi]; rfl,nofun,?_⟩
    rintro _ _ ⟨⟩
    exact hpos
  · refine ⟨.copy length 1,d,rfl,nofun,?_⟩
    rintro _ _ ⟨⟩
    exact Nat.le_refl 1

/-- Decoding a round never fails, and decodes a byte only if there is room for it. -/
theorem decodeToken_some (h : s.offset ≤ 7) (src : Source) (size : ℕ) :
    ∃ token d', decodeToken src size s = some (token,d') ∧
      (∀ b, token = .byte b → s.out.length≠size) ∧
      ∀ length offset, token = .copy length offset → 1 ≤ offset := by
  have htable : tableSize=3272 := rfl
  obtain ⟨bit,d,hbit⟩ := decodeBit_some src s.decoder (show s.offset+0xB68 < tableSize by omega)
  simp only [decodeToken,hbit,Option.bind_eq_bind,Option.bind_some]
  split
  · obtain ⟨token,d,hcopy,hbyte,hpos⟩ := decodeCopy_some h src d
    exact ⟨token,d,hcopy,fun b hb => absurd hb (hbyte b),hpos⟩
  split
  · exact ⟨.done,d,rfl,nofun,nofun⟩
  next hroom =>
    obtain ⟨i,d,hi⟩ := decodeByte_some
      (show ((s.out.length%8*256+s.prev.toNat) >>> ((src 0).toNat%32))%8*0xFF+256 ≤ tableSize by
        omega) src 8 (show 1 < 256 by decide) (by decide) d
    exact ⟨.byte i.toUInt8,d,by rw [hi]; rfl,fun _ _ => hroom,nofun⟩

theorem copyLoop_some (n bufStart : ℕ) (out : Bytes) (hstart : bufStart < out.length)
    (hsize : out.length+n ≤ size) :
    ∃ out', copyLoop size n bufStart out = some out' ∧ out'.length = out.length+n := by
  induction n generalizing bufStart out with
  | zero => exact ⟨out,rfl,rfl⟩
  | succ n ih =>
    obtain ⟨out',hout,hlength⟩ := ih (bufStart+1) (out++[out[bufStart]]) (by simpa using hstart)
      (by simp; omega)
    refine ⟨out',?_,by simp at hlength; omega⟩
    simp only [copyLoop,List.getElem?_eq_getElem hstart,write,if_pos (show out.length < size by omega),
      Option.bind_eq_bind,Option.bind_some,hout]

theorem toInt_eq {n : ℕ} (hn : n < 2^31) : toInt n=n := by
  rw [toInt,BitVec.toInt_eq_toNat_cond,BitVec.toNat_ofNat,Nat.mod_eq_of_lt (by omega),
    if_pos (by omega)]

/-- What one round does if the number it decodes for a back reference is an `int`: it returns, or
writes inside of the output. -/
theorem step_cases (h : s.offset ≤ 7) (hlength : s.out.length ≤ size)
    (hfits : ∀ length offset d, decodeToken src size s = some (.copy length offset,d) → offset < 2^31) :
    (∃ value, step src size s = some (.inl value) ∧ (value = toInt s.out.length ∨ value = -1)) ∨
      ∃ s', step src size s = some (.inr s') ∧ s.out.length < s'.out.length ∧
        s'.out.length ≤ size ∧ s'.offset ≤ 7 := by
  obtain ⟨token,d,htoken,hbyte,hpos⟩ := decodeToken_some h src size
  simp only [step,htoken,Option.bind_eq_bind,Option.bind_some]
  cases token with
  | done => exact .inl ⟨_,rfl,.inl rfl⟩
  | byte b =>
    have hroom : s.out.length < size := lt_of_le_of_ne hlength (hbyte b rfl)
    exact .inr ⟨⟨d,s.out++[b],s.offset-1⟩,by simp [write,hroom],by simp,
      by simpa using Nat.succ_le_of_lt hroom,le_trans (Nat.sub_le _ _) h⟩
  | copy length offset =>
    have hone := hpos length offset rfl
    simp only [toInt_eq (hfits length offset d htoken)]
    by_cases hunder : (s.out.length : ℤ)-offset < 0
    · exact .inl ⟨-1,by rw [if_pos hunder],.inr rfl⟩
    rw [if_neg hunder]
    by_cases hover : s.out.length+length+1 > size
    · exact .inl ⟨-1,by rw [if_pos hover],.inr rfl⟩
    rw [if_neg hover]
    obtain ⟨out,hout,houtLength⟩ := copyLoop_some (length+1) _ _
      (show ((s.out.length : ℤ)-offset).toNat < s.out.length by omega)
      (show s.out.length+(length+1) ≤ size by omega)
    exact .inr ⟨⟨d,out,(s.out.length+length+1+1)%2+6⟩,by rw [hout]; rfl,
      by dsimp only; omega,by dsimp only; omega,by dsimp only; omega⟩

/-- The numbers of the back references that the input encodes. -/
def encodedOffsets (src : Source) (size : ℕ) : ℕ → State → List ℕ
  | 0, _ => []
  | rounds+1, s =>
    (match decodeToken src size s with
      | some (.copy _ offset,_) => [offset]
      | _ => [])++
    match step src size s with
      | some (.inr s) => encodedOffsets src size rounds s
      | _ => []

theorem loop_result (rounds : ℕ) (s : State) (h : s.offset ≤ 7) (hlength : s.out.length ≤ size)
    (hrounds : size < s.out.length+rounds) (hfits : ∀ n∈encodedOffsets src size rounds s, n < 2^31) :
    ∃ value out, loop src size rounds s = some (value,out) ∧ out.length ≤ size ∧
      (value = toInt out.length ∨ value = -1) := by
  induction rounds generalizing s with
  | zero => omega
  | succ rounds ih =>
    rw [encodedOffsets,List.forall_mem_append] at hfits
    rw [loop]
    have hint : ∀ length offset d, decodeToken src size s = some (.copy length offset,d) →
        offset < 2^31 := by
      intro length offset d htoken
      have hhead := hfits.1
      rw [htoken] at hhead
      exact hhead offset (List.mem_singleton.2 rfl)
    rcases step_cases h hlength hint with ⟨value,hstep,hvalue⟩ | ⟨s',hstep,hlt,hle,hoffset⟩
    · exact ⟨value,s.out,by rw [hstep],hlength,hvalue⟩
    · rw [hstep] at hfits ⊢
      exact ih s' hoffset hle (by omega) hfits.2

/-- Every access is inside of its buffer, back references are to written bytes, `decompress` ends, and
a value that is not negative is the number of bytes written. -/
def Safe (src : Source) (size : ℕ) : Prop :=
  ∃ value out, decompress src size = some (value,out) ∧ out.length ≤ size ∧
    (0 ≤ value → value=out.length)

def rawBlock : Source := fun i => [0x81,0,0,0,1,0x2A].getD i 0

def farStream : Source := fun i =>
  [0,0x1E,0x8B,0x7F,0x80,0,0xFF,0xFF,0xFF,0xFF,0xFF,0xFF,0xFF,0xFF,0xFF,0xFF].getD i 0

end PS3Native.Lz
