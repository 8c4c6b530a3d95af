import Mathlib.Algebra.Ring.Nat
import Mathlib.Data.Nat.Bitwise

/-!
# Integers of variable length

`serialize_vle` writes seven bits a byte, the lowest first, and marks all bytes but the last. At the
end of the stream an `ensure` of `raw_serialize` fails. The width of a type is `8*size`, and an
operand of less than 32 bits is promoted to `int`.
-/
namespace PS3Native.Vle

def serializeVle (value : ℕ) : List UInt8 :=
  let i := value >>> 7
  if i=0 then [(value%256%0x80).toUInt8]
  else (value%256%0x80 ||| 0x80).toUInt8::serializeVle i
termination_by value
decreasing_by
  simp only [Nat.shiftRight_eq_div_pow] at *
  omega

inductive Outcome
  | read (value : ℕ) (rest : List UInt8)
  | failed
  | ensureFailed
  | undefined
  deriving DecidableEq

/-- `~unsigned_type{} >> i`, which is the `int` -1 for a promoted operand. -/
def maxPayload (width i : ℕ) : ℤ := if width < 32 then -1 else ((2^width-1) >>> i : ℕ)

def deserializeLoop (width bitWidth : ℕ) : List UInt8 → ℕ → ℕ → Outcome
  | [],_,_ => .ensureFailed
  | byte::bytes,i,result =>
    let payload := byte.toNat%0x80
    if i ≥ bitWidth then .failed
    -- a shift by the width of the promoted operand
    else if i ≥ max width 32 then .undefined
    else if payload > maxPayload width i then .failed
    else
      let result := result ||| payload <<< i%2^width
      if byte.toNat &&& 0x80=0 then .read result bytes
      else if i > bitWidth-7 then .failed
      else deserializeLoop width bitWidth bytes (i+7) result

def deserializeVle (maxBits width : ℕ) (bytes : List UInt8) : Outcome :=
  deserializeLoop width (if maxBits≠0 then maxBits else width) bytes 0 0

/-- The payloads weighted by powers of 128. -/
def weigh : List UInt8 → ℕ
  | [] => 0
  | byte::bytes => byte.toNat%128+128*weigh bytes

theorem marked_iff (byte : UInt8) : byte.toNat &&& 0x80=0 ↔ byte.toNat < 128 := by
  have hall : ∀ n < 256, n &&& 0x80=0 ↔ n < 128 := by decide +kernel
  exact hall _ byte.toNat_lt

theorem serializeVle_eq (v : ℕ) : serializeVle v =
    if v < 128 then [v.toUInt8] else (v%128+128).toUInt8::serializeVle (v/128) := by
  have hmark : v%256%0x80 ||| 0x80 = v%128+128 := by
    rw [Nat.or_comm,Nat.mod_mod_of_dvd v (by decide)]
    exact (@Nat.two_pow_add_eq_or_of_lt 7 _ (Nat.mod_lt v (by decide)) 1).symm.trans (Nat.add_comm ..)
  have hlow : v < 128 → v%256%0x80=v := by omega
  rw [serializeVle,hmark,Nat.shiftRight_eq_div_pow]
  by_cases h : v < 128
  · rw [if_pos h,if_pos (by omega),hlow h]
  · rw [if_neg h,if_neg (by omega)]

theorem add_lt_two_pow {i result payload : ℕ} (hresult : result < 2^i) (hpayload : payload < 128) :
    result+2^i*payload < 2^(i+7) := by
  have hle := Nat.mul_le_mul_left (2^i) (Nat.le_of_lt_succ hpayload)
  rw [Nat.pow_add]
  omega

section Loop

variable {width bitWidth i result : ℕ} {bytes : List UInt8}

theorem deserializeLoop_ne_undefined (hbit : bitWidth ≤ width) :
    deserializeLoop width bitWidth bytes i result≠.undefined := by
  induction bytes generalizing i result with
  | nil => exact Outcome.noConfusion
  | cons byte bytes ih =>
    rw [deserializeLoop]
    split_ifs
    all_goals first | exact Outcome.noConfusion | exact ih | omega

/-- Only a number that the stream cuts off meets the end of it. -/
theorem marked_of_ensureFailed (h : deserializeLoop width bitWidth bytes i result = .ensureFailed) :
    ∀ byte∈bytes, 128 ≤ byte.toNat := by
  induction bytes generalizing i result with
  | nil => nofun
  | cons byte bytes ih =>
    rw [deserializeLoop] at h
    split_ifs at h with _ _ _ hlast
    rw [marked_iff] at hlast
    exact List.forall_mem_cons.mpr ⟨by omega,ih h⟩

variable (hwidth : 32 ≤ width) (hbit : 7 ≤ bitWidth ∧ bitWidth ≤ width) (hresult : result < 2^i)

include hwidth hbit hresult

/-- One round of the loop, in arithmetic. -/
theorem deserializeLoop_cons (hi : i < bitWidth) (byte : UInt8) :
    deserializeLoop width bitWidth (byte::bytes) i result =
      if 2^(width-i) ≤ byte.toNat%128 then .failed
      else if byte.toNat < 128 then .read (result+2^i*(byte.toNat%128)) bytes
      else if bitWidth < i+7 then .failed
      else deserializeLoop width bitWidth bytes (i+7) (result+2^i*(byte.toNat%128)) := by
  have hsplit : 2^width = 2^(width-i)*2^i := by rw [← Nat.pow_add,Nat.sub_add_cancel (by omega)]
  have hpayload : (byte.toNat%0x80 : ℕ) > maxPayload width i ↔ 2^(width-i) ≤ byte.toNat%128 := by
    rw [maxPayload,if_neg (by omega),gt_iff_lt,Int.ofNat_lt,Nat.shiftRight_eq_div_pow,
      Nat.div_lt_iff_lt_mul (Nat.two_pow_pos i),hsplit,
      ← Nat.mul_le_mul_right_iff (Nat.two_pow_pos i)]
    have := Nat.two_pow_pos width
    omega
  rw [deserializeLoop,if_neg (by omega),if_neg (by omega)]
  simp only [hpayload,marked_iff]
  by_cases hlarge : 2^(width-i) ≤ byte.toNat%128
  · rw [if_pos hlarge,if_pos hlarge]
  · have hfits : byte.toNat%128*2^i < 2^width := by
      rw [hsplit]
      exact Nat.mul_lt_mul_of_pos_right (Nat.lt_of_not_le hlarge) (Nat.two_pow_pos i)
    have hor : result ||| (byte.toNat%128) <<< i%2^width = result+2^i*(byte.toNat%128) := by
      rw [Nat.shiftLeft_eq,Nat.mod_eq_of_lt hfits,← Nat.shiftLeft_eq,Nat.or_comm,
        ← Nat.shiftLeft_add_eq_or_of_lt hresult,Nat.shiftLeft_eq,Nat.add_comm,Nat.mul_comm]
    have hlast : i > bitWidth-7 ↔ bitWidth < i+7 := by omega
    simp only [if_neg hlarge,hor,hlast]

theorem deserializeLoop_read {x : ℕ} {rest : List UInt8}
    (h : deserializeLoop width bitWidth bytes i result = .read x rest) :
    ∃ used, bytes = used++rest ∧ x = result+2^i*weigh used := by
  induction bytes generalizing i result with
  | nil => cases h
  | cons byte bytes ih =>
    by_cases hi : i < bitWidth
    · rw [deserializeLoop_cons hwidth hbit hresult hi] at h
      split_ifs at h
      · cases h
        exact ⟨[byte],rfl,by simp [weigh]⟩
      · obtain ⟨used,hused,hx⟩ := ih (add_lt_two_pow hresult (Nat.mod_lt _ (by decide))) h
        refine ⟨byte::used,by rw [hused]; rfl,?_⟩
        rw [hx,weigh,Nat.pow_add,Nat.mul_add,Nat.add_assoc,Nat.mul_assoc]
    · rw [deserializeLoop,if_pos (by omega)] at h
      cases h

theorem deserializeLoop_serializeVle {u : ℕ} (hi : i ≤ bitWidth) (hu : u < 2^(width-i))
    (hstart : i < bitWidth ∨ 0 < u) (hround : bitWidth=width ∨ bitWidth%7 = i%7)
    (rest : List UInt8) :
    deserializeLoop width bitWidth (serializeVle u++rest) i result =
      if u < 2^(bitWidth-i) then .read (result+2^i*u) rest else .failed := by
  induction u using Nat.strongRecOn generalizing i result with
  | ind u ih =>
  rw [serializeVle_eq]
  rcases hi.eq_or_lt with rfl | hi
  · have hlarge : ¬u < 2^(i-i) := by
      rw [Nat.sub_self]
      omega
    rw [if_neg hlarge]
    split <;> exact if_pos (Nat.le_refl i)
  by_cases hlast : u < 128
  · have hbyte : u.toUInt8.toNat=u := Nat.mod_eq_of_lt (by omega)
    have hfits : u < 2^(bitWidth-i) := by
      rcases hround with rfl | hround
      · exact hu
      · exact hlast.trans_le (@Nat.pow_le_pow_right 2 (by decide) 7 _ (by omega))
    rw [if_pos hlast,if_pos hfits,List.singleton_append,
      deserializeLoop_cons hwidth hbit hresult hi,hbyte,Nat.mod_eq_of_lt hlast,
      if_neg (Nat.not_le.mpr hu),if_pos hlast]
  · have hbyte : (u%128+128).toUInt8.toNat = u%128+128 := Nat.mod_eq_of_lt (by omega)
    have hlow : ¬2^(width-i) ≤ u%128 := by
      have := Nat.mod_le u 128
      omega
    rw [if_neg hlast,List.cons_append,deserializeLoop_cons hwidth hbit hresult hi,hbyte,
      Nat.add_mod_right,Nat.mod_mod,if_neg hlow,if_neg (by omega)]
    by_cases hend : bitWidth < i+7
    · have hlarge : ¬u < 2^(bitWidth-i) := by
        have := @Nat.pow_le_pow_right 2 (by decide) (bitWidth-i) 7 (by omega)
        omega
      rw [if_pos hend,if_neg hlarge]
    · have hpow : ∀ n, i+7 ≤ n → 2^(n-i) = 2^(n-(i+7))*128 := by
        intro n hn
        rw [← Nat.pow_add 2 _ 7,show n-(i+7)+7 = n-i by omega]
      rw [if_neg hend,ih (u/128) (by omega) (add_lt_two_pow hresult (Nat.mod_lt _ (by decide))) (by omega)
        (by rw [Nat.div_lt_iff_lt_mul (by decide),← hpow width (by omega)]; exact hu) (by omega)
        (hround.imp_right fun h => by omega)]
      simp only [Nat.div_lt_iff_lt_mul (show 0 < 128 by decide),← hpow bitWidth (by omega)]
      have hvalue : result+2^i*(u%128)+2^(i+7)*(u/128) = result+2^i*u := by
        rw [Nat.pow_add,Nat.mul_assoc,Nat.add_assoc,← Nat.mul_add,Nat.mod_add_div]
      rw [hvalue]

end Loop

/-- Numbers that follow each other can be cut apart in one way only. -/
theorem serializeVle_append_eq_iff (v w : ℕ) (rest rest' : List UInt8) :
    serializeVle v++rest = serializeVle w++rest' ↔ v=w ∧ rest=rest' := by
  refine ⟨fun h => ?_,fun ⟨hv,hrest⟩ => hv ▸ hrest ▸ rfl⟩
  have hread : ∀ u ≤ v+w, ∀ rest,
      deserializeLoop (v+w+32) (v+w+32) (serializeVle u++rest) 0 0 = .read u rest := by
    intro u hu rest
    have hlt : u < 2^(v+w+32-0) :=
      Nat.lt_two_pow_self.trans_le (Nat.pow_le_pow_right (by decide) (by omega))
    rw [deserializeLoop_serializeVle (by omega) (by omega) (Nat.two_pow_pos 0) (Nat.zero_le _) hlt
      (.inl (by omega)) (.inl rfl),if_pos hlt]
    simp
  have hsame := hread v (by omega) rest
  rw [h,hread w (by omega)] at hsame
  cases hsame
  exact ⟨rfl,rfl⟩

/-- Encodings are read back, up to 28 bits with that bound, what is read is the sum of the
payloads, and only a stream without a last byte ends too early, if and only if the type has 32 bits
or more. -/
theorem vle_round_trips_iff (size : ℕ) :
    ((∀ v < 2^(8*size), ∀ rest, deserializeVle 0 (8*size) (serializeVle v++rest) = .read v rest) ∧
      (28 ≤ 8*size → ∀ v < 2^(8*size), ∀ rest, deserializeVle 28 (8*size) (serializeVle v++rest) =
        if v < 2^28 then .read v rest else .failed) ∧
      ∀ maxBits bytes, maxBits=0 ∨ maxBits=28 ∧ 28 ≤ 8*size →
        deserializeVle maxBits (8*size) bytes≠.undefined ∧
        (deserializeVle maxBits (8*size) bytes = .ensureFailed → ∀ byte∈bytes, 128 ≤ byte.toNat) ∧
        ∀ x rest, deserializeVle maxBits (8*size) bytes = .read x rest →
          ∃ used, bytes = used++rest ∧ x = weigh used) ↔ 4 ≤ size := by
  constructor
  · rintro ⟨hread,-⟩
    by_contra hsize
    have hzero := hread 0 (Nat.two_pow_pos _) []
    have hnegative : maxPayload (8*size) 0 = -1 := if_pos (by omega)
    rw [serializeVle_eq,if_pos (by decide),deserializeVle,List.append_nil] at hzero
    simp [deserializeLoop,hnegative] at hzero
  · intro hsize
    have hwidth : 32 ≤ 8*size := by omega
    refine ⟨fun v hv rest => ?_,fun _ v hv rest => ?_,fun maxBits bytes hmax => ?_⟩
    · have hread := @deserializeLoop_serializeVle _ (8*size) 0 0 hwidth (by omega) (Nat.two_pow_pos 0) v
        (Nat.zero_le _) hv (.inl (by omega)) (.inl rfl) rest
      simpa [deserializeVle,hv] using hread
    · have hread := @deserializeLoop_serializeVle _ 28 0 0 hwidth (by omega) (Nat.two_pow_pos 0) v
        (Nat.zero_le _) hv (.inl (by decide)) (.inr rfl) rest
      simpa [deserializeVle] using hread
    · have hbit : (if maxBits≠0 then maxBits else 8*size) ≤ 8*size ∧
          7 ≤ if maxBits≠0 then maxBits else 8*size := by
        split_ifs <;> omega
      refine ⟨deserializeLoop_ne_undefined hbit.1,marked_of_ensureFailed,fun x rest hread => ?_⟩
      have hused := deserializeLoop_read hwidth hbit.symm (Nat.two_pow_pos 0) hread
      simpa using hused

/-- An `u8` is not even read back if it is 0. -/
theorem vle_byte_fails : deserializeVle 0 8 (serializeVle 0) = .failed := by
  rw [serializeVle_eq]
  decide

end PS3Native.Vle
