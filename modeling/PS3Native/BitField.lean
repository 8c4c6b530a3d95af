import Mathlib.Data.BitVec

/-!
# Bit fields of machine words

Reading and writing a contiguous field of bits.
-/
namespace PS3Native

structure BitField where
  offset : ℕ
  width : ℕ
deriving DecidableEq, Repr

namespace BitField

variable {n : ℕ}

def get (f : BitField) (word : BitVec n) : ℕ := (word.extractLsb' f.offset f.width).toNat

def mask (f : BitField) (n : ℕ) : BitVec n := BitVec.ofNat n (2^f.width-1) <<< f.offset

def set (f : BitField) (value : ℕ) (word : BitVec n) : BitVec n :=
  (word &&& ~~~f.mask n) ||| (BitVec.ofNat n value <<< f.offset &&& f.mask n)

def Apart (f g : BitField) : Prop :=
  f.offset+f.width ≤ g.offset ∨ g.offset+g.width ≤ f.offset

instance (f g : BitField) : Decidable (f.Apart g) :=
  inferInstanceAs (Decidable (_ ∨ _))

theorem getLsbD_mask (f : BitField) (i : ℕ) :
    (f.mask n).getLsbD i = (decide (i < n) && decide (f.offset ≤ i ∧ i < f.offset+f.width)) := by
  rw [mask,BitVec.getLsbD_shiftLeft,BitVec.getLsbD_ofNat,Nat.testBit_two_pow_sub_one]
  grind

theorem getLsbD_set (f : BitField) (value : ℕ) (word : BitVec n) {i : ℕ} (hi : i < n) :
    (f.set value word).getLsbD i =
      if f.offset ≤ i ∧ i < f.offset+f.width then value.testBit (i-f.offset)
      else word.getLsbD i := by
  rw [set,BitVec.getLsbD_or,BitVec.getLsbD_and,BitVec.getLsbD_and,BitVec.getLsbD_not,
    getLsbD_mask,BitVec.getLsbD_shiftLeft,BitVec.getLsbD_ofNat]
  grind

theorem get_set_self {f : BitField} {value : ℕ} (word : BitVec n) (hfit : f.offset+f.width ≤ n)
    (hvalue : value < 2^f.width) : f.get (f.set value word)=value := by
  have hword : (f.set value word).extractLsb' f.offset f.width = BitVec.ofNat f.width value := by
    refine BitVec.eq_of_getLsbD_eq fun i hi => ?_
    rw [BitVec.getLsbD_extractLsb',getLsbD_set f value word (by omega),BitVec.getLsbD_ofNat,
      if_pos (by omega),Nat.add_sub_cancel_left]
  rw [get,hword,BitVec.toNat_ofNat,Nat.mod_eq_of_lt hvalue]

theorem get_set_of_apart {f g : BitField} (value : ℕ) (word : BitVec n) (h : f.Apart g) :
    g.get (f.set value word) = g.get word := by
  have hword : (f.set value word).extractLsb' g.offset g.width =
      word.extractLsb' g.offset g.width := by
    refine BitVec.eq_of_getLsbD_eq fun i hi => ?_
    rw [BitVec.getLsbD_extractLsb',BitVec.getLsbD_extractLsb']
    by_cases hn : g.offset+i < n
    · rw [getLsbD_set f value word hn,if_neg]
      rcases h with h | h <;> omega
    · rw [BitVec.getLsbD_of_ge _ _ (by omega),BitVec.getLsbD_of_ge _ _ (by omega)]
  rw [get,hword,get]

@[simp] theorem get_zero (f : BitField) : f.get (0 : BitVec n)=0 := by
  simp [get]

end BitField

end PS3Native
