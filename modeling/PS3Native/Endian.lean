import Mathlib.Algebra.Ring.Nat
import Mathlib.Data.List.Basic

/-!
# Numbers as bytes

A number of a fixed width in bytes, with the lowest or the highest byte first.
-/
namespace PS3Native

def leNat : List UInt8 → ℕ
  | [] => 0
  | b::bytes => b.toNat+256*leNat bytes

def beNat (bytes : List UInt8) : ℕ := leNat bytes.reverse

def leBytes : ℕ → ℕ → List UInt8
  | 0, _ => []
  | width+1, n => n.toUInt8::leBytes width (n/256)

@[simp] theorem length_leBytes (width n : ℕ) : (leBytes width n).length=width := by
  induction width generalizing n with
  | zero => rfl
  | succ width ih => rw [leBytes,List.length_cons,ih]

theorem leNat_leBytes {width n : ℕ} (h : n < 256^width) : leNat (leBytes width n)=n := by
  induction width generalizing n with
  | zero =>
    rw [Nat.pow_zero,Nat.lt_one_iff] at h
    rw [h]
    rfl
  | succ width ih =>
    have hrest : n/256 < 256^width := by
      omega
    have hlow : n.toUInt8.toNat = n%256 := by simp
    rw [leBytes,leNat,ih hrest,hlow]
    omega

end PS3Native
