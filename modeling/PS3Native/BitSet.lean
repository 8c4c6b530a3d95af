import Mathlib.Data.BitVec

/-!
# Words as sets of bits

The bitwise operations on words of a fixed width are the operations on the sets of
their bits.
-/
namespace PS3Native.BitSet

variable {n : ℕ} {x y : BitVec n}

def bits (x : BitVec n) : Finset (Fin n) := Finset.univ.filter fun i => x.getLsbD i=true

variable {i : Fin n}

@[simp] theorem mem_bits : i∈bits x ↔ x.getLsbD i := by
  simp [bits]

theorem eq_iff_bits : x=y ↔ ∀ i, i∈bits x ↔ i∈bits y := by
  refine ⟨fun h i => by rw [h],fun h => BitVec.eq_of_getLsbD_eq fun i hi => ?_⟩
  have hbit := h ⟨i,hi⟩
  rw [mem_bits,mem_bits] at hbit
  exact Bool.eq_iff_iff.mpr hbit

theorem mem_bits_and : i∈bits (x &&& y) ↔ i∈bits x ∧ i∈bits y := by simp

theorem mem_bits_or : i∈bits (x ||| y) ↔ i∈bits x ∨ i∈bits y := by simp

theorem mem_bits_not : i∈bits (~~~x) ↔ i∉bits x := by simp

theorem mem_bits_xor : i∈bits (x ^^^ y) ↔ ¬(i∈bits x ↔ i∈bits y) := by
  simp only [mem_bits,BitVec.getLsbD_xor]
  cases x.getLsbD i <;> cases y.getLsbD i <;> decide

theorem not_mem_bits_zero : i∉bits (0 : BitVec n) := by simp

theorem and_eq_right_iff : x &&& y=y ↔ bits y ⊆ bits x := by
  rw [eq_iff_bits]
  refine forall_congr' fun i => ?_
  rw [mem_bits_and]
  exact ⟨fun h hy => (h.mpr hy).1,fun h => ⟨fun h' => h'.2,fun hy => ⟨h hy,hy⟩⟩⟩

theorem eq_zero_iff : x=0 ↔ ∀ i, i∉bits x := by
  rw [eq_iff_bits]
  exact forall_congr' fun i => iff_false_right not_mem_bits_zero

theorem card_bits_le (x : BitVec n) : (bits x).card ≤ n :=
  (Finset.card_le_univ _).trans_eq (Fintype.card_fin n)

/-- A word that loses a bit and gets none has less of them. -/
theorem card_bits_lt (hsub : bits x ⊆ bits y) (hne : x≠y) : (bits x).card < (bits y).card := by
  refine Finset.card_lt_card (hsub.ssubset_of_ne fun h => hne ?_)
  rw [eq_iff_bits,h]
  exact fun _ => Iff.rfl

end PS3Native.BitSet
