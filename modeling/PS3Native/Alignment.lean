import Mathlib.Tactic.Common
import Mathlib.Algebra.Order.Group.Nat

/-!
# Rounding to multiples

The least multiple of a unit that is not below a number, the greatest that is not
above it, and their universal properties.
-/
namespace PS3Native

def alignUp (value unit : ℕ) : ℕ := (value+(unit-1))/unit*unit

def alignDown (value unit : ℕ) : ℕ := value/unit*unit

variable {value unit bound : ℕ}

theorem dvd_alignUp (value unit : ℕ) : unit ∣ alignUp value unit := Nat.dvd_mul_left ..

theorem dvd_alignDown (value unit : ℕ) : unit ∣ alignDown value unit := Nat.dvd_mul_left ..

theorem le_alignDown_iff (h : unit ∣ bound) : bound ≤ alignDown value unit ↔ bound ≤ value := by
  rcases Nat.eq_zero_or_pos unit with rfl | hpos
  · obtain rfl : bound=0 := by simpa using h
    simp
  obtain ⟨q,rfl⟩ := h
  rw [alignDown,Nat.mul_comm unit q,Nat.mul_le_mul_right_iff hpos,Nat.le_div_iff_mul_le hpos]

theorem alignUp_le_iff (hpos : 0 < unit) (h : unit ∣ bound) :
    alignUp value unit ≤ bound ↔ value ≤ bound := by
  obtain ⟨q,rfl⟩ := h
  rw [alignUp,Nat.mul_comm unit q,Nat.mul_le_mul_right_iff hpos,← Nat.lt_succ_iff,
    Nat.div_lt_iff_lt_mul hpos,Nat.succ_mul]
  omega

theorem alignDown_le (value unit : ℕ) : alignDown value unit ≤ value := Nat.div_mul_le_self ..

theorem le_alignUp (hpos : 0 < unit) : value ≤ alignUp value unit :=
  (alignUp_le_iff hpos (dvd_alignUp value unit)).mp (Nat.le_refl _)

theorem alignUp_lt (hpos : 0 < unit) : alignUp value unit < value+unit := by
  have := Nat.div_mul_le_self (value+(unit-1)) unit
  rw [alignUp]
  omega

theorem lt_alignDown_add (hpos : 0 < unit) : value < alignDown value unit+unit := by
  have := Nat.div_add_mod value unit
  have := Nat.mod_lt value hpos
  rw [alignDown,Nat.mul_comm]
  omega

theorem alignDown_eq_sub_mod (value unit : ℕ) : alignDown value unit = value-value%unit := by
  have := Nat.div_add_mod value unit
  rw [alignDown,Nat.mul_comm]
  omega

/-- Between two multiples the roundings are one unit apart. -/
theorem alignUp_eq_of_not_dvd (hpos : 0 < unit) (h : ¬unit ∣ value) :
    alignUp value unit = alignDown value unit+unit := by
  have hdown := dvd_alignDown value unit
  have hup := dvd_alignUp value unit
  apply Nat.le_antisymm
  · exact (alignUp_le_iff hpos ((Nat.dvd_add_right hdown).mpr (Nat.dvd_refl unit))).mpr
      (lt_alignDown_add hpos).le
  · have hne : alignDown value unit≠value := fun heq => h (heq ▸ hdown)
    have hlt : alignDown value unit < alignUp value unit :=
      (lt_of_le_of_ne (alignDown_le value unit) hne).trans_le (le_alignUp hpos)
    have := Nat.le_of_dvd (Nat.sub_pos_of_lt hlt) (Nat.dvd_sub hup hdown)
    omega

def alignedDiv (value unit : ℕ) : ℕ := value/unit+if value%unit=0 then 0 else 1

variable {k n : ℕ}

theorem alignedDiv_mul_ge (hk : 0 < k) : n ≤ alignedDiv n k*k := by
  have hn := Nat.div_add_mod' n k
  have hlt := Nat.mod_lt n hk
  simp only [alignedDiv,Nat.add_mul]
  split <;> omega

theorem lt_of_lt_alignedDiv {i : ℕ} (hk : 0 < k) (h : i < alignedDiv n k) : i*k < n := by
  have hn := Nat.div_add_mod' n k
  simp only [alignedDiv] at h
  split at h
  · have := Nat.mul_le_mul_right k (show i+1 ≤ n/k by omega)
    rw [Nat.add_one_mul] at this
    omega
  · have := Nat.mul_le_mul_right k (show i ≤ n/k by omega)
    omega

theorem alignedDiv_le {m : ℕ} (hk : 0 < k) (h : n ≤ m*k) : alignedDiv n k ≤ m := by
  by_contra hlt
  have := lt_of_lt_alignedDiv hk (Nat.lt_of_not_le hlt)
  omega

theorem alignedDiv_add_mul (n m : ℕ) (hk : 0 < k) : alignedDiv (n+m*k) k = m+alignedDiv n k := by
  rw [alignedDiv,alignedDiv,Nat.add_mul_div_right _ _ hk,Nat.add_mul_mod_self_right]
  omega

end PS3Native
