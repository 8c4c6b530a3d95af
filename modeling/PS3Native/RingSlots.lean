import Mathlib.Tactic.Common

/-!
# Ring positions

The cells of a ring of `depth` cells are numbered from the oldest of the `len` used
cells, which end before the cell `next`.
-/
namespace PS3Native.RingSlots

/-- The `j`-th oldest of the `len` cells before `next`. -/
def ringSlot (depth next len j : ℕ) : ℕ := (next+depth-len+j)%depth

def ringNext (depth next : ℕ) : ℕ := if next+1≠depth then next+1 else 0

variable {depth next j len m a b : ℕ}

theorem ringNext_lt (h : next < depth) : ringNext depth next < depth := by
  rw [ringNext]
  split_ifs <;> omega

theorem ringSlot_lt (h : 0 < depth) : ringSlot depth next len j < depth := Nat.mod_lt _ h

private theorem mod_of_lt_two_mul {d : ℕ} (h : m < 2*d) : m%d = if m < d then m else m-d := by
  split_ifs with hlt
  · exact Nat.mod_eq_of_lt hlt
  · rw [Nat.mod_eq_sub_mod (by omega),Nat.mod_eq_of_lt (by omega)]

theorem ringSlot_injective {i : ℕ} (hnext : next < depth) (hlen : len ≤ depth) (hi : i < len)
    (hj : j < len) (h : ringSlot depth next len i = ringSlot depth next len j) : i=j := by
  rw [ringSlot,ringSlot,mod_of_lt_two_mul (by omega),mod_of_lt_two_mul (by omega)] at h
  split_ifs at h <;> omega

theorem ringSlot_grow (hlen : len < depth) (hj : j ≤ len) :
    ringSlot depth (ringNext depth next) (len+1) j = ringSlot depth next len j := by
  rw [ringSlot,ringSlot,ringNext]
  split_ifs with hlast
  · rw [show next+1+depth-(len+1)+j = next+depth-len+j by omega]
  · rw [mod_of_lt_two_mul (by omega),mod_of_lt_two_mul (by omega)]
    split_ifs <;> omega

theorem ringSlot_last (hnext : next < depth) (hlen : len ≤ depth) :
    ringSlot depth next len len=next := by
  rw [ringSlot,show next+depth-len+len = next+depth by omega,Nat.add_mod_right,
    Nat.mod_eq_of_lt hnext]

theorem ringSlot_shrink (hlen : len+1 ≤ depth) (j : ℕ) :
    ringSlot depth next (len+1) (j+1) = ringSlot depth next len j := by
  rw [ringSlot,ringSlot,show next+depth-(len+1)+(j+1) = next+depth-len+j by omega]

def distance (m a b : ℕ) : ℕ := (b+m-a)%m

theorem distance_eq (ha : a < m) (hb : b < m) : distance m a b = if a ≤ b then b-a else b+m-a := by
  rw [distance,mod_of_lt_two_mul (by omega)]
  split_ifs <;> omega

theorem distance_lt (hm : 0 < m) (a b : ℕ) : distance m a b < m := Nat.mod_lt _ hm

/-- Moving the counter that is behind by at most its distance closes the gap. -/
theorem distance_advance {k : ℕ} (ha : a < m) (hb : b < m) (hk : k ≤ distance m a b) :
    distance m ((a+k)%m) b = distance m a b-k := by
  have hlt := distance_lt (by omega : 0 < m) a b
  have ha' : (a+k)%m < m := Nat.mod_lt _ (by omega)
  rw [distance_eq ha' hb]
  rw [distance_eq ha hb] at hk hlt ⊢
  rw [mod_of_lt_two_mul (by omega)]
  split_ifs at * <;> omega

/-- Moving the counter that is ahead by one opens the gap by one. -/
theorem distance_ringNext (ha : a < m) (hb : b < m) (h : distance m a b+1 < m) :
    distance m a (ringNext m b) = distance m a b+1 := by
  rw [distance_eq ha (ringNext_lt hb)]
  rw [distance_eq ha hb] at h ⊢
  rw [ringNext]
  split_ifs at * <;> omega

end PS3Native.RingSlots
