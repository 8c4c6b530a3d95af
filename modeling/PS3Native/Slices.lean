import Mathlib.Data.List.Basic

/-!
# Windows of a list

A window of a list is the part of it that starts at a position and has a length, cut off where
the list ends. A list is read through windows, and written by storing other elements over one.
-/
namespace PS3Native
open List

universe u

variable {α : Type u}

/-- The elements of `l` from position `pos` on, at most `n` of them. -/
def slice (l : List α) (pos n : ℕ) : List α := (l.drop pos).take n

/-- `l` with the elements from position `pos` on replaced by those of `piece`. -/
def store (l : List α) (pos : ℕ) (piece : List α) : List α :=
  l.take pos++piece++l.drop (pos+piece.length)

variable {l piece : List α} {pos n m : ℕ}

@[simp] theorem slice_zero (l : List α) (pos : ℕ) : slice l pos 0=[] := take_zero

theorem length_slice_eq (l : List α) (pos n : ℕ) :
    (slice l pos n).length = min n (l.length-pos) := by
  simp [slice]

@[simp] theorem length_slice (h : pos+n ≤ l.length) : (slice l pos n).length=n := by
  rw [length_slice_eq]
  omega

theorem slice_of_length_le (h : l.length ≤ pos) : slice l pos n=[] := by
  simp [slice,drop_eq_nil_of_le h]

theorem slice_full (h : l.length ≤ n) : slice l 0 n=l := by
  simp [slice,take_of_length_le h]

theorem slice_append_slice (l : List α) (pos n m : ℕ) :
    slice l pos n++slice l (pos+n) m = slice l pos (n+m) := by
  simp only [slice]
  rw [take_add,drop_drop]

theorem slice_slice (l : List α) (pos : ℕ) {n a b : ℕ} (h : a+b ≤ n) :
    slice (slice l pos n) a b = slice l (pos+a) b := by
  simp only [slice]
  rw [drop_take,drop_drop,take_take,Nat.min_eq_left (by omega)]

theorem drop_slice (l : List α) (pos n k : ℕ) : (slice l pos n).drop k = slice l (pos+k) (n-k) := by
  simp only [slice]
  rw [drop_take,drop_drop]

theorem slice_append_left (l k : List α) (h : pos+n ≤ l.length) :
    slice (l++k) pos n = slice l pos n := by
  simp only [slice]
  rw [drop_append_of_le_length (by omega), take_append_of_le_length (by rw [length_drop]; omega)]

theorem slice_append_right (l k : List α) (pos n : ℕ) :
    slice (l++k) (l.length+pos) n = slice k pos n := by
  simp only [slice]
  rw [drop_append,drop_eq_nil_of_le (by omega),nil_append,Nat.add_sub_cancel_left]

@[simp] theorem length_store (h : pos+piece.length ≤ l.length) :
    (store l pos piece).length=l.length := by
  simp only [store,length_append,length_take,length_drop]
  omega

@[simp] theorem store_nil (l : List α) (pos : ℕ) : store l pos []=l := by
  simp [store]

theorem getElem?_store (l piece : List α) {pos : ℕ} (h : pos ≤ l.length) (i : ℕ) :
    (store l pos piece)[i]? =
      if pos ≤ i ∧ i < pos+piece.length then piece[i-pos]? else l[i]? := by
  have hlen : (l.take pos).length=pos := by simp [h]
  rw [store,append_assoc,getElem?_append,hlen]
  split
  · rename_i hlt
    rw [if_neg (by omega),getElem?_take_of_lt hlt]
  · rw [getElem?_append]
    split
    · rw [if_pos (by omega)]
    · rw [if_neg (by omega),getElem?_drop]
      congr 1
      omega

theorem slice_store (l piece : List α) (h : pos ≤ l.length) :
    slice (store l pos piece) pos piece.length=piece := by
  have hlen : (l.take pos).length=pos := by simp [h]
  simp only [store,slice,append_assoc]
  rw [drop_left' hlen,take_left' rfl]

theorem slice_store_of_le {a k : ℕ} (h : pos ≤ l.length) (ha : pos ≤ a)
    (hk : a+k ≤ pos+piece.length) : slice (store l pos piece) a k = slice piece (a-pos) k := by
  have hinner := slice_slice (store l pos piece) pos (show a-pos+k ≤ piece.length by omega)
  rw [slice_store l piece h,Nat.add_sub_cancel' ha] at hinner
  exact hinner.symm

theorem slice_store_of_ge (l piece : List α) {pos a : ℕ} (h : pos ≤ l.length)
    (ha : pos+piece.length ≤ a) (k : ℕ) : slice (store l pos piece) a k = slice l a k := by
  have hlen : (l.take pos++piece).length = pos+piece.length := by simp [h]
  simp only [store,slice]
  rw [drop_append,drop_eq_nil_of_le (by omega),nil_append,hlen,drop_drop, Nat.add_sub_cancel' ha]

theorem store_zero_of_length_eq (h : l.length=piece.length) : store l 0 piece=piece := by
  simp [store,← h]

theorem store_store_of_length_eq {piece' : List α} (h : pos ≤ l.length)
    (hlen : piece.length=piece'.length) :
    store (store l pos piece) pos piece' = store l pos piece' := by
  have htake : (l.take pos).length=pos := by simp [h]
  simp only [store]
  rw [append_assoc (take pos l),take_left' htake,← append_assoc (take pos l),
    drop_left' (by rw [length_append,htake,hlen]),hlen]

theorem store_store (h : pos ≤ l.length) (piece piece' : List α) :
    store (store l pos piece) (pos+piece.length) piece' = store l pos (piece++piece') := by
  have hlen : (l.take pos++piece).length = pos+piece.length := by simp [h]
  simp only [store]
  rw [take_left' hlen,drop_append,drop_eq_nil_of_le (by omega),nil_append,
    hlen,drop_drop,append_assoc (take pos l),length_append]
  congr 2
  omega

/-- Adjacent windows of a list, stored one after the other. -/
theorem store_slice_slice (l k : List α) {pos a : ℕ} (h : pos+a ≤ k.length) (b : ℕ) :
    store (store l 0 (slice k pos a)) a (slice k (pos+a) b) = store l 0 (slice k pos (a+b)) := by
  have hstore := store_store (Nat.zero_le l.length) (slice k pos a) (slice k (pos+a) b)
  rwa [Nat.zero_add,length_slice h,slice_append_slice] at hstore

/-- A piece stored at the start, and another one behind it in the part that is left. -/
theorem store_zero_append (h : n=piece.length) (hn : n ≤ l.length) (piece' : List α) :
    (store l 0 piece).take n++store ((store l 0 piece).drop n) 0 piece' =
      store l 0 (piece++piece') := by
  subst h
  simp [store,drop_drop]

theorem length_flatMap_range {f : ℕ → List α} {size : ℕ} {count : ℕ}
    (h : ∀ i < count, (f i).length=size) : ((range count).flatMap f).length = count*size := by
  induction count with
  | zero => simp
  | succ count ih =>
    rw [range_succ,flatMap_append,length_append,ih fun i hi => h i (by omega),
      flatMap_singleton,h count (Nat.lt_succ_self count),Nat.succ_mul]

theorem slice_eq_flatMap_range (l : List α) (size start n : ℕ) : slice l (start*size) (n*size) =
      (range n).flatMap fun i => slice l ((start+i)*size) size := by
  induction n with
  | zero => simp
  | succ n ih =>
    rw [range_succ,flatMap_append,← ih,flatMap_singleton,Nat.add_mul start,
      slice_append_slice,Nat.succ_mul]

/-- A window of whole pieces. -/
theorem slice_flatMap_range {f : ℕ → List α} {size start n count : ℕ}
    (h : ∀ i < count, (f i).length=size) (hn : start+n ≤ count) :
    slice ((range count).flatMap f) (start*size) (n*size) =
      (range n).flatMap fun i => f (start+i) := by
  obtain ⟨rest,rfl⟩ : ∃ rest, count = start+(n+rest) := ⟨count-start-n,by omega⟩
  have hstart : ((range start).flatMap f).length = start*size :=
    length_flatMap_range fun i hi => h i (by omega)
  have hpieces : ((range n).flatMap fun i => f (start+i)).length = n*size :=
    length_flatMap_range fun i hi => h (start+i) (by omega)
  have hsplit : (range (start+(n+rest))).flatMap f = (range start).flatMap f ++
      (((range n).flatMap fun i => f (start+i)) ++
        (range rest).flatMap fun i => f (start+(n+i))) := by
    rw [range_add,flatMap_append,range_add,map_append,flatMap_append]
    simp only [flatMap_map]
  have hright := slice_append_right ((range start).flatMap f)
    (((range n).flatMap fun i => f (start+i)) ++
      (range rest).flatMap fun i => f (start+(n+i))) 0 (n*size)
  rw [hstart,Nat.add_zero (start*size)] at hright
  rw [hsplit,hright,slice_append_left _ _ (by omega),slice_full (by omega)]

end PS3Native
