import Mathlib.Data.List.Perm.Basic

/-!
# Erasing from a `simple_array`

`erase_if` overwrites a matching element with the last one and tests the slot again. Reading past the
memory of the array is `none`.
-/
namespace PS3Native.SimpleArray
open List

variable {α : Type*} (predicate : α → Bool)

def eraseIfLoop : ℕ → List α → ℕ → ℕ → ℕ → Bool → Option (List α × ℕ × Bool)
  | 0,_,_,_,_,_ => none
  | rounds+1,data,size,ptr,last,ret =>
    if ptr ≤ last then do
      let item ← data[ptr]?
      if predicate item then
        if ptr=last then some (data,size-1,true)
        else do
          let tail ← data[last]?
          eraseIfLoop rounds (data.set ptr tail) (size-1) ptr (last-1) true
      else eraseIfLoop rounds data size (ptr+1) last ret
    else some (data,size,ret)

def eraseIf (data : List α) : Option (List α × Bool) :=
  if data.length=0 then some (data,false)
  else (eraseIfLoop predicate (data.length+1) data data.length 0 (data.length-1) false).map
    fun (data,size,ret) => (data.take size,ret)

variable {predicate}

/-- The tail moves into the slot of an element. -/
theorem set_perm (l : List α) {i : ℕ} (hi : i < l.length) (a : α) :
    (l[i]::l.set i a).Perm (l++[a]) :=
  calc l[i]::l.set i a
    _ ~ l[i]::a::l.eraseIdx i := (set_perm_cons_eraseIdx hi a).cons _
    _ ~ a::l[i]::l.eraseIdx i := .swap ..
    _ ~ a::l := (getElem_cons_eraseIdx_perm hi).cons a
    _ ~ l++[a] := (perm_append_singleton a l).symm

theorem eraseIfLoop_spec {rounds ptr last : ℕ} {data : List α} {ret : Bool}
    (hlast : last < data.length) (hptr : ptr ≤ last+1)
    (hkept : ∀ a∈data.take ptr, predicate a=false) (hrounds : last+1-ptr < rounds) :
    ∃ data' size, eraseIfLoop predicate rounds data (last+1) ptr last ret =
        some (data',size,ret || (data.take (last+1)).any predicate) ∧
      (data'.take size).Perm ((data.take (last+1)).filter (!predicate ·)) := by
  induction rounds generalizing data ptr last ret with
  | zero => omega
  | succ rounds ih =>
    rw [eraseIfLoop]
    rcases Nat.lt_or_ge last ptr with hend | hle
    · obtain rfl : ptr = last+1 := by omega
      refine ⟨data,last+1,?_,?_⟩
      · have hany : (data.take (last+1)).any predicate=false := by simpa using hkept
        rw [if_neg (by omega),hany,Bool.or_false]
      · rw [filter_eq_self.mpr (by simpa using hkept)]
    · have hitem : data[ptr]? = some data[ptr] := getElem?_eq_getElem (by omega)
      have htail : data[last]? = some data[last] := getElem?_eq_getElem hlast
      have htake : data.take (last+1) = data.take last++[data[last]] := take_succ_eq_append_getElem hlast
      have hmem : data[ptr]∈data.take (last+1) := mem_take_iff_getElem.mpr ⟨ptr,by omega,rfl⟩
      rw [if_pos hle]
      simp only [hitem,htail,Option.bind_eq_bind,Option.bind_some]
      by_cases hp : predicate data[ptr]
      · have hany : (data.take (last+1)).any predicate=true := any_eq_true.mpr ⟨_,hmem,hp⟩
        rw [if_pos hp,hany,Bool.or_true]
        by_cases heq : ptr=last
        · subst heq
          refine ⟨data,ptr,if_pos rfl,?_⟩
          rw [htake,filter_append,filter_eq_self.mpr (by simpa using hkept),filter_singleton]
          simp [hp]
        · obtain ⟨last,rfl⟩ : ∃ k, last = k+1 := ⟨last-1,by omega⟩
          have hkept' : ∀ a∈(data.set ptr data[last+1]).take ptr, predicate a=false := by
            rwa [take_set_of_le (Nat.le_refl ptr)]
          obtain ⟨data',size,hloop,hperm⟩ := @ih ptr last (data.set ptr data[last+1]) true
            (by rw [length_set]; omega) (by omega) hkept' (by omega)
          refine ⟨data',size,by rw [if_neg heq]; exact hloop,hperm.trans ?_⟩
          have hmoved := set_perm (data.take (last+1)) (i := ptr) (by rw [length_take]; omega) data[last+1]
          rw [← htake,← take_set] at hmoved
          have hfilter := hmoved.filter (!predicate ·)
          rwa [filter_cons_of_neg (by simpa using hp)] at hfilter
      · rw [if_neg hp]
        refine ih hlast (by omega) ?_ (by omega)
        rw [take_succ_eq_append_getElem (by omega)]
        intro a ha
        rcases mem_append.mp ha with ha | ha
        · exact hkept a ha
        · rw [mem_singleton.mp ha]
          exact eq_false_of_ne_true hp

/-- `erase_if` keeps the elements that do not match, and says whether there were others. -/
theorem eraseIf_erases (predicate : α → Bool) (data : List α) :
    ∃ kept ret, eraseIf predicate data = some (kept,ret) ∧
      kept.Perm (data.filter (!predicate ·)) ∧ (ret=true ↔ ∃ a∈data, predicate a) := by
  by_cases hempty : data.length=0
  · obtain rfl := length_eq_zero_iff.mp hempty
    exact ⟨[],false,rfl,.refl _,by simp⟩
  · obtain ⟨data',size,hloop,hperm⟩ := @eraseIfLoop_spec α predicate (data.length+1) 0
      (data.length-1) data false (by omega) (by omega) (by simp) (by omega)
    rw [show data.length-1+1 = data.length by omega] at hloop hperm
    rw [take_length] at hloop hperm
    refine ⟨_,_,?_,hperm,any_eq_true⟩
    rw [eraseIf,if_neg hempty,hloop]
    rfl

end PS3Native.SimpleArray
