import Mathlib.Data.List.TakeWhile
import Mathlib.Algebra.Ring.Nat
import Mathlib.Order.PiLex

/-!
# Comparing version numbers

The cursors of `compare_versions` are the rests of the strings they point to, empty from the end on.
An overflow of `int` is `none`.
-/
namespace PS3Native.Versions
open List

def addDigit (vnum : ℕ) (c : Char) : ℕ := vnum*10+(c.toNat - '0'.toNat)

def readNumber : List Char → ℕ → Option (ℕ × List Char)
  | [],vnum => some (vnum,[])
  | c::rest,vnum =>
    if c = '.' then some (vnum,c::rest)
    else if addDigit vnum c < 2^31 then readNumber rest (addDigit vnum c) else none

def compareLoop : ℕ → List Char → List Char → Option ℤ
  | 0,_,_ => none
  | rounds+1,v1,v2 =>
    if v1=[] ∧ v2=[] then some 0 else do
      let (vnum1,rest1) ← readNumber v1 0
      let (vnum2,rest2) ← readNumber v2 0
      if vnum1 > vnum2 then some 1
      else if vnum2 > vnum1 then some (-1)
      else compareLoop rounds rest1.tail rest2.tail

/-- The result and `ok`. -/
def compareVersions (v1 v2 : List Char) : Option (ℤ × Bool) :=
  if (v1++v2).all fun c => c.isDigit || c = '.' then
    (compareLoop (v1.length+v2.length+1) v1 v2).map (·,true)
  else some (-1,false)

/-- The `k`-th number of a version, where missing and empty parts are 0. -/
def part (v : List Char) (k : ℕ) : ℕ := ((v.splitOn '.')[k]?.map (foldl addDigit 0)).getD 0

structure Valid (v : List Char) : Prop where
  chars : ∀ c∈v, c.isDigit ∨ c = '.'
  fits : ∀ k, part v k < 2^31

section Order

variable {α : Type*} [LinearOrder α] {a b c d : α}

def sign (a b : α) : ℤ := if a < b then -1 else if b < a then 1 else 0

theorem sign_of_lt (h : a < b) : sign a b = -1 ∧ sign b a=1 := by
  simp [sign,h,h.not_gt]

theorem sign_congr (h : a < b ↔ c < d) (h' : b < a ↔ d < c) : sign a b = sign c d := by
  simp only [sign,h,h']

theorem sign_swap (a b : α) : sign b a = -sign a b := by
  rcases lt_trichotomy a b with h | rfl | h
  · simp [sign_of_lt h]
  · simp [sign]
  · simp [sign_of_lt h]

theorem sign_le_iff : sign a b ≤ 0 ↔ a ≤ b := by
  rcases lt_trichotomy a b with h | rfl | h
  · simp [sign_of_lt h,h.le]
  · simp [sign]
  · simp [sign_of_lt h,h.not_ge]

end Order

def next (v : List Char) : List Char := (v.dropWhile (· != '.')).tail

variable {v w : List Char}

theorem le_foldl_addDigit (l : List Char) (n : ℕ) : n ≤ l.foldl addDigit n := by
  induction l generalizing n with
  | nil => exact le_rfl
  | cons c l ih =>
    have hdigit : n ≤ addDigit n c := by
      unfold addDigit
      omega
    exact hdigit.trans (ih _)

theorem readNumber_eq {n : ℕ} (h : (v.takeWhile (· != '.')).foldl addDigit n < 2^31) :
    readNumber v n = some ((v.takeWhile (· != '.')).foldl addDigit n,v.dropWhile (· != '.')) := by
  induction v generalizing n with
  | nil => rfl
  | cons c v ih =>
    by_cases hc : c = '.'
    · simp [readNumber,hc]
    · have hpos : (c != '.')=true := bne_iff_ne.mpr hc
      simp only [takeWhile,dropWhile,hpos,foldl_cons] at h ⊢
      rw [readNumber,if_neg hc,if_pos ((le_foldl_addDigit _ _).trans_lt h),ih h]

theorem part_eq (v : List Char) :
    part v 0 = (v.takeWhile (· != '.')).foldl addDigit 0 ∧ ∀ k, part v (k+1) = part (next v) k := by
  have hsplit : v.takeWhile (· != '.')++v.dropWhile (· != '.')=v := takeWhile_append_dropWhile
  have hnot : '.' ∉ v.takeWhile (· != '.') := fun h => by simpa using mem_takeWhile_imp h
  unfold next
  cases hdrop : v.dropWhile (· != '.') with
  | nil =>
    rw [hdrop,append_nil] at hsplit
    rw [hsplit] at hnot ⊢
    refine ⟨by simp [part,splitOn_eq_singleton hnot],fun k => ?_⟩
    cases k <;> simp [part,splitOn_eq_singleton hnot]
  | cons c rest =>
    obtain rfl : c = '.' := by
      have hhead := head_dropWhile_not (· != '.') (l := v) (by simp [hdrop])
      simpa [hdrop] using hhead
    rw [hdrop] at hsplit
    have hparts : v.splitOn '.' = v.takeWhile (· != '.')::rest.splitOn '.' := by
      conv_lhs => rw [← hsplit]
      exact splitOn_append_cons_self_of_not_mem hnot _
    exact ⟨by simp [part,hparts],fun k => by simp [part,hparts]⟩

theorem toLex_lt_iff {f g f' g' : ℕ → ℕ} (hf : ∀ k, f (k+1) = f' k) (hg : ∀ k, g (k+1) = g' k) :
    toLex f < toLex g ↔ f 0 < g 0 ∨ f 0 = g 0 ∧ toLex f' < toLex g' := by
  constructor
  · rintro ⟨_ | k,heq,hlt⟩
    · exact .inl hlt
    · refine .inr ⟨heq 0 (Nat.succ_pos k),k,fun j hj => ?_,?_⟩
      · exact (hf j).symm.trans ((heq (j+1) (Nat.succ_lt_succ hj)).trans (hg j))
      · exact (hf k).symm.trans_lt (hlt.trans_eq (hg k))
  · rintro (hlt | ⟨hzero,k,heq,hlt⟩)
    · exact ⟨0,fun j hj => absurd hj (Nat.not_lt_zero j),hlt⟩
    · refine ⟨k+1,fun j hj => ?_,?_⟩
      · cases j with
        | zero => exact hzero
        | succ j => exact (hf j).trans ((heq j (Nat.lt_of_succ_lt_succ hj)).trans (hg j).symm)
      · exact (hf k).trans_lt (hlt.trans_eq (hg k).symm)

theorem length_next_le (v : List Char) : (next v).length ≤ v.length-1 := by
  rw [next,length_tail]
  exact Nat.sub_le_sub_right (dropWhile_sublist _).length_le 1

theorem compareLoop_eq {rounds : ℕ} (hrounds : v.length+w.length < rounds)
    (hv : ∀ k, part v k < 2^31) (hw : ∀ k, part w k < 2^31) :
    compareLoop rounds v w = some (sign (toLex (part v)) (toLex (part w))) := by
  induction rounds generalizing v w with
  | zero => omega
  | succ rounds ih =>
    rw [compareLoop]
    split_ifs with hend
    · simp [hend,sign]
    obtain ⟨hv₀,hv₁⟩ := part_eq v
    obtain ⟨hw₀,hw₁⟩ := part_eq w
    have hrest : (next v).length+(next w).length < rounds := by
      have hle := length_next_le v
      have hle' := length_next_le w
      simp only [← length_eq_zero_iff] at hend
      omega
    simp only [readNumber_eq (hv₀ ▸ hv 0),readNumber_eq (hw₀ ▸ hw 0),Option.bind_eq_bind,
      Option.bind_some,← hv₀,← hw₀]
    split_ifs with hgt hlt
    · rw [(sign_of_lt ((toLex_lt_iff hw₁ hv₁).mpr (.inl hgt))).2]
    · rw [(sign_of_lt ((toLex_lt_iff hv₁ hw₁).mpr (.inl hlt))).1]
    · have heq : part v 0 = part w 0 := by omega
      refine (ih hrest (fun k => hv₁ k ▸ hv (k+1)) fun k => hw₁ k ▸ hw (k+1)).trans ?_
      refine congrArg some (sign_congr ?_ ?_).symm
      · exact (toLex_lt_iff hv₁ hw₁).trans ((or_iff_right hlt).trans (and_iff_right heq))
      · exact (toLex_lt_iff hw₁ hv₁).trans ((or_iff_right hgt).trans (and_iff_right heq.symm))

theorem compareVersions_eq (hv : Valid v) (hw : Valid w) :
    compareVersions v w = some (sign (toLex (part v)) (toLex (part w)),true) := by
  have hok : (v++w).all (fun c => c.isDigit || c = '.')=true := by
    simpa [or_imp,forall_and] using ⟨hv.chars,hw.chars⟩
  rw [compareVersions,if_pos hok,compareLoop_eq (Nat.lt_succ_self _) hv.fits hw.fits]
  rfl

/-- `compare_versions` gives the sign of the lexicographic comparison of the numbers, and is
antisymmetric and transitive. -/
theorem compareVersions_lexicographic : (∀ v w, Valid v → Valid w →
      compareVersions v w = some (sign (toLex (part v)) (toLex (part w)),true)) ∧
    (∀ v w r, Valid v → Valid w → compareVersions v w = some (r,true) →
      compareVersions w v = some (-r,true)) ∧
    ∀ u v w r r', Valid u → Valid v → Valid w → compareVersions u v = some (r,true) →
      compareVersions v w = some (r',true) → r ≤ 0 → r' ≤ 0 →
      ∃ r'' ≤ 0, compareVersions u w = some (r'',true) := by
  refine ⟨fun v w hv hw => compareVersions_eq hv hw,fun v w r hv hw h => ?_,?_⟩
  · rw [compareVersions_eq hv hw] at h
    cases h
    rw [compareVersions_eq hw hv,sign_swap]
  · intro u v w r r' hu hv hw h h' hr hr'
    rw [compareVersions_eq hu hv] at h
    rw [compareVersions_eq hv hw] at h'
    cases h
    cases h'
    rw [sign_le_iff] at hr hr'
    exact ⟨_,sign_le_iff.mpr (hr.trans hr'),compareVersions_eq hu hw⟩

end PS3Native.Versions
