import Mathlib.Data.BitVec
import Mathlib.Data.List.Pairwise

/-!
# Closed address ranges and vectors of them

`utils::address_range<T>` for an unsigned `T` of `w` bits; `last` is the source's `end`, the last
address of the range. All arithmetic wraps. A vector keeps its ranges in slots, and a slot with an
invalid range is free for reuse.
-/
namespace PS3Native

abbrev umax (w : ℕ) : BitVec w := BitVec.allOnes w

/-- A default-constructed range is the invalid one, `start = umax` and `end = 0`. -/
structure AddressRange (w : ℕ) where
  start : BitVec w := umax w
  last : BitVec w := 0#w
  deriving DecidableEq, Repr

namespace AddressRange

variable {w : ℕ}

def startLength (start length : BitVec w) : AddressRange w :=
  if length = 0#w then {} else ⟨start,start+length-1#w⟩

def startEnd (start last : BitVec w) : AddressRange w := ⟨start,last⟩

def length (r : AddressRange w) : BitVec w := r.last-r.start+1#w

def nextAddress (r : AddressRange w) : BitVec w := r.last+1#w

def prevAddress (r : AddressRange w) : BitVec w := r.start-1#w

def valid (r : AddressRange w) : Bool := r.start ≤ r.last

def invalidate (_ : AddressRange w) : AddressRange w := ⟨umax w,0#w⟩

def overlaps (r other : AddressRange w) : Bool :=
  r.start ≤ other.last && other.start ≤ r.last

def overlapsAddress (r : AddressRange w) (addr : BitVec w) : Bool :=
  r.start ≤ addr && addr ≤ r.last

def inside (r other : AddressRange w) : Bool :=
  other.start ≤ r.start && r.last ≤ other.last

def touches (r other : AddressRange w) : Bool :=
  r.overlaps other || other.start == r.nextAddress || other.last == r.prevAddress

def minAddr (a b : BitVec w) : BitVec w := if b < a then b else a

def maxAddr (a b : BitVec w) : BitVec w := if a < b then b else a

def getMinMax (r other : AddressRange w) : AddressRange w :=
  ⟨minAddr (if r.valid then r.start else umax w) (if other.valid then other.start else umax w),
    maxAddr (if r.valid then r.last else 0#w) (if other.valid then other.last else 0#w)⟩

instance : Membership (BitVec w) (AddressRange w) where
  mem r a := r.start ≤ a ∧ a ≤ r.last

instance (a : BitVec w) (r : AddressRange w) : Decidable (a∈r) :=
  inferInstanceAs (Decidable (_ ∧ _))

variable {a : BitVec w} {r s : AddressRange w}

theorem mem_iff : a∈r ↔ r.start.toNat ≤ a.toNat ∧ a.toNat ≤ r.last.toNat := Iff.rfl

theorem valid_iff : r.valid ↔ r.start.toNat ≤ r.last.toNat := by
  simp [valid,BitVec.le_def]

theorem valid_iff_nonempty : r.valid ↔ ∃ a, a∈r := by
  rw [valid_iff]
  constructor
  · intro h
    exact ⟨r.start,mem_iff.mpr ⟨Nat.le_refl _,h⟩⟩
  · rintro ⟨a,ha⟩
    have := mem_iff.mp ha
    omega

theorem overlaps_iff : r.overlaps s ↔
    r.start.toNat ≤ s.last.toNat ∧ s.start.toNat ≤ r.last.toNat := by
  simp [overlaps,BitVec.le_def]

theorem inside_iff : r.inside s ↔ s.start.toNat ≤ r.start.toNat ∧ r.last.toNat ≤ s.last.toNat := by
  simp [inside,BitVec.le_def]

theorem overlapsAddress_iff : r.overlapsAddress a ↔ a∈r := by
  simp [overlapsAddress,mem_iff,BitVec.le_def]

theorem overlaps_iff_exists (hr : r.valid) (hs : s.valid) : r.overlaps s ↔ ∃ a, a∈r ∧ a∈s := by
  rw [overlaps_iff]
  rw [valid_iff] at hr hs
  constructor
  · rintro ⟨h₁,h₂⟩
    by_cases h : r.start.toNat ≤ s.start.toNat
    · exact ⟨s.start,mem_iff.mpr ⟨h,h₂⟩,mem_iff.mpr ⟨Nat.le_refl _,hs⟩⟩
    · exact ⟨r.start,mem_iff.mpr ⟨Nat.le_refl _,hr⟩,mem_iff.mpr ⟨by omega,h₁⟩⟩
  · rintro ⟨a,har,has⟩
    have := mem_iff.mp har
    have := mem_iff.mp has
    omega

theorem inside_iff_subset (hr : r.valid) : r.inside s ↔ ∀ a, a∈r → a∈s := by
  rw [inside_iff]
  rw [valid_iff] at hr
  constructor
  · rintro ⟨h₁,h₂⟩ a ha
    have := mem_iff.mp ha
    exact mem_iff.mpr ⟨by omega,by omega⟩
  · intro h
    exact ⟨(mem_iff.mp (h r.start (mem_iff.mpr ⟨Nat.le_refl _,hr⟩))).1,
      (mem_iff.mp (h r.last (mem_iff.mpr ⟨hr,Nat.le_refl _⟩))).2⟩

theorem toNat_umax : (umax w).toNat = 2^w-1 := BitVec.toNat_allOnes

theorem toNat_nextAddress (r : AddressRange w) :
    r.nextAddress.toNat = if r.last = umax w then 0 else r.last.toNat+1 := by
  split_ifs with h
  · rw [nextAddress,h]
    simp [Nat.sub_add_cancel Nat.one_le_two_pow]
  · have hne : r.last.toNat≠2^w-1 := fun he => h (BitVec.eq_of_toNat_eq (he.trans toNat_umax.symm))
    have hw : w≠0 := by
      rintro rfl
      omega
    have hone : 1%2^w=1 := Nat.mod_eq_of_lt (Nat.one_lt_two_pow hw)
    rw [nextAddress,BitVec.toNat_add,BitVec.toNat_ofNat,hone,Nat.mod_eq_of_lt (by omega)]

theorem toNat_prevAddress (r : AddressRange w) :
    r.prevAddress.toNat = if r.start = 0#w then 2^w-1 else r.start.toNat-1 := by
  split_ifs with h
  · rw [prevAddress,h]
    rcases Nat.eq_zero_or_pos w with rfl | hw
    · simp
    · have hone := Nat.one_lt_two_pow hw.ne'
      simp [Nat.mod_eq_of_lt hone]
  · have hne : r.start.toNat≠0 := fun he => h (BitVec.eq_of_toNat_eq (by simpa using he))
    have hw : w≠0 := by
      rintro rfl
      omega
    have hone : 1%2^w=1 := Nat.mod_eq_of_lt (Nat.one_lt_two_pow hw)
    rw [prevAddress,BitVec.toNat_sub,BitVec.toNat_ofNat,hone,
      show 2^w-1+r.start.toNat = r.start.toNat-1+2^w by omega,Nat.add_mod_right,
      Nat.mod_eq_of_lt (by omega)]

/-- The ranges overlap or lie side by side, read in the integers. -/
def Adjoins (r s : AddressRange w) : Prop :=
  r.start.toNat ≤ s.last.toNat+1 ∧ s.start.toNat ≤ r.last.toNat+1

/-- One range ends at the top of the address space and the other starts at `0`. -/
def WrapsOnto (r s : AddressRange w) : Prop :=
  (r.last = umax w ∧ s.start = 0#w) ∨ (s.last = umax w ∧ r.start = 0#w)

instance (r s : AddressRange w) : Decidable (r.Adjoins s) := inferInstanceAs (Decidable (_ ∧ _))

instance (r s : AddressRange w) : Decidable (r.WrapsOnto s) := inferInstanceAs (Decidable (_ ∨ _))

section

variable (hr : r.valid=true) (hs : s.valid=true)

include hr hs

/-- `touches` compares wrapped neighbours, so besides ranges that adjoin it also
relates the two ends of the address space. -/
theorem touches_iff : r.touches s ↔ r.Adjoins s ∨ r.WrapsOnto s := by
  rw [valid_iff] at hr hs
  have hn := toNat_nextAddress r
  have hp := toNat_prevAddress r
  simp only [touches,Bool.or_eq_true,overlaps_iff,beq_iff_eq,Adjoins,WrapsOnto,
    ← BitVec.toNat_inj,hn,hp,toNat_umax,BitVec.toNat_ofNat,Nat.zero_mod]
  split_ifs <;> omega

theorem toNat_getMinMax_start : (r.getMinMax s).start.toNat = min r.start.toNat s.start.toNat := by
  simp only [getMinMax,hr,hs,if_true,minAddr,BitVec.lt_def]
  split_ifs <;> omega

theorem toNat_getMinMax_last : (r.getMinMax s).last.toNat = max r.last.toNat s.last.toNat := by
  simp only [getMinMax,hr,hs,if_true,maxAddr,BitVec.lt_def]
  split_ifs <;> omega

theorem getMinMax_valid : (r.getMinMax s).valid := by
  rw [valid_iff,toNat_getMinMax_start hr hs,toNat_getMinMax_last hr hs]
  rw [valid_iff] at hr
  omega

/-- The hull of two ranges that adjoin adds no address. -/
theorem mem_getMinMax (h : r.Adjoins s) : a∈r.getMinMax s ↔ a∈r ∨ a∈s := by
  simp only [mem_iff,toNat_getMinMax_start hr hs,toNat_getMinMax_last hr hs]
  simp only [Adjoins] at h
  omega

theorem touches_getMinMax {p : AddressRange w} (hp : p.valid) (h : r.Adjoins s)
    (ht : p.touches (r.getMinMax s)) : p.touches r ∨ p.touches s := by
  rw [touches_iff hp (getMinMax_valid hr hs)] at ht
  rw [touches_iff hp hr,touches_iff hp hs]
  simp only [Adjoins,WrapsOnto,← BitVec.toNat_inj,toNat_getMinMax_start hr hs,
    toNat_getMinMax_last hr hs,toNat_umax,BitVec.toNat_ofNat,Nat.zero_mod] at h ht ⊢
  rw [valid_iff] at hp hr hs
  omega

theorem inside_getMinMax_left : r.inside (r.getMinMax s) := by
  rw [inside_iff,toNat_getMinMax_start hr hs,toNat_getMinMax_last hr hs]
  omega

theorem inside_getMinMax_right : s.inside (r.getMinMax s) := by
  rw [inside_iff,toNat_getMinMax_start hr hs,toNat_getMinMax_last hr hs]
  omega

end

theorem inside_trans {t : AddressRange w} (h : r.inside s) (h' : s.inside t) : r.inside t := by
  rw [inside_iff] at *
  omega

theorem Adjoins.of_inside {e h : AddressRange w} (ha : e.Adjoins r) (hi : r.inside h) :
    h.Adjoins e := by
  rw [inside_iff] at hi
  simp only [Adjoins] at ha ⊢
  omega

theorem invalidate_valid (r : AddressRange w) (hw : w≠0) : r.invalidate.valid=false := by
  rw [← Bool.not_eq_true,valid_iff]
  have := Nat.one_lt_two_pow hw
  simp only [invalidate,toNat_umax,BitVec.toNat_ofNat,Nat.zero_mod]
  omega

end AddressRange

abbrev AddressRangeVector (w : ℕ) := List (AddressRange w)

namespace AddressRangeVector

variable {w : ℕ}

/-- The double loop of `check_consistency`: no two valid entries touch. -/
def checkConsistency : AddressRangeVector w → Bool
  | [] => true
  | r₁::rest =>
    (!r₁.valid || rest.all (fun r₂ => !r₂.valid || !r₁.touches r₂)) && checkConsistency rest

/-- The slots visited so far, `found` and `invalid`, against the slots to visit. -/
def mergeLoop (newRange : AddressRange w) (done : AddressRangeVector w)
    (found invalid : Option ℕ) :
    AddressRangeVector w → AddressRangeVector w × Option ℕ × Option ℕ
  | [] => (done,found,invalid)
  | existing::rest =>
    if !existing.valid then
      mergeLoop newRange (done++[existing]) found (some done.length) rest
    else if existing.touches newRange then
      match found with
      | some f => mergeLoop newRange
          (done.modify f (fun range => range.getMinMax existing)++[existing.invalidate])
          (some f) invalid rest
      | none => mergeLoop newRange (done++[existing.getMinMax newRange])
          (some done.length) invalid rest
    else mergeLoop newRange (done++[existing]) found invalid rest

def merge (data : AddressRangeVector w) (newRange : AddressRange w) : AddressRangeVector w :=
  if !newRange.valid then data
  else match mergeLoop newRange [] none none data with
    | (data,some _,_) => data
    | (data,none,some invalid) => data.set invalid newRange
    | (data,none,none) => data++[newRange]

def Covered (data : AddressRangeVector w) (a : BitVec w) : Prop :=
  ∃ e∈data, e.valid=true ∧ a∈e

instance (data : AddressRangeVector w) (a : BitVec w) : Decidable (Covered data a) :=
  inferInstanceAs (Decidable (∃ e∈data, _))

/-- Two entries of a consistent vector: not both valid, or not touching. -/
def Apart (r s : AddressRange w) : Prop :=
  r.valid=true → s.valid=true → r.touches s=false

theorem checkConsistency_iff (data : AddressRangeVector w) :
    checkConsistency data ↔ data.Pairwise Apart := by
  induction data with
  | nil => simp [checkConsistency]
  | cons r rest ih =>
    rw [checkConsistency,Bool.and_eq_true,ih,List.pairwise_cons]
    refine and_congr_left fun _ => ?_
    cases hr : r.valid <;> simp [Apart,hr,List.all_eq_true,Bool.not_eq_eq_eq_not,imp_iff_not_or]

theorem Apart.symm {r s : AddressRange w} (h : Apart r s) : Apart s r := by
  intro hs hr
  have hrs := h hr hs
  rw [← Bool.not_eq_true,AddressRange.touches_iff hr hs] at hrs
  rw [← Bool.not_eq_true,AddressRange.touches_iff hs hr]
  simp only [AddressRange.Adjoins,AddressRange.WrapsOnto] at hrs ⊢
  tauto

instance : Std.Symm (Apart (w := w)) := ⟨fun _ _ h => h.symm⟩

@[simp] theorem covered_append (xs ys : AddressRangeVector w) (a : BitVec w) :
    Covered (xs++ys) a ↔ Covered xs a ∨ Covered ys a := by
  simp [Covered,or_and_right,exists_or]

@[simp] theorem covered_cons (e : AddressRange w) (xs : AddressRangeVector w) (a : BitVec w) :
    Covered (e::xs) a ↔ (e.valid ∧ a∈e) ∨ Covered xs a := by
  simp [Covered]

@[simp] theorem covered_nil (a : BitVec w) : ¬Covered ([] : AddressRangeVector w) a := by
  simp [Covered]

end AddressRangeVector
end PS3Native
