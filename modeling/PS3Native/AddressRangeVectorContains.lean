import PS3Native.AddressRangeVectorExclude

/-!
# Containment in a vector

`contains` asks for a valid entry that lies inside the queried range. Coverage of a
range by a consistent vector is the opposite test: the range lies inside an entry.
-/
namespace PS3Native

namespace AddressRangeVector

variable {w : ℕ}

def contains (data : AddressRangeVector w) (range : AddressRange w) : Bool :=
  data.any (fun cur => cur.valid && cur.inside range)

def inside (data : AddressRangeVector w) (range : AddressRange w) : Bool :=
  data.all (fun cur => !cur.valid || cur.inside range)

end AddressRangeVector

def AddressRange.insideVector {w : ℕ} (r : AddressRange w) (vec : AddressRangeVector w) : Bool :=
  vec.contains r

namespace AddressRangeVector

variable {w : ℕ}

theorem contains_iff (data : AddressRangeVector w) (range : AddressRange w) :
    contains data range ↔ ∃ e∈data, e.valid ∧ e.inside range := by
  simp [contains,List.any_eq_true]

/-- In a separated vector a covered range lies inside one entry: the address behind
the entry that covers its start is covered by no other entry. -/
theorem covers_iff_inside_entry {data : AddressRangeVector w} (h : Separated data)
    {range : AddressRange w} (hr : range.valid) :
    (∀ a, a∈range → Covered data a) ↔ ∃ e∈data, e.valid ∧ range.inside e := by
  constructor
  · intro hcov
    have hrv := AddressRange.valid_iff.mp hr
    obtain ⟨e,he,hev,hae⟩ := hcov range.start (AddressRange.mem_iff.mpr ⟨Nat.le_refl _,hrv⟩)
    rw [AddressRange.mem_iff] at hae
    refine ⟨e,he,hev,AddressRange.inside_iff.mpr ⟨hae.1,?_⟩⟩
    by_contra hlast
    have hnext : (BitVec.ofNat w (e.last.toNat+1)).toNat = e.last.toNat+1 := by
      rw [BitVec.toNat_ofNat,Nat.mod_eq_of_lt (by omega)]
    obtain ⟨f,hf,hfv,haf⟩ := hcov (BitVec.ofNat w (e.last.toNat+1))
      (AddressRange.mem_iff.mpr ⟨by omega,by omega⟩)
    rw [AddressRange.mem_iff,hnext] at haf
    by_cases hef : e=f
    · subst hef
      omega
    · have hadj := h.forall he hf hev hfv hef
      simp only [AddressRange.Adjoins] at hadj
      omega
  · rintro ⟨e,he,hev,hin⟩ a ha
    exact ⟨e,he,hev,(AddressRange.inside_iff_subset hr).mp hin a ha⟩

/-- An entry inside the range and one around it are the same entry. -/
theorem eq_of_inside_inside {data : AddressRangeVector w} (h : Separated data)
    {range e f : AddressRange w} (he : e∈data) (hf : f∈data) (hev : e.valid) (hfv : f.valid)
    (hin : e.inside range) (hout : range.inside f) : e=range := by
  rw [AddressRange.inside_iff] at hin hout
  have hef : e=f := by
    by_contra hne
    have hadj := h.forall he hf hev hfv hne
    rw [AddressRange.valid_iff] at hev hfv
    simp only [AddressRange.Adjoins] at hadj
    omega
  subst hef
  have hs : e.start=range.start := BitVec.eq_of_toNat_eq (by omega)
  have hl : e.last=range.last := BitVec.eq_of_toNat_eq (by omega)
  cases e
  cases range
  simp_all

/-- `contains` answers coverage exactly when the range is an entry, or when no valid
entry lies inside the range or around it. -/
theorem contains_coverage_iff (data : AddressRangeVector w) (range : AddressRange w)
    (hc : checkConsistency data) (hr : range.valid) :
    ((contains data range ↔ ∀ a, a∈range → Covered data a) ∧
      (range.insideVector data ↔ ∀ a, a∈range → Covered data a)) ↔
    range∈data ∨ ∀ e∈data, e.valid → e.inside range=false ∧ range.inside e=false := by
  have hsep := separated_of_consistent ((checkConsistency_iff data).mp hc)
  rw [AddressRange.insideVector,and_self_iff,contains_iff,covers_iff_inside_entry hsep hr]
  constructor
  · intro hiff
    by_cases hin : ∃ e∈data, e.valid ∧ e.inside range
    · obtain ⟨f,hf,hfv,hout⟩ := hiff.mp hin
      obtain ⟨e,he,hev,hin⟩ := hin
      exact .inl (eq_of_inside_inside hsep he hf hev hfv hin hout ▸ he)
    · have hout := fun h => hin (hiff.mpr h)
      refine .inr fun e he hev => ⟨?_,?_⟩
      · rw [← Bool.not_eq_true]
        exact fun h => hin ⟨e,he,hev,h⟩
      · rw [← Bool.not_eq_true]
        exact fun h => hout ⟨e,he,hev,h⟩
  · rintro (hmem | hnone)
    · have hself : range.inside range := by simp [AddressRange.inside]
      exact iff_of_true ⟨range,hmem,hr,hself⟩ ⟨range,hmem,hr,hself⟩
    · constructor
      · rintro ⟨e,he,hev,hin⟩
        rw [(hnone e he hev).1] at hin
        cases hin
      · rintro ⟨e,he,hev,hin⟩
        rw [(hnone e he hev).2] at hin
        cases hin

theorem contains_coverage_entry : (contains [⟨0#32,0xfff#32⟩] (⟨0#32,0xfff#32⟩ : AddressRange 32) ↔
      ∀ a, a∈(⟨0#32,0xfff#32⟩ : AddressRange 32) → Covered [⟨0#32,0xfff#32⟩] a) ∧
    ((⟨0#32,0xfff#32⟩ : AddressRange 32).insideVector [⟨0#32,0xfff#32⟩] ↔
      ∀ a, a∈(⟨0#32,0xfff#32⟩ : AddressRange 32) → Covered [⟨0#32,0xfff#32⟩] a) :=
  (contains_coverage_iff _ _ (by decide) (by decide)).mpr (.inl (by decide))

/-- A range in the middle of an entry is covered and not contained. -/
theorem contains_misses_middle_of_entry : checkConsistency [(⟨0#32,0xfff#32⟩ : AddressRange 32)] ∧
    (⟨0x100#32,0x1ff#32⟩ : AddressRange 32).valid ∧
    contains [⟨0#32,0xfff#32⟩] (⟨0x100#32,0x1ff#32⟩ : AddressRange 32)=false ∧
    ∀ a, a∈(⟨0x100#32,0x1ff#32⟩ : AddressRange 32) → Covered [⟨0#32,0xfff#32⟩] a := by
  refine ⟨by decide,by decide,by decide,?_⟩
  intro a ha
  have hsub : (⟨0x100#32,0x1ff#32⟩ : AddressRange 32).inside ⟨0#32,0xfff#32⟩ := by decide
  exact ⟨_,List.mem_singleton_self _,by decide,
    (AddressRange.inside_iff_subset (by decide)).mp hsub a ha⟩

end AddressRangeVector
end PS3Native
