import PS3Native.AddressRange

/-!
# Merging a range into a consistent vector

The first touching slot absorbs the new range and then every later touching slot,
which becomes invalid. The result covers the union exactly when `touches` was
never answered by the wrap-around of the address space.
-/
namespace PS3Native.AddressRangeVector
open AddressRange List

variable {w : ℕ} {r : AddressRange w}

def absorb (r h : AddressRange w) (rest : AddressRangeVector w) : AddressRange w :=
  rest.foldl (fun h e => if e.valid && e.touches r then h.getMinMax e else h) h

def retire (r e : AddressRange w) : AddressRange w :=
  if e.valid && e.touches r then e.invalidate else e

private theorem modify_length (pre mid : AddressRangeVector w) (h : AddressRange w)
    (f : AddressRange w → AddressRange w) : (pre++h::mid).modify pre.length f = pre++f h::mid := by
  induction pre with
  | nil => rfl
  | cons a pre ih => simpa using ih

/-- Once a slot is found the rest of the loop only folds touching slots into it. -/
theorem mergeLoop_found (pre mid rest : AddressRangeVector w) (h : AddressRange w)
    (invalid : Option ℕ) : ∃ invalid',
    mergeLoop r (pre++h::mid) (some pre.length) invalid rest =
      (pre++absorb r h rest::(mid++rest.map (retire r)),some pre.length,invalid') := by
  induction rest generalizing mid h invalid with
  | nil => exact ⟨invalid,by simp [mergeLoop,absorb]⟩
  | cons e rest ih =>
    by_cases hv : e.valid
    · by_cases ht : e.touches r
      · obtain ⟨invalid',he⟩ := ih (mid++[e.invalidate]) (h.getMinMax e) invalid
        refine ⟨invalid',?_⟩
        simpa [mergeLoop,hv,ht,modify_length,absorb,retire] using he
      · obtain ⟨invalid',he⟩ := ih (mid++[e]) h invalid
        exact ⟨invalid',by simpa [mergeLoop,hv,ht,absorb,retire] using he⟩
    · obtain ⟨invalid',he⟩ := ih (mid++[e]) h (some (pre++h::mid).length)
      exact ⟨invalid',by simpa [mergeLoop,hv,absorb,retire] using he⟩

/-- The loop either meets no touching slot, and then `invalid` names an invalid
slot if there is one, or stops looking at the first touching slot. -/
theorem mergeLoop_spec (pre rest : AddressRangeVector w) (invalid : Option ℕ)
    (hpre : ∀ e∈pre, e.valid → e.touches r=false)
    (hinv : ∀ i, invalid = some i → ∃ e, pre[i]? = some e ∧ e.valid=false) :
    (∃ invalid', mergeLoop r pre none invalid rest = (pre++rest,none,invalid') ∧
      (∀ e∈pre++rest, e.valid → e.touches r=false) ∧
      ∀ i, invalid' = some i → ∃ e, (pre++rest)[i]? = some e ∧ e.valid=false) ∨
    ∃ as e bs n invalid', pre++rest = as++e::bs ∧ e.valid ∧ e.touches r ∧
      (∀ a∈as, a.valid → a.touches r=false) ∧
      mergeLoop r pre none invalid rest =
        (as++absorb r (e.getMinMax r) bs::bs.map (retire r),some n,invalid') := by
  induction rest generalizing pre invalid with
  | nil => exact .inl ⟨invalid,by simp [mergeLoop],by simpa using hpre,by simpa using hinv⟩
  | cons e rest ih =>
    by_cases hv : e.valid
    · by_cases ht : e.touches r
      · obtain ⟨invalid',he⟩ := mergeLoop_found (r := r) pre [] rest (e.getMinMax r) invalid
        exact .inr ⟨pre,e,rest,pre.length,invalid',rfl,hv,ht,hpre,
          by simpa [mergeLoop,hv,ht] using he⟩
      · have hpre' : ∀ a∈pre++[e], a.valid → a.touches r=false := by
          intro a ha hav
          rcases mem_append.mp ha with ha | ha
          · exact hpre a ha hav
          · rw [mem_singleton.mp ha]
            simpa using ht
        have hinv' : ∀ i, invalid = some i → ∃ a, (pre++[e])[i]? = some a ∧ a.valid=false := by
          intro i hi
          obtain ⟨a,ha,hav⟩ := hinv i hi
          have hlt := (List.getElem?_eq_some_iff.mp ha).1
          exact ⟨a,by rw [getElem?_append_left hlt,ha],hav⟩
        simpa [mergeLoop,hv,ht] using ih (pre++[e]) invalid hpre' hinv'
    · have hpre' : ∀ a∈pre++[e], a.valid → a.touches r=false := by
        intro a ha hav
        rcases mem_append.mp ha with ha | ha
        · exact hpre a ha hav
        · rw [mem_singleton.mp ha] at hav
          exact absurd hav hv
      have hinv' : ∀ i, some pre.length = some i → ∃ a, (pre++[e])[i]? = some a ∧ a.valid=false := by
        rintro i ⟨rfl⟩
        exact ⟨e,by simp,by simpa using hv⟩
      simpa [mergeLoop,hv] using ih (pre++[e]) (some pre.length) hpre' hinv'

@[simp] theorem absorb_cons (h e : AddressRange w) (rest : AddressRangeVector w) :
    absorb r h (e::rest) =
      absorb r (if e.valid && e.touches r then h.getMinMax e else h) rest := rfl

variable {h : AddressRange w}

theorem absorb_valid (hh : h.valid) (rest : AddressRangeVector w) : (absorb r h rest).valid := by
  induction rest generalizing h with
  | nil => exact hh
  | cons e rest ih =>
    rw [absorb_cons]
    split_ifs with he
    · rw [Bool.and_eq_true] at he
      exact ih (getMinMax_valid hh he.1)
    · exact ih hh

theorem inside_absorb (hh : h.valid) (rest : AddressRangeVector w) :
    h.inside (absorb r h rest) := by
  induction rest generalizing h with
  | nil => simp [absorb,inside_iff]
  | cons e rest ih =>
    rw [absorb_cons]
    split_ifs with he
    · rw [Bool.and_eq_true] at he
      exact inside_trans (inside_getMinMax_left hh he.1) (ih (getMinMax_valid hh he.1))
    · exact ih hh

theorem mem_inside_absorb {e : AddressRange w} (hh : h.valid) {rest : AddressRangeVector w}
    (he : e∈rest) (hv : e.valid) (ht : e.touches r) : e.inside (absorb r h rest) := by
  induction rest generalizing h with
  | nil => cases he
  | cons b rest ih =>
    rw [absorb_cons]
    rcases mem_cons.mp he with rfl | he
    · rw [if_pos (by simp [hv,ht])]
      exact inside_trans (inside_getMinMax_right hh hv) (inside_absorb (getMinMax_valid hh hv) rest)
    · split_ifs with hb
      · rw [Bool.and_eq_true] at hb
        exact ih (getMinMax_valid hh hb.1) he
      · exact ih hh he

/-- As long as every absorbed slot adjoins the new range, the found slot grows to
exactly the union of what it absorbs, and touches no range that they did not. -/
theorem absorb_union (hh : h.valid) (hrh : r.inside h) {rest : AddressRangeVector w}
    (hadj : ∀ e∈rest, e.valid → e.touches r → e.Adjoins r) :
    (∀ a, a∈absorb r h rest ↔ a∈h ∨ ∃ e∈rest, e.valid ∧ e.touches r ∧ a∈e) ∧
    ∀ p : AddressRange w, p.valid → p.touches (absorb r h rest) → p.touches h ∨
        ∃ e∈rest, e.valid ∧ e.touches r ∧ p.touches e := by
  induction rest generalizing h with
  | nil => simp [absorb]
  | cons e rest ih =>
    have hadj' : ∀ b∈rest, b.valid → b.touches r → b.Adjoins r :=
      fun b hb => hadj b (mem_cons_of_mem _ hb)
    rw [absorb_cons]
    split_ifs with he
    · rw [Bool.and_eq_true] at he
      obtain ⟨hv,ht⟩ := he
      have hea := (hadj e mem_cons_self hv ht).of_inside hrh
      obtain ⟨hmem,htouch⟩ := ih (getMinMax_valid hh hv)
        (inside_trans hrh (inside_getMinMax_left hh hv)) hadj'
      refine ⟨fun a => ?_,fun p hp hpt => ?_⟩
      · rw [hmem,mem_getMinMax hh hv hea]
        simp [hv,ht,or_assoc]
      · rcases htouch p hp hpt with hpt | ⟨b,hb,hbv,hbt,hpb⟩
        · rcases touches_getMinMax hh hv hp hea hpt with hpt | hpt
          · exact .inl hpt
          · exact .inr ⟨e,mem_cons_self,hv,ht,hpt⟩
        · exact .inr ⟨b,mem_cons_of_mem _ hb,hbv,hbt,hpb⟩
    · obtain ⟨hmem,htouch⟩ := ih hh hrh hadj'
      have hne : ¬(e.valid ∧ e.touches r) := by simpa using he
      refine ⟨fun a => ?_,fun p hp hpt => ?_⟩
      · rw [hmem]
        simp only [mem_cons,exists_eq_or_imp]
        tauto
      · rcases htouch p hp hpt with hpt | ⟨b,hb,hbv,hbt,hpb⟩
        · exact .inl hpt
        · exact .inr ⟨b,mem_cons_of_mem _ hb,hbv,hbt,hpb⟩

/-- The two outcomes of `merge`: the range takes a free slot or a new one, or the
first touching slot absorbs it together with every later touching slot. -/
theorem merge_cases (data : AddressRangeVector w) (hr : r.valid) :
    ((∀ e∈data, e.valid → e.touches r=false) ∧
      ∃ as bs, (data = as++bs ∨ ∃ e, e.valid=false ∧ data = as++e::bs) ∧ merge data r = as++r::bs) ∨
    ∃ as e bs, data = as++e::bs ∧ e.valid ∧ e.touches r ∧ (∀ a∈as, a.valid → a.touches r=false) ∧
      merge data r = as++absorb r (e.getMinMax r) bs::bs.map (retire r) := by
  rcases mergeLoop_spec (r := r) [] data none (by simp) (by simp) with
    ⟨invalid,hloop,hfree,hslot⟩ | ⟨as,e,bs,n,invalid,hsplit,hv,ht,has,hloop⟩
  · refine .inl ⟨by simpa using hfree,?_⟩
    cases invalid with
    | none =>
      refine ⟨data,[],.inl (by simp),?_⟩
      simp [merge,hr,hloop]
    | some i =>
      obtain ⟨e,he,hev⟩ := hslot i rfl
      obtain ⟨hlt,hget⟩ := List.getElem?_eq_some_iff.mp he
      simp only [nil_append] at hlt hget
      refine ⟨data.take i,data.drop (i+1),.inr ⟨e,hev,?_⟩,?_⟩
      · rw [← hget,getElem_cons_drop,take_append_drop]
      · simp [merge,hr,hloop,set_eq_take_append_cons_drop,hlt]
  · exact .inr ⟨as,e,bs,by simpa using hsplit,hv,ht,has,by simp [merge,hr,hloop]⟩

theorem covered_map_retire (hw : w≠0) (bs : AddressRangeVector w) (a : BitVec w) :
    Covered (bs.map (retire r)) a ↔ ∃ e∈bs, e.valid ∧ e.touches r=false ∧ a∈e := by
  simp only [Covered,mem_map,exists_exists_and_eq_and]
  refine exists_congr fun e => and_congr_right fun _ => ?_
  cases hv : e.valid <;> cases ht : e.touches r <;>
    simp [retire,hv,ht,invalidate_valid e hw]

theorem retire_eq_of_valid (hw : w≠0) {e : AddressRange w} (he : (retire r e).valid) :
    retire r e=e ∧ e.touches r=false := by
  cases hv : e.valid <;> cases ht : e.touches r <;>
    simp_all [retire,invalidate_valid e hw]

theorem pairwise_map_retire (hw : w≠0) {bs : AddressRangeVector w} (h : bs.Pairwise Apart) :
    (bs.map (retire r)).Pairwise Apart := by
  rw [pairwise_map]
  refine h.imp fun {b c} hbc hb hc => ?_
  have hb' := (retire_eq_of_valid hw hb).1
  have hc' := (retire_eq_of_valid hw hc).1
  rw [hb'] at hb ⊢
  rw [hc'] at hc ⊢
  exact hbc hb hc

/-- What a merge into a vector promises: the covered set grows by exactly the new
range, and the vector stays consistent. -/
def MergesToUnion (data : AddressRangeVector w) (r : AddressRange w) : Prop :=
  (∀ a, Covered (merge data r) a ↔ Covered data a ∨ a∈r) ∧
    checkConsistency (merge data r)=true

/-- Some valid entry lies at one end of the address space and the range at the
other, and the two do not adjoin. -/
def WrapsOntoEntry (data : AddressRangeVector w) (r : AddressRange w) : Prop :=
  ∃ e∈data, e.valid=true ∧ e.WrapsOnto r ∧ ¬e.Adjoins r

private theorem or_regroup {A B C D E : Prop} :
    A ∨ ((B ∨ C) ∨ D) ∨ E ↔ (A ∨ B ∨ D ∨ E) ∨ C := by tauto

theorem mergesToUnion_of_not_wraps (hw : w≠0) {data : AddressRangeVector w}
    (hc : data.Pairwise Apart) (hr : r.valid) (hwrap : ¬WrapsOntoEntry data r) :
    MergesToUnion data r := by
  have hadj : ∀ e∈data, e.valid → e.touches r → e.Adjoins r := by
    intro e he hv ht
    by_contra hn
    rcases (touches_iff hv hr).mp ht with h | h
    · exact hn h
    · exact hwrap ⟨e,he,hv,h,hn⟩
  rw [MergesToUnion,checkConsistency_iff]
  rcases merge_cases data hr with ⟨hfree,as,bs,hsplit,hm⟩ | ⟨as,e,bs,rfl,hv,ht,has,hm⟩
  · have hrest : ∀ e∈as++bs, Apart e r := by
      intro e he hv _
      refine hfree e ?_ hv
      rcases hsplit with rfl | ⟨b,_,rfl⟩
      · exact he
      · simp only [mem_append,mem_cons] at he ⊢
        tauto
    rw [hm]
    refine ⟨fun a => ?_,?_⟩
    · rcases hsplit with rfl | ⟨b,hb,rfl⟩
      · simp only [covered_append,covered_cons,hr,true_and]
        tauto
      · simp only [covered_append,covered_cons,hr,true_and,hb,Bool.false_eq_true,false_and,false_or]
        tauto
    · have hpair : (as++bs).Pairwise Apart := by
        rcases hsplit with rfl | ⟨b,_,rfl⟩
        · exact hc
        · exact hc.sublist ((sublist_cons_self b bs).append_left as)
      rw [pairwise_append] at hpair ⊢
      refine ⟨hpair.1,pairwise_cons.mpr ⟨fun b hb => (hrest b (by simp [hb])).symm,hpair.2.1⟩,?_⟩
      intro a ha b hb
      rcases mem_cons.mp hb with rfl | hb
      · exact hrest a (by simp [ha])
      · exact hpair.2.2 a ha b hb
  · have hre := getMinMax_valid hv hr
    have hea := hadj e (by simp) hv ht
    have hadjbs : ∀ b∈bs, b.valid → b.touches r → Adjoins b r := fun b hb => hadj b (by simp [hb])
    obtain ⟨hmem,htouch⟩ := absorb_union hre (inside_getMinMax_right hv hr) hadjbs
    rw [pairwise_append,pairwise_cons] at hc
    obtain ⟨hcas,⟨hce,hcbs⟩,hcross⟩ := hc
    have hapart : ∀ p : AddressRange w, p.touches r=false → Apart p e →
        (∀ b∈bs, b.touches r → Apart p b) → Apart p (absorb r (e.getMinMax r) bs) := by
      intro p hpr hpe hpb hp _
      by_contra hn
      rcases htouch p hp (by simpa using hn) with h | ⟨b,hb,hbv,hbt,h⟩
      · rcases touches_getMinMax hv hr hp hea h with h | h
        · rw [hpe hp hv] at h
          cases h
        · rw [hpr] at h
          cases h
      · rw [hpb b hb hbt hp hbv] at h
        cases h
    rw [hm]
    refine ⟨fun a => ?_,?_⟩
    · have hbs : Covered bs a ↔ (∃ b∈bs, b.valid ∧ b.touches r ∧ a∈b) ∨
          ∃ b∈bs, b.valid ∧ b.touches r=false ∧ a∈b := by
        simp only [Covered,← exists_or,← and_or_left]
        refine exists_congr fun b => and_congr_right fun _ => and_congr_right fun _ => ?_
        cases b.touches r <;> simp
      simp only [covered_append,covered_cons,covered_map_retire hw,absorb_valid hre,true_and,
        hmem,mem_getMinMax hv hr hea,hv,hbs]
      exact or_regroup
    · rw [pairwise_append,pairwise_cons]
      refine ⟨hcas,⟨?_,pairwise_map_retire hw hcbs⟩,?_⟩
      · intro b' hb'
        obtain ⟨b,hb,rfl⟩ := mem_map.mp hb'
        refine Apart.symm fun hbv hH => ?_
        obtain ⟨heq,hbr⟩ := retire_eq_of_valid hw hbv
        rw [heq] at hbv ⊢
        refine hapart b hbr (hce b hb).symm (fun c hcm hct => ?_) hbv hH
        refine hcbs.forall hb hcm ?_
        rintro rfl
        simp [hbr] at hct
      · intro p hp q hq
        rcases mem_cons.mp hq with rfl | hq
        · intro hpv
          exact hapart p (has p hp hpv) (hcross p hp e (by simp))
            (fun c hcm _ => hcross p hp c (by simp [hcm])) hpv
        · obtain ⟨b,hb,rfl⟩ := mem_map.mp hq
          intro hpv hbv
          have heq := (retire_eq_of_valid hw hbv).1
          rw [heq] at hbv ⊢
          exact hcross p hp b (by simp [hb]) hpv hbv

/-- An entry at the far end of the address space pulls the whole space into the
found slot, although the address next to that entry was covered by nothing. -/
theorem not_mergesToUnion_of_wraps {data : AddressRangeVector w} (hc : data.Pairwise Apart)
    (hr : r.valid) (hwrap : WrapsOntoEntry data r) : ¬MergesToUnion data r := by
  obtain ⟨e,he,hv,hwr,hna⟩ := hwrap
  have het : e.touches r := (touches_iff hv hr).mpr (.inr hwr)
  rw [valid_iff] at hr hv
  have hgap : ∃ a : BitVec w, a∉r ∧ (a.toNat+1=e.start.toNat ∨ a.toNat = e.last.toNat+1) := by
    simp only [WrapsOnto,← BitVec.toNat_inj,toNat_umax,BitVec.toNat_ofNat,Nat.zero_mod] at hwr
    simp only [Adjoins,not_and_or,not_le] at hna
    rcases hwr with ⟨h₁,h₂⟩ | ⟨h₁,h₂⟩
    · refine ⟨BitVec.ofNat w (e.start.toNat-1),?_,?_⟩ <;>
        simp only [mem_iff,BitVec.toNat_ofNat] <;>
        rw [Nat.mod_eq_of_lt (by omega)] <;> omega
    · refine ⟨BitVec.ofNat w (e.last.toNat+1),?_,?_⟩ <;>
        simp only [mem_iff,BitVec.toNat_ofNat] <;>
        rw [Nat.mod_eq_of_lt (by omega)] <;> omega
  rw [← valid_iff] at hr hv
  obtain ⟨a,har,hae⟩ := hgap
  rintro ⟨hcov,-⟩
  have hnot : ¬Covered data a := by
    rintro ⟨b,hb,hbv,hab⟩
    rw [mem_iff] at hab
    by_cases hbe : b=e
    · subst hbe
      omega
    · have hap := hc.forall hb he hbe hbv hv
      rw [← Bool.not_eq_true,touches_iff hbv hv] at hap
      refine hap (.inl ?_)
      rw [valid_iff] at hbv hv
      simp only [Adjoins]
      omega
  refine (not_or.mpr ⟨hnot,har⟩) ((hcov a).mp ?_)
  rcases merge_cases data hr with ⟨hfree,-⟩ | ⟨as,b,bs,rfl,hbv,hbt,has,hm⟩
  · rw [hfree e he hv] at het
    cases het
  · have hbr := getMinMax_valid hbv hr
    have hin : e.inside (absorb r (b.getMinMax r) bs) := by
      rcases mem_append.mp he with he | he
      · rw [has e he hv] at het
        cases het
      · rcases mem_cons.mp he with rfl | he
        · exact inside_trans (inside_getMinMax_left hbv hr) (inside_absorb hbr bs)
        · exact mem_inside_absorb hbr he hv het
    have hrin : r.inside (absorb r (b.getMinMax r) bs) :=
      inside_trans (inside_getMinMax_right hbv hr) (inside_absorb hbr bs)
    rw [hm]
    simp only [covered_append,covered_cons,absorb_valid hbr,true_and]
    refine .inr (.inl ?_)
    rw [inside_iff] at hin hrin
    simp only [WrapsOnto,← BitVec.toNat_inj,toNat_umax,BitVec.toNat_ofNat,Nat.zero_mod] at hwr
    rw [mem_iff]
    omega

/-- `merge` is set union on consistent vectors exactly when no valid entry meets
the range across the wrap-around of the address space only. -/
theorem merge_union_iff (hw : w≠0) (data : AddressRangeVector w) (r : AddressRange w)
    (hc : checkConsistency data) (hr : r.valid) :
    ((∀ a, Covered (merge data r) a ↔ Covered data a ∨ a∈r) ∧ checkConsistency (merge data r)) ↔
    ¬∃ e∈data, e.valid ∧ e.WrapsOnto r ∧ ¬e.Adjoins r := by
  rw [checkConsistency_iff] at hc
  constructor
  · intro h hwrap
    exact not_mergesToUnion_of_wraps hc hr hwrap h
  · intro hwrap
    exact mergesToUnion_of_not_wraps hw hc hr hwrap

theorem merge_union_adjoining_pages :
    (∀ a, Covered (merge [⟨0x1000#32,0x1fff#32⟩,{}] ⟨0x2000#32,0x2fff#32⟩) a ↔
      Covered [⟨0x1000#32,0x1fff#32⟩,{}] a ∨ a∈(⟨0x2000#32,0x2fff#32⟩ : AddressRange 32)) ∧
    checkConsistency (merge [⟨0x1000#32,0x1fff#32⟩,{}] ⟨0x2000#32,0x2fff#32⟩) :=
  (merge_union_iff (by decide) _ _ (by decide) (by decide)).mpr (by decide)

/-- Merging the first page into a vector that holds the last page covers
everything in between. -/
theorem merge_first_page_covers_gap :
    checkConsistency [(⟨0xfffff000#32,0xffffffff#32⟩ : AddressRange 32)] ∧
    (⟨0#32,0xfff#32⟩ : AddressRange 32).valid ∧
    ¬((∀ a, Covered (merge [⟨0xfffff000#32,0xffffffff#32⟩] ⟨0#32,0xfff#32⟩) a ↔
        Covered [⟨0xfffff000#32,0xffffffff#32⟩] a ∨ a∈(⟨0#32,0xfff#32⟩ : AddressRange 32)) ∧
      checkConsistency (merge [⟨0xfffff000#32,0xffffffff#32⟩] ⟨0#32,0xfff#32⟩)) := by
  refine ⟨by decide,by decide,fun h => ?_⟩
  have hgap := h.1 0x8000#32
  revert hgap
  decide

end PS3Native.AddressRangeVector
