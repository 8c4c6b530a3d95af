import PS3Native.AddressRange

/-!
# Excluding ranges from a vector

`exclude` walks the slots that were there at the start. A slot that loses its middle keeps its
head; its tail goes to an invalid slot met before, or to the end of the vector, where the loop
does not look again.
-/
namespace PS3Native
open AddressRange List

namespace AddressRangeVector

variable {w : ℕ}

/-- The slots visited so far, the ranges pushed behind the original slots and
`invalid`, against the slots to visit. -/
def excludeLoop (exclusion : AddressRange w) (done pushed : AddressRangeVector w)
    (invalid : Option ℕ) : AddressRangeVector w → AddressRangeVector w
  | [] => done++pushed
  | existing::rest =>
    if !existing.valid then
      excludeLoop exclusion (done++[existing]) pushed (some done.length) rest
    else if !existing.overlaps exclusion then
      excludeLoop exclusion (done++[existing]) pushed invalid rest
    else
      let headExcluded := exclusion.overlapsAddress existing.start
      let tailExcluded := exclusion.overlapsAddress existing.last
      if headExcluded && tailExcluded then
        excludeLoop exclusion (done++[existing.invalidate]) pushed (some done.length) rest
      else if headExcluded then
        excludeLoop exclusion (done++[{existing with start := exclusion.nextAddress}])
          pushed invalid rest
      else if tailExcluded then
        excludeLoop exclusion (done++[{existing with last := exclusion.prevAddress}])
          pushed invalid rest
      else match invalid with
        | some i => excludeLoop exclusion
            (done.set i ⟨exclusion.nextAddress,existing.last⟩ ++
              [{existing with last := exclusion.prevAddress}]) pushed none rest
        | none => excludeLoop exclusion (done++[{existing with last := exclusion.prevAddress}])
            (pushed++[startEnd exclusion.nextAddress existing.last]) none rest

def exclude (data : AddressRangeVector w) (exclusion : AddressRange w) : AddressRangeVector w :=
  if !exclusion.valid then data else excludeLoop exclusion [] [] none data

def excludeAll (data other : AddressRangeVector w) : AddressRangeVector w :=
  other.foldl exclude data

def overlaps (data : AddressRangeVector w) (range : AddressRange w) : Bool :=
  data.any (fun cur => cur.valid && cur.overlaps range)

def overlapsAny (data other : AddressRangeVector w) : Bool :=
  data.any (fun rng₁ => rng₁.valid && other.any (fun rng₂ => rng₂.valid && rng₁.overlaps rng₂))

def validEntries (data : AddressRangeVector w) : AddressRangeVector w :=
  data.filter (·.valid)

def remnants (exclusion existing : AddressRange w) : AddressRangeVector w :=
  if !existing.valid then []
  else if !existing.overlaps exclusion then [existing]
  else
    (if exclusion.overlapsAddress existing.start then []
      else [⟨existing.start,exclusion.prevAddress⟩]) ++
    (if exclusion.overlapsAddress existing.last then []
      else [⟨exclusion.nextAddress,existing.last⟩])

theorem covered_validEntries (data : AddressRangeVector w) (a : BitVec w) :
    Covered (validEntries data) a ↔ Covered data a := by
  simp only [Covered,validEntries,mem_filter]
  constructor
  · rintro ⟨e,⟨he,-⟩,hv,ha⟩
    exact ⟨e,he,hv,ha⟩
  · rintro ⟨e,he,hv,ha⟩
    exact ⟨e,⟨he,hv⟩,hv,ha⟩

theorem Covered.of_perm {xs ys : AddressRangeVector w} (h : xs.Perm ys) (a : BitVec w) :
    Covered xs a ↔ Covered ys a := by
  simp only [Covered,h.mem_iff]

section Remnants

variable {x e p : AddressRange w}

private theorem head_eq (hov : e.overlaps x) (hhead : x.overlapsAddress e.start=false) :
    e.start.toNat < x.start.toNat ∧ x.prevAddress.toNat = x.start.toNat-1 := by
  rw [← Bool.not_eq_true,overlapsAddress_iff,mem_iff] at hhead
  rw [overlaps_iff] at hov
  have hlt : e.start.toNat < x.start.toNat := by omega
  refine ⟨hlt,?_⟩
  rw [toNat_prevAddress,if_neg]
  intro h
  simp [h] at hlt

private theorem tail_eq (hov : e.overlaps x) (htail : x.overlapsAddress e.last=false) :
    x.last.toNat < e.last.toNat ∧ x.nextAddress.toNat = x.last.toNat+1 := by
  rw [← Bool.not_eq_true,overlapsAddress_iff,mem_iff] at htail
  rw [overlaps_iff] at hov
  have hlt : x.last.toNat < e.last.toNat := by omega
  refine ⟨hlt,?_⟩
  rw [toNat_nextAddress,if_neg]
  intro h
  rw [h,toNat_umax] at hlt
  omega

/-- The three shapes of a remnant: the entry itself, its head or its tail. -/
theorem mem_remnants (hp : p∈remnants x e) : e.valid ∧ p.valid ∧ ((p=e ∧ e.overlaps x=false) ∨
      (e.overlaps x ∧ p.start=e.start ∧ p.last.toNat+1=x.start.toNat ∧
        p.last.toNat < e.last.toNat) ∨
      (e.overlaps x ∧ p.last=e.last ∧ p.start.toNat = x.last.toNat+1 ∧
        e.start.toNat < p.start.toNat)) := by
  have hshape : e.valid ∧ ((p=e ∧ e.overlaps x=false) ∨ (e.overlaps x ∧
      ((x.overlapsAddress e.start=false ∧ p = ⟨e.start,x.prevAddress⟩) ∨
        (x.overlapsAddress e.last=false ∧ p = ⟨x.nextAddress,e.last⟩)))) := by
    unfold remnants at hp
    split_ifs at hp <;> simp_all
  obtain ⟨hv,⟨rfl,hov⟩ | ⟨hov,⟨hhead,rfl⟩ | ⟨htail,rfl⟩⟩⟩ := hshape
  · exact ⟨hv,hv,.inl ⟨rfl,hov⟩⟩
  · obtain ⟨hlt,hprev⟩ := head_eq hov hhead
    have hov' := overlaps_iff.mp hov
    refine ⟨hv,valid_iff.mpr ?_,.inr (.inl ⟨hov,rfl,?_,?_⟩)⟩ <;>
      simp only [hprev] <;> omega
  · obtain ⟨hlt,hnext⟩ := tail_eq hov htail
    have hov' := overlaps_iff.mp hov
    refine ⟨hv,valid_iff.mpr ?_,.inr (.inr ⟨hov,rfl,hnext,?_⟩)⟩ <;>
      simp only [hnext] <;> omega

theorem covered_remnants (a : BitVec w) : Covered (remnants x e) a ↔ (e.valid ∧ a∈e) ∧ a∉x := by
  constructor
  · rintro ⟨p,hp,-,ha⟩
    obtain ⟨hv,-,hshape⟩ := mem_remnants hp
    have hev := valid_iff.mp hv
    rw [mem_iff] at ha
    rw [mem_iff,mem_iff]
    rcases hshape with ⟨rfl,hov⟩ | ⟨hov,hs,hl,hlt⟩ | ⟨hov,hl,hs,hlt⟩
    · rw [← Bool.not_eq_true,overlaps_iff] at hov
      exact ⟨⟨hv,ha⟩,by omega⟩
    · rw [hs] at ha
      exact ⟨⟨hv,by omega⟩,by omega⟩
    · rw [hl] at ha
      exact ⟨⟨hv,by omega⟩,by omega⟩
  · rintro ⟨⟨hv,ha⟩,hax⟩
    have hmem := mem_iff.mp ha
    rw [mem_iff] at hax
    cases hov : e.overlaps x with
    | false => exact ⟨e,by simp [remnants,hv,hov],hv,ha⟩
    | true =>
      by_cases hlt : a.toNat < x.start.toNat
      · have hhead : x.overlapsAddress e.start=false := by
          rw [← Bool.not_eq_true,overlapsAddress_iff,mem_iff]
          omega
        obtain ⟨-,hprev⟩ := head_eq hov hhead
        have hin : a∈(⟨e.start,x.prevAddress⟩ : AddressRange w) :=
          mem_iff.mpr ⟨hmem.1,by simp only [hprev]; omega⟩
        exact ⟨_,by simp [remnants,hv,hov,hhead],valid_iff_nonempty.mpr ⟨a,hin⟩,hin⟩
      · have htail : x.overlapsAddress e.last=false := by
          rw [← Bool.not_eq_true,overlapsAddress_iff,mem_iff]
          omega
        obtain ⟨-,hnext⟩ := tail_eq hov htail
        have hin : a∈(⟨x.nextAddress,e.last⟩ : AddressRange w) :=
          mem_iff.mpr ⟨by simp only [hnext]; omega,hmem.2⟩
        exact ⟨_,by simp [remnants,hv,hov,htail],valid_iff_nonempty.mpr ⟨a,hin⟩,hin⟩

theorem inside_of_mem_remnants (hp : p∈remnants x e) : p.inside e := by
  obtain ⟨-,hv,-⟩ := mem_remnants hp
  rw [inside_iff_subset hv]
  intro a ha
  exact ((covered_remnants a).mp ⟨p,hp,hv,ha⟩).1.2

end Remnants

@[simp] theorem validEntries_append (xs ys : AddressRangeVector w) :
    validEntries (xs++ys) = validEntries xs++validEntries ys := filter_append ..

@[simp] theorem validEntries_singleton_of_valid {e : AddressRange w} (he : e.valid) :
    validEntries [e] = [e] := by
  simp [validEntries,he]

@[simp] theorem validEntries_singleton_of_not_valid {e : AddressRange w} (he : e.valid=false) :
    validEntries [e]=[] := by
  simp [validEntries,he]

variable {data : AddressRangeVector w} {r s : AddressRange w}

theorem validEntries_set {i : ℕ} {e t : AddressRange w} (hi : data[i]? = some e)
    (he : e.valid=false) (ht : t.valid) :
    (validEntries (data.set i t)).Perm (t::validEntries data) := by
  induction data generalizing i with
  | nil => simp at hi
  | cons d data ih =>
    cases i with
    | zero =>
      obtain rfl : d=e := by simpa using hi
      simp [validEntries,he,ht]
    | succ i =>
      have hperm := ih (by simpa using hi)
      cases hd : d.valid with
      | false => simpa [validEntries,hd] using hperm
      | true =>
        have hcons := hperm.cons d
        simpa [validEntries,hd] using hcons.trans (.swap t d _)

/-- A slot that is settled moves its remnants behind the pushed ranges. -/
private theorem perm_settle (ts done hs pushed us rest : AddressRangeVector w) :
    (ts++done++hs++(pushed++us)++rest).Perm (done++pushed++(hs++ts++us++rest)) := by
  rw [perm_iff_count]
  intro a
  simp only [count_append]
  omega

variable {x : AddressRange w}

/-- The valid entries at the end of the loop are those already settled and what
the remaining slots leave. -/
theorem excludeLoop_perm (hw : w≠0) (done pushed rest : AddressRangeVector w) (invalid : Option ℕ)
    (hinv : ∀ i, invalid = some i → ∃ e, done[i]? = some e ∧ e.valid=false) :
    (validEntries (excludeLoop x done pushed invalid rest)).Perm
      (validEntries done++validEntries pushed++rest.flatMap (remnants x)) := by
  induction rest generalizing done pushed invalid with
  | nil => simp [excludeLoop]
  | cons e rest ih =>
    rw [flatMap_cons]
    generalize htarget : validEntries done++validEntries pushed ++
      (remnants x e++rest.flatMap (remnants x))=target
    have hsettle := fun ts hs us => perm_settle ts (validEntries done) hs (validEntries pushed) us
      (rest.flatMap (remnants x))
    have hdead : ∀ p, p.valid=false → remnants x e=[] →
        (validEntries (excludeLoop x (done++[p]) pushed (some done.length) rest)).Perm target := by
      intro p hp hrem
      have hrest := ih (done++[p]) pushed (some done.length) (by rintro i ⟨⟩; exact ⟨p,by simp,hp⟩)
      simpa [← htarget,hp,hrem] using hrest
    have hkeep : ∀ p, p.valid → remnants x e = [p] →
        (validEntries (excludeLoop x (done++[p]) pushed invalid rest)).Perm target := by
      intro p hp hrem
      have hrest := ih (done++[p]) pushed invalid fun i hi => by
        obtain ⟨e,he,hv⟩ := hinv i hi
        obtain ⟨hlt,-⟩ := List.getElem?_eq_some_iff.mp he
        exact ⟨e,by rw [getElem?_append_left hlt,he],hv⟩
      rw [validEntries_append,validEntries_singleton_of_valid hp] at hrest
      rw [← htarget,hrem]
      exact hrest.trans (by simpa using hsettle [] [p] [])
    have hpiece : ∀ p∈remnants x e, p.valid := fun p hp => (mem_remnants hp).2.1
    cases hv : e.valid with
    | false => simpa [excludeLoop,hv] using hdead e hv (by simp [remnants,hv])
    | true =>
      cases hov : e.overlaps x with
      | false => simpa [excludeLoop,hv,hov] using hkeep e hv (by simp [remnants,hv,hov])
      | true =>
        cases hhead : x.overlapsAddress e.start <;> cases htail : x.overlapsAddress e.last <;>
          simp only [remnants,hv,hov,hhead,htail,Bool.not_true,Bool.false_eq_true,if_true,
            if_false,append_nil,nil_append,singleton_append,mem_cons,not_mem_nil,or_false,
            forall_eq_or_imp,forall_eq] at hdead hkeep hpiece htarget
        · obtain ⟨hh,ht⟩ := hpiece
          rw [← htarget]
          cases invalid with
          | none =>
            have hrest := ih (done++[⟨e.start,x.prevAddress⟩])
              (pushed++[⟨x.nextAddress,e.last⟩]) none (by simp)
            rw [validEntries_append,validEntries_append,validEntries_singleton_of_valid hh,
              validEntries_singleton_of_valid ht] at hrest
            simpa [excludeLoop,startEnd,hv,hov,hhead,htail] using hrest.trans (hsettle [] [_] [_])
          | some i =>
            obtain ⟨d,hd,hdv⟩ := hinv i rfl
            have hrest := ih (done.set i ⟨x.nextAddress,e.last⟩++[⟨e.start,x.prevAddress⟩])
              pushed none (by simp)
            rw [validEntries_append,validEntries_singleton_of_valid hh] at hrest
            have hset := validEntries_set hd hdv ht
            have hperm := hsettle [⟨x.nextAddress,e.last⟩] [⟨e.start,x.prevAddress⟩] []
            rw [append_nil] at hperm
            simpa [excludeLoop,hv,hov,hhead,htail] using
              (hrest.trans (((hset.append_right _).append_right _).append_right _)).trans hperm
        · simpa [excludeLoop,hv,hov,hhead,htail] using hkeep _ hpiece rfl
        · simpa [excludeLoop,hv,hov,hhead,htail] using hkeep _ hpiece rfl
        · simpa [excludeLoop,hv,hov,hhead,htail] using hdead _ (e.invalidate_valid hw) trivial

theorem exclude_perm (hw : w≠0) (hx : x.valid) (data : AddressRangeVector w) :
    (validEntries (exclude data x)).Perm (data.flatMap (remnants x)) := by
  have hperm := excludeLoop_perm (x := x) hw [] [] data none (by simp)
  simpa [exclude,hx,validEntries] using hperm

theorem covered_flatMap (f : AddressRange w → AddressRangeVector w) (data : AddressRangeVector w)
    (a : BitVec w) : Covered (data.flatMap f) a ↔ ∃ e∈data, Covered (f e) a := by
  induction data with
  | nil => simp
  | cons e data ih => simp [ih]

theorem covered_exclude (hw : w≠0) (hx : x.valid) (data : AddressRangeVector w)
    (a : BitVec w) : Covered (exclude data x) a ↔ Covered data a ∧ a∉x := by
  rw [← covered_validEntries,Covered.of_perm (exclude_perm hw hx data),covered_flatMap]
  simp only [covered_remnants]
  constructor
  · rintro ⟨e,he,h,ha⟩
    exact ⟨⟨e,he,h⟩,ha⟩
  · rintro ⟨⟨e,he,h⟩,ha⟩
    exact ⟨e,he,h,ha⟩

theorem exclude_of_not_valid (hx : x.valid=false) (data : AddressRangeVector w) :
    exclude data x=data := by
  simp [exclude,hx]

/-! ### Consistency

Splitting an entry keeps the pieces apart in the integers. What it may lose is
the clause of `touches` that joins the two ends of the address space. -/

def Separated (data : AddressRangeVector w) : Prop :=
  data.Pairwise (fun r s => r.valid=true → s.valid=true → ¬r.Adjoins s)

theorem not_adjoins_symm (h : ¬r.Adjoins s) : ¬s.Adjoins r := by
  simp only [Adjoins] at h ⊢
  omega

theorem Separated.forall (h : Separated data) (hr : r∈data) (hs : s∈data) (hrv : r.valid)
    (hsv : s.valid) (hne : r≠s) : ¬r.Adjoins s := by
  have hsymm : Std.Symm (fun r s : AddressRange w =>
      r.valid → s.valid → ¬r.Adjoins s) :=
    ⟨fun _ _ h hs hr => not_adjoins_symm (h hr hs)⟩
  exact List.Pairwise.forall h hr hs hne hrv hsv

theorem separated_of_consistent (h : data.Pairwise Apart) : Separated data := by
  refine h.imp ?_
  intro r s hrs hr hs hadj
  have hnot := hrs hr hs
  rw [(touches_iff hr hs).mpr (.inl hadj)] at hnot
  cases hnot

theorem remnants_separated (hx : x.valid) (e : AddressRange w) :
    (remnants x e).Pairwise (fun r s => ¬r.Adjoins s) := by
  have hxv := valid_iff.mp hx
  unfold remnants
  split_ifs with hv hov hhead htail htail
  · exact List.Pairwise.nil
  · exact pairwise_singleton ..
  · exact List.Pairwise.nil
  · exact pairwise_singleton ..
  · exact pairwise_singleton ..
  · simp only [Bool.not_eq_eq_eq_not,Bool.not_true,Bool.not_eq_false] at hov
    obtain ⟨hlt,hprev⟩ := head_eq hov (by simpa using hhead)
    obtain ⟨hgt,hnext⟩ := tail_eq hov (by simpa using htail)
    rw [singleton_append,pairwise_pair]
    simp only [Adjoins,hprev,hnext]
    omega

theorem Separated.exclude (hw : w≠0) (h : Separated data) (x : AddressRange w) :
    Separated (data.exclude x) := by
  cases hx : x.valid with
  | false => rwa [exclude_of_not_valid hx]
  | true =>
    rw [Separated,← pairwise_filter]
    rw [← validEntries,(exclude_perm hw hx data).pairwise_iff not_adjoins_symm, pairwise_flatMap]
    refine ⟨fun e _ => remnants_separated hx e,List.Pairwise.imp ?_ h⟩
    intro r s hrs p hp q hq hadj
    have hpr := inside_of_mem_remnants hp
    have hqs := inside_of_mem_remnants hq
    refine hrs (mem_remnants hp).1 (mem_remnants hq).1 ?_
    rw [inside_iff] at hpr hqs
    simp only [Adjoins] at hadj ⊢
    omega

/-- Two separated entries at the two ends of the address space leave a gap. -/
theorem covers_ends (h : Separated data) (hr : r∈data) (hs : s∈data) (hrv : r.valid)
    (hsv : s.valid) (h0 : r.start = 0#w) (htop : s.last = umax w) (hrs : ¬r.Adjoins s) :
    Covered data 0#w ∧ Covered data (umax w) ∧ ∃ a, ¬Covered data a := by
  have hrn := valid_iff.mp hrv
  have hsn := valid_iff.mp hsv
  have hr0 : r.start.toNat=0 := by simp [h0]
  simp only [Adjoins] at hrs
  refine ⟨⟨r,hr,hrv,mem_iff.mpr ⟨by simp [h0],by simp⟩⟩,
    ⟨s,hs,hsv,mem_iff.mpr ⟨htop ▸ hsn,by rw [htop]⟩⟩,BitVec.ofNat w (r.last.toNat+1),?_⟩
  rintro ⟨g,hg,hgv,ha⟩
  rw [mem_iff,BitVec.toNat_ofNat,Nat.mod_eq_of_lt (by omega)] at ha
  by_cases hgr : g=r
  · subst hgr
    omega
  · have hadj := h.forall hg hr hgv hrv hgr
    simp only [Adjoins] at hadj
    omega

/-- A separated vector is inconsistent exactly when it covers both ends of the
address space with a gap in between. -/
theorem checkConsistency_iff_of_separated (h : Separated data) : checkConsistency data ↔
      ¬(Covered data 0#w ∧ Covered data (umax w) ∧ ∃ a, ¬Covered data a) := by
  rw [checkConsistency_iff]
  constructor
  · rintro hc ⟨⟨e,he,hev,h0⟩,⟨f,hf,hfv,htop⟩,a,ha⟩
    rw [mem_iff] at h0 htop
    have hfl := f.last.isLt
    have hal := a.isLt
    simp only [toNat_umax,BitVec.toNat_ofNat,Nat.zero_mod] at h0 htop
    by_cases hef : e=f
    · subst hef
      exact ha ⟨e,he,hev,mem_iff.mpr ⟨by omega,by omega⟩⟩
    · have hnot := hc.forall he hf hef hev hfv
      rw [(touches_iff hev hfv).mpr (.inr (.inr ⟨?_,?_⟩))] at hnot
      · cases hnot
      · apply BitVec.eq_of_toNat_eq
        rw [toNat_umax]
        omega
      · apply BitVec.eq_of_toNat_eq
        simp only [BitVec.toNat_ofNat,Nat.zero_mod]
        omega
  · intro hends
    refine List.Pairwise.imp_of_mem ?_ h
    intro r s hr hs hrs hrv hsv
    rw [← Bool.not_eq_true,touches_iff hrv hsv,not_or]
    refine ⟨hrs hrv hsv,?_⟩
    rintro (⟨hl,hs0⟩ | ⟨hl,hs0⟩)
    · exact hends (covers_ends h hs hr hsv hrv hs0 hl (not_adjoins_symm (hrs hrv hsv)))
    · exact hends (covers_ends h hr hs hrv hsv hs0 hl (hrs hrv hsv))

theorem covered_of_ends (hc : checkConsistency data) (h0 : Covered data 0#w)
    (htop : Covered data (umax w)) (a : BitVec w) : Covered data a := by
  have hsep := separated_of_consistent ((checkConsistency_iff data).mp hc)
  by_contra ha
  exact (checkConsistency_iff_of_separated hsep).mp hc ⟨h0,htop,a,ha⟩

theorem Separated.excludeAll (hw : w≠0) (h : Separated data) (other : AddressRangeVector w) :
    Separated (data.excludeAll other) := by
  induction other generalizing data with
  | nil => exact h
  | cons x other ih => exact ih (h.exclude hw x)

theorem covered_excludeAll (hw : w≠0) (data other : AddressRangeVector w) (a : BitVec w) :
    Covered (excludeAll data other) a ↔ Covered data a ∧ ¬Covered other a := by
  induction other generalizing data with
  | nil => simp [excludeAll]
  | cons x other ih =>
    have hstep := ih (exclude data x)
    rw [excludeAll,foldl_cons]
    rw [excludeAll] at hstep
    rw [hstep]
    cases hx : x.valid with
    | false => simp [exclude_of_not_valid hx,hx]
    | true => simp [covered_exclude hw hx,hx,and_assoc]

theorem overlaps_iff_covered (data : AddressRangeVector w) (hx : x.valid) :
    overlaps data x ↔ ∃ a, Covered data a ∧ a∈x := by
  simp only [overlaps,any_eq_true,Bool.and_eq_true]
  constructor
  · rintro ⟨e,he,hv,hov⟩
    obtain ⟨a,hae,hax⟩ := (overlaps_iff_exists hv hx).mp hov
    exact ⟨a,⟨e,he,hv,hae⟩,hax⟩
  · rintro ⟨a,⟨e,he,hv,hae⟩,hax⟩
    exact ⟨e,he,hv,(overlaps_iff_exists hv hx).mpr ⟨a,hae,hax⟩⟩

theorem overlapsAny_iff_covered (data other : AddressRangeVector w) :
    overlapsAny data other ↔ ∃ a, Covered data a ∧ Covered other a := by
  simp only [overlapsAny,any_eq_true,Bool.and_eq_true]
  constructor
  · rintro ⟨e,he,hv,f,hf,hfv,hov⟩
    obtain ⟨a,hae,haf⟩ := (overlaps_iff_exists hv hfv).mp hov
    exact ⟨a,⟨e,he,hv,hae⟩,⟨f,hf,hfv,haf⟩⟩
  · rintro ⟨a,⟨e,he,hv,hae⟩,⟨f,hf,hfv,haf⟩⟩
    exact ⟨e,he,hv,f,hf,hfv,(overlaps_iff_exists hv hfv).mpr ⟨a,hae,haf⟩⟩

/-- A separated difference of a consistent vector is inconsistent exactly when the
vector covered everything and something was removed, but neither end. -/
theorem checkConsistency_difference_iff {result : AddressRangeVector w} {out : BitVec w → Prop}
    (hc : checkConsistency data) (hsep : Separated result)
    (hcov : ∀ a, Covered result a ↔ Covered data a ∧ ¬out a) :
    checkConsistency result ↔
      ¬((∀ a, Covered data a) ∧ (∃ a, out a) ∧ ¬out 0#w ∧ ¬out (umax w)) := by
  rw [checkConsistency_iff_of_separated hsep]
  simp only [hcov]
  apply not_congr
  constructor
  · rintro ⟨⟨h0,hn0⟩,⟨htop,hntop⟩,a,ha⟩
    have hall := covered_of_ends hc h0 htop
    refine ⟨hall,⟨a,?_⟩,hn0,hntop⟩
    by_contra hout
    exact ha ⟨hall a,hout⟩
  · rintro ⟨hall,⟨a,ha⟩,hn0,hntop⟩
    exact ⟨⟨hall _,hn0⟩,⟨hall _,hntop⟩,a,fun h => h.2 ha⟩

/-- `exclude` of a range, and of a vector in any order, is set difference and keeps
the vector consistent, exactly when it does not cut the full address space into
two pieces that still hold both of its ends. -/
theorem exclude_difference_iff (hw : w≠0) (data : AddressRangeVector w)
    (hc : checkConsistency data) :
    (∀ x : AddressRange w, x.valid → (((∀ a, Covered (exclude data x) a ↔ Covered data a ∧ a∉x) ∧
          overlaps (exclude data x) x=false ∧ checkConsistency (exclude data x)) ↔
        ¬((∀ a, Covered data a) ∧ 0#w∉x ∧ umax w∉x))) ∧
    ∀ other order : AddressRangeVector w, order.Perm other →
      (((∀ a, Covered (excludeAll data order) a ↔ Covered data a ∧ ¬Covered other a) ∧
          overlapsAny (excludeAll data order) other=false ∧
          checkConsistency (excludeAll data order)) ↔
        ¬((∀ a, Covered data a) ∧ (∃ a, Covered other a) ∧
          ¬Covered other 0#w ∧ ¬Covered other (umax w))) := by
  have hsep := separated_of_consistent ((checkConsistency_iff data).mp hc)
  constructor
  · intro x hx
    have hcov := covered_exclude hw hx data
    have hout : overlaps (exclude data x) x=false := by
      rw [← Bool.not_eq_true,overlaps_iff_covered _ hx]
      rintro ⟨a,ha,hax⟩
      exact ((hcov a).mp ha).2 hax
    have hcons := checkConsistency_difference_iff hc (hsep.exclude hw x) hcov
    have hex : ∃ a, a∈x := valid_iff_nonempty.mp hx
    simp only [hex,true_and] at hcons
    rw [← hcons]
    exact ⟨fun h => h.2.2,fun h => ⟨hcov,hout,h⟩⟩
  · intro other order hperm
    have hcov : ∀ a, Covered (excludeAll data order) a ↔ Covered data a ∧ ¬Covered other a := by
      intro a
      rw [covered_excludeAll hw,Covered.of_perm hperm]
    have hout : overlapsAny (excludeAll data order) other=false := by
      rw [← Bool.not_eq_true,overlapsAny_iff_covered]
      rintro ⟨a,ha,hao⟩
      exact ((hcov a).mp ha).2 hao
    rw [← checkConsistency_difference_iff hc (hsep.excludeAll hw order) hcov]
    exact ⟨fun h => h.2.2,fun h => ⟨hcov,hout,h⟩⟩

/-- Cutting a page out of the middle of an entry. -/
theorem exclude_difference_page :
    (∀ a, Covered (exclude [{},⟨0x1000#32,0x3fff#32⟩] ⟨0x2000#32,0x2fff#32⟩) a ↔
      Covered [{},⟨0x1000#32,0x3fff#32⟩] a ∧ a∉(⟨0x2000#32,0x2fff#32⟩ : AddressRange 32)) ∧
    overlaps (exclude [{},⟨0x1000#32,0x3fff#32⟩] ⟨0x2000#32,0x2fff#32⟩)
      (⟨0x2000#32,0x2fff#32⟩ : AddressRange 32)=false ∧
    checkConsistency
      (exclude [{},⟨0x1000#32,0x3fff#32⟩] (⟨0x2000#32,0x2fff#32⟩ : AddressRange 32)) := by
  refine ((exclude_difference_iff (by decide) _ (by decide)).1 _ (by decide)).mpr ?_
  rintro ⟨hall,-,-⟩
  have h0 := hall 0#32
  revert h0
  decide

/-- One page cut out of the full address space leaves two entries that `touches`
joins across the wrap-around. -/
theorem exclude_full_space_inconsistent :
    checkConsistency [(⟨0#32,0xffffffff#32⟩ : AddressRange 32)] ∧
    (⟨0x1000#32,0x1fff#32⟩ : AddressRange 32).valid ∧
    exclude [⟨0#32,0xffffffff#32⟩] (⟨0x1000#32,0x1fff#32⟩ : AddressRange 32) =
      [⟨0#32,0xfff#32⟩,⟨0x2000#32,0xffffffff#32⟩] ∧
    checkConsistency
      (exclude [⟨0#32,0xffffffff#32⟩] (⟨0x1000#32,0x1fff#32⟩ : AddressRange 32))=false := by
  decide

end AddressRangeVector
end PS3Native
