import PS3Native.Schedule
import PS3Native.SpuSignal

/-!
# What the steps of a signal channel keep

While the SPU waits, `data` shows it and `jostling_value` is armed until one thread has
claimed it; the claimed value is the next one that `pop_wait` returns. At any other time
the channel is empty or holds what the pushes since the last pop amount to.
-/
namespace PS3Native.SpuSignal
open Function List

open SpuChannel Schedule

variable {τ : Type*} [DecidableEq τ] {s s' : State τ} {t u : τ}

def SpuLoc.Waits : SpuLoc → Prop
  | .check _ | .waitOn | .asleep => True
  | _ => False

def handed : SpuLoc → Jostling → Option UInt32
  | .check _, .value v | .waitOn, .value v | .asleep, .value v | .take, .value v => some v
  | _, _ => none

def SpuFits (s : State τ) : SpuLoc → Prop
  | .exchange old => old.count=false → s.jostlingValue=.occupy
  | .check _ | .waitOn | .asleep => s.data = .waiting ∨ ∃ v, s.jostlingValue = .value v
  | .take => ∃ v, s.jostlingValue = .value v
  | _ => True

def Loc.Fits : Loc → Prop
  | .exchange _ old => old.occupy=false
  | .jostle _ old | .release _ old => old = .waiting
  | .ensureFailed => False
  | _ => True

def Loc.made : Loc → List Push
  | .release p _ | .notify p _ => [p]
  | _ => []

def State.history (s : State τ) : List (τ × Push) := s.groups.flatten++s.since

structure Inv (s : State τ) : Prop where
  shape : s.data=.zero ∨ (∃ v, s.data = .full v) ∨ s.data=.waiting
  full : s.data.count=true → s.since≠[] ∧ combine s.since=s.data.value
  empty : s.data.count=false → s.since=[]
  waits : s.data=.waiting → s.spu.Waits
  spuFits : SpuFits s s.spu
  fits : ∀ t, (s.loc t).Fits
  claim : ∀ t p old, s.loc t = .release p old →
    s.data=.waiting ∧ s.jostlingValue = .value p.value
  unique : ∀ t u p q old old', s.loc t = .release p old → s.loc u = .release q old' → t=u
  claimed : s.data=.waiting → s.jostlingValue=.occupy ∨ ∃ t p old, s.loc t = .release p old
  awake : s.spu=.asleep → s.data=.waiting ∨ ∃ t p old, s.loc t = .notify p old
  groups : s.groups.map combine = s.results++(handed s.spu s.jostlingValue).toList
  nonempty : ∀ g∈s.groups, g≠[]
  history : ∀ t, entriesOf t s.history = s.finished t++(s.loc t).made

theorem inv_initial : Inv (initial τ) where
  shape := .inl rfl
  full h := by cases h
  empty _ := rfl
  waits h := by cases h
  spuFits := trivial
  fits _ := trivial
  claim _ _ _ h := by cases h
  unique _ _ _ _ _ _ h := by cases h
  claimed h := by cases h
  awake h := by cases h
  groups := rfl
  nonempty _ h := absurd h not_mem_nil
  history _ := rfl

theorem Inv.history_go (h : Inv s) {l : Loc} (hmade : (s.loc t).made=l.made) (u : τ) :
    entriesOf u s.history = s.finished u++(update s.loc t l u).made := by
  rw [h.history u]
  by_cases hut : u=t
  · subst hut
    rw [update_self,hmade]
  · rw [update_of_ne hut]

/-- A thread that has not made its push goes on to a place where it has not either. -/
theorem Inv.go (h : Inv s) {l : Loc} (hfits : l.Fits) (hmade : (s.loc t).made=[])
    (hl : l.made=[]) : Inv (s.go t l) := by
  have hother : ∀ u p old, update s.loc t l u = .release p old → s.loc u = .release p old := by
    intro u p old hu
    by_cases hut : u=t
    · subst hut
      rw [update_self] at hu
      rw [hu] at hl
      cases hl
    · rwa [update_of_ne hut] at hu
  have hkeep : ∀ {u l'}, s.loc u=l' → l'.made≠[] → update s.loc t l u=l' := by
    intro u l' hu hne
    rw [update_of_ne,hu]
    rintro rfl
    exact hne (hu ▸ hmade)
  exact { h with
      fits := forall_update (P := Loc.Fits) h.fits hfits
      claim := fun u p old hu => h.claim u p old (hother u p old hu)
      unique := fun u v p q old old' hu hv =>
        h.unique u v p q old old' (hother u p old hu) (hother v q old' hv)
      claimed := fun hdata => (h.claimed hdata).imp_right fun ⟨u,p,old,hu⟩ =>
        ⟨u,p,old,hkeep hu (cons_ne_nil p [])⟩
      awake := fun hspu => (h.awake hspu).imp_right fun ⟨u,p,old,hu⟩ =>
        ⟨u,p,old,hkeep hu (cons_ne_nil p [])⟩
      history := h.history_go (hmade.trans hl.symm) }

omit [DecidableEq τ] in
theorem combine_concat (pushes : List (τ × Push)) (t : τ) (p : Push) :
    combine (pushes++[(t,p)]) = p.apply (combine pushes) := by
  simp [combine]

theorem apply_zero (p : Push) : p.apply 0=p.value := by
  unfold Push.apply
  split <;> simp

theorem Inv.data_of_flag (h : Inv s) (hflag : s.data.occupy ∨ s.data.wait) : s.data=.waiting := by
  rcases h.shape with hdata | ⟨v,hdata⟩ | hdata
  · rw [hdata] at hflag
    cases hflag <;> contradiction
  · rw [hdata] at hflag
    cases hflag <;> contradiction
  · exact hdata

theorem loaded_fits (h : Inv s) (p : Push) : (loaded p s.data).Fits ∧ (loaded p s.data).made=[] := by
  unfold loaded
  split
  · rename_i hoccupy
    exact ⟨h.data_of_flag (.inl hoccupy),rfl⟩
  · rename_i hoccupy
    exact ⟨eq_false_of_ne_true hoccupy,rfl⟩

theorem ne_waiting {data : Data} (hoccupy : data.occupy=false) : data≠.waiting := by
  rintro rfl
  cases hoccupy

/-- The value that the pushes since the last pop amount to is in `data`. -/
theorem Inv.combine_since (h : Inv s) (hoccupy : s.data.occupy=false) :
    combine s.since=s.data.value ∧ s.data.wait=false := by
  rcases h.shape with hdata | ⟨v,hdata⟩ | hdata
  · have hsince := h.empty (by rw [hdata]; rfl)
    rw [hsince,hdata]
    exact ⟨rfl,rfl⟩
  · exact ⟨(h.full (by rw [hdata]; rfl)).2,by rw [hdata]; rfl⟩
  · exact absurd hdata (ne_waiting hoccupy)

variable {p : Push} {old : Data}

theorem Inv.pushData (h : Inv s) (hmade : (s.loc t).made=[]) (hoccupy : s.data.occupy=false) :
    Inv (State.finish { s with
      data := .full (p.apply s.data.value), since := s.since++[(t,p)] } t p) where
  shape := .inr (.inl ⟨_,rfl⟩)
  full _ := by
    refine ⟨by simp [State.finish],?_⟩
    change combine (s.since++[(t,p)]) = p.apply s.data.value
    rw [combine_concat,(h.combine_since hoccupy).1]
  empty hcount := by cases hcount
  waits hdata := by cases hdata
  spuFits := by
    have hfits := h.spuFits
    have hnot := ne_waiting hoccupy
    change SpuFits _ s.spu
    cases hspu : s.spu <;> rw [hspu] at hfits
    · trivial
    · trivial
    · trivial
    · exact hfits
    · exact .inr (hfits.resolve_left hnot)
    · exact .inr (hfits.resolve_left hnot)
    · exact .inr (hfits.resolve_left hnot)
    · exact hfits
  fits := forall_update (P := Loc.Fits) h.fits trivial
  claim u q old hu := absurd (h.claim u q old (of_update (by rintro ⟨⟩) hu).2).1
    (ne_waiting hoccupy)
  unique u v q r old old' hu hv := h.unique u v q r old old'
    (of_update (by rintro ⟨⟩) hu).2 (of_update (by rintro ⟨⟩) hv).2
  claimed hdata := by cases hdata
  awake hspu := by
    obtain ⟨u,q,old,hu⟩ := (h.awake hspu).resolve_left (ne_waiting hoccupy)
    refine .inr ⟨u,q,old,?_⟩
    change update s.loc t .idle u = _
    rw [update_of_ne,hu]
    rintro rfl
    rw [hu] at hmade
    cases hmade
  __ := h
  history u := by
    have hu := h.history u
    change entriesOf u (s.groups.flatten++(s.since++[(t,p)])) =
      update s.finished t (s.finished t++[p]) u++(update s.loc t .idle u).made
    rw [← append_assoc,entriesOf_append]
    change entriesOf u s.history++_ = _
    by_cases hut : u=t
    · subst hut
      rw [hu,hmade,entriesOf_self,update_self,update_self]
      simp [Loc.made]
    · rw [hu,entriesOf_of_ne hut,update_of_ne hut,update_of_ne hut, append_nil]

theorem Inv.since_of_waiting (h : Inv s) (hdata : s.data=.waiting) : s.since=[] :=
  h.empty (by rw [hdata]; rfl)

omit [DecidableEq τ] in
theorem spuFits_of_waits {l : SpuLoc} (h : l.Waits) :
    SpuFits s l ↔ s.data=.waiting ∨ ∃ v, s.jostlingValue = .value v := by
  cases l with
  | check _ | waitOn | asleep => exact Iff.rfl
  | idle | load | update _ | exchange _ | take => exact h.elim

theorem handed_of_waits {l : SpuLoc} (h : l.Waits) (v : UInt32) : handed l (.value v) = some v := by
  cases l with
  | check _ | waitOn | asleep => rfl
  | idle | load | update _ | exchange _ | take => exact h.elim

theorem handed_occupy (l : SpuLoc) : handed l .occupy=none := by
  cases l <;> rfl

def State.claimed (s : State τ) (t : τ) (p : Push) (old : Data) : State τ :=
  State.go { s with
    jostlingValue := .value p.value
    groups := s.groups++[s.since++[(t,p)]]
    since := [] } t (.release p old)

/-- A thread claims the armed word for its value while the SPU waits. -/
theorem Inv.claimValue (h : Inv s) (hloc : s.loc t = .jostle p old) (hj : s.jostlingValue=.occupy)
    (hwait : s.data.wait) : Inv (s.claimed t p old) := by
  have hdata := h.data_of_flag (.inr hwait)
  have hspu := h.waits hdata
  have hsince := h.since_of_waiting hdata
  have hmade : (s.loc t).made=[] := by
    rw [hloc]
    rfl
  have hnone : ∀ u q old', s.loc u≠.release q old' := by
    intro u q old' hu
    cases hj.symm.trans (h.claim u q old' hu).2
  have hold : (Loc.release p old).Fits := by
    have := h.fits t
    rwa [hloc] at this
  unfold State.claimed
  exact { h with
      full := fun hcount => by
        rw [hdata] at hcount
        cases hcount
      empty := fun _ => rfl
      spuFits := (spuFits_of_waits hspu).2 (.inr ⟨_,rfl⟩)
      fits := forall_update (P := Loc.Fits) h.fits hold
      claim := by
        intro u q old' hu
        change update s.loc t (.release p old) u = _ at hu
        by_cases hut : u=t
        · subst hut
          rw [update_self] at hu
          cases hu
          exact ⟨hdata,rfl⟩
        · rw [update_of_ne hut] at hu
          exact absurd hu (hnone u q old')
      unique := by
        have heq : ∀ u q old', update s.loc t (.release p old) u = .release q old' → u=t := by
          intro u q old' hu
          by_contra hut
          rw [update_of_ne hut] at hu
          exact hnone u q old' hu
        intro u v q r old' old'' hu hv
        rw [heq u q old' hu,heq v r old'' hv]
      claimed := fun _ => .inr ⟨t,p,old,update_self ..⟩
      awake := fun _ => .inl hdata
      groups := by
        have hgroups := h.groups
        rw [hj,handed_occupy] at hgroups
        change (s.groups++[s.since++[(t,p)]]).map combine =
          s.results++(handed s.spu (.value p.value)).toList
        rw [handed_of_waits hspu,map_append,hgroups,hsince]
        simp [combine,apply_zero]
      nonempty := by
        intro g hg
        rcases mem_append.1 hg with hg | hg
        · exact h.nonempty g hg
        · rw [mem_singleton.1 hg]
          simp
      history := by
        intro u
        have hu := h.history u
        change entriesOf u ((s.groups++[s.since++[(t,p)]]).flatten++[]) =
          s.finished u++(update s.loc t (.release p old) u).made
        rw [append_nil,flatten_append,flatten_singleton,← append_assoc, entriesOf_append]
        change entriesOf u s.history++_ = _
        by_cases hut : u=t
        · subst hut
          rw [hu,hmade,entriesOf_self,update_self,append_nil]
          rfl
        · rw [hu,entriesOf_of_ne hut,update_of_ne hut,append_nil] }

theorem Inv.releaseFlags (h : Inv s) (hloc : s.loc t = .release p old) :
    Inv (State.go {s with data := s.data.release} t (.notify p old)) := by
  obtain ⟨hdata,hj⟩ := h.claim t p old hloc
  have hspu := h.waits hdata
  have hzero : s.data.release=.zero := by
    rw [hdata]
    rfl
  have hnone : ∀ u q old', update s.loc t (.notify p old) u≠.release q old' := by
    intro u q old' hu
    obtain ⟨hut,hu⟩ := of_update (by rintro ⟨⟩) hu
    exact hut (h.unique u t q p old' old hu hloc)
  exact { h with
      shape := .inl hzero
      full := fun hcount => by
        rw [hzero] at hcount
        cases hcount
      empty := fun _ => h.since_of_waiting hdata
      waits := fun hwaiting => by
        rw [hzero] at hwaiting
        cases hwaiting
      spuFits := (spuFits_of_waits hspu).2 (.inr ⟨_,hj⟩)
      fits := forall_update (P := Loc.Fits) h.fits trivial
      claim := fun u q old' hu => absurd hu (hnone u q old')
      unique := fun u _ q _ old' _ hu => absurd hu (hnone u q old')
      claimed := fun hwaiting => by
        rw [hzero] at hwaiting
        cases hwaiting
      awake := fun _ => .inr ⟨t,p,old,update_self ..⟩
      history := h.history_go (by rw [hloc]; rfl) }

theorem handed_awaken (l : SpuLoc) (j : Jostling) : handed l.awaken j = handed l j := by
  cases l <;> cases j <;> rfl

theorem Inv.notifySpu (h : Inv s) (hloc : s.loc t = .notify p old) :
    Inv (State.finish {s with spu := s.spu.awaken} t p) where
  __ := h
  waits hdata := by
    have hspu := h.waits hdata
    change s.spu.awaken.Waits
    cases hspuLoc : s.spu <;> rw [hspuLoc] at hspu <;> exact hspu
  spuFits := by
    have hfits := h.spuFits
    change SpuFits _ s.spu.awaken
    cases hspu : s.spu <;> rw [hspu] at hfits <;> exact hfits
  fits := forall_update (P := Loc.Fits) h.fits trivial
  claim u q old' hu := h.claim u q old' (of_update (by rintro ⟨⟩) hu).2
  unique u v q r old' old'' hu hv := h.unique u v q r old' old''
    (of_update (by rintro ⟨⟩) hu).2 (of_update (by rintro ⟨⟩) hv).2
  claimed hdata := (h.claimed hdata).imp_right fun ⟨u,q,old',hu⟩ => by
    refine ⟨u,q,old',?_⟩
    change update s.loc t .idle u = _
    rw [update_of_ne,hu]
    rintro rfl
    rw [hu] at hloc
    cases hloc
  awake hspu := by
    change s.spu.awaken = .asleep at hspu
    cases hspuLoc : s.spu <;> rw [hspuLoc] at hspu <;> cases hspu
  groups := by
    change _ = s.results++(handed s.spu.awaken s.jostlingValue).toList
    rw [handed_awaken]
    exact h.groups
  history u := by
    have hu := h.history u
    change entriesOf u s.history =
      update s.finished t (s.finished t++[p]) u++(update s.loc t .idle u).made
    by_cases hut : u=t
    · subst hut
      rw [hu,hloc,update_self,update_self]
      simp [Loc.made]
    · rw [hu,update_of_ne hut,update_of_ne hut]

end PS3Native.SpuSignal
