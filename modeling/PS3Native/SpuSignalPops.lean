import PS3Native.SpuSignalSteps

/-!
# The steps of the SPU and whole runs

The SPU takes the value of a full channel, or shows that it waits and takes the value that is
handed to it.
-/
namespace PS3Native.SpuSignal

open SpuChannel Schedule List

variable {τ : Type*} [DecidableEq τ] {s s' : State τ} {t u : τ}

def SpuLoc.Quiet : SpuLoc → Prop
  | .idle | .load | .update _ | .exchange _ => True
  | _ => False

variable {l : SpuLoc}

theorem SpuLoc.Quiet.not_waits (h : l.Quiet) : ¬l.Waits := by
  cases l <;> first | exact id | exact fun _ => h

theorem SpuLoc.Quiet.handed (h : l.Quiet) (j : Jostling) : handed l j=none := by
  cases l <;> first | rfl | exact h.elim

theorem handed_congr {l' : SpuLoc} (h : l.Waits) (h' : l'.Waits) (j : Jostling) :
    handed l j = handed l' j := by
  cases j with
  | occupy => rw [handed_occupy,handed_occupy]
  | value v => rw [handed_of_waits h,handed_of_waits h']

section

variable (h : Inv s)

include h

theorem Inv.no_claim (hspu : ¬s.spu.Waits) (u : τ) (p : Push) (old : Data) :
    s.loc u≠.release p old := fun hu => hspu (h.waits (h.claim u p old hu).1)

/-- A step of the SPU outside the wait, which may arm the word. -/
theorem Inv.quiet (hspu : s.spu.Quiet) (l : SpuLoc) (j : Jostling) (hl : l.Quiet)
    (hfits : SpuFits {s with spu := l, jostlingValue := j} l) :
    Inv {s with spu := l, jostlingValue := j} where
  __ := h
  waits hdata := absurd (h.waits hdata) hspu.not_waits
  spuFits := hfits
  claim u p old hu := absurd hu (h.no_claim hspu.not_waits u p old)
  claimed hdata := absurd (h.waits hdata) hspu.not_waits
  awake hasleep := by
    change l = .asleep at hasleep
    rw [hasleep] at hl
    exact hl.elim
  groups := by
    have hgroups := h.groups
    rw [hspu.handed] at hgroups
    change _ = s.results++(SpuSignal.handed l j).toList
    rw [hl.handed]
    exact hgroups

theorem Inv.popFull (hspu : s.spu.Quiet) (hcount : s.data.count) : Inv (State.popped { s with
      data := popWaitUpdate s.data
      groups := s.groups++[s.since]
      since := [] } s.data.value) := by
  have hzero : popWaitUpdate s.data = .zero := by
    rw [popWaitUpdate,if_pos hcount]
  obtain ⟨hsince,hcombine⟩ := h.full hcount
  exact { h with
      shape := .inl hzero
      full := fun hfull => by
        rw [hzero] at hfull
        cases hfull
      empty := fun _ => rfl
      waits := fun hdata => by
        rw [hzero] at hdata
        cases hdata
      spuFits := trivial
      claim := fun u p old hu => absurd hu (h.no_claim hspu.not_waits u p old)
      claimed := fun hdata => by
        rw [hzero] at hdata
        cases hdata
      awake := fun hasleep => by cases hasleep
      groups := by
        have hgroups := h.groups
        rw [hspu.handed] at hgroups
        change (s.groups++[s.since]).map combine = s.results++[s.data.value]++[]
        rw [map_append,hgroups,← hcombine]
        simp
      nonempty := by
        intro g hg
        rcases mem_append.1 hg with hg | hg
        · exact h.nonempty g hg
        · rw [mem_singleton.1 hg]
          exact hsince
      history := by
        intro u
        have hu := h.history u
        change entriesOf u ((s.groups++[s.since]).flatten++[]) = _
        rw [append_nil,flatten_append,flatten_singleton]
        exact hu }

theorem Inv.startWait (hspu : s.spu = .exchange s.data) (hcount : s.data.count=false) :
    Inv {s with data := popWaitUpdate s.data, spu := .check 9} := by
  have hquiet : s.spu.Quiet := by
    rw [hspu]
    trivial
  have hwaiting : popWaitUpdate s.data = .waiting := by
    rw [popWaitUpdate,if_neg (by rw [hcount]; exact Bool.false_ne_true)]
  have harmed : s.jostlingValue=.occupy := by
    have hfits := h.spuFits
    rw [hspu] at hfits
    exact hfits hcount
  exact { h with
      shape := .inr (.inr hwaiting)
      full := fun hfull => by
        rw [hwaiting] at hfull
        cases hfull
      empty := fun _ => h.empty hcount
      waits := fun _ => trivial
      spuFits := .inl hwaiting
      claim := fun u p old hu => absurd hu (h.no_claim hquiet.not_waits u p old)
      claimed := fun _ => .inl harmed
      awake := fun hasleep => by cases hasleep
      groups := by
        have hgroups := h.groups
        rw [hquiet.handed] at hgroups
        rw [harmed]
        exact hgroups }

theorem Inv.keepWait (hspu : s.spu.Waits) (hl : l.Waits) (hasleep : l=.asleep → s.data=.waiting) :
    Inv {s with spu := l} where
  __ := h
  waits _ := hl
  spuFits := (spuFits_of_waits hl).2 ((spuFits_of_waits hspu).1 h.spuFits)
  awake hl := .inl (hasleep hl)
  groups := by
    change _ = s.results++(handed l s.jostlingValue).toList
    rw [handed_congr hl hspu]
    exact h.groups

theorem Inv.seeValue (hspu : s.spu.Waits) (hwait : s.data.wait=false) :
    Inv {s with spu := .take} := by
  have hdata : s.data≠.waiting := by
    intro hdata
    rw [hdata] at hwait
    cases hwait
  obtain ⟨v,hv⟩ := ((spuFits_of_waits hspu).1 h.spuFits).resolve_left hdata
  exact { h with
      waits := fun hwaiting => absurd hwaiting hdata
      spuFits := ⟨v,hv⟩
      awake := fun hasleep => by cases hasleep
      groups := by
        have hgroups := h.groups
        rw [hv,handed_of_waits hspu] at hgroups
        rw [hv]
        exact hgroups }

theorem Inv.takeValue (hspu : s.spu=.take) :
    Inv (State.popped {s with jostlingValue := .value 0} s.jostlingValue.low) := by
  have hnot : ¬s.spu.Waits := by
    rw [hspu]
    exact id
  have hfits := h.spuFits
  rw [hspu] at hfits
  obtain ⟨v,hv⟩ := hfits
  exact { h with
      waits := fun hdata => absurd (h.waits hdata) hnot
      spuFits := trivial
      claim := fun u p old hu => absurd hu (h.no_claim hnot u p old)
      claimed := fun hdata => absurd (h.waits hdata) hnot
      awake := fun hasleep => by cases hasleep
      groups := by
        have hgroups := h.groups
        rw [hspu,hv] at hgroups
        change _ = s.results++[s.jostlingValue.low]++[]
        rw [hv,append_nil]
        exact hgroups }

theorem Inv.advanceSpu (hadv : advanceSpu s = some s') : Inv s' := by
  rw [SpuSignal.advanceSpu] at hadv
  split at hadv
  · next hspu =>
    cases hadv
    exact h.quiet (hspu ▸ trivial) .load s.jostlingValue trivial trivial
  · next hspu =>
    cases hadv
    exact h.quiet (hspu ▸ trivial) (.update s.data) s.jostlingValue trivial trivial
  · next old hspu =>
    split at hadv
    · next hcount =>
      cases hadv
      refine h.quiet (hspu ▸ trivial) (.exchange old) s.jostlingValue trivial fun hzero => ?_
      rw [hcount] at hzero
      cases hzero
    · cases hadv
      exact h.quiet (hspu ▸ trivial) (.exchange old) .occupy trivial fun _ => rfl
  · next old hspu =>
    split at hadv
    · next hdata =>
      subst hdata
      split at hadv
      · next hcount =>
        cases hadv
        exact h.popFull (hspu ▸ trivial) hcount
      · next hcount =>
        cases hadv
        exact h.startWait hspu (eq_false_of_ne_true hcount)
    · cases hadv
      exact h.quiet (hspu ▸ trivial) (.update s.data) s.jostlingValue trivial trivial
  · next left hspu =>
    split at hadv
    · cases hadv
      refine h.keepWait (hspu ▸ trivial) ?_ fun hasleep => ?_
      · split <;> trivial
      · split at hasleep <;> cases hasleep
    · next hwait =>
      cases hadv
      exact h.seeValue (hspu ▸ trivial) (eq_false_of_ne_true hwait)
  · next hspu =>
    cases hadv
    refine h.keepWait (hspu ▸ trivial) ?_ fun hasleep => ?_
    · split <;> trivial
    · split at hasleep
      · next hwait => exact h.data_of_flag (.inr hwait)
      · cases hasleep
  · cases hadv
  · next hspu =>
    cases hadv
    exact h.takeValue hspu

theorem Inv.advance (htimely : ¬Premature s t) (hadv : advance s t = some s') : Inv s' := by
  rw [SpuSignal.advance] at hadv
  split at hadv
  · cases hadv
  · next p hloc =>
    cases hadv
    obtain ⟨hfits,hmade⟩ := loaded_fits h p
    exact h.go hfits (hloc ▸ rfl) hmade
  · next p old hloc =>
    split at hadv
    · next hdata =>
      subst hdata
      have hoccupy : s.data.occupy=false := by
        have := h.fits t
        rwa [hloc] at this
      obtain ⟨data,hdata,hs'⟩ := Option.map_eq_some_iff.1 hadv
      subst hs'
      have happly : data = .full (p.apply s.data.value) := by
        rw [pushUpdate,if_neg (by rw [hoccupy]; exact Bool.false_ne_true)] at hdata
        unfold Push.apply
        split at hdata
        · next htoOr =>
          cases hdata
          rw [if_pos htoOr]
        · next htoOr =>
          cases hdata
          rw [if_neg htoOr]
      rw [State.pushed,(h.combine_since hoccupy).2,if_neg Bool.false_ne_true,happly]
      exact h.pushData (hloc ▸ rfl) hoccupy
    · cases hadv
      obtain ⟨hfits,hmade⟩ := loaded_fits h p
      exact h.go hfits (hloc ▸ rfl) hmade
  · next p old hloc =>
    split at hadv
    · next hj =>
      cases hadv
      have hwait : s.data.wait := by
        by_contra hwait
        exact htimely ⟨p,old,hloc,hj,eq_false_of_ne_true hwait⟩
      exact h.claimValue hloc hj hwait
    · cases hadv
      exact h.go trivial (hloc ▸ rfl) rfl
  · next p old hloc =>
    have hdata := (h.claim t p old hloc).1
    have hold : old=.waiting := by
      have := h.fits t
      rwa [hloc] at this
    rw [if_pos (by rw [hdata,hold]; exact ⟨rfl,rfl⟩)] at hadv
    cases hadv
    exact h.releaseFlags hloc
  · next p old hloc =>
    cases hadv
    exact h.notifySpu hloc
  · cases hadv

theorem Inv.step (hstep : TimelyStep s s') : Inv s' := by
  cases hstep with
  | call hcall =>
    rw [call] at hcall
    split at hcall
    · next hloc =>
      cases hcall
      exact h.go trivial (hloc ▸ rfl) rfl
    · cases hcall
  | push htimely hadv => exact h.advance htimely hadv
  | spu hadv => exact h.advanceSpu hadv

end

theorem TimelyReachable.inv (h : TimelyReachable s) : Inv s := by
  induction h with
  | refl => exact inv_initial
  | tail _ hstep ih => exact ih.step hstep

end PS3Native.SpuSignal
