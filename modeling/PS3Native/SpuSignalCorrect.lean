import PS3Native.SpuSignalPops

/-!
# Signals are neither lost nor stuck

The results are for the runs in which no push claims the armed word before the SPU waits; a push
that does so fails in its next step.
-/
namespace PS3Native.SpuSignal
open Function

open SpuChannel Schedule

variable {τ : Type*} [DecidableEq τ] {s s' : State τ} {t u : τ}

section Alone

def advances (s : State τ) (t : τ) : ℕ → Option (State τ)
  | 0 => some s
  | n+1 => (advance s t).bind fun s => advances s t n

def spuAdvances (s : State τ) : ℕ → Option (State τ)
  | 0 => some s
  | n+1 => (advanceSpu s).bind fun s => spuAdvances s n

def Loc.push? : Loc → Option Push
  | .load p | .exchange p _ | .jostle p _ | .release p _ | .notify p _ => some p
  | _ => none

/-- The thread returns from its push after a number of steps of its own. -/
def Finishes (s : State τ) (t : τ) (p : Push) (n : ℕ) : Prop :=
  ∃ s', advances s t n = some s' ∧ s'.loc t = .idle ∧ s'.finished t = s.finished t++[p]

theorem advances_succ (hadv : advance s t = some s') (n : ℕ) :
    advances s t (n+1) = advances s' t n := by
  rw [advances,hadv]
  rfl

variable {p : Push} {old : Data}

theorem Finishes.step {n : ℕ} (hadv : advance s t = some s') (hfinished : s'.finished=s.finished)
    (h : Finishes s' t p n) : Finishes s t p (n+1) := by
  obtain ⟨s₁,hs₁,hloc,hEq⟩ := h
  exact ⟨s₁,(advances_succ hadv n).trans hs₁,hloc,hfinished ▸ hEq⟩

theorem advance_load (hloc : s.loc t = .load p) :
    advance s t = some (s.go t (loaded p s.data)) := by
  rw [advance,hloc]

theorem advance_jostle (hloc : s.loc t = .jostle p old) (hj : s.jostlingValue=.occupy) :
    advance s t = some (s.claimed t p old) := by
  simp only [advance,hloc,if_pos hj,State.claimed]

theorem advance_release (hloc : s.loc t = .release p old) (hwait : s.data.wait) (hold : old.wait) :
    advance s t = some (State.go {s with data := s.data.release} t (.notify p old)) := by
  simp only [advance,hloc,if_pos (And.intro hwait hold)]

theorem advance_notify (hloc : s.loc t = .notify p old) :
    advance s t = some (State.finish {s with spu := s.spu.awaken} t p) := by
  rw [advance,hloc]

theorem finishes_notify (hloc : s.loc t = .notify p old) : Finishes s t p 1 := by
  refine ⟨State.finish {s with spu := s.spu.awaken} t p,?_,update_self ..,update_self ..⟩
  rw [advances,advance_notify hloc]
  rfl

theorem finishes_release (hloc : s.loc t = .release p old) (hwait : s.data.wait)
    (hold : old.wait) : Finishes s t p 2 := by
  have hnext : (State.go {s with data := s.data.release} t (.notify p old)).loc t = .notify p old :=
    update_self ..
  exact .step (advance_release hloc hwait hold) rfl (finishes_notify hnext)

theorem finishes_jostle (hloc : s.loc t = .jostle p old) (hj : s.jostlingValue=.occupy)
    (hwait : s.data.wait) (hold : old.wait) : Finishes s t p 3 := by
  have hnext : (s.claimed t p old).loc t = .release p old := update_self ..
  exact .step (advance_jostle hloc hj) rfl (finishes_release hnext hwait hold)

theorem finishes_exchange (hloc : s.loc t = .exchange p s.data) (hoccupy : s.data.occupy=false)
    (hwait : s.data.wait=false) : Finishes s t p 1 := by
  have hupdate : ∃ data, pushUpdate p.value p.toOr s.data = some data := by
    unfold pushUpdate
    rw [if_neg (by rw [hoccupy]; exact Bool.false_ne_true)]
    split
    · exact ⟨_,rfl⟩
    · exact ⟨_,rfl⟩
  obtain ⟨data,hdata⟩ := hupdate
  have hadv : advance s t =
      some (State.finish {s with data := data, since := s.since++[(t,p)]} t p) := by
    simp only [advance,hloc,if_true,hdata,Option.map_some,State.pushed,hwait]
    rfl
  refine ⟨_,by rw [advances,hadv]; rfl,update_self ..,update_self ..⟩

/-- Nobody but `t` is between the claim of the armed word and the end of the wait. -/
def NoOtherClaim (s : State τ) (t : τ) : Prop := ∀ u p old, s.loc u = .release p old → u=t

theorem Inv.armed (h : Inv s) (halone : NoOtherClaim s t) (hloc : (s.loc t).made=[])
    (hdata : s.data=.waiting) : s.jostlingValue=.occupy := by
  refine (h.claimed hdata).resolve_right ?_
  rintro ⟨u,p,old,hu⟩
  rw [← halone u p old hu,hu] at hloc
  cases hloc

theorem finishes_loaded (h : Inv s) (hloc : s.loc t = loaded p s.data)
    (harmed : s.data=.waiting → s.jostlingValue=.occupy) : ∃ n ≤ 3, Finishes s t p n := by
  cases hoccupy : s.data.occupy with
  | true =>
    rw [loaded,if_pos hoccupy] at hloc
    have hdata : s.data=.waiting := by
      have := h.fits t
      rwa [hloc] at this
    have hwait : s.data.wait := by
      rw [hdata]
      rfl
    exact ⟨3,by decide,finishes_jostle hloc (harmed hdata) hwait hwait⟩
  | false =>
    rw [loaded,if_neg (by rw [hoccupy]; exact Bool.false_ne_true)] at hloc
    exact ⟨1,by decide,finishes_exchange hloc hoccupy (h.combine_since hoccupy).2⟩

theorem finishes_load (h : Inv s) (hmade : (s.loc t).made=[])
    (hadv : advance s t = some (s.go t (loaded p s.data)))
    (harmed : s.data=.waiting → s.jostlingValue=.occupy) : ∃ n ≤ 4, Finishes s t p n := by
  obtain ⟨hfits,hmade'⟩ := loaded_fits h p
  have hnext : Inv (s.go t (loaded p s.data)) := h.go hfits hmade hmade'
  obtain ⟨n,hn,hfin⟩ := finishes_loaded hnext (p := p) (update_self ..) harmed
  exact ⟨n+1,by omega,.step hadv rfl hfin⟩

/-- A push returns after at most five steps of its own, when no other thread stands between
the claim of the armed word and the end of the wait. -/
theorem finishes_alone (h : Inv s) (hpush : (s.loc t).push? = some p) (htimely : ¬Premature s t)
    (halone : NoOtherClaim s t) : ∃ n ≤ 5, Finishes s t p n := by
  have hfits := h.fits t
  have hload : ∀ {s : State τ}, Inv s → NoOtherClaim s t → (s.loc t).made=[] →
      advance s t = some (s.go t (loaded p s.data)) → ∃ n ≤ 4, Finishes s t p n :=
    fun h halone hmade hadv => finishes_load h hmade hadv (h.armed halone hmade)
  cases hloc : s.loc t with
  | idle | ensureFailed =>
    rw [hloc] at hpush
    cases hpush
  | load q =>
    rw [hloc] at hpush
    cases hpush
    obtain ⟨n,hn,hfin⟩ := hload h halone (by rw [hloc]; rfl) (advance_load hloc)
    exact ⟨n,by omega,hfin⟩
  | exchange q old =>
    rw [hloc] at hpush hfits
    cases hpush
    by_cases hdata : s.data=old
    · subst hdata
      exact ⟨1,by decide,finishes_exchange hloc hfits (h.combine_since hfits).2⟩
    · obtain ⟨n,hn,hfin⟩ := hload h halone (by rw [hloc]; rfl) (by simp only [advance,hloc,if_neg hdata])
      exact ⟨n,by omega,hfin⟩
  | jostle q old =>
    rw [hloc] at hpush hfits
    cases hpush
    by_cases hj : s.jostlingValue=.occupy
    · have hwait : s.data.wait := by
        cases hwait : s.data.wait with
        | true => rfl
        | false => exact absurd ⟨p,old,hloc,hj,hwait⟩ htimely
      exact ⟨3,by decide,finishes_jostle hloc hj hwait (by rw [hfits]; rfl)⟩
    · have hmade : (s.loc t).made=[] := by
        rw [hloc]
        rfl
      have hretry : advance s t = some (s.go t (.load p)) := by simp only [advance,hloc,if_neg hj]
      have hnext : (s.go t (.load p)).loc t = .load p := update_self ..
      have halone' : NoOtherClaim (s.go t (.load p)) t := fun u p old hu =>
        halone u p old (of_update (by rintro ⟨⟩) hu).2
      obtain ⟨n,hn,hfin⟩ := hload (h.go (l := .load p) trivial hmade rfl) halone' (by rw [hnext]; rfl)
        (advance_load hnext)
      exact ⟨n+1,by omega,.step hretry rfl hfin⟩
  | release q old =>
    have hwait : s.data.wait := by
      rw [(h.claim t q old hloc).1]
      rfl
    rw [hloc] at hpush hfits
    cases hpush
    exact ⟨2,by decide,finishes_release hloc hwait (by rw [hfits]; rfl)⟩
  | notify q old =>
    rw [hloc] at hpush
    cases hpush
    exact ⟨1,by decide,finishes_notify hloc⟩

/-- One step of the thread that has claimed the armed word frees the others. -/
theorem claim_frees (h : Inv s) (hloc : s.loc t = .release p old) :
    ∃ s', advance s t = some s' ∧ ∀ u q old', s'.loc u≠.release q old' := by
  have hfits := h.fits t
  rw [hloc] at hfits
  have hwait : s.data.wait := by
    rw [(h.claim t p old hloc).1]
    rfl
  refine ⟨_,advance_release hloc hwait (by rw [hfits]; rfl),?_⟩
  intro u q old' hu
  obtain ⟨hut,hu'⟩ := of_update (by rintro ⟨⟩) hu
  exact hut (h.unique u t q p old' old hu' hloc)

end Alone

section Waiting

/-- The SPU returns `v` after at most three steps of its own. -/
def Returns (s : State τ) (v : UInt32) : Prop :=
  ∃ n ≤ 3, ∃ s', spuAdvances s n = some s' ∧ s'.spu=.idle ∧ s'.results = s.results++[v]

variable {v : UInt32}

omit [DecidableEq τ] in
theorem returns_of_check {left : ℕ} (hspu : s.spu = .check left) (hwait : s.data.wait=false)
    (hj : s.jostlingValue = .value v) :
    spuAdvances s 2 = some (State.popped {s with jostlingValue := .value 0} v) := by
  simp [spuAdvances,advanceSpu,hspu,hwait,hj,Jostling.low,State.popped]

omit [DecidableEq τ] in
theorem returns_of_waitOn (hspu : s.spu=.waitOn) (hwait : s.data.wait=false)
    (hj : s.jostlingValue = .value v) :
    spuAdvances s 3 = some (State.popped {s with jostlingValue := .value 0} v) := by
  have hadv : advanceSpu s = some {s with spu := .check 0} := by
    simp [advanceSpu,hspu,hwait]
  rw [spuAdvances,hadv]
  exact returns_of_check (s := {s with spu := .check 0}) rfl hwait hj

omit [DecidableEq τ] in
theorem returns_of_awake (hspu : s.spu.Waits) (hasleep : s.spu≠.asleep)
    (hwait : s.data.wait=false) (hj : s.jostlingValue = .value v) : Returns s v := by
  cases hloc : s.spu with
  | check left => exact ⟨2,by decide,_,returns_of_check hloc hwait hj,rfl,rfl⟩
  | waitOn => exact ⟨3,by decide,_,returns_of_waitOn hloc hwait hj,rfl,rfl⟩
  | asleep => exact absurd hloc hasleep
  | idle | load | update _ | exchange _ | take =>
    rw [hloc] at hspu
    exact hspu.elim

/-- Once the wait has ended, a value is handed over; a thread is about to wake the SPU if it
sleeps, and otherwise the SPU returns the value. -/
theorem served (h : Inv s) (hspu : s.spu.Waits) (hdata : s.data≠.waiting) :
    ∃ v, handed s.spu s.jostlingValue = some v ∧
      (s.spu=.asleep → ∃ t p old, s.loc t = .notify p old) ∧
      (s.spu≠.asleep → Returns s v) := by
  obtain ⟨v,hv⟩ := ((spuFits_of_waits hspu).1 h.spuFits).resolve_left hdata
  have hwait : s.data.wait=false := eq_false_of_ne_true fun hwait => hdata (h.data_of_flag (.inr hwait))
  refine ⟨v,by rw [hv,handed_of_waits hspu],?_,fun hasleep => returns_of_awake hspu hasleep hwait hv⟩
  exact fun hasleep => (h.awake hasleep).resolve_left hdata

theorem awaken_waits {l : SpuLoc} (h : l.Waits) : l.awaken.Waits ∧ l.awaken≠.asleep := by
  cases l with
  | check left | waitOn | asleep => exact ⟨trivial,by rintro ⟨⟩⟩
  | idle | load | update _ | exchange _ | take => exact h.elim

/-- The next push serves an SPU that waits: once it has returned, the SPU returns its value. -/
theorem next_push_serves (h : Inv s) (hdata : s.data=.waiting) {p : Push}
    (hloc : s.loc t = .load p) (halone : NoOtherClaim s t) :
    ∃ s', advances s t 4 = some s' ∧ s'.loc t = .idle ∧
      s'.finished t = s.finished t++[p] ∧ s'.results=s.results ∧ Returns s' p.value := by
  have hwait : s.data.wait := by
    rw [hdata]
    rfl
  have hj := h.armed halone (by rw [hloc]; rfl) hdata
  have hloaded : loaded p s.data = .jostle p s.data := by
    rw [hdata]
    rfl
  have hload : advance s t = some (s.go t (.jostle p s.data)) := hloaded ▸ advance_load hloc
  have hclaim := advance_jostle (s := s.go t (.jostle p s.data)) (update_self t _ s.loc) hj
  obtain ⟨s₂,hs₂⟩ : ∃ s₂, s₂ = (s.go t (.jostle p s.data)).claimed t p s.data := ⟨_,rfl⟩
  have hloc₂ : s₂.loc t = .release p s.data := by
    rw [hs₂]
    exact update_self ..
  have hrelease := advance_release hloc₂ (by rw [hs₂]; exact hwait) hwait
  have hnotify := advance_notify (s := State.go {s₂ with data := s₂.data.release} t (.notify p s.data))
    (t := t) (update_self ..)
  have hsteps := (advances_succ hload 3).trans <| (advances_succ (hs₂ ▸ hclaim) 2).trans <|
    (advances_succ hrelease 1).trans (advances_succ hnotify 0)
  obtain ⟨hwaits,hawake⟩ := awaken_waits (h.waits hdata)
  subst hs₂
  refine ⟨_,hsteps,update_self ..,?_,rfl,?_⟩
  · exact update_self ..
  · exact returns_of_awake hwaits hawake rfl rfl

end Waiting

section History

/-- A push takes effect in one step between its call and its return. -/
def TakesEffect (s s' : State τ) : Prop :=
  s'.history=s.history ∨
    ∃ t p, (s.loc t).push? = some p ∧ (s.loc t).made=[] ∧ s'.history = s.history++[(t,p)]

theorem history_advance (hadv : advance s t = some s') : TakesEffect s s' := by
  rw [advance] at hadv
  split at hadv
  · cases hadv
  · cases hadv
    exact .inl rfl
  · next p old hloc =>
    split at hadv
    · obtain ⟨data,-,rfl⟩ := Option.map_eq_some_iff.1 hadv
      refine .inr ⟨t,p,by rw [hloc]; rfl,by rw [hloc]; rfl,?_⟩
      unfold State.pushed
      split
      · exact (List.append_assoc ..).symm
      · exact (List.append_assoc ..).symm
    · cases hadv
      exact .inl rfl
  · next p old hloc =>
    split at hadv
    · cases hadv
      refine .inr ⟨t,p,by rw [hloc]; rfl,by rw [hloc]; rfl,?_⟩
      simp [State.history,State.go]
    · cases hadv
      exact .inl rfl
  · split at hadv <;>
    · cases hadv
      exact .inl rfl
  · cases hadv
    exact .inl rfl
  · cases hadv

omit [DecidableEq τ] in
theorem history_advanceSpu (hadv : advanceSpu s = some s') : s'.history=s.history := by
  rw [advanceSpu] at hadv
  split at hadv
  · cases hadv
    rfl
  · cases hadv
    rfl
  · split at hadv <;>
    · cases hadv
      rfl
  · split at hadv
    · split at hadv
      · cases hadv
        simp [State.history,State.popped]
      · cases hadv
        rfl
    · cases hadv
      rfl
  · split at hadv <;>
    · cases hadv
      rfl
  · cases hadv
    rfl
  · cases hadv
  · cases hadv
    rfl

theorem history_step (hstep : Step s s') : TakesEffect s s' := by
  cases hstep with
  | call hcall =>
    rw [call] at hcall
    split at hcall
    · cases hcall
      exact .inl rfl
    · cases hcall
  | push hadv => exact history_advance hadv
  | spu hadv => exact .inl (history_advanceSpu hadv)

end History

theorem release_fails_iff {p : Push} (hloc : s.loc t = .release p .waiting) :
    ∃ s', advance s t = some s' ∧ (s'.loc t = .ensureFailed ↔ s.data.wait=false) := by
  cases hwait : s.data.wait with
  | true =>
    have hnext : (State.go {s with data := s.data.release} t (.notify p .waiting)).loc t =
        .notify p .waiting := update_self ..
    refine ⟨_,advance_release hloc hwait rfl,iff_of_false ?_ (by rintro ⟨⟩)⟩
    rw [hnext]
    rintro ⟨⟩
  | false =>
    exact ⟨_,by simp only [advance,hloc,hwait]; rfl,iff_of_true (update_self ..) rfl⟩

/-- A push that claims an armed word goes on to fail if and only if no SPU waits, when no
other step comes in between. -/
theorem premature_fails {p : Push} (hloc : s.loc t = .jostle p .waiting)
    (hj : s.jostlingValue=.occupy) :
    ∃ s', advances s t 2 = some s' ∧ (s'.loc t = .ensureFailed ↔ Premature s t) := by
  have hpremature : Premature s t ↔ s.data.wait=false := by
    constructor
    · rintro ⟨q,old,-,-,hwait⟩
      exact hwait
    · exact fun hwait => ⟨p,.waiting,hloc,hj,hwait⟩
  have hclaim := advance_jostle hloc hj
  obtain ⟨s',hadv,hfails⟩ := release_fails_iff (s := s.claimed t p .waiting) (update_self ..)
  exact ⟨s',(advances_succ hclaim 1).trans (advances_succ hadv 0),hfails.trans hpremature.symm⟩

structure Correct (s : State τ) : Prop where
  /-- No `ensure` of `push` fails. -/
  noFailure : ∀ t, s.loc t≠.ensureFailed
  /-- Each pop returns what the pushes that it took amount to. -/
  pops : s.groups.map combine = s.results++(handed s.spu s.jostlingValue).toList
  /-- A pop takes at least one push. -/
  nonempty : ∀ g∈s.groups, g≠[]
  /-- The pushes that pops took and those since are the pushes that were made, and those of
  each thread are in its order. -/
  pushes : ∀ t, entriesOf t (s.groups.flatten++s.since) = s.finished t++(s.loc t).made
  /-- A push takes effect between its call and its return. -/
  linear : ∀ s', Step s s' → TakesEffect s s'
  /-- A push that is left alone returns. -/
  terminates : ∀ t p, (s.loc t).push? = some p → ¬Premature s t → NoOtherClaim s t →
    ∃ n ≤ 5, Finishes s t p n
  /-- A thread that the others wait for has a step after which they do not. -/
  frees : ∀ t p old, s.loc t = .release p old →
    ∃ s', advance s t = some s' ∧ ∀ u q old', s'.loc u≠.release q old'
  /-- The next push serves an SPU that waits. -/
  next : s.data=.waiting → ∀ t p, s.loc t = .load p → NoOtherClaim s t →
    ∃ s', advances s t 4 = some s' ∧ s'.loc t = .idle ∧ s'.finished t = s.finished t++[p] ∧
      s'.results=s.results ∧ Returns s' p.value
  /-- Once the wait has ended, the SPU has a value, is about to be woken and returns it. -/
  served : s.spu.Waits → s.data≠.waiting →
    ∃ v, handed s.spu s.jostlingValue = some v ∧
      (s.spu=.asleep → ∃ t p old, s.loc t = .notify p old) ∧
      (s.spu≠.asleep → Returns s v)
  /-- A push that claims the armed word fails in its next step exactly if it is premature,
  when nothing comes in between. -/
  tight : ∀ t p old, s.loc t = .jostle p old → s.jostlingValue=.occupy →
    ∃ s', advances s t 2 = some s' ∧ (s'.loc t = .ensureFailed ↔ Premature s t)

theorem spu_signal_correct (h : TimelyReachable s) : Correct s := by
  have hinv := h.inv
  exact
    { noFailure := by
        intro t hloc
        have hfits := hinv.fits t
        rw [hloc] at hfits
        exact hfits
      pops := hinv.groups
      nonempty := hinv.nonempty
      pushes := hinv.history
      linear := fun _ hstep => history_step hstep
      terminates := fun _ _ hpush htimely halone => finishes_alone hinv hpush htimely halone
      frees := fun _ _ _ hloc => claim_frees hinv hloc
      next := fun hdata _ _ hloc halone => next_push_serves hinv hdata hloc halone
      served := fun hspu hdata => served hinv hspu hdata
      tight := by
        intro t p old hloc hj
        have hfits := hinv.fits t
        rw [hloc] at hfits
        cases hfits
        exact premature_fails hloc hj }

section Schedule

inductive Choice (τ : Type*)
  | call (t : τ) (p : Push)
  | push (t : τ)
  | spu

def take (s : State τ) : Choice τ → Option (State τ)
  | .call t p => call s t p
  | .push t => advance s t
  | .spu => advanceSpu s

def timely (s : State τ) : Choice τ → Bool
  | .push t =>
    match s.loc t with
    | .jostle _ _ => s.jostlingValue≠.occupy || s.data.wait
    | _ => true
  | _ => true

theorem step_of_take (s : State τ) (c : Choice τ) (s' : State τ) (h : take s c = some s') :
    Step s s' := by
  cases c with
  | call t p => exact .call h
  | push t => exact .push h
  | spu => exact .spu h

omit [DecidableEq τ] in
theorem not_premature_of_timely (h : timely s (.push t)) : ¬Premature s t := by
  rintro ⟨p,old,hloc,hj,hwait⟩
  simp [timely,hloc,hj,hwait] at h

theorem timelyStep_of_take (s : State τ) (c : Choice τ) (s' : State τ)
    (h : guarded timely take s c = some s') : TimelyStep s s' := by
  obtain ⟨htimely,htake⟩ := guarded_eq_some h
  cases c with
  | call t p => exact .call htake
  | push t => exact .push (not_premature_of_timely htimely) htake
  | spu => exact .spu htake

end Schedule

inductive Worker
  | first
  | second
  deriving DecidableEq

/-- The SPU waits, one push serves it, and another push overwrites the empty channel. -/
def servedSchedule : List (Choice Worker) :=
  [.spu,.spu,.spu,.spu,.call .first ⟨5,false⟩,.push .first,.push .first,.push .first,
    .push .first,.call .second ⟨6,true⟩,.push .second,.push .second,.spu,.spu]

theorem spu_signal_correct_served :
    ∃ s : State Worker, Correct s ∧ s.results = [5] ∧ s.data = .full 6 ∧
      s.finished .second = [⟨6,true⟩] := by
  have hrun : ((run (guarded timely take) (initial Worker) servedSchedule).map fun s =>
      (s.results,s.data,s.finished .second)) = some ([5],.full 6,[⟨6,true⟩]) := by decide
  obtain ⟨s,hreach,hEq⟩ := exists_of_run timelyStep_of_take hrun
  simp only [Prod.mk.injEq] at hEq
  exact ⟨s,spu_signal_correct hreach,hEq⟩

/-- Both threads see the SPU wait. The first one serves it, and the SPU arms the word again
for its next `pop_wait`, before its wait shows in `data`: the second one claims the word and
finds no wait to end. -/
def failingSchedule : List (Choice Worker) :=
  [.spu,.spu,.spu,.spu,.call .first ⟨5,false⟩,.call .second ⟨6,false⟩,.push .first,
    .push .second,.push .first,.push .first,.push .first,.spu,.spu,.spu,.spu,.spu,
    .push .second,.push .second]

theorem push_ensure_fails :
    ∃ s : State Worker, Reachable s ∧ s.loc .second = .ensureFailed ∧ s.results = [5] := by
  have hrun : ((run take (initial Worker) failingSchedule).map fun s =>
      (s.loc .second,s.results)) = some (.ensureFailed,[5]) := by decide
  obtain ⟨s,hreach,hEq⟩ := exists_of_run step_of_take hrun
  simp only [Prod.mk.injEq] at hEq
  exact ⟨s,hreach,hEq⟩

end PS3Native.SpuSignal
