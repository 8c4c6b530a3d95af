import PS3Native.SharedMutexSteps

/-!
# Runs of `shared_mutex`

A signal in the word is never without a thread that is awake to take it or about to wake one up.
-/
namespace PS3Native.SharedMutex
open Interleaving Schedule

variable {τ : Type*} [Fintype τ] {s s' : State τ}

def State.roles (s : State τ) : Role → ℕ := census Loc.role s.loc

/-- The thread is about to wake a waiter up, or is a waiter that is not asleep. -/
def Loc.Wakeful : Loc → Prop
  | .notify | .waitCheck _ | .waitSleep _ _ => True
  | _ => False

structure Inv (s : State τ) : Prop where
  sound : ∀ t, (s.loc t).Sound
  lock : ∃ signals, Word s.roles s.value.toNat signals ∧ Mode s.roles signals
  awake : 2^30 ≤ s.value.toNat → ∃ t, (s.loc t).Wakeful

theorem State.fits (s : State τ) (hcard : Fintype.card τ < 16383) : Fits s.roles := by
  have hsum := sum_census Loc.role s.loc
  rw [show (Finset.univ : Finset Role) = {.outside, .reader, .writer, .waiter, .signaller} from rfl,
    Finset.sum_insert (by decide),Finset.sum_insert (by decide),Finset.sum_insert (by decide),
    Finset.sum_insert (by decide),Finset.sum_singleton] at hsum
  unfold Fits State.roles
  omega

theorem Mode.signals_le {c : Role → ℕ} {signals : ℕ} (h : Mode c signals) : signals ≤ 1 := by
  unfold Mode at h
  omega

theorem Inv.bounds (h : Inv s) (hcard : Fintype.card τ < 16383) (t : τ) :
    Bounds s.value.toNat (s.loc t).role := by
  obtain ⟨signals,hword,hmode⟩ := h.lock
  have hsignals := hmode.signals_le
  have hfits := s.fits hcard
  have hpos : 0 < s.roles (s.loc t).role := census_pos rfl
  unfold Word at hword
  unfold Fits at hfits
  refine ⟨by omega,by omega,?_,?_,?_⟩
  · intro hr
    rw [hr] at hpos
    omega
  · intro hr
    rw [hr] at hpos
    omega
  · intro hr
    rw [hr] at hpos
    unfold Mode at hmode
    omega

/-- The value and the roles stay when a thread wakes another up. -/
theorem Inv.rest (h : Inv s) {loc : τ → Loc} (hroles : census Loc.role loc=s.roles)
    (hsound : ∀ t, (loc t).Sound) (hwake : 2^30 ≤ s.value.toNat → ∃ t, (loc t).Wakeful) :
    Inv (⟨s.value,loc⟩ : State τ) := by
  obtain ⟨signals,hword,hmode⟩ := h.lock
  refine ⟨hsound,⟨signals,?_,?_⟩,hwake⟩
  · rw [State.roles,hroles]
    exact hword
  · rw [State.roles,hroles]
    exact hmode

theorem inv_initial : Inv (initial τ) where
  sound := fun _ => trivial
  lock := by
    have hzero : ∀ r, r≠.outside → (initial τ).roles r=0 :=
      fun r hr => census_eq_zero fun _ => hr.symm
    refine ⟨0,?_,?_⟩
    · rw [Word,hzero _ (by decide),hzero _ (by decide),hzero _ (by decide)]
      rfl
    · rw [Mode,hzero _ (by decide),hzero _ (by decide),hzero _ (by decide),hzero _ (by decide)]
      exact .inl ⟨rfl,rfl,fun _ => rfl⟩
  awake := by
    intro h
    have hzero : (initial τ).value.toNat=0 := rfl
    omega

variable [DecidableEq τ] {loc : Loc}

theorem Inv.lock_move (h : Inv s) (hcard : Fintype.card τ < 16383) {t : τ} {value : BitVec 32}
    (heffect : Effect s.value.toNat (s.loc t).role value.toNat loc.role) :
    ∃ signals, Word (s.move t value loc).roles (s.move t value loc).value.toNat signals ∧
      Mode (s.move t value loc).roles signals := by
  obtain ⟨signals,hword,hmode⟩ := h.lock
  by_cases hrole : (s.loc t).role=loc.role
  · have hkeep : (s.move t value loc).roles=s.roles := census_keep hrole.symm
    rw [← hrole] at heffect
    have hvalue : value.toNat=s.value.toNat := by
      generalize (s.loc t).role = r at heffect
      generalize value.toNat = v at heffect ⊢
      cases heffect
      rfl
    rw [hkeep]
    exact ⟨signals,hvalue ▸ hword,hmode⟩
  · obtain ⟨hleft,hentered,hothers⟩ := census_move s.loc rfl rfl hrole
    have hmoved : Moved s.roles (s.move t value loc).roles (s.loc t).role loc.role :=
      ⟨hleft,hentered,hothers⟩
    obtain ⟨signals',hchange,hword'⟩ :=
      heffect.change hrole hword hmode.signals_le (s.fits hcard) hmoved
    exact ⟨signals',hword',hmode.change hchange hmoved⟩

/-- A signal appears by the operation of a signaller only. -/
theorem Effect.signal_iff {v v' : ℕ} {a b : Role} (h : Effect v a v' b) (hb : Bounds v a)
    (hv' : 2^30 ≤ v') : 2^30 ≤ v ∨ a=.signaller := by
  have hlow := hb.low
  cases h with
  | signal => exact .inr rfl
  | _ => exact .inl (by omega)

/-- A wakeful waiter sees a signal. -/
theorem advance_wakeful {m m' : BitVec 32} {loc' : Loc} (hs : loc.Sound) (hw : loc.Wakeful)
    (hm : 2^30 ≤ m.toNat) (htop : m.toNat < 2^31) (hm' : 2^30 ≤ m'.toNat)
    (h : advance m loc = some (m',loc')) : loc'.Wakeful := by
  cases loc with
  | waitCheck after =>
    have hsig : cSig ≤ m := hm
    have hsub : (m-cSig).toNat = m.toNat-2^30 := by bv_omega
    simp only [advance,if_pos hsig] at h
    obtain ⟨rfl,rfl⟩ := some_pair_inj h
    omega
  | waitSleep after old =>
    have hold : old.toNat < 2^30 := hs
    have hne : m≠old := by
      rintro rfl
      omega
    simp only [advance,if_neg hne] at h
    obtain ⟨rfl,rfl⟩ := some_pair_inj h
    trivial
  | notify => cases h
  | _ => exact hw.elim

theorem Loc.eq_signal (h : loc.role=.signaller) : loc=.signal := by
  cases loc <;> first | rfl | exact nomatch h

theorem Inv.move (h : Inv s) (hcard : Fintype.card τ < 16383) {t : τ} {value : BitVec 32}
    (heffect : ∃ r, Effect s.value.toNat (s.loc t).role value.toNat r ∧ loc.At r)
    (hsignal : s.loc t = .signal → loc=.notify)
    (hwakeful : (s.loc t).Wakeful → 2^30 ≤ s.value.toNat → 2^30 ≤ value.toNat → loc.Wakeful) :
    Inv (s.move t value loc) := by
  obtain ⟨r,heffect,hrole,hsound⟩ := heffect
  subst hrole
  refine ⟨forall_update h.sound hsound,h.lock_move hcard heffect,?_⟩
  intro hv'
  rcases heffect.signal_iff (h.bounds hcard t) hv' with hv | hrole
  · obtain ⟨u,hu⟩ := h.awake hv
    by_cases hut : u=t
    · subst hut
      refine ⟨u,?_⟩
      rw [State.move_loc,Function.update_self]
      exact hwakeful hu hv hv'
    · refine ⟨u,?_⟩
      rw [State.move_loc,Function.update_of_ne hut]
      exact hu
  · refine ⟨t,?_⟩
    rw [State.move_loc,Function.update_self,hsignal (Loc.eq_signal hrole)]
    trivial

theorem Inv.step (h : Inv s) (hcard : Fintype.card τ < 16383) (hstep : Step s s') : Inv s' := by
  cases hstep with
  | call t c hcall =>
    refine h.move hcard (call_effect (h.bounds hcard t) hcall) ?_ ?_
    · intro hloc
      rw [hloc] at hcall
      cases hcall
    · intro hw
      generalize s.loc t = l at hcall hw
      cases l <;> first | exact hw.elim | exact nomatch hcall
  | advance t hadvance =>
    refine h.move hcard (advance_effect (h.bounds hcard t) (h.sound t) hadvance) ?_ ?_
    · intro hloc
      rw [hloc] at hadvance
      exact (some_pair_inj hadvance).2.symm
    · intro hw hv hv'
      exact advance_wakeful (h.sound t) hw hv (h.bounds hcard t).top hv' hadvance
  | notifyOne t u after ht hu =>
    have hne : u≠t := by
      rintro rfl
      rw [ht] at hu
      cases hu
    refine h.rest ?_ (forall_update (forall_update h.sound trivial) trivial) fun _ => ⟨u,?_⟩
    · rw [State.move_loc,census_keep,census_keep]
      · rfl
      · rw [ht]
        rfl
      · rw [Function.update_of_ne hne,hu]
        rfl
    · rw [Function.update_self]
      trivial
  | notifyNone t ht hnone =>
    refine h.rest ?_ (forall_update h.sound trivial) ?_
    · rw [census_keep]
      · rfl
      · rw [ht]
        rfl
    · intro hv
      obtain ⟨signals,hword,hmode⟩ := h.lock
      have hwaiter : 0 < s.roles .waiter := by
        have hfits := s.fits hcard
        unfold Word at hword
        unfold Fits at hfits
        unfold Mode at hmode
        omega
      obtain ⟨u,hu⟩ := exists_of_census_pos hwaiter
      have hut : u≠t := by
        rintro rfl
        rw [ht] at hu
        cases hu
      refine ⟨u,?_⟩
      rw [Function.update_of_ne hut]
      have hasleep := hnone u
      generalize s.loc u = l at hu hasleep ⊢
      cases l <;> first | trivial | exact absurd rfl (hasleep _)

theorem Reachable.inv (h : Reachable s) (hcard : Fintype.card τ < 16383) : Inv s := by
  induction h with
  | refl => exact inv_initial
  | tail _ hstep ih => exact ih.step hcard hstep

/-- What a reader/writer lock without lost wake-ups is. The last field goes down to the
sleeping threads: a signal is not left to threads that are all asleep. -/
structure Correct (s : State τ) : Prop where
  exclusion : ∀ t u, t≠u → (s.loc t).role = .writer →
    (s.loc u).role≠.writer ∧ (s.loc u).role≠.reader
  accounting : ∃ signals, signals ≤ 1 ∧
    s.value.toNat = s.roles .reader+2^14*(s.roles .writer+s.roles .waiter) +
      2^30*signals ∧
    (s.roles .reader=0 → s.roles .writer=0 → s.roles .signaller=0 → 0 < s.roles .waiter →
      signals=1)
  no_failure : ∀ t, s.loc t≠.failed
  no_lost_wakeup : 2^30 ≤ s.value.toNat → ∃ t, (s.loc t).Wakeful

/-- In every interleaving of fewer than 16383 threads, `shared_mutex` is a reader/writer
lock without lost wake-ups. -/
theorem shared_mutex_correct (hcard : Fintype.card τ < 16383) (s : State τ) (hrun : Reachable s) :
    Correct s := by
  have h := hrun.inv hcard
  obtain ⟨signals,hword,hmode⟩ := h.lock
  refine ⟨?_,⟨signals,hmode.signals_le,hword,?_⟩,?_,h.awake⟩
  · intro t u htu ht
    have hwriter : 0 < s.roles .writer := census_pos ht
    unfold Mode at hmode
    constructor
    · intro hu
      exact htu (eq_of_census_le_one (show s.roles .writer ≤ 1 by omega) ht hu)
    · intro hu
      have hreader : 0 < s.roles .reader := census_pos hu
      omega
  · intro hreader hwriter hsignaller hwaiter
    unfold Mode at hmode
    omega
  · intro t ht
    have hsound := h.sound t
    rw [ht] at hsound
    exact hsound

/-- The operation of a thread, which begins the call if it is at rest. -/
def take (s : State τ) (choice : τ × Call) : Option (State τ) :=
  ((call s.value (s.loc choice.1) choice.2).or (advance s.value (s.loc choice.1))).map
    fun (value,loc) => s.move choice.1 value loc

omit [Fintype τ] in
theorem step_of_take (s : State τ) (choice : τ × Call) (s' : State τ)
    (h : take s choice = some s') : Step s s' := by
  obtain ⟨⟨value,loc⟩,hstep,rfl⟩ := Option.map_eq_some_iff.mp h
  rcases Option.or_eq_some_iff.mp hstep with hcall | ⟨-,hadvance⟩
  · exact .call _ _ hcall
  · exact .advance _ hadvance

/-- Of three threads one has the mutex, and one has given up spinning and waits. -/
theorem shared_mutex_correct_contended : ∃ s : State (Fin 3), Reachable s ∧
    s.loc 0 = .exclusive ∧ s.loc 1 = .waitCheck .hold ∧ Correct s := by
  have hrun : (run take (initial (Fin 3)) ((0,.lock)::List.replicate 12 (1,.lock))).map
      (fun s => (s.loc 0,s.loc 1)) = some (.exclusive,.waitCheck .hold) := by
    decide
  obtain ⟨s,hreach,hloc⟩ := exists_of_run step_of_take hrun
  obtain ⟨h0,h1⟩ := Prod.mk.inj hloc
  exact ⟨s,hreach,h0,h1,shared_mutex_correct (by decide) s hreach⟩

end PS3Native.SharedMutex
