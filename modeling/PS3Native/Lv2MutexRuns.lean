import PS3Native.Lv2MutexLock

/-! # Runs of `lv2_mutex` -/
namespace PS3Native.Lv2Mutex
open SleepQueue HandOff Function

variable {τ : Type*} [DecidableEq τ] {attr : Attr} {prio : τ → ℤ} {s s' : State τ} {t u : τ}
  {late : Bool}

theorem inv_initial (attr : Attr) (tag : ℕ) : Inv attr (initial τ tag) where
  lock :=
    { queue := ⟨List.nodup_nil,nofun,nofun,nofun⟩
      owner := ⟨fun _ h => h.elim,nofun,fun _ => ⟨rfl,rfl⟩,nofun,fun _ => rfl⟩ }
  locked := fun _ => iff_of_false id nofun
  fits := fun _ => trivial

theorem advance_moved (h : Inv attr s) (hawake : ∀ u, s.loc t≠.awake (some u))
    (hadv : advance attr prio s t late = some s') : Moved attr s t s' := by
  cases hloc : s.loc t with
  | idle | returned ret =>
    simp only [advance,hloc] at hadv
    cases hadv
  | tryLock caller => exact tryLock_moved h hadv hloc
  | tryLockCas caller it => exact tryLockCas_moved h hadv hloc
  | lockAgain caller => exact lockAgain_moved h hadv hloc
  | busyWait timed left => exact busyWait_moved h hadv hloc
  | tryOwn timed => exact tryOwn_moved h hadv hloc
  | sleep timed awoken => exact sleep_moved h hadv hloc
  | wait timed awoken => exact wait_moved h hadv hloc
  | timedOut => exact timedOut_moved h hadv hloc
  | lockUnlock => exact lockUnlock_moved h hadv hloc
  | timeoutLock => exact timeoutLock_moved hloc hadv
  | unqueue => exact unqueue_moved h hadv hloc
  | unqueueCas it => exact unqueueCas_moved h hadv hloc
  | unqueued success => exact unqueued_moved h hadv hloc
  | tryUnlock => exact tryUnlock_moved h hadv hloc
  | unlockCount it => exact unlockCount_moved h hadv hloc
  | tryUnlockCas it => exact tryUnlockCas_moved h hadv hloc
  | reownLock => exact reownLock_moved hloc hadv
  | reown => exact reown_moved h hadv hloc
  | reownCas it res => exact reownCas_moved h hadv hloc
  | reownStore res => exact reownStore_moved h hadv hloc
  | awake res =>
    cases res with
    | none =>
      simp only [advance,hloc] at hadv
      cases hadv
      exact .go h hloc rfl Iff.rfl trivial id
    | some u => exact absurd hloc (hawake u)
  | reowned => exact reowned_moved h hadv hloc

theorem call_moved (h : Inv attr s) {c : Call} (hcall : call s t c = some s') : Moved attr s t s' := by
  rw [call] at hcall
  split at hcall
  · next hloc =>
    cases hcall
    cases c <;> exact .go h hloc rfl Iff.rfl trivial id
  · next ret hloc =>
    cases hcall
    cases c <;> exact .go h hloc rfl Iff.rfl trivial id
  · cases hcall

omit [DecidableEq τ] in
theorem Loc.awaken_role (l : Loc τ) : l.awaken.role=l.role := by
  cases l <;> rfl

omit [DecidableEq τ] in
theorem Loc.awaken_locked (l : Loc τ) : l.awaken.Locked ↔ l.Locked := by
  cases l <;> exact Iff.rfl

/-- Only a thread that wakes another up knows where that one is. -/
theorem Fits.go {l l' : Loc τ} (h : Fits attr s t l) (hawake : l≠.awake (some u)) :
    Fits attr (s.go u l') t l := by
  cases l with
  | sleep timed awoken | wait timed awoken => cases awoken <;> exact h
  | unqueued success => cases success <;> exact h
  | reownCas it res => cases res <;> exact h
  | awake res =>
    cases res with
    | none => trivial
    | some w =>
      have hw : w≠u := by
        rintro rfl
        exact hawake rfl
      have hsame : (s.go u l').loc w = s.loc w := update_of_ne hw _ _
      rw [Fits,hsame]
      exact h
  | _ => exact h

theorem lock_awaken (s : State τ) (u : τ) : (s.go u (s.loc u).awaken).lock=s.lock := by
  have hsame : (s.loc u).role = s.lock.role u := rfl
  rw [lock_go,Loc.awaken_role,hsame,update_eq_self]

theorem Inv.awaken (h : Inv attr s) (howner : s.owner = some u)
    (hnone : ∀ t, s.loc t≠.awake (some u)) : Inv attr (s.go u (s.loc u).awaken) where
  lock := by
    rw [lock_awaken]
    exact h.lock
  locked := by
    intro t
    by_cases ht : t=u
    · rw [ht,go_loc_self,Loc.awaken_locked]
      exact h.locked u
    · have hsame : (s.go u (s.loc u).awaken).loc t = s.loc t := update_of_ne ht _ _
      rw [hsame]
      exact h.locked t
  fits := by
    intro t
    by_cases ht : t=u
    · have hfits : Fits attr (s.go u (s.loc u).awaken) u (s.loc u) := (h.fits u).go (hnone u)
      rw [ht,go_loc_self]
      cases hloc : s.loc u with
      | sleep timed awoken | wait timed awoken => exact howner
      | _ =>
        rw [hloc] at hfits
        exact hfits
    · have hsame : (s.go u (s.loc u).awaken).loc t = s.loc t := update_of_ne ht _ _
      rw [hsame]
      exact (h.fits t).go (hnone t)

theorem awake_step (h : Inv attr s) (hloc : s.loc t = .awake (some u))
    (hadv : advance attr prio s t late = some s') : Inv attr s' ∧ s'.lock=s.lock := by
  obtain ⟨howner,hawaits⟩ : s.owner = some u ∧ (s.loc u).Awaits := h.fits_at hloc
  have hut : u≠t := by
    rintro rfl
    rw [hloc] at hawaits
    exact hawaits
  have hmoved : Moved attr s t (s.go t .reowned) := .go h hloc rfl Iff.rfl trivial id
  have hnone : ∀ v, (s.go t .reowned).loc v≠.awake (some u) := by
    intro v hv
    by_cases hvt : v=t
    · rw [hvt,go_loc_self] at hv
      cases hv
    · have hmutex := (h.mutex_iff hloc).mpr trivial
      rw [hmoved.loc v hvt] at hv
      rw [(h.mutex_iff hv).mpr trivial] at hmutex
      exact hvt (Option.some.inj hmutex)
  have hinv := (hmoved.inv h).awaken howner hnone
  have hs' : s' = (s.go t .reowned).go u ((s.go t .reowned).loc u).awaken := by
    simp only [advance,hloc] at hadv
    rw [← Option.some.inj hadv,hmoved.loc u hut]
    simp only [State.go]
    rw [update_comm hut]
  rw [hs']
  refine ⟨hinv,?_⟩
  rw [lock_awaken]
  exact lock_go_of_role hloc rfl

theorem Inv.step (h : Inv attr s) (hstep : Step attr prio s s') : Inv attr s' ∧
    (s'.lock=s.lock ∨ ∃ t, HandOff.Step Sleeper.thread (First attr.protocol) t s.lock s'.lock) := by
  have hmoved : ∀ {t s'}, Moved attr s t s' → Inv attr s' ∧ (s'.lock=s.lock ∨
      ∃ t, HandOff.Step Sleeper.thread (First attr.protocol) t s.lock s'.lock) :=
    fun hm => ⟨hm.inv h,hm.lock.imp_right fun hstep => ⟨_,hstep⟩⟩
  cases hstep with
  | call t c hcall => exact hmoved (call_moved h hcall)
  | advance t late hadv =>
    by_cases hawake : ∃ u, s.loc t = .awake (some u)
    · obtain ⟨u,hloc⟩ := hawake
      obtain ⟨hinv,hlock⟩ := awake_step h hloc hadv
      exact ⟨hinv,.inl hlock⟩
    · exact hmoved (advance_moved h (not_exists.mp hawake) hadv)
  | drawn => exact ⟨⟨h.lock,h.locked,h.fits⟩,.inl rfl⟩

theorem Reachable.inv (h : Reachable attr prio s) : Inv attr s := by
  obtain ⟨tag,hrun⟩ := h
  induction hrun with
  | refl => exact inv_initial attr tag
  | tail _ hstep ih => exact (ih.step hstep).1

/-- A thread that stops waiting has taken itself out of the queue, or returns with the mutex. -/
theorem advance_waiting (hadv : advance attr prio s t late = some s')
    (hrole : (s.loc t).role = .waiting) : (s'.loc t).role = .waiting ∨ (s'.loc t).role = .expired ∨
      (s'.loc t = .returned .ok ∧ s'.held t = s.held t+1) := by
  have hacquired : ∀ s₁ : State τ, s₁.held=s.held →
      (s₁.acquired t).loc t = .returned .ok ∧ (s₁.acquired t).held t = s.held t+1 := by
    intro s₁ hheld
    rw [State.acquired,← hheld]
    exact ⟨update_self ..,update_self ..⟩
  cases hloc : s.loc t with simp only [advance,hloc] at hadv
  | sleep timed awoken =>
    cases hadv
    split_ifs
    · exact .inr (.inr (hacquired s rfl))
    · exact .inl (congrArg Loc.role (go_loc_self ..))
  | wait timed awoken =>
    split_ifs at hadv
    · cases hadv
      exact .inl (congrArg Loc.role (go_loc_self ..))
    · cases hadv
      exact .inr (.inr (hacquired s rfl))
  | timedOut =>
    cases hadv
    refine .inl ?_
    rw [go_loc_self]
    split_ifs <;> rfl
  | lockUnlock =>
    split_ifs at hadv
    cases hadv
    exact .inr (.inr (hacquired s rfl))
  | timeoutLock =>
    split_ifs at hadv
    cases hadv
    exact .inl (congrArg Loc.role (go_loc_self ..))
  | unqueue =>
    cases hadv
    split_ifs
    · exact .inl (congrArg Loc.role (go_loc_self ..))
    · exact .inr (.inl (congrArg Loc.role (go_loc_self ..)))
    · exact .inl (congrArg Loc.role (go_loc_self ..))
  | unqueueCas it =>
    cases hadv
    split_ifs
    · exact .inr (.inl (congrArg Loc.role (go_loc_self ..)))
    · exact .inl (congrArg Loc.role (go_loc_self ..))
  | unqueued success =>
    rw [hloc] at hrole
    cases success with
    | true => cases hrole
    | false =>
      cases hadv
      exact .inr (.inr (hacquired {s with mutex := none} rfl))
  | _ =>
    rw [hloc] at hrole
    cases hrole

theorem advance_expired (hadv : advance attr prio s t late = some s')
    (hrole : (s.loc t).role = .expired) : s'.loc t = .returned .etimedout := by
  cases hloc : s.loc t with
  | unqueued success =>
    rw [hloc] at hrole
    cases success with
    | true =>
      simp only [advance,hloc] at hadv
      cases hadv
      exact go_loc_self ..
    | false => cases hrole
  | _ =>
    rw [hloc] at hrole
    cases hrole

/-- A thread changes its role by its own steps. -/
theorem Inv.role_cases (h : Inv attr s) (hstep : Step attr prio s s') (u : τ) :
    (s'.loc u).role = (s.loc u).role ∨ (∃ late, advance attr prio s u late = some s') ∨
      ∃ c, call s u c = some s' := by
  cases hstep with
  | call t c hcall =>
    by_cases hut : u=t
    · exact .inr (.inr ⟨c,hut ▸ hcall⟩)
    · rw [(call_moved h hcall).loc u hut]
      exact .inl rfl
  | advance t late hadv =>
    by_cases hut : u=t
    · exact .inr (.inl ⟨late,hut ▸ hadv⟩)
    · refine .inl ?_
      by_cases hawake : ∃ v, s.loc t = .awake (some v)
      · obtain ⟨v,hloc⟩ := hawake
        exact congrFun (congrArg Lock.role (awake_step h hloc hadv).2) u
      · rw [(advance_moved h (not_exists.mp hawake) hadv).loc u hut]
  | drawn => exact .inl rfl

theorem call_role {c : Call} (hcall : call s t c = some s') : (s.loc t).role = .outside := by
  rw [call] at hcall
  split at hcall
  · next hloc => rw [hloc]; rfl
  · next hloc => rw [hloc]; rfl
  · cases hcall

theorem ticket_handed (h : s.ticket t = .handed) :
    t∉s.queue.map Sleeper.thread ∧ (s.loc t).role = .waiting := by
  unfold State.ticket HandOff.ticket at h
  split_ifs at h with hmem
  refine ⟨hmem,?_⟩
  have hrole : (s.loc t).role.ticket = .handed := h
  cases hr : (s.loc t).role with
  | waiting => rfl
  | _ =>
    rw [hr] at hrole
    cases hrole

theorem ticket_expired (h : s.ticket t = .expired) : (s.loc t).role = .expired := by
  unfold State.ticket HandOff.ticket at h
  split_ifs at h
  have hrole : (s.loc t).role.ticket = .expired := h
  cases hr : (s.loc t).role with
  | expired => rfl
  | _ =>
    rw [hr] at hrole
    cases hrole

theorem ticket_outside (h : s.ticket t = .outside) :
    (s.loc t).role≠.waiting ∧ (s.loc t).role≠.expired := by
  unfold State.ticket HandOff.ticket at h
  split_ifs at h
  have hrole : (s.loc t).role.ticket = .outside := h
  refine ⟨?_,?_⟩
  · intro hr
    rw [hr] at hrole
    cases hrole
  · intro hr
    rw [hr] at hrole
    cases hrole

theorem Inv.owner_of_held (h : Inv attr s) (hheld : 0 < s.held t) : s.owner = some t := by
  have heq : s.held t = if s.owner = some t then ((s.loc t).role).depth s.lockCount else 0 :=
    h.lock.owner.held_eq t
  by_contra hne
  rw [if_neg hne] at heq
  omega

/-- A thread that was handed the mutex returns with it. -/
theorem Inv.handed_returns (h : Inv attr s) (hstep : Step attr prio s s')
    (hhanded : s.ticket t = .handed) (hout : s'.ticket t = .outside) :
    s'.loc t = .returned .ok ∧ s'.owner = some t := by
  obtain ⟨-,hwait⟩ := ticket_handed hhanded
  obtain ⟨hnotwait,hnotexpired⟩ := ticket_outside hout
  rcases h.role_cases hstep t with hsame | ⟨late,hadv⟩ | ⟨c,hcall⟩
  · rw [hsame] at hnotwait
    exact absurd hwait hnotwait
  · rcases advance_waiting hadv hwait with hrole | hrole | ⟨hret,hheld⟩
    · exact absurd hrole hnotwait
    · exact absurd hrole hnotexpired
    · exact ⟨hret,(h.step hstep).1.owner_of_held (by omega)⟩
  · rw [call_role hcall] at hwait
    cases hwait

/-- A thread that has taken itself out of the queue returns without the mutex. -/
theorem Inv.expired_returns (h : Inv attr s) (hstep : Step attr prio s s')
    (hexpired : s.ticket t = .expired) (hout : s'.ticket t = .outside) :
    s'.loc t = .returned .etimedout := by
  have hrole := ticket_expired hexpired
  rcases h.role_cases hstep t with hsame | ⟨late,hadv⟩ | ⟨c,hcall⟩
  · have hnot := (ticket_outside hout).2
    rw [hsame] at hnot
    exact absurd hrole hnot
  · exact advance_expired hadv hrole
  · rw [call_role hcall] at hrole
    cases hrole

end PS3Native.Lv2Mutex
