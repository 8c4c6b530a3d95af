import PS3Native.Lv2RwlockSteps

/-!
# The kinds of steps of `lv2_rwlock`

A thread acts without the mutex of the object or with it, it takes the mutex or lets it
go; and it takes the lock, gives it up, or finds that it was given the lock.
-/
namespace PS3Native.Lv2Rwlock
open SleepQueue SharedHandOff List

variable {τ : Type*} [DecidableEq τ] {ids : Ids τ} {s s₁ : State τ} {t : τ} {l₀ l : Loc τ}
  {side : Side} {owner : ℤ}

section

variable (h : Inv ids s)

include h

theorem Inv.not_mem (hsteady : Steady (s.loc t).place) (side : Side) :
    t∉threads (s.queue side) := fun hmem => hsteady.ne side (h.queues.waits side t hmem)

theorem Inv.not_mem_of_granted (hgranted : s.place t = .granted side) (own : Side) :
    t∉threads (s.queue own) := by
  obtain ⟨hloc,hnot,_⟩ := place_iff.2.2.mp hgranted
  intro hmem
  have hown := h.queues.waits own t hmem
  rw [hloc] at hown
  cases hown
  exact hnot hmem

theorem Inv.neutral (hfree : s.mutex=none) : s.picked=[] ∧ Settled s := by
  have hsection := h.inside
  rw [Section,hfree] at hsection
  exact hsection

theorem Inv.mutex_of_locked (hloc : s.loc t=l) (hl : l.Locked) :
    s.mutex = some t := (h.locked t).mp (hloc ▸ hl)

theorem Inv.stage (hloc : s.loc t=l) (hl : l.Locked) : Stage s l := by
  have hsection := h.inside
  rw [Section,h.mutex_of_locked hloc hl] at hsection
  rw [← hloc]
  exact hsection

theorem Inv.count_eq (t : τ) (side : Side) :
    (s.holders side).count t = s.held side t+(s.place t).owns side := h.lock.accounted t side

theorem Inv.mem_holders (hplace : (s.loc t).place = .releasing side) : t∈s.holders side := by
  have hcount := h.count_eq t side
  rw [place_of_loc hplace trivial] at hcount
  simp only [Place.owns,if_true] at hcount
  exact count_pos_iff.mp (by omega)

theorem Inv.held_eq_zero (hplace : (s.loc t).place = .outside) (hnot : t∉s.holders .writer) :
    s.held .writer t=0 := by
  have hcount := h.count_eq t .writer
  rw [place_of_loc hplace trivial,count_eq_zero_of_not_mem hnot] at hcount
  omega

end

theorem Queues.go (h : Queues s) (hloc : s₁.loc=s.loc) (hqueue : s₁.queue=s.queue)
    (hplace : l.place = (s.loc t).place ∨ ∀ side, t∉threads (s.queue side)) :
    Queues (s₁.go t l) := by
  refine ⟨?_,?_⟩
  · intro side
    change (threads (s₁.queue side)).Nodup
    rw [hqueue]
    exact h.nodup side
  · intro side u hmem
    change u∈threads (s₁.queue side) at hmem
    rw [hqueue] at hmem
    by_cases hu : u=t
    · subst hu
      rcases hplace with hplace | hnot
      · simpa [State.go,hplace] using h.waits side u hmem
      · exact absurd hmem (hnot side)
    · simpa [State.go,hu,hloc] using h.waits side u hmem

theorem loc_go_of_ne {u : τ} (hloc : s₁.loc=s.loc) (hu : u≠t) : (s₁.go t l).loc u = s.loc u := by
  rw [State.go,hloc]
  exact Function.update_of_ne hu _ _

theorem loc_go_self (s : State τ) (t : τ) (l : Loc τ) : (s.go t l).loc t=l := by
  simp [State.go]

variable {rest : List (Sleeper τ)} {e : Sleeper τ} {ts : List τ}

omit [DecidableEq τ] in
theorem Queues.setQueue (h : Queues s) (hnodup : (threads rest).Nodup)
    (hwaits : ∀ u∈threads rest, (s.loc u).place = .granted side) :
    Queues (s.setQueue side rest) := by
  refine ⟨fun own => ?_,fun own u hmem => ?_⟩
  · by_cases hown : own=side
    · subst hown
      rwa [threads_setQueue_self]
    · rw [threads_setQueue_of_ne hown]
      exact h.nodup own
  · by_cases hown : own=side
    · subst hown
      rw [threads_setQueue_self] at hmem
      exact hwaits u hmem
    · rw [threads_setQueue_of_ne hown] at hmem
      exact h.waits own u hmem

omit [DecidableEq τ] in
theorem Queues.shrink (h : Queues s) (hsub : rest.Sublist (s.queue side)) :
    Queues (s.setQueue side rest) := by
  have hthreads : (threads rest).Sublist (threads (s.queue side)) := hsub.map Sleeper.thread
  exact h.setQueue ((h.nodup side).sublist hthreads) fun u hmem =>
    h.waits side u (hthreads.subset hmem)

theorem Queues.push (h : Queues s) (he : e.thread=t) (hnot : ∀ own, t∉threads (s.queue own))
    (hl : l.place = .granted side) : Queues ((s.setQueue side (e::s.queue side)).go t l) := by
  subst he
  have hgo : Queues (s.go e.thread l) := h.go rfl rfl (.inr hnot)
  refine hgo.setQueue (nodup_cons.mpr ⟨hnot side,h.nodup side⟩) fun u hmem => ?_
  rcases mem_cons.mp hmem with rfl | hmem
  · rw [loc_go_self,hl]
  · exact hgo.waits side u hmem

omit [DecidableEq τ] in
theorem Loc.Locked.not_awaits (h : l.Locked) : ¬l.Awaits := by
  cases l with
  | wait side timed awoken => cases h
  | timedOut side | lockUnlock | timeoutLock side => cases h
  | _ => exact id

omit [DecidableEq τ] in
theorem Loc.Awaits.not_steady (h : l.Awaits) : ¬Steady l.place := by
  cases l with
  | wait side timed awoken | timedOut side | timeoutLock side | lockUnlock => exact id
  | _ => cases h

theorem lock_go (hplace : l.place = (s.loc t).place) : (s.go t l).lock=s.lock := by
  rw [State.lock,place_go hplace]
  rfl

section

variable (h : Inv ids s) (hat : s.loc t=l₀)

include h hat

/-- A step without the mutex of the object. -/
theorem Moved.outside (hl₀ : ¬l₀.Locked) (hl : ¬l.Locked) (hloc : s₁.loc=s.loc)
    (hmutex : s₁.mutex=s.mutex) (hapart : Apart s s₁)
    (hlock : (s₁.go t l).lock=s.lock ∨ SharedHandOff.Step t s.lock (s₁.go t l).lock)
    (hword : Word ids s₁.owner s₁.holders)
    (hplace : l.place=l₀.place ∨ ∀ side, t∉threads (s.queue side)) (hfits : Fits (s₁.go t l) t l)
    (hawaits : l₀.Awaits → s.mutex≠none → l.Awaits ∧ (s₁.go t l).place t = s.place t) :
    Moved ids s t (s₁.go t l) where
  lock := hlock
  word := hword
  loc := fun u hu => loc_go_of_ne hloc hu
  mutex := fun u _ => by rw [State.go,hmutex]
  locked := by
    rw [loc_go_self]
    refine ⟨fun hlocked => absurd hlocked hl,fun hsome => ?_⟩
    change s₁.mutex = some t at hsome
    rw [hmutex] at hsome
    exact absurd (hat ▸ (h.locked t).mpr hsome) hl₀
  queues := h.queues.go hloc hapart.1 (hat ▸ hplace)
  waiters := by
    intro side hne
    change s₁.queue side≠[] at hne
    rw [hapart.1] at hne
    have hodd := h.waiters side hne
    change s₁.owner%2=1
    rcases hapart.2.2 with ⟨howner,_⟩ | ⟨heven,_⟩
    · rwa [howner]
    · omega
  fits := by
    rw [loc_go_self]
    exact hfits
  apart := fun _ => hapart
  inside := by
    intro hinside
    change s.mutex = some t ∨ s₁.mutex = some t at hinside
    rw [hmutex,or_self] at hinside
    exact absurd (hat ▸ (h.locked t).mpr hinside) hl₀
  awaits := by
    rw [loc_go_self,hat]
    exact hawaits

theorem Moved.within (hl₀ : l₀.Locked) (hl : l.Locked) (hloc : s₁.loc=s.loc)
    (hsame : s₁.mutex=s.mutex)
    (hlock : (s₁.go t l).lock=s.lock ∨ SharedHandOff.Step t s.lock (s₁.go t l).lock)
    (hword : Word ids s₁.owner s₁.holders) (hqueues : Queues (s₁.go t l))
    (hwaiters : ∀ side, s₁.queue side≠[] → s₁.owner%2=1) (hfits : Fits (s₁.go t l) t l)
    (hstage : Stage (s₁.go t l) l) : Moved ids s t (s₁.go t l) where
  lock := hlock
  word := hword
  loc := fun u hu => loc_go_of_ne hloc hu
  mutex := fun u _ => by rw [State.go,hsame]
  locked := by
    rw [loc_go_self]
    exact ⟨fun _ => hsame.trans (h.mutex_of_locked hat hl₀),fun _ => hl⟩
  queues := hqueues
  waiters := hwaiters
  fits := by
    rw [loc_go_self]
    exact hfits
  apart := fun hother => absurd (h.mutex_of_locked hat hl₀) hother
  inside := by
    intro _
    have hmutex' : (s₁.go t l).mutex = some t := hsame.trans (h.mutex_of_locked hat hl₀)
    rw [Section,hmutex']
    change Stage (s₁.go t l) ((s₁.go t l).loc t)
    rw [loc_go_self]
    exact hstage
  awaits := fun hawaits => absurd hawaits (hat ▸ hl₀.not_awaits)

theorem Moved.enter {s' : State τ} (henter : s.enter t l = some s') (hl : l.Locked)
    (hplace : l.place=l₀.place) (hfits : Fits ({s with mutex := some t}.go t l) t l)
    (hstage : s.picked=[] → Settled s → Stage ({s with mutex := some t}.go t l) l) :
    Moved ids s t s' := by
  subst hat
  unfold State.enter at henter
  split_ifs at henter with hfree
  cases henter
  obtain ⟨hnil,hsettled⟩ := h.neutral hfree
  refine
    { lock := .inl (lock_go hplace)
      word := h.word
      loc := fun u hu => loc_go_of_ne rfl hu
      mutex := ?_
      locked := ?_
      queues := h.queues.go rfl rfl (.inl hplace)
      waiters := h.waiters
      fits := ?_
      apart := fun _ => ⟨rfl,rfl,.inl ⟨rfl,rfl⟩⟩
      inside := ?_
      awaits := fun _ hne => absurd hfree hne }
  · intro u hu
    rw [hfree]
    exact ⟨fun hsome => absurd (Option.some.inj hsome).symm hu,by rintro ⟨⟩⟩
  · rw [loc_go_self]
    exact ⟨fun _ => rfl,fun _ => hl⟩
  · rw [loc_go_self]
    exact hfits
  · intro _
    change Stage _ (({s with mutex := some t}.go t l).loc t)
    rw [loc_go_self]
    exact hstage hnil hsettled

theorem Moved.exit (hl₀ : l₀.Locked) (hl : ¬l.Locked)
    (hlock : ({s with mutex := none}.go t l).lock=s.lock ∨
      SharedHandOff.Step t s.lock ({s with mutex := none}.go t l).lock)
    (hplace : l.place=l₀.place ∨ ∀ side, t∉threads (s.queue side))
    (hfits : Fits ({s with mutex := none}.go t l) t l) (hnil : s.picked=[])
    (hsettled : Settled s) : Moved ids s t ({s with mutex := none}.go t l) where
  lock := hlock
  __ := h
  loc := fun u hu => loc_go_of_ne rfl hu
  mutex := by
    intro u hu
    rw [h.mutex_of_locked hat hl₀]
    exact ⟨by rintro ⟨⟩,fun hsome => absurd (Option.some.inj hsome).symm hu⟩
  locked := by
    rw [loc_go_self]
    exact ⟨fun hlocked => absurd hlocked hl,by rintro ⟨⟩⟩
  queues := h.queues.go rfl rfl (hat ▸ hplace)
  fits := by
    rw [loc_go_self]
    exact hfits
  apart := fun hother => absurd (h.mutex_of_locked hat hl₀) hother
  inside := fun _ => ⟨hnil,hsettled⟩
  awaits := fun hawaits => absurd hawaits (hat ▸ hl₀.not_awaits)

end

theorem step_of_place {s' : State τ} {lock : Lock τ} (hstep : SharedHandOff.Step t s.lock lock)
    (hholders : s'.holders=lock.holders) (hheld : s'.held=lock.held)
    (hplace : s'.place=lock.place) : SharedHandOff.Step t s.lock s'.lock := by
  have heq : s'.lock = ⟨lock.holders,lock.held,lock.place⟩ := by
    rw [State.lock,hholders,hheld,hplace]
  rw [heq]
  exact hstep

theorem step_take (hout : (s.loc t).place = .outside) (hl : l.place=.outside)
    (hadmits : Admits s.holders side) :
    SharedHandOff.Step t s.lock ((s.take t side owner).go t l).lock := by
  refine step_of_place (.take side (place_of_loc hout trivial) hadmits) rfl rfl ?_
  exact place_go (s := s.take t side owner) (hl.trans hout.symm)

theorem step_release (hout : (s.loc t).place = .releasing side) (hl : l.place=.outside) :
    SharedHandOff.Step t s.lock ((s.release t side owner).go t l).lock := by
  refine step_of_place (.release side (place_of_loc hout trivial)) rfl rfl ?_
  rw [place_go_update (by rw [hl]; trivial),hl]
  rfl

theorem step_accept (hgranted : s.place t = .granted side) (hl : l.place=.outside) :
    SharedHandOff.Step t s.lock ((s.accept t side).go t l).lock := by
  refine step_of_place (.accept side hgranted) rfl rfl ?_
  rw [place_go_update (by rw [hl]; trivial),hl]
  rfl

theorem step_expire (he : e.thread=t) (hperm : (s.queue side).Perm (e::rest))
    (hqueued : s.place t = .queued side) (hl : l.place=.expired) :
    SharedHandOff.Step t s.lock ((s.setQueue side rest).go t l).lock := by
  refine step_of_place (.expire side hqueued) rfl rfl ?_
  rw [place_leave he hperm (by rw [hl]; trivial),hl]
  rfl

/-- The threads that were taken from a queue get the lock from a thread that has it. -/
theorem step_give {own : Side} (hplace : (s.loc t).place = .releasing own) (hl : l.place=.outside)
    (hpicked : s.picked=ts) (hnodup : ts.Nodup) (hts : ∀ u∈ts, s.place u = .picked side)
    (hadmits : Admits (drop s.holders own t) side) (hone : side=.writer → ts.length ≤ 1) :
    SharedHandOff.Step t s.lock ({ s with
      owner := owner
      holders := grant (drop s.holders own t) side ts
      picked := [] }.go t l).lock := by
  subst hpicked
  refine step_of_place
    (.give own side s.picked (place_of_loc hplace trivial) hnodup hts hadmits hone) rfl rfl ?_
  rw [place_go_update (by rw [hl]; trivial),hl,place_give hts]
  rfl

/-- Readers that were taken from their queue join the readers that have the lock. -/
theorem step_letIn (hplace : l.place = (s.loc t).place) (hpicked : s.picked=ts)
    (hnodup : ts.Nodup) (hts : ∀ u∈ts, s.place u = .picked .reader)
    (hadmits : Admits s.holders .reader) :
    SharedHandOff.Step t s.lock ({ s with
      owner := owner, holders := grant s.holders .reader ts, picked := [] }.go t l).lock := by
  subst hpicked
  refine step_of_place (.letIn s.picked hnodup hts hadmits) rfl rfl ?_
  rw [place_go (s := { s with
    owner := owner, holders := grant s.holders .reader s.picked, picked := [] }) hplace,
    place_give hts]
  rfl

/-- A thread finds that it was given the lock, with the mutex of the object. -/
theorem Moved.accept (h : Inv ids s) (hat : s.loc t = .unqueue side)
    (hgranted : s.place t = .granted side) : Moved ids s t ((s.accept t side).go t (.leave .ok)) := by
  obtain ⟨hnil,hsettled⟩ := h.stage hat trivial
  exact Moved.within h hat trivial trivial rfl rfl (.inr (step_accept hgranted rfl)) h.word
    (h.queues.go rfl rfl (.inr (h.not_mem_of_granted hgranted))) h.waiters trivial ⟨hnil,hsettled⟩

section

variable (h : Inv ids s) (hat : s.loc t=l₀)

include h hat

/-- A step without the mutex of the object that leaves the lock alone. -/
theorem Moved.stay (hl₀ : ¬l₀.Locked) (hl : ¬l.Locked) (hplace : l.place=l₀.place)
    (hfits : Fits (s.go t l) t l) (hawaits : l₀.Awaits → l.Awaits) : Moved ids s t (s.go t l) := by
  have hplace' : l.place = (s.loc t).place := hat ▸ hplace
  refine Moved.outside h hat hl₀ hl rfl rfl ⟨rfl,rfl,.inl ⟨rfl,rfl⟩⟩ (.inl (lock_go hplace'))
    h.word (.inl hplace) hfits ?_
  intro hawait _
  exact ⟨hawaits hawait,congrFun (place_go hplace') t⟩

/-- A step with the mutex of the object that leaves the lock alone. -/
theorem Moved.hold (hl₀ : l₀.Locked) (hl : l.Locked) (hplace : l.place=l₀.place)
    (hfits : Fits (s.go t l) t l) (hstage : Stage (s.go t l) l) : Moved ids s t (s.go t l) := by
  have hplace' : l.place = (s.loc t).place := hat ▸ hplace
  exact Moved.within h hat hl₀ hl rfl rfl (.inl (lock_go hplace')) h.word
    (h.queues.go rfl rfl (.inl hplace')) h.waiters hfits hstage

/-- A call gets the lock without the mutex of the object. -/
theorem Moved.take (hl₀ : ¬l₀.Locked) (hout : l₀.place=.outside) (hadmits : Admits s.holders side)
    (hword : Word ids owner (grant s.holders side [t])) (heven : s.owner%2=0)
    (heven' : owner%2=0) : Moved ids s t ((s.take t side owner).go t (.returned .ok)) := by
  refine Moved.outside h hat hl₀ id rfl rfl ⟨rfl,rfl,.inr ⟨heven,heven'⟩⟩
    (.inr (step_take (hat ▸ hout) rfl hadmits)) hword (.inl hout.symm) trivial ?_
  exact fun hawaits => absurd (by rw [hout]; trivial) hawaits.not_steady

/-- A call gives the lock up without the mutex of the object. -/
theorem Moved.release (hl₀ : ¬l₀.Locked) (hplace : l₀.place = .releasing side)
    (hword : Word ids owner (drop s.holders side t)) (heven : s.owner%2=0)
    (heven' : owner%2=0) : Moved ids s t ((s.release t side owner).go t (.returned .ok)) := by
  refine Moved.outside h hat hl₀ id rfl rfl ⟨rfl,rfl,.inr ⟨heven,heven'⟩⟩
    (.inr (step_release (hat ▸ hplace) rfl)) hword
    (.inr (h.not_mem (by rw [hat,hplace]; trivial))) trivial ?_
  exact fun hawaits => absurd (by rw [hplace]; trivial) hawaits.not_steady

theorem Moved.pick (hl₀ : l₀.Locked) (hl : l.Locked) (hplace : l.place=l₀.place)
    (hnil : s.picked=[]) (hodd : s.owner%2=1) (hsub : rest.Sublist (s.queue side))
    (hts : ∀ u∈ts, s.place u = .queued side ∧ u∉threads rest)
    (hrest : ∀ u, u∉ts → (u∈threads rest ↔ u∈threads (s.queue side)))
    (hfits : Fits ((s.pick side rest ts).go t l) t l)
    (hstage : (∀ u∈ts, ((s.pick side rest ts).go t l).place u = .picked side) →
      Stage ((s.pick side rest ts).go t l) l) : Moved ids s t ((s.pick side rest ts).go t l) := by
  have hplace' : l.place = (s.loc t).place := hat ▸ hplace
  refine Moved.within h hat hl₀ hl rfl rfl (.inr (step_of_place
    (.pick side ts fun u hu => (hts u hu).1) rfl rfl (place_pick hnil hts hrest hplace'))) h.word
    ((h.queues.shrink hsub).go rfl rfl (.inl hplace')) (fun _ _ => hodd) hfits (hstage ?_)
  intro u hu
  rw [place_pick hnil hts hrest hplace',moveAll,if_pos hu]

end

/-- The threads that have got the lock are still waiting to be told. -/
theorem Inv.awaits_given {holders : Side → List τ} (h : Inv ids s) (hmutex : s.mutex = some t)
    (ht : s.place t≠.picked side) (hts : ∀ u∈ts, s.place u = .picked side) :
    ∀ u∈ts,
      (∃ own, ({s with owner := owner, holders := holders, picked := []}.go t l).place u =
        .granted own) ∧
      (({s with owner := owner, holders := holders, picked := []}.go t l).loc u).Awaits := by
  intro u hu
  have hpicked := hts u hu
  have hut : u≠t := by
    rintro rfl
    exact ht hpicked
  have hunlocked : ¬(s.loc u).Locked := by
    intro hlocked
    rw [(h.locked u).mp hlocked] at hmutex
    exact hut (Option.some.inj hmutex)
  obtain ⟨hloc,hnot,_⟩ := place_iff.2.1.mp hpicked
  have hsame : ({s with owner := owner, holders := holders, picked := []}.go t l).loc u = s.loc u :=
    loc_go_of_ne rfl hut
  refine ⟨⟨side,place_granted ?_ hnot not_mem_nil⟩,?_⟩
  · rw [hsame,hloc]
  · rw [hsame]
    exact h.awaits_of_picked hpicked hunlocked

end PS3Native.Lv2Rwlock
