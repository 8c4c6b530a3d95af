import PS3Native.HandOffOwner
import PS3Native.Lv2Mutex

/-! # The steps of `lv2_mutex` -/
namespace PS3Native.Lv2Mutex
open SleepQueue HandOff Function

variable {τ : Type*} [DecidableEq τ] {attr : Attr} {s s' : State τ} {t u : τ}

def Loc.Locked : Loc τ → Prop
  | .unqueue | .unqueueCas _ | .unqueued _ | .reown | .reownCas _ _ | .reownStore _ | .awake _
  | .reowned => True
  | _ => False

def Loc.Awaits : Loc τ → Prop
  | .sleep _ false | .wait _ false | .timedOut | .lockUnlock | .timeoutLock => True
  | _ => False

def Fits (attr : Attr) (s : State τ) (t : τ) : Loc τ → Prop
  | .tryLockCas _ it => it.owner=none ∧ s.owner≠some t
  | .lockAgain _ | .sleep _ true | .wait _ true | .unqueued false => s.owner = some t
  | .busyWait _ _ | .tryOwn _ => s.owner≠some t
  | .lockUnlock => t∉s.queue.map Sleeper.thread
  | .unqueueCas it => it.sq = some t
  | .tryUnlockCas it | .reownCas it none => it.sq=none
  | .reownCas it (some w) => it.sq = some w.thread ∧ w∈s.queue ∧
      (s.control.sq = some w.thread → First attr.protocol s.queue w)
  | .awake (some u) => s.owner = some u ∧ (s.loc u).Awaits
  | _ => True

structure Inv (attr : Attr) (s : State τ) : Prop where
  lock : HandOff.Inv Sleeper.thread s.lock
  locked : ∀ t, (s.loc t).Locked ↔ s.mutex = some t
  fits : ∀ t, Fits attr s t (s.loc t)

/-- The queue is changed under the mutex of the object, or by the thread that joins it. -/
def Queues (s : State τ) (t : τ) (s' : State τ) : Prop :=
  s.mutex = some t ∨ s'.queue=s.queue ∨
    ∃ e, e.thread=t ∧ (s.loc t).role = .outside ∧ s'.queue = e::s.queue

structure Moved (attr : Attr) (s : State τ) (t : τ) (s' : State τ) : Prop where
  lock : s'.lock=s.lock ∨ HandOff.Step Sleeper.thread (First attr.protocol) t s.lock s'.lock
  loc : ∀ u, u≠t → s'.loc u = s.loc u
  mutex : ∀ u, u≠t → (s'.mutex = some u ↔ s.mutex = some u)
  locked : (s'.loc t).Locked ↔ s'.mutex = some t
  queue : Queues s t s'
  fits : Fits attr s' t (s'.loc t)
  awaits : (s.loc t).Awaits → s.mutex≠none → (s'.loc t).Awaits ∧ s'.owner=s.owner

theorem Moved.not_mem (hm : Moved attr s t s') (hu : u≠t)
    (hnot : u∉s.queue.map Sleeper.thread) : u∉s'.queue.map Sleeper.thread := by
  rcases hm.lock with heq | hstep
  · have hsame : s'.queue=s.queue := congrArg Lock.queue heq
    rwa [hsame]
  · exact fun hmem => hnot (hstep.mem_of_ne hu hmem)

section

variable (h : Inv attr s) (hm : Moved attr s t s')

include h hm

theorem Moved.inv_lock : HandOff.Inv Sleeper.thread s'.lock := by
  rcases hm.lock with heq | hstep
  · rw [heq]
    exact h.lock
  · exact h.lock.step hstep

theorem Moved.owner_eq (hu : u≠t) (howner : s.owner = some u) : s'.owner = some u := by
  rcases hm.lock with heq | hstep
  · have hsame : s'.owner=s.owner := congrArg Lock.owner heq
    rw [hsame,howner]
  · exact hstep.owner_of_ne h.lock hu howner

theorem Moved.owner_ne (hu : u≠t) (hrole : (s.loc u).role≠.waiting) (howner : s.owner≠some u) :
    s'.owner≠some u := by
  rcases hm.lock with heq | hstep
  · have hsame : s'.owner=s.owner := congrArg Lock.owner heq
    rwa [hsame]
  · exact hstep.owner_ne_of_ne h.lock hu hrole howner

/-- Under the mutex of the object the head of the queue stays, or a new one comes before it. -/
theorem Moved.first (hmutex : s.mutex≠some t) {w : Sleeper τ} (hw : w∈s.queue)
    (hfirst : s.control.sq = some w.thread → First attr.protocol s.queue w) :
    w∈s'.queue ∧ (s'.control.sq = some w.thread → First attr.protocol s'.queue w) := by
  rcases hm.queue with hlocked | hsame | ⟨e,he,hrole,hpush⟩
  · exact absurd hlocked hmutex
  · rw [State.control,hsame]
    exact ⟨hw,hfirst⟩
  · rw [State.control,hpush]
    refine ⟨List.mem_cons_of_mem _ hw,?_⟩
    intro hhead
    have hwt : t=w.thread := by
      rw [← he]
      exact Option.some.inj hhead
    have hwait := (h.lock.queue.waiting w.thread (List.mem_map_of_mem hw)).1
    rw [← hwt] at hwait
    have hout : s.lock.role t = .outside := hrole
    rw [hout] at hwait
    cases hwait

theorem Moved.fits_of_ne (hu : u≠t) : Fits attr s' u (s.loc u) := by
  have hfits := h.fits u
  have hmutex : (s.loc u).Locked → s.mutex≠some t := by
    intro hlocked heq
    rw [(h.locked u).mp hlocked] at heq
    exact hu (Option.some.inj heq)
  cases hloc : s.loc u with
  | tryLockCas caller it =>
    rw [hloc] at hfits
    exact ⟨hfits.1,hm.owner_ne h hu (by rw [hloc]; nofun) hfits.2⟩
  | busyWait timed left | tryOwn timed =>
    rw [hloc] at hfits
    exact hm.owner_ne h hu (by rw [hloc]; nofun) hfits
  | lockAgain caller =>
    rw [hloc] at hfits
    exact hm.owner_eq h hu hfits
  | sleep timed awoken | wait timed awoken =>
    cases awoken with
    | false => trivial
    | true =>
      rw [hloc] at hfits
      exact hm.owner_eq h hu hfits
  | unqueued success =>
    cases success with
    | false =>
      rw [hloc] at hfits
      exact hm.owner_eq h hu hfits
    | true => trivial
  | lockUnlock =>
    rw [hloc] at hfits
    exact hm.not_mem hu hfits
  | unqueueCas it | tryUnlockCas it =>
    rw [hloc] at hfits
    exact hfits
  | reownCas it res =>
    rw [hloc] at hfits hmutex
    cases res with
    | none => exact hfits
    | some w => exact ⟨hfits.1,hm.first h (hmutex trivial) hfits.2.1 hfits.2.2⟩
  | awake res =>
    rw [hloc] at hfits
    cases res with
    | none => trivial
    | some w =>
      obtain ⟨howner,hawaits⟩ := hfits
      have hheld : s.mutex = some u := (h.locked u).mp (by rw [hloc]; trivial)
      by_cases hwt : w=t
      · subst hwt
        obtain ⟨hawaits',howner'⟩ := hm.awaits hawaits (by rw [hheld]; nofun)
        exact ⟨howner'.trans howner,hawaits'⟩
      · refine ⟨hm.owner_eq h hwt howner,?_⟩
        rwa [hm.loc w hwt]
  | _ => trivial

theorem Moved.inv : Inv attr s' where
  lock := hm.inv_lock h
  locked := by
    intro u
    by_cases hu : u=t
    · rw [hu]
      exact hm.locked
    · rw [hm.loc u hu,h.locked u,hm.mutex u hu]
  fits := by
    intro u
    by_cases hu : u=t
    · rw [hu]
      exact hm.fits
    · rw [hm.loc u hu]
      exact hm.fits_of_ne h hu

end

theorem lock_go (s : State τ) (t : τ) (loc : Loc τ) :
    (s.go t loc).lock = {s.lock with role := update s.lock.role t loc.role} := by
  rw [State.lock,State.go,comp_update]
  rfl

theorem go_loc_self (s : State τ) (t : τ) (loc : Loc τ) : (s.go t loc).loc t=loc := update_self ..

variable {l : Loc τ}

omit [DecidableEq τ] in
theorem role_at (hloc : s.loc t=l) : s.lock.role t=l.role := congrArg Loc.role hloc

variable {l' : Loc τ} {s₁ : State τ}

theorem lock_go_of_role (hloc : s.loc t=l) (hrole : l'.role=l.role) :
    (s.go t l').lock=s.lock := by
  rw [lock_go,hrole,← role_at hloc,update_eq_self]

theorem Inv.mutex_iff (h : Inv attr s) (hloc : s.loc t=l) : s.mutex = some t ↔ l.Locked := by
  rw [← h.locked t,hloc]

theorem Inv.fits_at (h : Inv attr s) (hloc : s.loc t=l) : Fits attr s t l := hloc ▸ h.fits t

theorem Moved.go (h : Inv attr s) (hloc : s.loc t=l) (hrole : l'.role=l.role)
    (hlocked : l'.Locked ↔ l.Locked) (hfits : Fits attr (s.go t l') t l')
    (hawaits : l.Awaits → l'.Awaits) : Moved attr s t (s.go t l') where
  lock := .inl (lock_go_of_role hloc hrole)
  loc := fun u hu => update_of_ne hu _ _
  mutex := fun u hu => Iff.rfl
  locked := by
    rw [go_loc_self,hlocked]
    exact (h.mutex_iff hloc).symm
  queue := .inr (.inl rfl)
  fits := by
    rw [go_loc_self]
    exact hfits
  awaits := by
    intro haw _
    rw [hloc] at haw
    rw [go_loc_self]
    exact ⟨hawaits haw,rfl⟩

theorem Moved.act (hloc : s₁.loc=s.loc)
    (hothers : ∀ u, u≠t → (s₁.mutex = some u ↔ s.mutex = some u))
    (hlocked : l'.Locked ↔ s₁.mutex = some t) (hqueue : Queues s t s₁)
    (hfits : Fits attr (s₁.go t l') t l') (hawaits : (s.loc t).Awaits → s.mutex=none)
    (hstep : HandOff.Step Sleeper.thread (First attr.protocol) t s.lock
      ⟨s₁.owner,s₁.lockCount,s₁.queue,update s.lock.role t l'.role,s₁.held⟩) :
    Moved attr s t (s₁.go t l') where
  lock := by
    refine .inr ?_
    have hrole : s₁.lock.role=s.lock.role := congrArg (Loc.role ∘ ·) hloc
    rw [lock_go,hrole]
    exact hstep
  loc := by
    intro u hu
    rw [← hloc]
    exact update_of_ne hu _ _
  mutex := hothers
  locked := by
    rw [go_loc_self]
    exact hlocked
  queue := hqueue
  fits := by
    rw [go_loc_self]
    exact hfits
  awaits := by
    intro haw hheld
    exact absurd (hawaits haw) hheld

/-- The mutex of the object stays with whom it is. -/
theorem Moved.step (h : Inv attr s) (hat : s.loc t=l) (hawaits : ¬l.Awaits)
    (hlocked : l'.Locked ↔ l.Locked) (hloc : s₁.loc=s.loc) (hmutex : s₁.mutex=s.mutex)
    (hqueue : Queues s t s₁) (hfits : Fits attr (s₁.go t l') t l')
    (hstep : HandOff.Step Sleeper.thread (First attr.protocol) t s.lock
      ⟨s₁.owner,s₁.lockCount,s₁.queue,update s.lock.role t l'.role,s₁.held⟩) :
    Moved attr s t (s₁.go t l') := by
  refine .act hloc (fun u _ => by rw [hmutex]) ?_ hqueue hfits (fun haw => absurd (hat ▸ haw) hawaits)
    hstep
  rw [hlocked,hmutex,h.mutex_iff hat]

/-- A call returns with the mutex, after the step `s₁` of the shared data. -/
theorem Moved.acquired (hat : s.loc t=l) (hloc : s₁.loc=s.loc) (hheld : s₁.held=s.held)
    (hqueue : s₁.queue=s.queue) (hothers : ∀ u, u≠t → (s₁.mutex = some u ↔ s.mutex = some u))
    (hmutex : s₁.mutex≠some t) (hawaits : l.Awaits → s.mutex=none)
    (hstep : HandOff.Step Sleeper.thread (First attr.protocol) t s.lock
      ⟨s₁.owner,s₁.lockCount,s.queue,update s.lock.role t .outside,
        update s.held t (s.held t+1)⟩) : Moved attr s t (s₁.acquired t) := by
  rw [← hheld,← hqueue] at hstep
  have hact : Moved attr s t
      ({s₁ with held := update s₁.held t (s₁.held t+1)}.go t (.returned .ok)) :=
    .act hloc hothers (iff_of_false id hmutex) (.inr (.inl hqueue)) trivial (hat ▸ hawaits) hstep
  exact hact

theorem Moved.finish (h : Inv attr s) (hloc : s.loc t=l) {caller : Caller} {ret : Ret}
    (hret : ret≠.ok) (hrole : l.role=.outside) (hlocked : ¬l.Locked) (hawaits : ¬l.Awaits)
    (howner : ret=.ebusy → s.owner≠some t) : Moved attr s t (s.finish t caller ret) := by
  have hreturned : Moved attr s t (s.go t (.returned ret)) :=
    .go h hloc hrole.symm (iff_of_false id hlocked) trivial fun haw => absurd haw hawaits
  cases caller with
  | trylock =>
    cases ret with
    | ok => exact absurd rfl hret
    | _ => exact hreturned
  | lock timed left =>
    cases ret with
    | ok => exact absurd rfl hret
    | ebusy =>
      exact .go h hloc hrole.symm (iff_of_false id hlocked) (howner rfl) fun haw => absurd haw hawaits
    | _ => exact hreturned

theorem finish_ok (s : State τ) (t : τ) (caller : Caller) : s.finish t caller .ok = s.acquired t := by
  cases caller <;> rfl

theorem update_role (hloc : s.loc t=l) (hrole : l.role=.outside) :
    update s.lock.role t .outside=s.lock.role := by
  rw [← hrole,← role_at hloc,update_eq_self]

theorem Moved.take_mutex (hloc : s.loc t=l) (hrole : l'.role=l.role) (hfree : s.mutex=none)
    (hlocked : l'.Locked) (hfits : Fits attr ({s with mutex := some t}.go t l') t l') :
    Moved attr s t ({s with mutex := some t}.go t l') where
  lock := .inl (lock_go_of_role hloc hrole)
  loc := fun u hu => update_of_ne hu _ _
  mutex := by
    intro u hu
    rw [hfree]
    exact iff_of_false (fun heq => hu (Option.some.inj heq).symm) nofun
  locked := by
    rw [go_loc_self]
    exact iff_of_true hlocked rfl
  queue := .inr (.inl rfl)
  fits := by
    rw [go_loc_self]
    exact hfits
  awaits := by
    intro _ hheld
    exact absurd hfree hheld

omit [DecidableEq τ] in
theorem queue_eq_nil (hsq : s.control.sq=none) : s.queue=[] := by
  cases hqueue : s.queue with
  | nil => rfl
  | cons w rest =>
    rw [State.control,hqueue] at hsq
    cases hsq

omit [DecidableEq τ] in
theorem queue_eq_cons (hsq : s.control.sq = some t) :
    ∃ e, e.thread=t ∧ s.queue = e::s.queue.tail := by
  cases hqueue : s.queue with rw [State.control,hqueue] at hsq
  | nil =>
    cases hsq
  | cons w rest =>
    exact ⟨w,Option.some.inj hsq,rfl⟩

omit [DecidableEq τ] in
theorem Loc.locked_of_passing (h : l.role = .passing t) : l.Locked := by
  cases l with
  | reownStore res => trivial
  | unqueued success => cases success <;> cases h
  | _ => cases h

theorem Inv.owner_of_waiting (h : Inv attr s) (hrole : (s.loc t).role = .waiting)
    (hnot : t∉s.queue.map Sleeper.thread) (hmutex : s.mutex=none ∨ s.mutex = some t) :
    s.owner = some t := by
  rcases h.lock.queue.handed t hrole hnot with howner | ⟨u,hu⟩
  · exact howner
  · have hpass : (s.loc u).role = .passing t := hu
    have hheld := (h.locked u).mp (Loc.locked_of_passing hpass)
    rcases hmutex with hmutex | hmutex
    · rw [hmutex] at hheld
      cases hheld
    · rw [hmutex] at hheld
      cases hheld
      rw [hrole] at hpass
      cases hpass

/-- A waiting thread that is not the owner is not awake while another thread holds the
mutex of the object. -/
theorem Inv.awaits (h : Inv attr s) (hmutex : s.mutex = some t) (hu : u≠t)
    (hrole : (s.loc u).role = .waiting) (howner : s.owner≠some u) : (s.loc u).Awaits := by
  have hlocked : ¬(s.loc u).Locked := by
    rw [h.locked u,hmutex]
    exact fun heq => hu (Option.some.inj heq).symm
  have hfits := h.fits u
  cases hloc : s.loc u with
  | sleep timed awoken | wait timed awoken =>
    cases awoken with
    | false => trivial
    | true =>
      rw [hloc] at hfits
      exact absurd hfits howner
  | timedOut | lockUnlock | timeoutLock => trivial
  | _ =>
    rw [hloc] at hlocked hrole
    first | exact absurd trivial hlocked | cases hrole

theorem Inv.eq_of_thread (h : Inv attr s) {v w : Sleeper τ} (hv : v∈s.queue) (hw : w∈s.queue)
    (heq : v.thread=w.thread) : v=w := List.inj_on_of_nodup_map h.lock.queue.nodup hv hw heq

/-- The thread that has just got the mutex from the owner `t` has not been woken. -/
theorem Inv.fits_awake (h : Inv attr s) (hmutex : s.mutex = some t) (howner : s.owner = some t)
    (hrole : (s.loc u).role = .waiting) (hout : (s.loc t).role≠.waiting) (hloc : s₁.loc=s.loc)
    (hnew : s₁.owner = some u) : Fits attr (s₁.go t (.awake (some u))) t (.awake (some u)) := by
  have hne : u≠t := by
    rintro rfl
    exact hout hrole
  have hother : s.owner≠some u := by
    rw [howner]
    exact fun heq => hne (Option.some.inj heq).symm
  refine ⟨hnew,?_⟩
  have hsame : (s₁.go t (.awake (some u))).loc u = s.loc u := by
    rw [← hloc]
    exact update_of_ne hne _ _
  rw [hsame]
  exact h.awaits hmutex hne hrole hother

theorem Moved.drop_mutex (h : Inv attr s) (hloc : s.loc t=l) (hrole : l'.role=l.role)
    (hheld : l.Locked) (hlocked : ¬l'.Locked) (hawaits : ¬l.Awaits)
    (hfits : Fits attr ({s with mutex := none}.go t l') t l') :
    Moved attr s t ({s with mutex := none}.go t l') where
  lock := .inl (lock_go_of_role hloc hrole)
  loc := fun u hu => update_of_ne hu _ _
  mutex := by
    intro u hu
    rw [(h.mutex_iff hloc).mpr hheld]
    exact iff_of_false nofun fun heq => hu (Option.some.inj heq).symm
  locked := by
    rw [go_loc_self]
    exact iff_of_false hlocked nofun
  queue := .inr (.inl rfl)
  fits := by
    rw [go_loc_self]
    exact hfits
  awaits := by
    intro haw _
    rw [hloc] at haw
    exact absurd haw hawaits

end PS3Native.Lv2Mutex
