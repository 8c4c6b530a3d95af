import PS3Native.Lv2RwlockWord

/-!
# The steps of `lv2_rwlock`

Every step of the code is a step of a lock that is handed over, or leaves the lock
alone. It keeps what the threads know, and what the thread that holds the mutex of the
object knows of the queues and of the bit of the owner word.
-/
namespace PS3Native.Lv2Rwlock
open SleepQueue SharedHandOff

variable {τ : Type*} [DecidableEq τ] {ids : Ids τ} {s s' : State τ} {t u : τ} {l : Loc τ}
  {side : Side}

def Loc.Locked : Loc τ → Prop
  | .lockSlow _ _ | .emplace _ _ _ | .emplaced _ _ _ | .unqueue _ | .unqueued | .addReaders _
  | .clearBit | .runlockSlow | .runlockHand | .runlockZero | .ensureEmpty | .wunlockHand
  | .wunlockZero | .grantWriter _ _ | .grantReaders _ | .awake _ _ | .leave _ => True
  | _ => False

def Loc.Awaits : Loc τ → Prop
  | .wait _ _ false | .timedOut _ | .lockUnlock | .timeoutLock _ => True
  | _ => False

def Fits (s : State τ) (t : τ) : Loc τ → Prop
  | .rlockCas _ val => Readable val
  | .runlockCas val => val < 0 ∧ val%2=0
  | .wlockCas _ | .lockMutex .writer _ | .lockSlow .writer _ => s.held .writer t=0
  | .wait side _ true => s.place t = .granted side
  | .lockUnlock => t∉threads (s.queue .reader)
  | .failed => False
  | _ => True

/-- If readers have the lock and the bit is set, then a writer is queued. -/
def Settled (s : State τ) : Prop :=
  s.owner%2=1 → s.holders .writer=[] → s.queue .writer≠[]

/-- What holds while a thread at `loc` has the mutex of the object. -/
def Stage (s : State τ) : Loc τ → Prop
  | .emplace side _ deadlk =>
    s.picked=[] ∧ s.owner%2=1 ∧ deadlk=false ∧ (side=.reader → Settled s)
  | .emplaced _ _ deadlk => s.picked=[] ∧ Settled s ∧ deadlk=false
  | .unqueued => s.picked=[] ∧ s.owner%2=1
  | .addReaders ts =>
    s.picked=ts ∧ s.owner%2=1 ∧ (∀ side, s.queue side=[]) ∧ s.holders .writer=[] ∧
      ts.Nodup ∧ ∀ u∈ts, s.place u = .picked .reader
  | .clearBit => s.picked=[] ∧ s.owner%2=1 ∧ ∀ side, s.queue side=[]
  | .runlockHand => s.picked=[] ∧ Settled s ∧ s.owner = -1
  | .grantWriter own w =>
    s.picked = [w] ∧ s.owner%2=1 ∧ s.place w = .picked .writer ∧ (own=.reader → s.owner = -1)
  | .grantReaders ts =>
    s.picked=ts ∧ s.owner%2=1 ∧ (∀ side, s.queue side=[]) ∧ ts.Nodup ∧
      ∀ u∈ts, s.place u = .picked .reader
  | .wunlockZero => s.picked=[] ∧ Settled s ∧ ∀ side, s.queue side=[]
  | .runlockZero | .ensureEmpty => False
  | .awake ts _ =>
    s.picked=[] ∧ Settled s ∧
      ∀ u∈ts, (∃ side, s.place u = .granted side) ∧ (s.loc u).Awaits
  | _ => s.picked=[] ∧ Settled s

def Section (s : State τ) : Prop :=
  match s.mutex with
  | none => s.picked=[] ∧ Settled s
  | some t => Stage s (s.loc t)

structure Queues (s : State τ) : Prop where
  nodup : ∀ side, (threads (s.queue side)).Nodup
  waits : ∀ side, ∀ t∈threads (s.queue side), (s.loc t).place = .granted side

structure Inv (ids : Ids τ) (s : State τ) : Prop where
  lock : SharedHandOff.Inv s.lock
  word : Word ids s.owner s.holders
  locked : ∀ t, (s.loc t).Locked ↔ s.mutex = some t
  queues : Queues s
  waiters : ∀ side, s.queue side≠[] → s.owner%2=1
  fits : ∀ t, Fits s t (s.loc t)
  inside : Section s

/-- Without the mutex of the object a thread leaves the queues alone, and the owner word
too if its bit is set. -/
def Apart (s s' : State τ) : Prop :=
  s'.queue=s.queue ∧ s'.picked=s.picked ∧
    (s'.owner=s.owner ∧ s'.holders=s.holders ∨ s.owner%2=0 ∧ s'.owner%2=0)

structure Moved (ids : Ids τ) (s : State τ) (t : τ) (s' : State τ) : Prop where
  lock : s'.lock=s.lock ∨ SharedHandOff.Step t s.lock s'.lock
  word : Word ids s'.owner s'.holders
  loc : ∀ u, u≠t → s'.loc u = s.loc u
  mutex : ∀ u, u≠t → (s'.mutex = some u ↔ s.mutex = some u)
  locked : (s'.loc t).Locked ↔ s'.mutex = some t
  queues : Queues s'
  waiters : ∀ side, s'.queue side≠[] → s'.owner%2=1
  fits : Fits s' t (s'.loc t)
  apart : s.mutex≠some t → Apart s s'
  inside : s.mutex = some t ∨ s'.mutex = some t → Section s'
  awaits : (s.loc t).Awaits → s.mutex≠none → (s'.loc t).Awaits ∧ s'.place t = s.place t

theorem Inv.fits_at (h : Inv ids s) (hloc : s.loc t=l) : Fits s t l := hloc ▸ h.fits t

theorem Moved.held_eq (hm : Moved ids s t s') (hu : u≠t) (side : Side) :
    s'.held side u = s.held side u := by
  rcases hm.lock with heq | hstep
  · exact congrFun (congrFun (congrArg Lock.held heq) side) u
  · exact hstep.held_of_ne hu side

theorem Moved.granted (hm : Moved ids s t s') (hu : u≠t) (hgranted : s.place u = .granted side) :
    s'.place u = .granted side := by
  rcases hm.lock with heq | hstep
  · have hsame : s'.place u = s.place u := congrFun (congrArg Lock.place heq) u
    rw [hsame,hgranted]
  · exact hstep.granted_of_ne hu hgranted

theorem Moved.not_mem (hm : Moved ids s t s') (hu : u≠t) (hloc : (s.loc u).place = .granted side)
    (hnot : u∉threads (s.queue side)) : u∉threads (s'.queue side) := by
  have hqueued : s.place u≠.queued side := fun heq => hnot (place_iff.1.mp heq).2
  have hqueued' : s'.place u≠.queued side := by
    rcases hm.lock with heq | hstep
    · have hsame : s'.place u = s.place u := congrFun (congrArg Lock.place heq) u
      rwa [hsame]
    · exact hstep.not_queued_of_ne hu hqueued
  intro hmem
  refine hqueued' (place_queued ?_ hmem)
  rw [hm.loc u hu]
  exact hloc

theorem Moved.fits_of_ne (h : Inv ids s) (hm : Moved ids s t s') (hu : u≠t) :
    Fits s' u (s.loc u) := by
  cases hloc : s.loc u with
  | rlockCas timed val | runlockCas val | failed => exact h.fits_at hloc
  | wlockCas timed => exact (hm.held_eq hu .writer).trans (h.fits_at hloc)
  | lockMutex side timed | lockSlow side timed =>
    cases side with
    | reader => trivial
    | writer => exact (hm.held_eq hu .writer).trans (h.fits_at hloc)
  | wait side timed awoken =>
    cases awoken with
    | false => trivial
    | true => exact hm.granted hu (h.fits_at hloc)
  | lockUnlock => exact hm.not_mem hu (hloc ▸ rfl) (h.fits_at hloc)
  | _ => trivial

omit [DecidableEq τ] in
theorem Settled.apart (h : Settled s) (hapart : Apart s s') : Settled s' := by
  obtain ⟨hqueue,_,⟨howner,hholders⟩ | ⟨_,heven⟩⟩ := hapart
  · unfold Settled
    rw [hqueue,howner,hholders]
    exact h
  · intro hodd
    omega

structure Kept (s s' : State τ) : Prop where
  apart : Apart s s'
  picked : ∀ u side, s.place u = .picked side → s'.place u = .picked side
  awaits : ∀ u side, s.place u = .granted side → (s.loc u).Awaits →
    s'.place u = .granted side ∧ (s'.loc u).Awaits

theorem Kept.word (hk : Kept s s') (hodd : s.owner%2=1) :
    s'.owner=s.owner ∧ s'.holders=s.holders := by
  obtain ⟨_,_,hsame | ⟨heven,_⟩⟩ := hk.apart
  · exact hsame
  · omega

theorem Stage.kept (h : Stage s l) (hk : Kept s s') : Stage s' l := by
  have hqueue := hk.apart.1
  have hpicked := hk.apart.2.1
  cases l with
  | emplace side timed deadlk =>
    obtain ⟨hnil,hodd,hdeadlk,hsettled⟩ := h
    obtain ⟨howner,_⟩ := hk.word hodd
    exact ⟨hpicked.trans hnil,howner ▸ hodd,hdeadlk,fun hside => (hsettled hside).apart hk.apart⟩
  | emplaced side timed deadlk =>
    obtain ⟨hnil,hsettled,hdeadlk⟩ := h
    exact ⟨hpicked.trans hnil,hsettled.apart hk.apart,hdeadlk⟩
  | unqueued =>
    obtain ⟨hnil,hodd⟩ := h
    exact ⟨hpicked.trans hnil,(hk.word hodd).1 ▸ hodd⟩
  | addReaders ts =>
    obtain ⟨hts,hodd,hempty,hwriter,hnodup,hplaces⟩ := h
    obtain ⟨howner,hholders⟩ := hk.word hodd
    refine ⟨hpicked.trans hts,howner ▸ hodd,hqueue ▸ hempty,hholders ▸ hwriter,hnodup,?_⟩
    exact fun u hu => hk.picked u _ (hplaces u hu)
  | clearBit =>
    obtain ⟨hnil,hodd,hempty⟩ := h
    exact ⟨hpicked.trans hnil,(hk.word hodd).1 ▸ hodd,hqueue ▸ hempty⟩
  | runlockHand =>
    obtain ⟨hnil,hsettled,hlast⟩ := h
    exact ⟨hpicked.trans hnil,hsettled.apart hk.apart,(hk.word (by omega)).1.trans hlast⟩
  | grantWriter own w =>
    obtain ⟨hw,hodd,hplace,hlast⟩ := h
    obtain ⟨howner,_⟩ := hk.word hodd
    exact ⟨hpicked.trans hw,howner ▸ hodd,hk.picked w _ hplace,
      fun hown => howner.trans (hlast hown)⟩
  | grantReaders ts =>
    obtain ⟨hts,hodd,hempty,hnodup,hplaces⟩ := h
    refine ⟨hpicked.trans hts,(hk.word hodd).1 ▸ hodd,hqueue ▸ hempty,hnodup,?_⟩
    exact fun u hu => hk.picked u _ (hplaces u hu)
  | wunlockZero =>
    obtain ⟨hnil,hsettled,hempty⟩ := h
    exact ⟨hpicked.trans hnil,hsettled.apart hk.apart,hqueue ▸ hempty⟩
  | runlockZero | ensureEmpty => exact h
  | awake ts ret =>
    obtain ⟨hnil,hsettled,hts⟩ := h
    refine ⟨hpicked.trans hnil,hsettled.apart hk.apart,?_⟩
    intro u hu
    obtain ⟨⟨side,hgranted⟩,hawaits⟩ := hts u hu
    obtain ⟨hgranted',hawaits'⟩ := hk.awaits u side hgranted hawaits
    exact ⟨⟨side,hgranted'⟩,hawaits'⟩
  | _ => exact ⟨hpicked.trans h.1,h.2.apart hk.apart⟩

/-- A thread that was taken from a queue does not know it. -/
theorem Inv.awaits_of_picked (h : Inv ids s) (hpicked : s.place t = .picked side)
    (hlocked : ¬(s.loc t).Locked) : (s.loc t).Awaits := by
  have hloc := (place_iff.2.1.mp hpicked).1
  cases hl : s.loc t with
  | wait own timed awoken =>
    cases awoken with
    | false => trivial
    | true =>
      have hgranted : s.place t = .granted own := h.fits_at hl
      rw [hpicked] at hgranted
      cases hgranted
  | timedOut own | lockUnlock | timeoutLock own => trivial
  | emplaced own timed deadlk | unqueue own =>
    rw [hl] at hlocked
    exact absurd trivial hlocked
  | awake ts ret | leave ret =>
    rw [hl] at hloc
    cases ret <;> cases hloc
  | _ =>
    rw [hl] at hloc
    cases hloc

theorem Moved.kept (h : Inv ids s) (hm : Moved ids s t s') (hmutex : s.mutex≠none)
    (hother : s.mutex≠some t) : Kept s s' := by
  have hapart := hm.apart hother
  have hunlocked : ¬(s.loc t).Locked := fun hlocked => hother ((h.locked t).mp hlocked)
  have hplace : ∀ u, u≠t → s'.place u = s.place u := by
    intro u hu
    refine place_congr ?_ ?_ ?_
    · rw [hm.loc u hu]
    · intro side
      rw [hapart.1]
    · rw [hapart.2.1]
  refine ⟨hapart,?_,?_⟩
  · intro u side hpicked
    by_cases hu : u=t
    · subst hu
      rw [(hm.awaits (h.awaits_of_picked hpicked hunlocked) hmutex).2,hpicked]
    · rw [hplace u hu,hpicked]
  · intro u side hgranted hawaits
    by_cases hu : u=t
    · subst hu
      obtain ⟨hawaits',hsame⟩ := hm.awaits hawaits hmutex
      exact ⟨hsame.trans hgranted,hawaits'⟩
    · rw [hplace u hu,hm.loc u hu]
      exact ⟨hgranted,hawaits⟩

theorem Moved.section (h : Inv ids s) (hm : Moved ids s t s') : Section s' := by
  by_cases hinside : s.mutex = some t ∨ s'.mutex = some t
  · exact hm.inside hinside
  · rw [not_or] at hinside
    obtain ⟨hbefore,hafter⟩ := hinside
    have hsection := h.inside
    cases hmutex : s.mutex with
    | none =>
      have hmutex' : s'.mutex=none := by
        refine Option.eq_none_iff_forall_ne_some.mpr fun u hu => ?_
        by_cases hut : u=t
        · exact hafter (hut ▸ hu)
        · rw [(hm.mutex u hut).mp hu] at hmutex
          cases hmutex
      rw [Section,hmutex] at hsection
      rw [Section,hmutex']
      have hapart := hm.apart hbefore
      exact ⟨hapart.2.1.trans hsection.1,hsection.2.apart hapart⟩
    | some v =>
      have hv : v≠t := fun heq => hbefore (heq ▸ hmutex)
      rw [Section,hmutex] at hsection
      rw [Section,(hm.mutex v hv).mpr hmutex]
      change Stage s' (s'.loc v)
      rw [hm.loc v hv]
      exact hsection.kept (hm.kept h (by rw [hmutex]; rintro ⟨⟩) hbefore)

theorem Moved.inv (h : Inv ids s) (hm : Moved ids s t s') : Inv ids s' where
  lock := by
    rcases hm.lock with heq | hstep
    · rw [heq]
      exact h.lock
    · exact h.lock.step hstep
  word := hm.word
  locked := by
    intro u
    by_cases hu : u=t
    · subst hu
      exact hm.locked
    · rw [hm.loc u hu,hm.mutex u hu]
      exact h.locked u
  queues := hm.queues
  waiters := hm.waiters
  fits := by
    intro u
    by_cases hu : u=t
    · subst hu
      exact hm.fits
    · rw [hm.loc u hu]
      exact hm.fits_of_ne h hu
  inside := hm.section h

end PS3Native.Lv2Rwlock
