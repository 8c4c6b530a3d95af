import PS3Native.Lv2Sema

/-!
# The threads and permits of `lv2_sema`

A thread that waits is in the queue or was taken from it by a `post`. The word, the threads that
wait and the waits that have succeeded account for every permit; a thread that holds the mutex may
be between two changes of them.
-/
namespace PS3Native.Lv2Sema
open SleepQueue List

variable {τ : Type*} {attr : Attr} {s s' : State τ} {t u : τ}
  {l l' : Loc τ}

def State.waiters (s : State τ) : List τ := threads s.queue++s.due

structure Places (s : State τ) : Prop where
  locked : ∀ t, (s.loc t).Locked ↔ s.mutex = some t
  nodup : s.waiters.Nodup
  waits : ∀ t, t∈s.waiters ↔ (s.loc t).Waits
  taken : ∀ t, (s.loc t).Taken → t∈s.due
  waking : ∀ t, ∀ u∈(s.loc t).waking, u∈s.due ∧ ¬(s.loc u).Taken

/-- The thread goes on outside of the queue, or returns after it has taken itself out. -/
def Loc.GoesOn (l l' : Loc τ) : Prop :=
  l'.expired=l.expired ∨ l.expired=true ∧ l' = .returned .etimedout

inductive Shift (s : State τ) (t : τ) (s' : State τ) : Prop
  | keep (hperm : s'.waiters.Perm s.waiters) (hwaits : (s'.loc t).Waits ↔ (s.loc t).Waits)
    (hexpired : (s.loc t).GoesOn (s'.loc t))
  | join (hperm : s'.waiters.Perm (t::s.waiters)) (hout : ¬(s.loc t).Waits)
    (hexpired : (s.loc t).expired=false) (hin : (s'.loc t).Waits) (hmem : t∈threads s'.queue)
  | leave (hperm : s.waiters.Perm (t::s'.waiters)) (hout : ¬(s'.loc t).Waits)
    (hleave : t∈s.due ∨ (s'.loc t).expired=true)

structure Moved (s : State τ) (t : τ) (s' : State τ) : Prop where
  loc : ∀ u, u≠t → s'.loc u = s.loc u
  mutex : ∀ u, u≠t → (s'.mutex = some u ↔ s.mutex = some u)
  locked : (s'.loc t).Locked ↔ s'.mutex = some t
  shift : Shift s t s'
  due : ∀ u∈s.due, u∈s'.due ∨ u=t ∧ (s.loc t).Taken ∧ s'.loc t = .returned .ok
  taken : (s'.loc t).Taken → t∈s'.due ∧ s.mutex = some t
  waking : ∀ u∈(s'.loc t).waking, u∈s'.due ∧ ¬(s'.loc u).Taken

theorem Shift.nodup (h : Places s) (hshift : Shift s t s') : s'.waiters.Nodup := by
  cases hshift with
  | keep hperm _ _ => exact hperm.nodup_iff.mpr h.nodup
  | join hperm hout _ _ _ =>
    have hnot : t∉s.waiters := fun hmem => hout ((h.waits t).mp hmem)
    exact hperm.nodup_iff.mpr (nodup_cons.mpr ⟨hnot,h.nodup⟩)
  | leave hperm _ _ => exact (nodup_cons.mp (hperm.nodup_iff.mp h.nodup)).2

theorem Shift.mem_iff (hshift : Shift s t s') (hu : u≠t) : u∈s'.waiters ↔ u∈s.waiters := by
  cases hshift with
  | keep hperm _ _ => exact hperm.mem_iff
  | join hperm _ _ _ _ | leave hperm _ _ => rw [hperm.mem_iff,mem_cons,or_iff_right hu]

theorem Shift.self_iff (h : Places s) (hshift : Shift s t s') : t∈s'.waiters ↔ (s'.loc t).Waits := by
  cases hshift with
  | keep hperm hwaits _ => rw [hperm.mem_iff,hwaits,h.waits t]
  | join hperm _ _ hin _ => exact iff_of_true (hperm.mem_iff.mpr mem_cons_self) hin
  | leave hperm hout _ =>
    exact iff_of_false (nodup_cons.mp (hperm.nodup_iff.mp h.nodup)).1 hout

theorem Loc.locked_of_waking {l : Loc τ} (h : u∈l.waking) : l.Locked := by
  cases l with
  | postWake n ts | awake ts => trivial
  | _ => cases h

theorem Loc.not_taken_of_waking {l : Loc τ} (h : u∈l.waking) : ¬l.Taken := by
  cases l with
  | postWake n ts | awake ts => exact id
  | _ => cases h

/-- Who wakes a thread up holds the mutex, so that thread does not leave meanwhile. -/
theorem Moved.waking_of_ne (h : Places s) (hm : Moved s t s') {v : τ} (hv : v≠t)
    (hu : u∈(s.loc v).waking) : u∈s'.due ∧ ¬(s'.loc u).Taken := by
  obtain ⟨hdue,hnot⟩ := h.waking v u hu
  constructor
  · rcases hm.due u hdue with hdue | ⟨rfl,htaken,-⟩
    · exact hdue
    · exact absurd htaken hnot
  · intro htaken
    by_cases hut : u=t
    · subst hut
      have hmutex := (hm.taken htaken).2
      rw [(h.locked v).mp (Loc.locked_of_waking hu)] at hmutex
      exact hv (Option.some.inj hmutex)
    · rw [hm.loc u hut] at htaken
      exact hnot htaken

theorem Moved.places (h : Places s) (hm : Moved s t s') : Places s' where
  locked := by
    intro u
    by_cases hut : u=t
    · exact hut ▸ hm.locked
    · rw [hm.loc u hut,hm.mutex u hut]
      exact h.locked u
  nodup := hm.shift.nodup h
  waits := by
    intro u
    by_cases hut : u=t
    · exact hut ▸ hm.shift.self_iff h
    · rw [hm.loc u hut,hm.shift.mem_iff hut]
      exact h.waits u
  taken := by
    intro u htaken
    by_cases hut : u=t
    · subst hut
      exact (hm.taken htaken).1
    · rw [hm.loc u hut] at htaken
      rcases hm.due u (h.taken u htaken) with hdue | ⟨hself,-⟩
      · exact hdue
      · exact absurd hself hut
  waking := by
    intro v u hu
    by_cases hvt : v=t
    · exact hm.waking u (hvt ▸ hu)
    · rw [hm.loc v hvt] at hu
      exact hm.waking_of_ne h hvt hu

section Steps

variable [DecidableEq τ]

theorem go_loc_self (s : State τ) (t : τ) (l : Loc τ) :
    (s.go t l).loc t=l := Function.update_self ..

theorem go_loc_of_ne (s : State τ) (l : Loc τ) (hu : u≠t) : (s.go t l).loc u = s.loc u :=
  Function.update_of_ne hu ..

/-- A step from `l` to `l'` leaves the thread where it is with regard to the queue. -/
structure Loc.Aside (l l' : Loc τ) : Prop where
  waits : l'.Waits ↔ l.Waits
  taken : ¬l'.Taken
  waking : l'.waking ⊆ l.waking
  expired : l'.expired=l.expired

/-- What a step that touches neither the mutex nor the queue keeps of a place. -/
def Loc.view (l : Loc τ) : Prop × Prop × List τ × Bool := (l.Locked,l.Waits,l.waking,l.expired)

section

variable (h : Places s) (hloc : s.loc t=l)

include h hloc

theorem Moved.act {s₁ : State τ} (hsame : s₁.loc=s.loc) (hqueue : s₁.queue=s.queue)
    (hdue : s₁.due=s.due) (hmutex : ∀ u, u≠t → (s₁.mutex = some u ↔ s.mutex = some u))
    (hlocked : l'.Locked ↔ s₁.mutex = some t) (hwaits : l'.Waits ↔ l.Waits)
    (htaken : l'.Taken → t∈s.due ∧ s.mutex = some t) (hwaking : l'.waking ⊆ l.waking)
    (hexpired : l.GoesOn l') : Moved s t (s₁.go t l') where
  loc := by
    intro u hut
    rw [go_loc_of_ne s₁ l' hut,hsame]
  mutex := hmutex
  locked := by
    rw [go_loc_self]
    exact hlocked
  shift := by
    have hsame : (s₁.go t l').waiters=s.waiters := congrArg₂ (threads ·++·) hqueue hdue
    refine .keep (hsame ▸ .refl _) ?_ ?_
    · rw [go_loc_self,hloc]
      exact hwaits
    · rw [go_loc_self,hloc]
      exact hexpired
  due := by
    intro u hu
    exact .inl (hdue ▸ hu : u∈s₁.due)
  taken := by
    rw [go_loc_self]
    exact fun hl => hdue ▸ htaken hl
  waking := by
    intro u hu
    rw [go_loc_self] at hu
    obtain ⟨hmem,hnot⟩ := h.waking t u (hloc ▸ hwaking hu)
    refine ⟨(hdue ▸ hmem : u∈s₁.due),?_⟩
    by_cases hut : u=t
    · rw [hut,go_loc_self]
      exact Loc.not_taken_of_waking hu
    · rw [go_loc_of_ne s₁ l' hut,hsame]
      exact hnot

omit [DecidableEq τ] in
theorem Places.mutex_iff : s.mutex = some t ↔ l.Locked := by
  rw [← hloc,h.locked t]

theorem Moved.go {s₁ : State τ} (hsame : s₁.loc=s.loc) (hqueue : s₁.queue=s.queue)
    (hdue : s₁.due=s.due) (hmutex : s₁.mutex=s.mutex) (hview : l'.view=l.view)
    (htaken : ¬l'.Taken) : Moved s t (s₁.go t l') := by
  simp only [Loc.view,Prod.mk.injEq] at hview
  obtain ⟨hlocked,hwaits,hwaking,hexpired⟩ := hview
  refine .act h hloc hsame hqueue hdue ?_ ?_ (iff_of_eq hwaits) (fun hl => absurd hl htaken)
    (hwaking ▸ List.Subset.refl _) (.inl hexpired)
  · intro u _
    rw [hmutex]
  · rw [hmutex,h.mutex_iff hloc,hlocked]

theorem Moved.enter (henter : s.enter t l' = some s') (hlocked : l'.Locked) (haside : l.Aside l') :
    Moved s t s' := by
  unfold State.enter at henter
  split_ifs at henter with hfree
  cases henter
  refine .act h hloc rfl rfl rfl ?_ (iff_of_true hlocked rfl) haside.waits
    (fun hl => absurd hl haside.taken) haside.waking (.inl haside.expired)
  intro u hut
  rw [hfree]
  exact iff_of_false (fun heq => hut (Option.some.inj heq).symm) (Option.some_ne_none _).symm

omit [DecidableEq τ] in
theorem Places.mutex_of_ne (hlocked : l.Locked) (hu : u≠t) :
    (none : Option τ) = some u ↔ s.mutex = some u := by
  rw [(h.mutex_iff hloc).mpr hlocked]
  exact iff_of_false (Option.some_ne_none _).symm (fun heq => hu (Option.some.inj heq).symm)

theorem Moved.exit (hl : l.Locked) (hlocked : ¬l'.Locked) (hwaits : l'.Waits ↔ l.Waits)
    (htaken : ¬l'.Taken) (hwaking : l'.waking ⊆ l.waking) (hexpired : l.GoesOn l') :
    Moved s t ({s with mutex := none}.go t l') :=
  .act h hloc rfl rfl rfl (fun _ hut => h.mutex_of_ne hloc hl hut)
    (iff_of_false hlocked (Option.some_ne_none _).symm) hwaits (fun hl => absurd hl htaken) hwaking
    hexpired

end

end Steps

/-- The thread has counted itself in the word and is not in the queue. -/
def Loc.pending : Loc τ → ℕ
  | .emplace _ | .restore => 1
  | _ => 0

/-- How many threads are in the queue that are not counted in the word any more. -/
def Loc.wake : Loc τ → ℕ
  | .postWake n _ => n
  | _ => 0

/-- What a thread that holds the mutex of the object has still to do. -/
def State.holder (s : State τ) (f : Loc τ → ℕ) : ℕ := s.mutex.elim 0 fun t => f (s.loc t)

theorem State.holder_pending_le (s : State τ) : s.holder Loc.pending ≤ 1 := by
  rw [State.holder]
  cases s.mutex with
  | none => exact Nat.zero_le 1
  | some t =>
    rw [Option.elim_some]
    cases s.loc t with
    | emplace timed | restore => exact Nat.le_refl 1
    | _ => exact Nat.zero_le 1

structure Balanced (attr : Attr) (val posted : ℤ) (waited queued due pending wake : ℕ) : Prop where
  bound : val ≤ attr.max.toInt
  queue : (queued : ℤ)+pending = wake+max 0 (-val)
  permits : val+waited+due+queued+pending = attr.initial.toInt+posted

def State.Counts (attr : Attr) (s : State τ) : Prop :=
  Balanced attr s.val s.posted s.waited s.queue.length s.due.length (s.holder Loc.pending)
    (s.holder Loc.wake)

def Loc.Fits (attr : Attr) : Loc τ → Prop
  | .failed => False
  | .waitCas _ val => 0 < val
  | .postCas count val => 0 ≤ val ∧ 0 < count.toInt ∧ count.toInt ≤ attr.max.toInt-val
  | .postMutex count | .postAdd count => 0 < count.toInt
  | _ => True

structure Inv (attr : Attr) (s : State τ) : Prop where
  accepted : 0 < attr.max.toInt
  places : Places s
  counts : s.Counts attr
  fits : ∀ t, (s.loc t).Fits attr

structure Good (attr : Attr) (s : State τ) (t : τ) (s' : State τ) : Prop where
  moved : Moved s t s'
  counts : s'.Counts attr
  fits : (s'.loc t).Fits attr

variable [DecidableEq τ]

omit [DecidableEq τ] in
theorem holder_at (h : Places s) (hloc : s.loc t=l) (hl : l.Locked) (f : Loc τ → ℕ) :
    s.holder f = f l := by
  rw [State.holder,(h.mutex_iff hloc).mpr hl,← hloc]
  rfl

theorem counts_go {s₁ : State τ} (hmutex : s₁.mutex = some t)
    (h : Balanced attr s₁.val s₁.posted s₁.waited s₁.queue.length s₁.due.length l'.pending l'.wake) :
    (s₁.go t l').Counts attr := by
  have hholder : ∀ f : Loc τ → ℕ, (s₁.go t l').holder f = f l' := by
    intro f
    have hsame : (s₁.go t l').mutex = some t := hmutex
    rw [State.holder,hsame,Option.elim_some,go_loc_self]
  rw [State.Counts,hholder,hholder]
  exact h

theorem holder_keep (s₁ : State τ) (hloc : s.loc t=l) (hsame : s₁.loc=s.loc)
    (hmutex : s₁.mutex=s.mutex) {f : Loc τ → ℕ} (hf : f l' = f l) :
    (s₁.go t l').holder f = s.holder f := by
  have hholder : (s₁.go t l').mutex=s.mutex := hmutex
  rw [State.holder,State.holder,hholder]
  cases s.mutex with
  | none => rfl
  | some u =>
    rw [Option.elim_some,Option.elim_some]
    by_cases hut : u=t
    · rw [hut,go_loc_self,hloc,hf]
    · rw [go_loc_of_ne s₁ l' hut,hsame]

variable (h : Inv attr s)

include h

theorem Good.inv (hg : Good attr s t s') : Inv attr s' where
  accepted := h.accepted
  places := hg.moved.places h.places
  counts := hg.counts
  fits := by
    intro u
    by_cases hut : u=t
    · exact hut ▸ hg.fits
    · rw [hg.moved.loc u hut]
      exact h.fits u

variable (hloc : s.loc t=l)

include hloc

omit [DecidableEq τ] in
theorem Inv.fits_at : l.Fits attr := hloc ▸ h.fits t

omit [DecidableEq τ] in
/-- The account when a thread at `l` holds the mutex of the object. -/
theorem Inv.balanced (hl : l.Locked) :
    Balanced attr s.val s.posted s.waited s.queue.length s.due.length l.pending l.wake := by
  have hcounts := h.counts
  rwa [State.Counts,holder_at h.places hloc hl,holder_at h.places hloc hl] at hcounts

theorem Good.go (hview : l'.view=l.view) (htaken : ¬l'.Taken) (hpending : l'.pending=l.pending)
    (hwake : l'.wake=l.wake) (hfits : l'.Fits attr) : Good attr s t (s.go t l') where
  moved := .go h.places hloc rfl rfl rfl rfl hview htaken
  counts := by
    rw [State.Counts,holder_keep s hloc rfl rfl hpending,holder_keep s hloc rfl rfl hwake]
    exact h.counts
  fits := by
    rw [go_loc_self]
    exact hfits

theorem Good.enter (henter : s.enter t l' = some s') (hlocked : l'.Locked) (haside : l.Aside l')
    (hpending : l'.pending=0) (hwake : l'.wake=0) (hfits : l'.Fits attr) :
    Good attr s t s' := by
  have hmoved := Moved.enter h.places hloc henter hlocked haside
  unfold State.enter at henter
  split_ifs at henter with hfree
  cases henter
  have hcounts := h.counts
  have hnone : ∀ f, s.holder f=0 := by
    intro f
    rw [State.holder,hfree]
    rfl
  rw [State.Counts,hnone,hnone] at hcounts
  refine ⟨hmoved,?_,?_⟩
  · refine counts_go rfl ?_
    rw [hpending,hwake]
    exact hcounts
  · rw [go_loc_self]
    exact hfits

theorem Good.exit (hl : l.Locked) (hlocked : ¬l'.Locked) (hwaits : l'.Waits ↔ l.Waits)
    (htaken : ¬l'.Taken) (hwaking : l'.waking ⊆ l.waking) (hexpired : l.GoesOn l')
    (hpending : l.pending=0) (hwake : l.wake=0) (hfits : l'.Fits attr) :
    Good attr s t ({s with mutex := none}.go t l') where
  moved := .exit h.places hloc hl hlocked hwaits htaken hwaking hexpired
  counts := by
    have hbalanced := h.balanced hloc hl
    rw [hpending,hwake] at hbalanced
    exact hbalanced
  fits := by
    rw [go_loc_self]
    exact hfits

theorem Good.word {s₁ : State τ} (hsame : s₁.loc=s.loc) (hqueue : s₁.queue=s.queue)
    (hdue : s₁.due=s.due) (hmutex : s₁.mutex=s.mutex) (hview : l'.view=l.view)
    (htaken : ¬l'.Taken) (hfits : l'.Fits attr) (hcounts : (s₁.go t l').Counts attr) :
    Good attr s t (s₁.go t l') where
  moved := .go h.places hloc hsame hqueue hdue hmutex hview htaken
  counts := hcounts
  fits := by
    rw [go_loc_self]
    exact hfits

/-- A wait takes a permit that is left. -/
theorem Inv.decrement (hval : 0 < s.val) (hpending : l'.pending=l.pending)
    (hwake : l'.wake=l.wake) : (s.decrement.go t l').Counts attr := by
  obtain ⟨hbound,hqueue,hpermits⟩ := h.counts
  rw [State.Counts,holder_keep s.decrement hloc rfl rfl hpending,
    holder_keep s.decrement hloc rfl rfl hwake]
  constructor
  · change s.val-1 ≤ _
    omega
  · change (s.queue.length : ℤ)+_ = _+max 0 (-(s.val-1))
    omega
  · change s.val-1+((s.waited+1 : ℕ) : ℤ)+s.due.length+s.queue.length+_ = _+s.posted
    omega

end PS3Native.Lv2Sema
