import Mathlib.Data.List.Nodup

/-!
# A lock that is handed over

Who finds the lock taken joins a queue, and who gives the lock up hands it to a thread of the queue:
at once, or first by taking it from the queue and then by naming it the owner. A queued thread may
give up. The lock counts how often its owner has taken it again.
-/
namespace PS3Native.HandOff
open Function List

inductive Ticket
  | outside | queued | handed | expired
  deriving DecidableEq, Repr

/-- A thread leaves the queue once, by a hand-off or because it gives up. -/
inductive Ticket.Next : Ticket → Ticket → Prop
  | stay (ticket : Ticket) : Next ticket ticket
  | enter : Next .outside .queued
  | hand : Next .queued .handed
  | expire : Next .queued .expired
  | accept : Next .handed .outside
  | giveUp : Next .expired .outside

/-- What a thread is to the lock. A thread that unlocks has still to look at the count,
a thread that releases has found it zero, and one that passes the lock has taken a
thread from the queue. -/
inductive Role (τ : Type*)
  | outside | waiting | expired | unlocking | releasing
  | passing (receiver : τ)
  deriving DecidableEq, Repr

def Role.depth {τ : Type*} (count : ℕ) : Role τ → ℕ
  | .outside => count+1
  | .unlocking => count
  | _ => 0

/-- `held` counts the calls of a thread that have got the lock, less those that have
begun to give it up. -/
structure Lock (τ α : Type*) where
  owner : Option τ
  count : ℕ
  queue : List α
  role : τ → Role τ
  held : τ → ℕ

variable {τ α : Type*} [DecidableEq τ]

/-- What thread `t` may do. `id` names the thread of an entry and `First` says which
entry of a queue is served first. -/
inductive Step (id : α → τ) (First : List α → α → Prop) (t : τ) (s : Lock τ α) : Lock τ α → Prop
  | take (hrole : s.role t = .outside) (howner : s.owner=none) :
    Step id First t s {s with owner := some t, held := update s.held t (s.held t+1)}
  | again (hrole : s.role t = .outside) (howner : s.owner = some t) :
    Step id First t s {s with count := s.count+1, held := update s.held t (s.held t+1)}
  | push (e : α) (he : id e=t) (hrole : s.role t = .outside) (howner : s.owner≠none)
    (hother : s.owner≠some t) :
    Step id First t s {s with queue := e::s.queue, role := update s.role t .waiting}
  | unlock (hrole : s.role t = .outside) (howner : s.owner = some t) :
    Step id First t s { s with
      role := update s.role t .unlocking, held := update s.held t (s.held t-1) }
  | leave (hrole : s.role t = .unlocking) (hcount : 0 < s.count) :
    Step id First t s {s with count := s.count-1, role := update s.role t .outside}
  | release (hrole : s.role t = .unlocking) (hcount : s.count=0) :
    Step id First t s {s with role := update s.role t .releasing}
  | free (hrole : s.role t = .releasing) (hqueue : s.queue=[]) :
    Step id First t s {s with owner := none, role := update s.role t .outside}
  | hand (e : α) (queue : List α) (hrole : s.role t = .releasing) (hfirst : First s.queue e)
    (hperm : s.queue.Perm (e::queue)) :
    Step id First t s { s with
      owner := some (id e), queue := queue, role := update s.role t .outside }
  | pick (e : α) (queue : List α) (hrole : s.role t = .releasing) (hfirst : First s.queue e)
    (hperm : s.queue.Perm (e::queue)) :
    Step id First t s {s with queue := queue, role := update s.role t (.passing (id e))}
  | give (u : τ) (hrole : s.role t = .passing u) :
    Step id First t s {s with owner := some u, role := update s.role t .outside}
  | expire (e : α) (queue : List α) (he : id e=t) (hperm : s.queue.Perm (e::queue)) :
    Step id First t s {s with queue := queue, role := update s.role t .expired}
  | accept (hrole : s.role t = .waiting) (howner : s.owner = some t) :
    Step id First t s { s with
      role := update s.role t .outside, held := update s.held t (s.held t+1) }
  | giveUp (hrole : s.role t = .expired) :
    Step id First t s {s with role := update s.role t .outside}

def Role.ticket : Role τ → Ticket
  | .waiting => .handed
  | .expired => .expired
  | _ => .outside

def ticket (id : α → τ) (s : Lock τ α) (t : τ) : Ticket :=
  if t∈s.queue.map id then .queued else (s.role t).ticket

structure QueueInv (owner : Option τ) (queue : List τ) (role : τ → Role τ) : Prop where
  nodup : queue.Nodup
  waiting : ∀ t∈queue, role t = .waiting ∧ owner≠some t
  handed : ∀ t, role t = .waiting → t∉queue → owner = some t ∨ ∃ u, role u = .passing t
  passing : ∀ u t, role u = .passing t → role t = .waiting ∧ t∉queue

def Role.Aside (r : Role τ) : Prop := r≠.waiting ∧ ∀ u, r≠.passing u

omit [DecidableEq τ] in
theorem Role.aside_outside : (Role.outside : Role τ).Aside := ⟨nofun,nofun⟩

omit [DecidableEq τ] in
theorem Role.aside_unlocking : (Role.unlocking : Role τ).Aside := ⟨nofun,nofun⟩

omit [DecidableEq τ] in
theorem Role.aside_releasing : (Role.releasing : Role τ).Aside := ⟨nofun,nofun⟩

omit [DecidableEq τ] in
theorem Role.aside_expired : (Role.expired : Role τ).Aside := ⟨nofun,nofun⟩

section Queue
variable {owner owner' : Option τ} {queue queue' : List τ} {role : τ → Role τ} {t u v : τ}
  {r : Role τ}

theorem of_role_update {P : Role τ → Prop} (hu : P (update role t r u)) (hr : ¬P r) :
    u≠t ∧ P (role u) := by
  by_cases hut : u=t
  · subst hut
    rw [update_self] at hu
    exact absurd hu hr
  · rw [update_of_ne hut] at hu
    exact ⟨hut,hu⟩

theorem role_update {r' : Role τ} (ht : role t≠r') (hr : r≠r') :
    update role t r u=r' ↔ role u=r' := by
  by_cases hu : u=t
  · subst hu
    rw [update_self]
    exact iff_of_false hr ht
  · rw [update_of_ne hu]

omit [DecidableEq τ] in
/-- The owner changes, when the old one does not wait and the new one is not in the queue. -/
theorem QueueInv.reown (h : QueueInv owner queue role) (hout : ∀ u∈queue, owner'≠some u)
    (hkeep : ∀ u, role u = .waiting → owner≠some u) : QueueInv owner' queue role where
  __ := h
  waiting := by
    intro u hu
    exact ⟨(h.waiting u hu).1,hout u hu⟩
  handed := by
    intro u hu hnot
    rcases h.handed u hu hnot with howner | hpassing
    · exact absurd howner (hkeep u hu)
    · exact .inr hpassing

omit [DecidableEq τ] in
theorem mem_of_perm_cons (hperm : queue.Perm (v::queue')) (hnodup : queue.Nodup) :
    v∈queue ∧ queue'.Nodup ∧ ∀ u, u∈queue' ↔ u∈queue ∧ u≠v := by
  obtain ⟨hnot,hnodup'⟩ := nodup_cons.mp (hperm.nodup_iff.mp hnodup)
  refine ⟨hperm.mem_iff.mpr mem_cons_self,hnodup',?_⟩
  intro u
  rw [hperm.mem_iff,mem_cons]
  constructor
  · intro hu
    exact ⟨.inr hu,fun heq => hnot (heq ▸ hu)⟩
  · rintro ⟨hu | hu,hne⟩
    · exact absurd hu hne
    · exact hu

omit [DecidableEq τ] in
/-- A thread that waits outside of the queue gets the lock from another thread, if the
owner does not wait. -/
theorem QueueInv.passed (h : QueueInv owner queue role) (howner : owner = some t)
    (ht : (role t).Aside) (hu : role u = .waiting) (hnot : u∉queue) :
    ∃ w≠t, role w = .passing u := by
  rcases h.handed u hu hnot with hou | ⟨w,hw⟩
  · rw [howner] at hou
    cases hou
    exact absurd hu ht.1
  · refine ⟨w,?_,hw⟩
    rintro rfl
    exact ht.2 u hw

section

variable (h : QueueInv owner queue role)

include h

/-- A thread whose roles have nothing to do with the queue changes them. -/
theorem QueueInv.aside (ht : (role t).Aside) (hr : r.Aside) :
    QueueInv owner queue (update role t r) where
  nodup := h.nodup
  waiting := by
    intro u hu
    exact ⟨(role_update ht.1 hr.1).mpr (h.waiting u hu).1,(h.waiting u hu).2⟩
  handed := by
    intro u hu hnot
    rcases h.handed u ((role_update ht.1 hr.1).mp hu) hnot with howner | ⟨v,hv⟩
    · exact .inl howner
    · exact .inr ⟨v,(role_update (ht.2 u) (hr.2 u)).mpr hv⟩
  passing := by
    intro v u hv
    obtain ⟨hwait,hnot⟩ := h.passing v u ((role_update (ht.2 u) (hr.2 u)).mp hv)
    exact ⟨(role_update ht.1 hr.1).mpr hwait,hnot⟩

theorem QueueInv.push (ht : (role t).Aside) (hother : owner≠some t) :
    QueueInv owner (t::queue) (update role t .waiting) where
  nodup := by
    exact nodup_cons.mpr ⟨fun hmem => ht.1 (h.waiting t hmem).1,h.nodup⟩
  waiting := by
    intro u hu
    by_cases hut : u=t
    · subst hut
      exact ⟨update_self ..,hother⟩
    · rw [update_of_ne hut]
      exact h.waiting u ((mem_cons.mp hu).resolve_left hut)
  handed := by
    intro u hu hnot
    rw [mem_cons,not_or] at hnot
    rw [update_of_ne hnot.1] at hu
    rcases h.handed u hu hnot.2 with howner | ⟨v,hv⟩
    · exact .inl howner
    · exact .inr ⟨v,(role_update (ht.2 u) (by nofun)).mpr hv⟩
  passing := by
    intro v u hv
    obtain ⟨hwait,hnot⟩ := h.passing v u ((role_update (ht.2 u) (by nofun)).mp hv)
    have hne : u≠t := by
      rintro rfl
      exact ht.1 hwait
    rw [update_of_ne hne,mem_cons,not_or]
    exact ⟨hwait,hne,hnot⟩

theorem QueueInv.hand (hperm : queue.Perm (v::queue')) (howner : owner = some t)
    (ht : (role t).Aside) : QueueInv (some v) queue' (update role t .outside) := by
  obtain ⟨-,hnodup,hmem⟩ := mem_of_perm_cons hperm h.nodup
  refine ⟨hnodup,?_,?_,?_⟩
  · intro u hu
    obtain ⟨hu,hne⟩ := (hmem u).mp hu
    refine ⟨(role_update ht.1 (by nofun)).mpr (h.waiting u hu).1,?_⟩
    intro heq
    exact hne (Option.some.inj heq).symm
  · intro u hu hnot
    rw [hmem,not_and_not_right] at hnot
    by_cases huq : u∈queue
    · exact .inl (congrArg some (hnot huq).symm)
    · obtain ⟨w,hwt,hw⟩ := h.passed howner ht ((role_update ht.1 (by nofun)).mp hu) huq
      refine .inr ⟨w,?_⟩
      rwa [update_of_ne hwt]
  · intro w u hw
    obtain ⟨hu,hnot⟩ := h.passing w u ((role_update (ht.2 u) (by nofun)).mp hw)
    exact ⟨(role_update ht.1 (by nofun)).mpr hu,fun hu => hnot ((hmem u).mp hu).1⟩

theorem QueueInv.pick (hperm : queue.Perm (v::queue')) (howner : owner = some t)
    (ht : (role t).Aside) : QueueInv owner queue' (update role t (.passing v)) := by
  obtain ⟨hv,hnodup,hmem⟩ := mem_of_perm_cons hperm h.nodup
  have hwait : ∀ u, update role t (.passing v) u = .waiting ↔ role u = .waiting :=
    fun u => role_update ht.1 (by nofun)
  refine ⟨hnodup,?_,?_,?_⟩
  · intro u hu
    have hu := ((hmem u).mp hu).1
    exact ⟨(hwait u).mpr (h.waiting u hu).1,(h.waiting u hu).2⟩
  · intro u hu hnot
    rw [hmem,not_and_not_right] at hnot
    by_cases huq : u∈queue
    · refine .inr ⟨t,?_⟩
      rw [update_self,hnot huq]
    · obtain ⟨w,hwt,hw⟩ := h.passed howner ht ((hwait u).mp hu) huq
      refine .inr ⟨w,?_⟩
      rwa [update_of_ne hwt]
  · intro w u hw
    by_cases hwt : w=t
    · subst hwt
      rw [update_self] at hw
      cases hw
      exact ⟨(hwait v).mpr (h.waiting v hv).1,fun hv => ((hmem v).mp hv).2 rfl⟩
    · rw [update_of_ne hwt] at hw
      obtain ⟨hu,hnot⟩ := h.passing w u hw
      exact ⟨(hwait u).mpr hu,fun hu => hnot ((hmem u).mp hu).1⟩

theorem QueueInv.give (howner : owner = some t) (ht : role t = .passing v)
    (hone : ∀ w u, role w = .passing u → owner = some w) :
    QueueInv (some v) queue (update role t .outside) := by
  have hwait : ∀ u, update role t .outside u = .waiting ↔ role u = .waiting :=
    fun u => role_update (by rw [ht]; nofun) (by nofun)
  have honly : ∀ w u, role w = .passing u → w=t ∧ u=v := by
    intro w u hw
    have hwt := hone w u hw
    rw [howner] at hwt
    cases hwt
    rw [ht] at hw
    cases hw
    exact ⟨rfl,rfl⟩
  obtain ⟨hv,hnotv⟩ := h.passing t v ht
  refine ⟨h.nodup,?_,?_,?_⟩
  · intro u hu
    refine ⟨(hwait u).mpr (h.waiting u hu).1,?_⟩
    intro heq
    cases heq
    exact hnotv hu
  · intro u hu hnot
    rcases h.handed u ((hwait u).mp hu) hnot with hou | ⟨w,hw⟩
    · rw [howner] at hou
      cases hou
      rw [update_self] at hu
      cases hu
    · exact .inl (congrArg some (honly w u hw).2.symm)
  · intro w u hw
    obtain ⟨hwt,hw⟩ := of_role_update (P := (· = .passing u)) hw nofun
    exact absurd (honly w u hw).1 hwt

/-- A waiting thread that is in the queue gives up, or one that is the owner goes. -/
theorem QueueInv.depart (hr : r.Aside) (hnodup : queue'.Nodup)
    (hmem : ∀ u, u∈queue' ↔ u∈queue ∧ u≠t) (ht : role t = .waiting)
    (hpass : t∈queue ∨ ∀ w u, role w≠.passing u) : QueueInv owner queue' (update role t r) := by
  have hwait : ∀ u, u≠t → (update role t r u = .waiting ↔ role u = .waiting) := by
    intro u hu
    rw [update_of_ne hu]
  have hpassing : ∀ w u, update role t r w = .passing u ↔ role w = .passing u :=
    fun w u => role_update (by rw [ht]; nofun) (hr.2 u)
  refine ⟨hnodup,?_,?_,?_⟩
  · intro u hu
    obtain ⟨hu,hne⟩ := (hmem u).mp hu
    exact ⟨(hwait u hne).mpr (h.waiting u hu).1,(h.waiting u hu).2⟩
  · intro u hu hnot
    have hne : u≠t := by
      rintro rfl
      rw [update_self] at hu
      exact hr.1 hu
    have hnotq : u∉queue := fun hu => hnot ((hmem u).mpr ⟨hu,hne⟩)
    rcases h.handed u ((hwait u hne).mp hu) hnotq with hou | ⟨w,hw⟩
    · exact .inl hou
    · exact .inr ⟨w,(hpassing w u).mpr hw⟩
  · intro w u hw
    have hwu := (hpassing w u).mp hw
    obtain ⟨hu,hnot⟩ := h.passing w u hwu
    have hne : u≠t := by
      rintro rfl
      rcases hpass with hpass | hpass
      · exact hnot hpass
      · exact hpass w u hwu
    exact ⟨(hwait u hne).mpr hu,fun hu => hnot ((hmem u).mp hu).1⟩

end

end Queue

end PS3Native.HandOff
