import PS3Native.HandOff

/-!
# The owner of a lock that is handed over

Only the owner has the lock, as often as the count says, and every thread leaves the
queue once.
-/
namespace PS3Native.HandOff
open Function List

variable {τ α : Type*} [DecidableEq τ]

def Role.Giving : Role τ → Prop
  | .unlocking | .releasing | .passing _ => True
  | _ => False

/-- The count is one of the owner's while it may take the lock again. -/
def Role.Counts : Role τ → Prop
  | .outside | .unlocking => True
  | _ => False

structure OwnerInv (owner : Option τ) (queue : List α) (count : ℕ) (role : τ → Role τ) (held : τ → ℕ) :
    Prop where
  giving : ∀ t, (role t).Giving → owner = some t
  expired : ∀ t, role t = .expired → owner≠some t
  free : owner=none → queue=[] ∧ count=0
  fresh : ∀ t, owner = some t → ¬(role t).Counts → count=0
  held_eq : ∀ t, held t = if owner = some t then (role t).depth count else 0

section Owner
variable {owner : Option τ} {queue queue' : List α} {count count' : ℕ} {role : τ → Role τ}
  {held held' : τ → ℕ} {t v : τ} {r : Role τ}

theorem OwnerInv.own (h : OwnerInv owner queue count role held) (howner : owner = some t)
    (hexpired : r≠.expired) (hcount : ¬r.Counts → count'=0) (hheld : held' t = r.depth count')
    (hothers : ∀ u, u≠t → held' u = held u) :
    OwnerInv owner queue' count' (update role t r) held' where
  giving := by
    intro u hu
    by_cases hut : u=t
    · rw [hut,howner]
    · rw [update_of_ne hut] at hu
      exact h.giving u hu
  expired := fun u hu => h.expired u (of_role_update (P := (· = .expired)) hu hexpired).2
  free := by
    intro hnone
    rw [howner] at hnone
    cases hnone
  fresh := by
    intro u hu hcounts
    rw [howner] at hu
    cases hu
    rw [update_self] at hcounts
    exact hcount hcounts
  held_eq := by
    intro u
    by_cases hut : u=t
    · subst hut
      rw [if_pos howner,update_self,hheld]
    · rw [hothers u hut,h.held_eq u,update_of_ne hut,howner]
      have hne : some t≠some u := fun heq => hut (Option.some.inj heq).symm
      rw [if_neg hne,if_neg hne]

theorem OwnerInv.other (h : OwnerInv owner queue count role held) (hother : owner≠some t)
    (hgiving : ¬r.Giving) (hfree : owner=none → queue'=[]) :
    OwnerInv owner queue' count (update role t r) held where
  giving := fun u hu => h.giving u (of_role_update hu hgiving).2
  expired := by
    intro u hu
    by_cases hut : u=t
    · rwa [hut]
    · rw [update_of_ne hut] at hu
      exact h.expired u hu
  free := by
    intro hnone
    exact ⟨hfree hnone,(h.free hnone).2⟩
  fresh := by
    intro u hu hcounts
    have hut : u≠t := fun hut => hother (hut ▸ hu)
    rw [update_of_ne hut] at hcounts
    exact h.fresh u hu hcounts
  held_eq := by
    intro u
    rw [h.held_eq u]
    by_cases hut : u=t
    · subst hut
      rw [if_neg hother,if_neg hother]
    · rw [update_of_ne hut]

/-- The owner gives the lock to a waiting thread, or to nobody if the queue is empty. -/
theorem OwnerInv.pass (h : OwnerInv owner queue count role held) {owner' : Option τ}
    (howner : owner = some t) (ht : (role t).Giving) (hcounts : ¬(role t).Counts)
    (hwait : ∀ v, owner' = some v → role v = .waiting) (hfree : owner'=none → queue'=[]) :
    OwnerInv owner' queue' count (update role t .outside) held := by
  have hcount : count=0 := h.fresh t howner hcounts
  have hne : ∀ v, owner' = some v → v≠t := by
    rintro v hv rfl
    rw [hwait v hv] at ht
    exact ht
  refine ⟨?_,?_,fun hnone => ⟨hfree hnone,hcount⟩,fun _ _ _ => hcount,?_⟩
  · intro u hu
    obtain ⟨hut,hu⟩ := of_role_update hu id
    have hou := h.giving u hu
    rw [howner] at hou
    cases hou
    exact absurd rfl hut
  · intro u hu hou
    rw [update_of_ne (hne u hou),hwait u hou] at hu
    cases hu
  · intro u
    rw [h.held_eq u,howner]
    by_cases hut : u=t
    · subst hut
      have hou : owner'≠some u := fun hou => hne u hou rfl
      rw [if_pos rfl,if_neg hou,hcount]
      cases hrole : role u with
      | releasing => rfl
      | passing v => rfl
      | _ =>
        rw [hrole] at ht hcounts
        first | exact ht.elim | exact absurd trivial hcounts
    · have hnu : some t≠some u := fun heq => hut (Option.some.inj heq).symm
      rw [if_neg hnu]
      split_ifs with hou
      · rw [update_of_ne hut,hwait u hou]
        rfl
      · rfl

theorem OwnerInv.take (h : OwnerInv none queue count role held) (ht : role t = .outside)
    (hheld : held' t = held t+1) (hothers : ∀ u, u≠t → held' u = held u) :
    OwnerInv (some t) queue count role held' where
  giving := by
    intro u hu
    cases h.giving u hu
  expired := by
    intro u hu hou
    cases hou
    rw [ht] at hu
    cases hu
  free := nofun
  fresh := by
    intro u hu hcounts
    cases hu
    rw [ht] at hcounts
    exact absurd trivial hcounts
  held_eq := by
    intro u
    by_cases hut : u=t
    · subst hut
      rw [if_pos rfl,ht,hheld,h.held_eq u,(h.free rfl).2]
      rfl
    · have hnu : some t≠some u := fun heq => hut (Option.some.inj heq).symm
      rw [hothers u hut,h.held_eq u,if_neg hnu]
      rfl

end Owner

section Steps
variable {id : α → τ} {First : List α → α → Prop} {s s' : Lock τ α} {t u : τ}

structure Inv (id : α → τ) (s : Lock τ α) : Prop where
  queue : QueueInv s.owner (s.queue.map id) s.role
  owner : OwnerInv s.owner s.queue s.count s.role s.held

theorem Inv.held_eq (h : Inv id s) (howner : s.owner = some t) {r : Role τ} (hrole : s.role t=r) :
    s.held t = r.depth s.count := by
  rw [h.owner.held_eq t,if_pos howner,hrole]

theorem Inv.own (h : Inv id s) {r : Role τ} {count n : ℕ} {queue : List α}
    (howner : s.owner = some t) (hexpired : r≠.expired) (hcount : ¬r.Counts → count=0)
    (hheld : n = r.depth count) :
    OwnerInv s.owner queue count (update s.role t r) (update s.held t n) :=
  h.owner.own howner hexpired hcount ((update_self ..).trans hheld) fun _ hu => update_of_ne hu _ _

theorem Inv.step (h : Inv id s) (hstep : Step id First t s s') : Inv id s' := by
  have hq := h.queue
  have ho := h.owner
  cases hstep with
  | take hrole howner =>
    have hempty : s.queue.map id=[] := by rw [(ho.free howner).1,map_nil]
    refine ⟨hq.reown (by simp [hempty]) (by simp [howner]),?_⟩
    rw [howner] at ho
    exact ho.take hrole (update_self ..) fun u hu => update_of_ne hu _ _
  | again hrole howner =>
    have hown : OwnerInv s.owner s.queue (s.count+1) (update s.role t .outside)
        (update s.held t (s.held t+1)) := by
      refine h.own howner (by nofun) (fun hcounts => absurd trivial hcounts) ?_
      rw [h.held_eq howner hrole]
      rfl
    rw [← hrole,update_eq_self] at hown
    exact ⟨hq,hown⟩
  | push e he hrole howner hother =>
    subst he
    refine ⟨hq.push (hrole ▸ Role.aside_outside) hother,?_⟩
    exact ho.other hother (fun hgiving => hgiving) fun hnone => absurd hnone howner
  | unlock hrole howner =>
    refine ⟨hq.aside (hrole ▸ Role.aside_outside) Role.aside_unlocking,?_⟩
    refine h.own howner (by nofun) (fun hcounts => absurd trivial hcounts) ?_
    rw [h.held_eq howner hrole]
    rfl
  | leave hrole hcount =>
    have howner := ho.giving t (hrole ▸ trivial)
    refine ⟨hq.aside (hrole ▸ Role.aside_unlocking) Role.aside_outside,?_⟩
    refine ho.own howner (by nofun) (fun hcounts => absurd trivial hcounts) ?_ fun _ _ => rfl
    rw [h.held_eq howner hrole]
    exact (Nat.sub_add_cancel hcount).symm
  | release hrole hcount =>
    have howner := ho.giving t (hrole ▸ trivial)
    refine ⟨hq.aside (hrole ▸ Role.aside_unlocking) Role.aside_releasing,?_⟩
    refine ho.own howner (by nofun) (fun _ => hcount) ?_ fun _ _ => rfl
    rw [h.held_eq howner hrole]
    exact hcount
  | free hrole hqueue =>
    have howner := ho.giving t (hrole ▸ trivial)
    have haside : (s.role t).Aside := hrole ▸ Role.aside_releasing
    have hfree : QueueInv none (s.queue.map id) s.role := by
      refine hq.reown (fun _ _ => nofun) ?_
      intro u hu hou
      rw [howner] at hou
      cases hou
      exact haside.1 hu
    refine ⟨hfree.aside haside Role.aside_outside,?_⟩
    exact ho.pass howner (hrole ▸ trivial) (hrole ▸ fun hcounts => hcounts) (fun _ => nofun)
      fun _ => hqueue
  | hand e queue hrole hfirst hperm =>
    have howner := ho.giving t (hrole ▸ trivial)
    have hmap := hperm.map id
    refine ⟨hq.hand hmap howner (hrole ▸ Role.aside_releasing),?_⟩
    refine ho.pass howner (hrole ▸ trivial) (hrole ▸ fun hcounts => hcounts) ?_ nofun
    intro v hv
    cases hv
    exact (hq.waiting _ (hmap.mem_iff.mpr mem_cons_self)).1
  | pick e queue hrole hfirst hperm =>
    have howner := ho.giving t (hrole ▸ trivial)
    refine ⟨hq.pick (hperm.map id) howner (hrole ▸ Role.aside_releasing),?_⟩
    have hzero := ho.fresh t howner (hrole ▸ fun hcounts => hcounts)
    refine ho.own howner (by nofun) (fun _ => hzero) ?_ fun _ _ => rfl
    rw [h.held_eq howner hrole]
    rfl
  | give u hrole =>
    have howner := ho.giving t (hrole ▸ trivial)
    refine ⟨hq.give howner hrole fun w v hw => ho.giving w (hw ▸ trivial),?_⟩
    refine ho.pass howner (hrole ▸ trivial) (hrole ▸ fun hcounts => hcounts) ?_ nofun
    intro v hv
    cases hv
    exact (hq.passing t u hrole).1
  | expire e queue he hperm =>
    subst he
    obtain ⟨hmem,hnodup,hmem'⟩ := mem_of_perm_cons (hperm.map id) hq.nodup
    obtain ⟨hwait,hother⟩ := hq.waiting _ hmem
    refine ⟨hq.depart Role.aside_expired hnodup hmem' hwait (.inl hmem),?_⟩
    refine ho.other hother (fun hgiving => hgiving) fun hnone => ?_
    rw [(ho.free hnone).1] at hmem
    cases hmem
  | accept hrole howner =>
    have hpass : ∀ w u, s.role w≠.passing u := by
      intro w u hw
      have hou := ho.giving w (hw ▸ trivial)
      rw [howner] at hou
      cases hou
      rw [hrole] at hw
      cases hw
    have hnot : t∉s.queue.map id := fun hmem => (hq.waiting t hmem).2 howner
    have hmem : ∀ u, u∈s.queue.map id ↔ u∈s.queue.map id ∧ u≠t := by
      intro u
      refine ⟨fun hu => ⟨hu,?_⟩,fun hu => hu.1⟩
      rintro rfl
      exact hnot hu
    refine ⟨hq.depart Role.aside_outside hq.nodup hmem hrole (.inr hpass),?_⟩
    refine h.own howner (by nofun) (fun hcounts => absurd trivial hcounts) ?_
    rw [h.held_eq howner hrole,ho.fresh t howner (hrole ▸ fun hcounts => hcounts)]
    rfl
  | giveUp hrole =>
    refine ⟨hq.aside (hrole ▸ Role.aside_expired) Role.aside_outside,?_⟩
    exact ho.other (ho.expired t hrole) (fun hgiving => hgiving) fun hnone => (ho.free hnone).1

theorem Step.role_of_ne (hstep : Step id First t s s') (hu : u≠t) : s'.role u = s.role u := by
  cases hstep with
  | take | again => rfl
  | _ => exact update_of_ne hu _ _

theorem Step.owner_of_ne (h : Inv id s) (hstep : Step id First t s s') (hu : u≠t)
    (howner : s.owner = some u) : s'.owner = some u := by
  have hgiving : ¬(s.role t).Giving := by
    intro hgiving
    have hou := h.owner.giving t hgiving
    rw [howner] at hou
    cases hou
    exact hu rfl
  cases hstep with
  | take hrole hnone =>
    rw [howner] at hnone
    cases hnone
  | free hrole | hand e queue hrole | give v hrole => exact absurd (hrole ▸ trivial) hgiving
  | _ => exact howner

/-- Another thread makes only waiting threads the owner. -/
theorem Step.owner_ne_of_ne (h : Inv id s) (hstep : Step id First t s s') (hu : u≠t)
    (hrole : s.role u≠.waiting) (howner : s.owner≠some u) : s'.owner≠some u := by
  cases hstep with
  | take hrole hnone =>
    intro heq
    cases heq
    exact hu rfl
  | free hrole => nofun
  | hand e queue hrole' hfirst hperm =>
    intro heq
    cases heq
    exact hrole (h.queue.waiting _ ((hperm.map id).mem_iff.mpr mem_cons_self)).1
  | give v hrole' =>
    intro heq
    cases heq
    exact hrole (h.queue.passing t _ hrole').1
  | _ => exact howner

/-- A thread comes into the queue by its own step. -/
theorem Step.mem_of_ne (hstep : Step id First t s s') (hu : u≠t) (hmem : u∈s'.queue.map id) :
    u∈s.queue.map id := by
  cases hstep with
  | push e he =>
    rw [map_cons,mem_cons,he] at hmem
    exact hmem.resolve_left hu
  | hand e queue hrole hfirst hperm | pick e queue hrole hfirst hperm =>
    exact (hperm.map id).mem_iff.mpr (mem_cons_of_mem _ hmem)
  | expire e queue he hperm => exact (hperm.map id).mem_iff.mpr (mem_cons_of_mem _ hmem)
  | _ => exact hmem

/-- A new owner starts without a count. -/
theorem Step.count_of_owner (h : Inv id s) (hstep : Step id First t s s') (hu : s'.owner = some u)
    (hold : s.owner≠some u) : s'.count=0 := by
  cases hstep with
  | take hrole hnone => exact (h.owner.free hnone).2
  | free hrole => cases hu
  | hand e queue hrole | give v hrole =>
    exact h.owner.fresh t (h.owner.giving t (hrole ▸ trivial)) (hrole ▸ fun hcounts => hcounts)
  | _ => exact absurd hu hold

theorem ticket_of_mem (hmem : u∈s.queue.map id) : ticket id s u = .queued := if_pos hmem

theorem ticket_of_not_mem {r : Role τ} {k : Ticket} (hnot : u∉s.queue.map id)
    (hrole : s.role u=r) (hk : r.ticket=k) : ticket id s u=k := by
  rw [ticket,if_neg hnot,hrole,hk]

omit [DecidableEq τ] in
theorem Ticket.Next.congr {a b a' b' : Ticket} (h : Ticket.Next a' b') (ha : a=a') (hb : b=b') :
    Ticket.Next a b := by
  rwa [ha,hb]

/-- A thread that another thread takes from the queue is the first one. -/
theorem Step.first_of_ne (hstep : Step id First t s s') (hu : u≠t) (hmem : u∈s.queue.map id)
    (hnot : u∉s'.queue.map id) : ∃ e∈s.queue, id e=u ∧ First s.queue e := by
  cases hstep with
  | push e => exact absurd (mem_cons_of_mem _ hmem) hnot
  | hand e queue hrole hfirst hperm | pick e queue hrole hfirst hperm =>
    have hcons := (hperm.map id).mem_iff.mp hmem
    exact ⟨e,hperm.mem_iff.mpr mem_cons_self, ((mem_cons.mp hcons).resolve_right hnot).symm,hfirst⟩
  | expire e queue he hperm =>
    have hcons := (hperm.map id).mem_iff.mp hmem
    rw [map_cons,he] at hcons
    exact absurd ((mem_cons.mp hcons).resolve_right hnot) hu
  | _ => exact absurd hmem hnot

/-- A thread takes itself from the queue only to give up. -/
theorem Step.expired_of_self (h : Inv id s) (hstep : Step id First t s s')
    (hmem : t∈s.queue.map id) : s'.role t = .expired := by
  obtain ⟨hwait,hother⟩ := h.queue.waiting t hmem
  cases hstep with
  | expire e queue he hperm => exact update_self ..
  | accept hrole howner => exact absurd howner hother
  | take hrole | again hrole | push e he hrole | unlock hrole | leave hrole | release hrole | free hrole
  | hand e queue hrole | pick e queue hrole | give u hrole | giveUp hrole =>
    rw [hrole] at hwait
    cases hwait

theorem Step.ticket_of_ne (h : Inv id s) (hstep : Step id First t s s') (hu : u≠t) :
    Ticket.Next (ticket id s u) (ticket id s' u) := by
  have hrole := hstep.role_of_ne hu
  by_cases hmem : u∈s.queue.map id
  · by_cases hmem' : u∈s'.queue.map id
    · rw [ticket_of_mem hmem,ticket_of_mem hmem']
      exact .stay _
    · have hwait := hrole.trans (h.queue.waiting u hmem).1
      exact Ticket.Next.hand.congr (ticket_of_mem hmem) (ticket_of_not_mem hmem' hwait rfl)
  · have hmem' : u∉s'.queue.map id := fun hmem' => hmem (hstep.mem_of_ne hu hmem')
    exact (Ticket.Next.stay _).congr (ticket_of_not_mem hmem rfl rfl) (ticket_of_not_mem hmem' hrole rfl)

theorem Inv.not_mem (h : Inv id s) (hrole : s.role t≠.waiting) : t∉s.queue.map id :=
  fun hmem => hrole (h.queue.waiting t hmem).1

theorem Step.ticket_self (h : Inv id s) (hstep : Step id First t s s') :
    Ticket.Next (ticket id s t) (ticket id s' t) := by
  have hself : ∀ r, update s.role t r t=r := fun r => update_self ..
  cases hstep with
  | take | again => exact .stay _
  | push e he hrole =>
    have hmem : t∈(e::s.queue).map id := by rw [map_cons,he]; exact mem_cons_self
    have hnot := h.not_mem (t := t) (by rw [hrole]; nofun)
    exact Ticket.Next.enter.congr (ticket_of_not_mem hnot hrole rfl) (ticket_of_mem hmem)
  | unlock hrole | leave hrole | release hrole | free hrole | give v hrole =>
    have hnot := h.not_mem (t := t) (by rw [hrole]; nofun)
    exact (Ticket.Next.stay .outside).congr (ticket_of_not_mem hnot hrole rfl)
      (ticket_of_not_mem hnot (hself _) rfl)
  | hand e queue hrole hfirst hperm | pick e queue hrole hfirst hperm =>
    have hnot := h.not_mem (t := t) (by rw [hrole]; nofun)
    have hnot' : t∉queue.map id :=
      fun hmem => hnot ((hperm.map id).mem_iff.mpr (mem_cons_of_mem _ hmem))
    exact (Ticket.Next.stay .outside).congr (ticket_of_not_mem hnot hrole rfl)
      (ticket_of_not_mem hnot' (hself _) rfl)
  | expire e queue he hperm =>
    subst he
    obtain ⟨hmem,-,hmem'⟩ := mem_of_perm_cons (hperm.map id) h.queue.nodup
    have hnot : id e∉queue.map id := fun hmem => ((hmem' _).mp hmem).2 rfl
    exact Ticket.Next.expire.congr (ticket_of_mem hmem) (ticket_of_not_mem hnot (hself _) rfl)
  | accept hrole howner =>
    have hnot : t∉s.queue.map id := fun hmem => (h.queue.waiting t hmem).2 howner
    exact Ticket.Next.accept.congr (ticket_of_not_mem hnot hrole rfl) (ticket_of_not_mem hnot (hself _) rfl)
  | giveUp hrole =>
    have hnot := h.not_mem (t := t) (by rw [hrole]; nofun)
    exact Ticket.Next.giveUp.congr (ticket_of_not_mem hnot hrole rfl) (ticket_of_not_mem hnot (hself _) rfl)

end Steps
end PS3Native.HandOff
