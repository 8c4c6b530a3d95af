import PS3Native.Lv2SemaWait

/-! # Runs of `lv2_sema` -/
namespace PS3Native.Lv2Sema
open SleepQueue List

variable {τ : Type*} [DecidableEq τ] {attr : Attr} {prio : τ → ℤ} {s s' : State τ} {t u : τ}
  {l : Loc τ} {late : Bool}

omit [DecidableEq τ] in
theorem inv_create {tag : ℕ} (h : create τ attr tag = .ok s) : Inv attr s := by
  unfold create at h
  split_ifs at h with hbounds hprotocol
  cases h
  refine ⟨by omega,⟨fun _ => iff_of_false id (Option.some_ne_none _).symm,nodup_nil,
    fun _ => iff_of_false not_mem_nil id,fun _ => False.elim,
    fun _ _ hu => absurd hu not_mem_nil⟩,⟨?_,?_,?_⟩,fun _ => trivial⟩
  · change attr.initial.toInt ≤ _
    omega
  · change ((0 : ℕ) : ℤ)+(0 : ℕ) = (0 : ℕ)+max 0 (-attr.initial.toInt)
    omega
  · change attr.initial.toInt+(0 : ℕ)+(0 : ℕ)+(0 : ℕ)+(0 : ℕ) = attr.initial.toInt+0
    omega

theorem advance_good (h : Inv attr s) (hawake : ∀ ts, s.loc t≠.awake ts)
    (hadv : advance attr prio s t late = some s') : Good attr s t s' := by
  cases hloc : s.loc t with
  | idle | returned ret | failed =>
    simp only [advance,hloc] at hadv
    cases hadv
  | wait timed => exact wait_good h hadv hloc
  | waitCas timed val => exact waitCas_good h hadv hloc
  | waitMutex timed | timeoutLock =>
    simp only [advance,hloc] at hadv
    exact .enter h hloc hadv trivial ⟨Iff.rfl,id,List.Subset.refl _,rfl⟩ rfl rfl trivial
  | waitDec timed => exact waitDec_good h hadv hloc
  | emplace timed => exact emplace_good h hadv hloc
  | emplaced timed =>
    simp only [advance,hloc] at hadv
    cases hadv
    exact .exit h hloc trivial id Iff.rfl id (List.Subset.refl _) (.inl rfl) rfl rfl trivial
  | sleep timed awoken => exact sleep_good h hadv hloc
  | unqueue => exact unqueue_good h hadv hloc
  | missed => exact missed_good h hadv hloc
  | restore => exact restore_good h hadv hloc
  | trywait => exact trywait_good h hadv hloc
  | post count => exact post_good h hadv hloc
  | postCas count val => exact postCas_good h hadv hloc
  | postMutex count =>
    have hcount : 0 < count.toInt := h.fits_at hloc
    simp only [advance,hloc] at hadv
    exact .enter h hloc hadv trivial ⟨Iff.rfl,id,List.Subset.refl _,rfl⟩ rfl rfl hcount
  | postAdd count => exact postAdd_good h hadv hloc
  | postWake n ts => exact postWake_good h hadv hloc
  | awake ts => exact absurd hloc (hawake ts)
  | leave ret =>
    simp only [advance,hloc] at hadv
    cases hadv
    refine .exit h hloc trivial id Iff.rfl id (List.Subset.refl _) ?_ rfl rfl trivial
    cases ret with
    | etimedout => exact .inr ⟨rfl,rfl⟩
    | _ => exact .inl rfl

theorem call_good (h : Inv attr s) {c : Call} (hcall : call s t c = some s') : Good attr s t s' := by
  rw [call] at hcall
  split at hcall
  · next hloc =>
    cases hcall
    cases c <;> exact .go h hloc rfl id rfl rfl trivial
  · next ret hloc =>
    cases hcall
    cases c <;> exact .go h hloc rfl id rfl rfl trivial
  · cases hcall

/-- Being woken up changes nothing but what a thread knows of the queue. -/
theorem awakeAll_iff {P : Loc τ → Prop} (hP : ∀ l, P l.awaken ↔ P l) (ts : List τ) (u : τ) :
    P ((s.awakeAll ts).loc u) ↔ P (s.loc u) := by
  change P (if u∈ts then (s.loc u).awaken else s.loc u) ↔ _
  split_ifs
  · exact hP _
  · exact Iff.rfl

theorem awakeAll_eq {α : Type*} {f : Loc τ → α} (hf : ∀ l, f l.awaken = f l) (ts : List τ) (u : τ) :
    f ((s.awakeAll ts).loc u) = f (s.loc u) := by
  change f (if u∈ts then (s.loc u).awaken else s.loc u) = _
  split_ifs
  · exact hf _
  · rfl

theorem holder_awakeAll {f : Loc τ → ℕ} (hf : ∀ l, f l.awaken = f l) (ts : List τ) :
    (s.awakeAll ts).holder f = s.holder f := by
  change s.mutex.elim 0 (fun t => f ((s.awakeAll ts).loc t)) = s.mutex.elim 0 fun t => f (s.loc t)
  cases s.mutex with
  | none => rfl
  | some t => exact awakeAll_eq hf ts t

theorem Inv.awakeAll (h : Inv attr s) {ts : List τ} (hdue : ∀ u∈ts, u∈s.due)
    (hnone : ∀ v, (s.loc v).waking=[]) : Inv attr (s.awakeAll ts) where
  accepted := h.accepted
  places :=
    { locked := fun u =>
        (awakeAll_iff (fun l => by cases l <;> exact Iff.rfl) ts u).trans (h.places.locked u)
      nodup := h.places.nodup
      waits := fun u =>
        (h.places.waits u).trans (awakeAll_iff (fun l => by cases l <;> exact Iff.rfl) ts u).symm
      taken := by
        intro u htaken
        by_cases hu : u∈ts
        · exact hdue u hu
        · have hsame : (s.awakeAll ts).loc u = s.loc u := if_neg hu
          exact h.places.taken u (hsame ▸ htaken)
      waking := by
        intro v u hu
        rw [awakeAll_eq (f := Loc.waking) (fun l => by cases l <;> rfl) ts v,hnone v] at hu
        exact absurd hu not_mem_nil }
  counts := by
    have hpending : (s.awakeAll ts).holder Loc.pending = s.holder Loc.pending :=
      holder_awakeAll (fun l => by cases l <;> rfl) ts
    have hwake : (s.awakeAll ts).holder Loc.wake = s.holder Loc.wake :=
      holder_awakeAll (fun l => by cases l <;> rfl) ts
    rw [State.Counts,hpending,hwake]
    exact h.counts
  fits := fun u => (awakeAll_iff (fun l => by cases l <;> exact Iff.rfl) ts u).mpr (h.fits u)

theorem awakeAll_go (ts : List τ) (ret : Ret) :
    (s.awakeAll ts).go t (.leave ret) = (s.go t (.leave ret)).awakeAll ts := by
  have hloc : Function.update (s.awakeAll ts).loc t (.leave ret) =
      ((s.go t (.leave ret)).awakeAll ts).loc := by
    funext u
    change _ = if u∈ts then ((s.go t (.leave ret)).loc u).awaken else (s.go t (.leave ret)).loc u
    by_cases hut : u=t
    · subst hut
      rw [Function.update_self,go_loc_self]
      split_ifs <;> rfl
    · rw [Function.update_of_ne hut,go_loc_of_ne _ _ hut]
      rfl
  rw [State.go,hloc]
  rfl

/-- The threads that were taken from the queue are woken up. -/
theorem awake_step (h : Inv attr s) {ts : List τ} (hloc : s.loc t = .awake ts)
    (hadv : advance attr prio s t late = some s') : ∃ s₁, Good attr s t s₁ ∧ s' = s₁.awakeAll ts ∧
      (∀ u∈ts, u∈s₁.due) ∧ ∀ v, (s₁.loc v).waking=[] := by
  have hmutex := h.places.mutex_iff hloc
  have hbalanced := h.balanced hloc trivial
  have hgood : Good attr s t (s.go t (.leave .ok)) := by
    refine ⟨.act h.places hloc rfl rfl rfl (fun _ _ => Iff.rfl) hmutex.symm Iff.rfl False.elim
      (nil_subset _) (.inl rfl),counts_go (hmutex.mpr trivial) hbalanced,?_⟩
    rw [go_loc_self]
    trivial
  have hinv := hgood.inv h
  refine ⟨_,hgood,?_,?_,?_⟩
  · simp only [advance,hloc] at hadv
    cases hadv
    exact awakeAll_go ts .ok
  · intro u hu
    exact (h.places.waking t u (by rw [hloc]; exact hu)).1
  · intro v
    rw [eq_nil_iff_forall_not_mem]
    intro u hu
    have hv := (hinv.places.locked v).mp (Loc.locked_of_waking hu)
    have ht := (hinv.places.locked t).mp (by rw [go_loc_self]; trivial)
    rw [hv] at ht
    rw [Option.some.inj ht,go_loc_self] at hu
    exact absurd hu not_mem_nil

/-- What a step does, apart from what it wakes up. -/
theorem Inv.step_cases (h : Inv attr s) (hstep : Step attr prio s s') :
    (∃ t, Good attr s t s') ∨
      (∃ t s₁ ts, Good attr s t s₁ ∧ s' = s₁.awakeAll ts ∧ (∀ u∈ts, u∈s₁.due) ∧
        ∀ v, (s₁.loc v).waking=[]) ∨
      s' = {s with tag := s.tag+1} := by
  obtain ⟨choice,htake⟩ := hstep
  cases choice with
  | call t c => exact .inl ⟨t,call_good h htake⟩
  | advance t late =>
    by_cases hawake : ∃ ts, s.loc t = .awake ts
    · obtain ⟨ts,hloc⟩ := hawake
      obtain ⟨s₁,hs₁⟩ := awake_step h hloc htake
      exact .inr (.inl ⟨t,s₁,ts,hs₁⟩)
    · exact .inl ⟨t,advance_good h (not_exists.mp hawake) htake⟩
  | drawn => exact .inr (.inr (Option.some.inj htake).symm)

theorem Inv.step (h : Inv attr s) (hstep : Step attr prio s s') : Inv attr s' := by
  rcases h.step_cases hstep with ⟨t,hgood⟩ | ⟨t,s₁,ts,hgood,rfl,hdue,hnone⟩ | rfl
  · exact hgood.inv h
  · exact (hgood.inv h).awakeAll hdue hnone
  · exact ⟨h.accepted,⟨h.places.locked,h.places.nodup,h.places.waits,h.places.taken,h.places.waking⟩,
      h.counts,h.fits⟩

theorem Inv.reaches (h : Inv attr s) (hrun : Relation.ReflTransGen (Step attr prio) s s') :
    Inv attr s' := by
  induction hrun with
  | refl => exact h
  | tail _ hstep ih => exact ih.step hstep

theorem Reachable.inv (h : Reachable attr prio s) : Inv attr s := by
  obtain ⟨tag,s₀,hcreate,hrun⟩ := h
  exact (inv_create hcreate).reaches hrun

theorem Places.ticket_of_due (h : Places s) (hdue : t∈s.due) : s.ticket t = .handed := by
  have hnot : t∉threads s.queue :=
    fun hmem => (nodup_append.mp h.nodup).2.2 t hmem t hdue rfl
  rw [State.ticket,if_neg hnot,if_pos hdue]

theorem ticket_of_not_mem (hnot : t∉s.waiters) :
    s.ticket t = if (s.loc t).expired then .expired else .outside := by
  rw [State.waiters,mem_append,not_or] at hnot
  rw [State.ticket,if_neg hnot.1,if_neg hnot.2]

theorem due_of_ticket (hticket : s.ticket t = .handed) : t∈s.due := by
  rw [State.ticket] at hticket
  split_ifs at hticket with hqueue hdue
  exact hdue

theorem not_mem_of_ticket (hticket : s.ticket t = .expired) : t∉s.waiters ∧ (s.loc t).expired := by
  rw [State.ticket] at hticket
  split_ifs at hticket with hqueue hdue hexpired
  rw [State.waiters,mem_append,not_or]
  exact ⟨⟨hqueue,hdue⟩,hexpired⟩

/-- A thread that is not in the queue any more was taken from it, or has left it. -/
theorem Places.next_of_mem (h : Places s') (hqueue : t∈threads s.queue) (hmem : t∈s'.waiters) :
    (s.ticket t).Next (s'.ticket t) := by
  have hticket : s.ticket t = .queued := if_pos hqueue
  rw [hticket]
  rcases mem_append.mp hmem with hqueue' | hdue'
  · have hticket' : s'.ticket t = .queued := if_pos hqueue'
    rw [hticket']
    exact .stay _
  · rw [h.ticket_of_due hdue']
    exact .hand

section

variable (h : Places s) (hm : Moved s t s')

include h hm

theorem Moved.next_of_ne (hu : u≠t) : (s.ticket u).Next (s'.ticket u) := by
  have h' := hm.places h
  by_cases hmem : u∈s.waiters
  · rcases mem_append.mp hmem with hqueue | hdue
    · exact h'.next_of_mem hqueue ((hm.shift.mem_iff hu).mpr hmem)
    · rcases hm.due u hdue with hdue' | ⟨hself,-⟩
      · rw [h.ticket_of_due hdue,h'.ticket_of_due hdue']
        exact .stay _
      · exact absurd hself hu
  · have hmem' : u∉s'.waiters := fun hmem' => hmem ((hm.shift.mem_iff hu).mp hmem')
    rw [ticket_of_not_mem hmem,ticket_of_not_mem hmem',hm.loc u hu]
    exact .stay _

theorem Moved.next_self : (s.ticket t).Next (s'.ticket t) := by
  have h' := hm.places h
  by_cases hdue : t∈s.due
  · rw [h.ticket_of_due hdue]
    rcases hm.due t hdue with hdue' | ⟨-,-,hret⟩
    · rw [h'.ticket_of_due hdue']
      exact .stay _
    · have hnot : t∉s'.waiters := by
        rw [h'.waits t,hret]
        exact id
      rw [ticket_of_not_mem hnot,hret]
      exact .accept
  · cases hm.shift with
    | keep hperm hwaits hexpired =>
      by_cases hmem : t∈s.waiters
      · exact h'.next_of_mem ((mem_append.mp hmem).resolve_right hdue) (hperm.mem_iff.mpr hmem)
      · rw [ticket_of_not_mem hmem,ticket_of_not_mem fun hmem' => hmem (hperm.mem_iff.mp hmem')]
        rcases hexpired with hsame | ⟨hexpired,hret⟩
        · rw [hsame]
          exact .stay _
        · rw [hexpired,hret]
          exact .giveUp
    | join hperm hout hexpired hin hmem =>
      have hnot : t∉s.waiters := fun hmem => hout ((h.waits t).mp hmem)
      have hticket' : s'.ticket t = .queued := if_pos hmem
      rw [ticket_of_not_mem hnot,hexpired,hticket']
      exact .enter
    | leave hperm hout hleave =>
      have hmem : t∈s.waiters := hperm.mem_iff.mpr mem_cons_self
      have hticket : s.ticket t = .queued := if_pos ((mem_append.mp hmem).resolve_right hdue)
      have hnot : t∉s'.waiters := fun hmem => hout ((h'.waits t).mp hmem)
      rw [hticket,ticket_of_not_mem hnot,hleave.resolve_left hdue]
      exact .expire

theorem Moved.next (u : τ) : (s.ticket u).Next (s'.ticket u) := by
  by_cases hu : u=t
  · exact hu ▸ hm.next_self h
  · exact hm.next_of_ne h hu

/-- A thread that was taken from the queue returns with a permit. -/
theorem Moved.handed_returns (hhanded : s.ticket u = .handed) (hout : s'.ticket u = .outside) :
    s'.loc u = .returned .ok := by
  rcases hm.due u (due_of_ticket hhanded) with hdue' | ⟨rfl,-,hret⟩
  · rw [(hm.places h).ticket_of_due hdue'] at hout
    cases hout
  · exact hret

end

/-- A thread that has taken itself out of the queue returns without one. -/
theorem Moved.expired_returns (hm : Moved s t s') (hexpired : s.ticket u = .expired)
    (hout : s'.ticket u = .outside) : s'.loc u = .returned .etimedout := by
  obtain ⟨hnot,hloc⟩ := not_mem_of_ticket hexpired
  by_cases hu : u=t
  · subst hu
    cases hm.shift with
    | keep hperm _ hgoes =>
      rcases hgoes with hsame | ⟨-,hret⟩
      · rw [ticket_of_not_mem fun hmem => hnot (hperm.mem_iff.mp hmem),hsame,hloc] at hout
        cases hout
      · exact hret
    | join _ _ hfresh _ _ =>
      rw [hloc] at hfresh
      cases hfresh
    | leave hperm _ _ => exact absurd (hperm.mem_iff.mpr mem_cons_self) hnot
  · have hnot' : u∉s'.waiters := fun hmem => hnot ((hm.shift.mem_iff hu).mp hmem)
    rw [ticket_of_not_mem hnot',hm.loc u hu,hloc] at hout
    cases hout

end PS3Native.Lv2Sema
