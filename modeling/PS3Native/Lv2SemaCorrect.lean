import PS3Native.Lv2SemaRuns
import PS3Native.Schedule

/-! # `lv2_sema` is correct -/
namespace PS3Native.Lv2Sema
open SleepQueue Schedule
open HandOff (Ticket)

variable {τ : Type*} [DecidableEq τ] {attr : Attr} {prio : τ → ℤ} {s s' : State τ} {t u : τ} {late : Bool}

theorem ticket_awakeAll (ts : List τ) : (s.awakeAll ts).ticket u = s.ticket u := by
  have hexpired : ((s.awakeAll ts).loc u).expired = (s.loc u).expired :=
    awakeAll_eq (fun l => by cases l <;> rfl) ts u
  change (if u∈threads s.queue then Ticket.queued else if u∈s.due then .handed
    else if ((s.awakeAll ts).loc u).expired then .expired else .outside) = _
  rw [hexpired]
  rfl

theorem awakeAll_returned (ts : List τ) {ret : Ret} (h : s.loc u = .returned ret) :
    (s.awakeAll ts).loc u = .returned ret := by
  change (if u∈ts then (s.loc u).awaken else s.loc u) = _
  rw [h]
  split_ifs <;> rfl

theorem Inv.next (h : Inv attr s) (hstep : Step attr prio s s') (u : τ) :
    (s.ticket u).Next (s'.ticket u) := by
  rcases h.step_cases hstep with ⟨t,hgood⟩ | ⟨t,s₁,ts,hgood,rfl,-⟩ | rfl
  · exact hgood.moved.next h.places u
  · rw [ticket_awakeAll]
    exact hgood.moved.next h.places u
  · exact .stay _

theorem Inv.returns {ret : Ret} (h : Inv attr s) (hstep : Step attr prio s s')
    (hin : s.ticket u≠.outside) (hout : s'.ticket u = .outside)
    (hmoved : ∀ t s₁, Moved s t s₁ → s₁.ticket u = .outside → s₁.loc u = .returned ret) :
    s'.loc u = .returned ret := by
  rcases h.step_cases hstep with ⟨t,hgood⟩ | ⟨t,s₁,ts,hgood,rfl,-⟩ | rfl
  · exact hmoved t _ hgood.moved hout
  · rw [ticket_awakeAll] at hout
    exact awakeAll_returned ts (hmoved t _ hgood.moved hout)
  · exact absurd hout hin

/-- The thread has been refused, or has not done anything yet that could not be refused. -/
def Loc.Refusing : Loc τ → Prop
  | .trywait | .post _ | .postCas _ _ | .postMutex _ | .postAdd _ | .leave .ebusy | .returned .ebusy => True
  | _ => False

/-- Thread `t` changes nothing, except that it may take or release the mutex of the object. -/
def Quiet (s : State τ) (t : τ) (s' : State τ) : Prop :=
  s' = {s with loc := Function.update s.loc t (s'.loc t), mutex := s'.mutex}

theorem quiet_go (s : State τ) (t : τ) (mutex : Option τ) (l : Loc τ) :
    Quiet s t ({s with mutex}.go t l) := by
  rw [Quiet,go_loc_self]
  rfl

/-- Only a thread that changes nothing is refused. -/
theorem advance_refusing (hadv : advance attr prio s t late = some s') (h : (s'.loc t).Refusing) :
    (s.loc t).Refusing ∧ Quiet s t s' := by
  cases hloc : s.loc t with simp only [advance,hloc] at hadv
  | trywait | postCas count val | postAdd count =>
    cases hadv
    split_ifs at h ⊢
    · rw [go_loc_self] at h
      exact h.elim
    · exact ⟨trivial,quiet_go s t s.mutex _⟩
  | post count =>
    cases hadv
    exact ⟨trivial,quiet_go s t s.mutex _⟩
  | postMutex count =>
    rw [State.enter] at hadv
    split_ifs at hadv
    cases hadv
    exact ⟨trivial,quiet_go s t (some t) _⟩
  | leave ret =>
    cases hadv
    rw [go_loc_self] at h
    refine ⟨?_,quiet_go s t none _⟩
    cases ret with
    | ebusy => trivial
    | _ => exact h.elim
  | idle | returned ret | failed =>
    cases hadv
  | wait timed =>
    cases hadv
    rw [go_loc_self] at h
    split_ifs at h <;> exact h.elim
  | waitCas timed val | waitDec timed | unqueue | restore =>
    cases hadv
    split_ifs at h <;> (rw [go_loc_self] at h; exact h.elim)
  | waitMutex timed | timeoutLock =>
    rw [State.enter] at hadv
    split_ifs at hadv
    cases hadv
    rw [go_loc_self] at h
    exact h.elim
  | emplace timed | emplaced timed | missed | awake ts =>
    cases hadv
    rw [go_loc_self] at h
    exact h.elim
  | sleep timed awoken =>
    split_ifs at hadv <;> (cases hadv; rw [go_loc_self] at h; exact h.elim)
  | postWake n ts =>
    cases n with
    | zero =>
      cases hadv
      rw [go_loc_self] at h
      exact h.elim
    | succ n =>
      cases hqueue : s.queue with
      | nil | cons it rest =>
        rw [hqueue] at hadv
        cases hadv
        rw [go_loc_self] at h
        exact h.elim

/-- The others leave a thread that is refused where it is. -/
theorem take_refusing {choice : Choice τ} (h : Inv attr s)
    (htake : take attr prio s choice = some s') (hcall : ∀ c, choice≠.call t c)
    (hrefusing : (s'.loc t).Refusing) : (s.loc t).Refusing := by
  cases choice with
  | call u c =>
    have hut : t≠u := by
      rintro rfl
      exact hcall c rfl
    rwa [(call_good h htake).moved.loc t hut] at hrefusing
  | advance u late =>
    by_cases hut : t=u
    · subst hut
      exact (advance_refusing htake hrefusing).1
    · by_cases hawake : ∃ ts, s.loc u = .awake ts
      · obtain ⟨ts,hloc⟩ := hawake
        obtain ⟨s₁,hgood,rfl,-⟩ := awake_step h hloc htake
        have hs₁ := (awakeAll_iff (P := Loc.Refusing) (fun l => by cases l <;> exact Iff.rfl) ts t).mp
          hrefusing
        rwa [hgood.moved.loc t hut] at hs₁
      · rwa [(advance_good h (not_exists.mp hawake) htake).moved.loc t hut] at hrefusing
  | drawn =>
    cases htake
    exact hrefusing

theorem run_refusing {choices : List (Choice τ)} (h : Inv attr s)
    (hrun : run (take attr prio) s choices = some s') (hcall : ∀ c, .call t c∉choices)
    (hrefusing : (s'.loc t).Refusing) : (s.loc t).Refusing := by
  induction choices generalizing s with
  | nil =>
    cases hrun
    exact hrefusing
  | cons choice choices ih =>
    obtain ⟨s₁,htake,hrun⟩ := Option.bind_eq_some_iff.mp hrun
    have hs₁ := ih (h.step ⟨choice,htake⟩) hrun fun c hmem => hcall c (List.mem_cons_of_mem _ hmem)
    exact take_refusing h htake (fun c heq => hcall c (heq ▸ List.mem_cons_self)) hs₁

/-- In a run in which a call of thread `t` is refused, the steps of the thread since the call
change nothing. -/
theorem refused_quiet {before after : List (Choice τ)} {s₁ s₂ s₃ : State τ} (h : Inv attr s)
    (hbefore : run (take attr prio) s before = some s₁)
    (hstep : take attr prio s₁ (.advance t late) = some s₂)
    (hafter : run (take attr prio) s₂ after = some s₃) (hcall : ∀ c, .call t c∉after)
    (hret : s₃.loc t = .returned .ebusy) : Quiet s₁ t s₂ := by
  have hs₁ : Inv attr s₁ := h.reaches (reaches_of_run (fun _ c _ htake => ⟨c,htake⟩) hbefore)
  have hs₂ : Inv attr s₂ := hs₁.step ⟨_,hstep⟩
  have hrefusing : (s₂.loc t).Refusing := run_refusing hs₂ hafter hcall (by rw [hret]; trivial)
  exact (advance_refusing hstep hrefusing).2

structure Correct (attr : Attr) (prio : τ → ℤ) (s : State τ) : Prop where
  bound : s.val ≤ attr.max.toInt
  /-- Below zero the word counts the threads of the queue. -/
  queued : s.mutex=none → (s.queue.length : ℤ) = max 0 (-s.val)
  /-- A word of 32 bits has room for as many threads. -/
  word_fits : -(s.queue.length+1 : ℤ) ≤ s.val
  permits : (s.waited : ℤ) ≤ attr.initial.toInt+s.posted
  distinct : (threads s.queue).Nodup
  /-- A queued thread leaves the queue once. -/
  next : ∀ s', Step attr prio s s' → ∀ t, (s.ticket t).Next (s'.ticket t)
  returns_ok : ∀ s', Step attr prio s s' → ∀ t, s.ticket t = .handed → s'.ticket t = .outside →
    s'.loc t = .returned .ok
  returns_etimedout : ∀ s', Step attr prio s s' → ∀ t, s.ticket t = .expired →
    s'.ticket t = .outside → s'.loc t = .returned .etimedout
  /-- A `post` that returns `CELL_EBUSY` has changed nothing on the way. -/
  refused : ∀ t count before late after s₁ s₂ s₃, s.loc t = .post count →
    run (take attr prio) s before = some s₁ → take attr prio s₁ (.advance t late) = some s₂ →
    run (take attr prio) s₂ after = some s₃ → (∀ c, .call t c∉before++after) →
    s₃.loc t = .returned .ebusy → Quiet s₁ t s₂
  /-- No `ensure` fails. -/
  ensured : ∀ t, s.loc t≠.failed

/-- Every interleaving on a semaphore that was created conserves the permits. -/
theorem lv2_sema_conserves_permits (h : Reachable attr prio s) : Correct attr prio s where
  bound := h.inv.counts.bound
  queued := by
    intro hfree
    have hnone : ∀ f, s.holder f=0 := by
      intro f
      rw [State.holder,hfree]
      rfl
    have hqueue := h.inv.counts.queue
    rw [hnone,hnone] at hqueue
    omega
  word_fits := by
    have hqueue := h.inv.counts.queue
    have hpending := s.holder_pending_le
    omega
  permits := by
    have hqueue := h.inv.counts.queue
    have hpermits := h.inv.counts.permits
    omega
  distinct := (List.nodup_append.mp h.inv.places.nodup).1
  next := fun s' hstep t => h.inv.next hstep t
  returns_ok := fun s' hstep t hhanded hout => h.inv.returns hstep (by simp [hhanded]) hout
    fun _ _ hmoved => hmoved.handed_returns h.inv.places hhanded
  returns_etimedout := fun s' hstep t hexpired hout => h.inv.returns hstep (by simp [hexpired]) hout
    fun _ _ hmoved => hmoved.expired_returns hexpired
  refused := fun t count before late after s₁ s₂ s₃ _ hbefore hstep hafter hcall hret =>
    refused_quiet h.inv hbefore hstep hafter (fun c hmem => hcall c (List.mem_append_right _ hmem)) hret
  ensured := by
    intro t hloc
    exact h.inv.fits_at hloc

inductive Worker
  | first | second | third
  deriving DecidableEq, Repr

def advances (t : Worker) (n : ℕ) : List (Choice Worker) := List.replicate n (.advance t false)

/-- With one permit, the first thread takes it and the others queue. The first one posts it
again, for the second, while the third one gives up. A `post` of three permits is refused. -/
def postedRun : List (Choice Worker) :=
  .call .first (.wait false)::advances .first 2 ++
    .call .second (.wait false)::advances .second 5 ++
    .call .third (.wait true)::advances .third 5 ++
    .call .first (.post 1)::advances .first 7++advances .second 1 ++
    .advance .third true::advances .third 4 ++
    .call .first (.post 3)::advances .first 4

def created : Attr := ⟨.fifo,1,2⟩

theorem lv2_sema_conserves_permits_posted :
    ∃ s, Reachable created (fun _ : Worker => 0) s ∧ s.posted=1 ∧ s.waited=2 ∧
      [Worker.first,.second,.third].map s.loc = [.returned .ebusy,.returned .ok,.returned .etimedout] ∧
      Correct created (fun _ => 0) s := by
  have hcreate : create Worker created 0 = .ok ⟨1,[],none,0,fun _ => .idle,[],0,0⟩ := rfl
  have hrun : ((run (take created fun _ => 0) ⟨1,[],none,0,fun _ => .idle,[],0,0⟩ postedRun).map
      fun s => (s.posted,s.waited,[Worker.first,.second,.third].map s.loc)) =
        some (1,2,[.returned .ebusy,.returned .ok,.returned .etimedout]) := by decide
  obtain ⟨s,hreach,hfacts⟩ :=
    exists_of_run (R := Step created fun _ => 0) (fun _ c _ htake => ⟨c,htake⟩) hrun
  simp only [Prod.mk.injEq] at hfacts
  have hreachable : Reachable created (fun _ => 0) s := ⟨0,_,hcreate,hreach⟩
  exact ⟨s,hreachable,hfacts.1,hfacts.2.1,hfacts.2.2,lv2_sema_conserves_permits hreachable⟩

end PS3Native.Lv2Sema
