import PS3Native.Lv2MutexRuns
import PS3Native.Schedule

/-!
# `lv2_mutex` is handed over as it should be
-/
namespace PS3Native.Lv2Mutex
open SleepQueue HandOff List Schedule

variable {τ : Type*} [DecidableEq τ] {attr : Attr} {prio : τ → ℤ} {s s' : State τ} {t u : τ}
  {late : Bool}

def QueueStep (prio : τ → ℤ) (s s' : State τ) : Prop :=
  (s'.queue.Sublist s.queue ∧ s.tag ≤ s'.tag) ∨
    ∃ t, s'.queue = ⟨t,prio t,tagOrder (s.tag+1)⟩::s.queue ∧ s'.tag = s.tag+1

omit [DecidableEq τ] in
theorem QueueStep.same {s₁ : State τ} (hqueue : s₁.queue=s.queue) (htag : s₁.tag=s.tag) :
    QueueStep prio s s₁ := .inl ⟨hqueue ▸ List.Sublist.refl _,htag.ge⟩

theorem finish_same (s : State τ) (t : τ) (caller : Caller) (ret : Ret) :
    (s.finish t caller ret).queue=s.queue ∧ (s.finish t caller ret).tag=s.tag := by
  cases caller <;> cases ret <;> exact ⟨rfl,rfl⟩

theorem advance_queueStep (hadv : advance attr prio s t late = some s') : QueueStep prio s s' := by
  have hfinish : ∀ s₁ : State τ, s₁.queue=s.queue → s₁.tag=s.tag →
      ∀ caller ret, QueueStep prio s (s₁.finish t caller ret) := by
    intro s₁ hqueue htag caller ret
    obtain ⟨hqueue',htag'⟩ := finish_same s₁ t caller ret
    exact .same (hqueue'.trans hqueue) (htag'.trans htag)
  cases hloc : s.loc t with simp only [advance,hloc] at hadv
  | idle | returned ret =>
    cases hadv
  | tryLock caller =>
    split at hadv
    · cases hadv
      exact .same rfl rfl
    · cases hadv
      split_ifs
      · exact .same rfl rfl
      · exact hfinish s rfl rfl caller _
  | tryLockCas caller it =>
    cases hadv
    split_ifs
    · exact hfinish {s with owner := some t} rfl rfl caller _
    · exact hfinish s rfl rfl caller _
  | lockAgain caller =>
    cases hadv
    split_ifs
    · exact hfinish s rfl rfl caller _
    · exact hfinish s rfl rfl caller _
    · exact hfinish {s with lockCount := s.lockCount+1} rfl rfl caller _
  | tryOwn timed =>
    split at hadv
    · cases hadv
      exact .same rfl rfl
    · cases hadv
      exact .inr ⟨t,rfl,rfl⟩
  | unqueue =>
    cases hadv
    split_ifs
    · exact .same rfl rfl
    · exact .inl ⟨eraseP_sublist,Nat.le_refl _⟩
    · exact .same rfl rfl
  | unqueueCas it | reownCas it res =>
    cases hadv
    split_ifs
    · exact .inl ⟨tail_sublist _,Nat.le_refl _⟩
    · exact .same rfl rfl
  | reown =>
    split at hadv
    · cases hadv
      exact .same rfl rfl
    · cases hadv
      split_ifs
      · exact .same rfl rfl
      · exact .inl ⟨eraseP_sublist,Nat.le_refl _⟩
  | busyWait timed left | sleep timed awoken | unqueued success | tryUnlock | unlockCount it
  | tryUnlockCas it =>
    cases hadv
    split_ifs <;> exact .same rfl rfl
  | wait timed awoken | lockUnlock | timeoutLock | reownLock =>
    split_ifs at hadv <;> cases hadv <;> exact .same rfl rfl
  | timedOut | reownStore res | reowned =>
    cases hadv
    exact .same rfl rfl
  | awake res =>
    cases res <;> cases hadv <;> exact .same rfl rfl

theorem Step.queueStep (hstep : Step attr prio s s') : QueueStep prio s s' := by
  cases hstep with
  | call t c hcall =>
    rw [Lv2Mutex.call] at hcall
    split at hcall <;> cases hcall <;> exact .same rfl rfl
  | advance t late hadv => exact advance_queueStep hadv
  | drawn => exact .inl ⟨List.Sublist.refl _,Nat.le_succ _⟩

/-- The entries of the queue have the priorities of their threads, and as long as the
counter fits into its bit field the older of two has the smaller order. -/
structure Entries (prio : τ → ℤ) (s : State τ) : Prop where
  prio_eq : ∀ w∈s.queue, w.prio = prio w.thread
  aged : s.tag < 2^49 → (∀ w∈s.queue, w.order ≤ s.tag) ∧
    s.queue.Pairwise fun newer older => older.order < newer.order

omit [DecidableEq τ] in
theorem Entries.step (h : Entries prio s) (hstep : QueueStep prio s s') : Entries prio s' := by
  rcases hstep with ⟨hsub,htag⟩ | ⟨t,hqueue,htag⟩
  · refine ⟨fun w hw => h.prio_eq w (hsub.subset hw),?_⟩
    intro hlt
    obtain ⟨hle,haged⟩ := h.aged (htag.trans_lt hlt)
    refine ⟨fun w hw => (hle w (hsub.subset hw)).trans (Int.ofNat_le.mpr htag),haged.sublist hsub⟩
  · refine ⟨?_,?_⟩
    · intro w hw
      rw [hqueue] at hw
      rcases mem_cons.mp hw with rfl | hw
      · rfl
      · exact h.prio_eq w hw
    · intro hlt
      rw [htag] at hlt
      obtain ⟨hle,haged⟩ := h.aged (by omega)
      rw [hqueue,htag,tagOrder_eq hlt]
      refine ⟨?_,pairwise_cons.mpr ⟨?_,haged⟩⟩
      · intro w hw
        rcases mem_cons.mp hw with rfl | hw
        · exact le_refl _
        · have hold := hle w hw
          omega
      · intro w hw
        have hold := hle w hw
        have hnew : w.order < ((s.tag+1 : ℕ) : ℤ) := by omega
        exact hnew

theorem Reachable.entries (h : Reachable attr prio s) : Entries prio s := by
  obtain ⟨tag,hrun⟩ := h
  induction hrun with
  | refl => exact ⟨nofun,fun _ => ⟨nofun,List.Pairwise.nil⟩⟩
  | tail _ hstep ih => exact ih.step hstep.queueStep

structure Correct (attr : Attr) (prio : τ → ℤ) (s : State τ) : Prop where
  /-- A thread that has returned with the mutex and has not given it up is the owner. -/
  owns : ∀ t, 0 < s.held t → s.owner = some t
  exclusive : ∀ t u, 0 < s.held t → 0 < s.held u → t=u
  /-- Without an owner nobody is queued. -/
  ownerless : s.mutex=none → s.owner=none → s.queue=[]
  /-- A thread is queued once, and has been handed the mutex if it is its owner. -/
  distinct : (s.queue.map Sleeper.thread).Nodup
  handed : ∀ t, s.ticket t = .handed → s.mutex=none → s.owner = some t
  entries : Entries prio s
  /-- A queued thread leaves the queue once, by a hand-off or by its own timeout. -/
  next : ∀ s', Step attr prio s s' → ∀ t, Ticket.Next (s.ticket t) (s'.ticket t)
  returns_ok : ∀ s', Step attr prio s s' → ∀ t, s.ticket t = .handed → s'.ticket t = .outside →
    s'.loc t = .returned .ok ∧ s'.owner = some t
  returns_etimedout : ∀ s', Step attr prio s s' → ∀ t, s.ticket t = .expired →
    s'.ticket t = .outside → s'.loc t = .returned .etimedout
  /-- The receiver of a hand-off is the first of the queue. -/
  receiver : ∀ s', Step attr prio s s' → ∀ w∈s.queue, s'.ticket w.thread = .handed →
    First attr.protocol s.queue w
  /-- A new owner has not locked the mutex more than once. -/
  count : ∀ s', Step attr prio s s' → ∀ t, s'.owner = some t → s.owner≠some t → s'.lockCount=0

theorem Inv.next (h : Inv attr s) (hstep : Step attr prio s s') (t : τ) :
    Ticket.Next (s.ticket t) (s'.ticket t) := by
  rcases (h.step hstep).2 with heq | ⟨u,hlock⟩
  · rw [State.ticket,State.ticket,heq]
    exact .stay _
  · by_cases htu : t=u
    · subst htu
      exact hlock.ticket_self h.lock
    · exact hlock.ticket_of_ne h.lock htu

theorem Inv.receiver (h : Inv attr s) (hstep : Step attr prio s s') {w : Sleeper τ} (hw : w∈s.queue)
    (hhanded : s'.ticket w.thread = .handed) : First attr.protocol s.queue w := by
  have hmem : w.thread∈s.queue.map Sleeper.thread := mem_map_of_mem hw
  obtain ⟨hnot,hwait⟩ := ticket_handed hhanded
  rcases (h.step hstep).2 with heq | ⟨u,hlock⟩
  · have hsame : s'.queue=s.queue := congrArg Lock.queue heq
    rw [hsame] at hnot
    exact absurd hmem hnot
  · have hne : w.thread≠u := by
      rintro rfl
      have hexpired : (s'.loc w.thread).role = .expired := hlock.expired_of_self h.lock hmem
      rw [hexpired] at hwait
      cases hwait
    obtain ⟨e,he,hthread,hfirst⟩ := hlock.first_of_ne hne hmem hnot
    rw [h.eq_of_thread he hw hthread] at hfirst
    exact hfirst

/-- `lv2_mutex` is a mutual exclusion that is handed over in the order of the protocol,
in every state of every interleaving. -/
theorem lv2_mutex_correct (h : Reachable attr prio s) : Correct attr prio s where
  owns := fun t hheld => h.inv.owner_of_held hheld
  exclusive := by
    intro t u ht hu
    have howner := h.inv.owner_of_held ht
    rw [h.inv.owner_of_held hu] at howner
    exact (Option.some.inj howner).symm
  ownerless := fun _ hnone => (h.inv.lock.owner.free hnone).1
  distinct := h.inv.lock.queue.nodup
  handed := by
    intro t hhanded hmutex
    obtain ⟨hnot,hwait⟩ := ticket_handed hhanded
    exact h.inv.owner_of_waiting hwait hnot (.inl hmutex)
  entries := h.entries
  next := fun s' hstep t => h.inv.next hstep t
  returns_ok := fun s' hstep t hhanded hout => h.inv.handed_returns hstep hhanded hout
  returns_etimedout := fun s' hstep t hexpired hout => h.inv.expired_returns hstep hexpired hout
  receiver := fun s' hstep w hw hhanded => h.inv.receiver hstep hw hhanded
  count := by
    intro s' hstep t hnew hold
    rcases (h.inv.step hstep).2 with heq | ⟨u,hlock⟩
    · have hsame : s'.owner=s.owner := congrArg Lock.owner heq
      rw [hsame] at hnew
      exact absurd hnew hold
    · exact hlock.count_of_owner h.inv.lock hnew hold

inductive Act (τ : Type*)
  | call (t : τ) (c : Call)
  | advance (t : τ) (late : Bool)

def take (attr : Attr) (prio : τ → ℤ) (s : State τ) : Act τ → Option (State τ)
  | .call t c => call s t c
  | .advance t late => advance attr prio s t late

theorem step_of_take (s : State τ) (act : Act τ) (s' : State τ)
    (h : take attr prio s act = some s') : Step attr prio s s' := by
  cases act with
  | call t c => exact .call t c h
  | advance t late => exact .advance t late h

/-- Thread 0 has the mutex while threads 1 and 2 queue; thread 1 times out, and thread 0
hands the mutex to thread 2. -/
def handOffRun : List (Act (Fin 3)) :=
  [.call 0 (.lock false),.advance 0 false,.advance 0 false,
    .call 1 (.lock true),.advance 1 false,.advance 1 true,.advance 1 false,.advance 1 false,
    .call 2 (.lock false),.advance 2 false,.advance 2 true,.advance 2 false,.advance 2 false,
    .advance 1 true,.advance 1 false,.advance 1 false,.advance 1 false,.advance 1 false,
    .call 0 .unlock,.advance 0 false,.advance 0 false,.advance 0 false,.advance 0 false,
    .advance 0 false,.advance 0 false,.advance 0 false,.advance 2 false]

theorem lv2_mutex_correct_handed_over :
    ∃ s, Reachable ⟨.priority,false⟩ (fun _ => 0) s ∧ s.owner = some (2 : Fin 3) ∧ s.queue=[] ∧
      s.loc 1 = .returned .etimedout ∧ s.loc 2 = .returned .ok ∧
      Correct ⟨.priority,false⟩ (fun _ => 0) s := by
  have hrun : ((run (take ⟨.priority,false⟩ fun _ => 0) (initial (Fin 3) 0) handOffRun).map
      fun s => (s.owner,s.queue,s.loc 1,s.loc 2)) =
        some (some 2,[],.returned .etimedout,.returned .ok) := by decide
  obtain ⟨s,hpath,hfacts⟩ := exists_of_run step_of_take hrun
  simp only [Prod.mk.injEq] at hfacts
  have hreach : Reachable ⟨.priority,false⟩ (fun _ => 0) s := ⟨0,hpath⟩
  exact ⟨s,hreach,hfacts.1,hfacts.2.1,hfacts.2.2.1,hfacts.2.2.2,lv2_mutex_correct hreach⟩

end PS3Native.Lv2Mutex
