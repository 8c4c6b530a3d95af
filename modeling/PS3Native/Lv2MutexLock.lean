import PS3Native.Lv2MutexSteps

/-! # The steps of the calls of `lv2_mutex` -/
namespace PS3Native.Lv2Mutex
open SleepQueue HandOff List

variable {τ : Type*} [DecidableEq τ] {attr : Attr} {prio : τ → ℤ} {s s' : State τ} {t u : τ}
  {late : Bool} {caller : Caller} {timed : Bool}

theorem timeoutLock_moved (hloc : s.loc t = .timeoutLock)
    (hadv : advance attr prio s t late = some s') : Moved attr s t s' := by
  simp only [advance,hloc] at hadv
  split_ifs at hadv with hmutex
  cases hadv
  exact .take_mutex hloc rfl hmutex trivial trivial

variable {it : Control τ}

theorem reownLock_moved (hloc : s.loc t = .reownLock) (hadv : advance attr prio s t late = some s') :
    Moved attr s t s' := by
  simp only [advance,hloc] at hadv
  split_ifs at hadv with hmutex
  cases hadv
  exact .take_mutex hloc rfl hmutex trivial trivial

variable (h : Inv attr s) (hadv : advance attr prio s t late = some s')

include h hadv

theorem tryLock_moved (hloc : s.loc t = .tryLock caller) : Moved attr s t s' := by
  simp only [advance,hloc] at hadv
  split at hadv
  · next hnone =>
    cases hadv
    have hother : s.owner≠some t := by rw [hnone]; nofun
    exact .go h hloc rfl Iff.rfl ⟨hnone,hother⟩ id
  · next v hsome =>
    cases hadv
    split_ifs with hv
    · subst hv
      exact .go h hloc rfl Iff.rfl hsome id
    · refine .finish h hloc (by nofun) rfl id id ?_
      intro _ heq
      rw [hsome] at heq
      exact hv (Option.some.inj heq)

theorem tryLockCas_moved (hloc : s.loc t = .tryLockCas caller it) : Moved attr s t s' := by
  obtain ⟨hit,hother⟩ := h.fits_at hloc
  simp only [advance,hloc] at hadv
  cases hadv
  split_ifs with hcas
  · have howner : s.owner=none := by
      rw [← hit,← hcas]
      rfl
    rw [finish_ok]
    refine .acquired hloc rfl rfl rfl (fun _ _ => Iff.rfl) ((h.mutex_iff hloc).not.mpr id) False.elim ?_
    rw [update_role hloc rfl]
    exact .take (role_at hloc) howner
  · exact .finish h hloc (by nofun) rfl id id fun _ => hother

theorem lockAgain_moved (hloc : s.loc t = .lockAgain caller) : Moved attr s t s' := by
  have howner : s.owner = some t := h.fits_at hloc
  simp only [advance,hloc] at hadv
  cases hadv
  split_ifs
  · exact .finish h hloc (by nofun) rfl id id nofun
  · exact .finish h hloc (by nofun) rfl id id nofun
  · rw [finish_ok]
    refine .acquired hloc rfl rfl rfl (fun _ _ => Iff.rfl) ((h.mutex_iff hloc).not.mpr id) False.elim ?_
    rw [update_role hloc rfl]
    exact .again (role_at hloc) howner

theorem busyWait_moved {left : ℕ} (hloc : s.loc t = .busyWait timed left) : Moved attr s t s' := by
  have hother : s.owner≠some t := h.fits_at hloc
  simp only [advance,hloc] at hadv
  cases hadv
  split_ifs
  · exact .go h hloc rfl Iff.rfl trivial id
  · exact .go h hloc rfl Iff.rfl hother id

theorem tryOwn_moved (hloc : s.loc t = .tryOwn timed) : Moved attr s t s' := by
  have hother : s.owner≠some t := h.fits_at hloc
  have hmutex := (h.mutex_iff hloc).not.mpr id
  simp only [advance,hloc] at hadv
  split at hadv
  · next hnone =>
    cases hadv
    refine .acquired hloc rfl rfl rfl (fun _ _ => Iff.rfl) hmutex False.elim ?_
    rw [update_role hloc rfl]
    exact .take (role_at hloc) hnone
  · next v hsome =>
    cases hadv
    refine .act rfl (fun _ _ => Iff.rfl) (iff_of_false id hmutex) ?_ trivial ?_ ?_
    · exact .inr (.inr ⟨_,rfl,role_at hloc,rfl⟩)
    · rw [hloc]
      exact False.elim
    · exact .push _ rfl (role_at hloc) (by rw [State.lock,hsome]; rintro ⟨⟩) hother

theorem sleep_moved {awoken : Bool} (hloc : s.loc t = .sleep timed awoken) : Moved attr s t s' := by
  simp only [advance,hloc] at hadv
  cases hadv
  cases awoken with
  | false => exact .go h hloc rfl Iff.rfl trivial fun _ => trivial
  | true =>
    exact .acquired hloc rfl rfl rfl (fun _ _ => Iff.rfl) ((h.mutex_iff hloc).not.mpr id) False.elim
      (.accept (role_at hloc) (h.fits_at hloc))

theorem wait_moved {awoken : Bool} (hloc : s.loc t = .wait timed awoken) : Moved attr s t s' := by
  simp only [advance,hloc] at hadv
  split_ifs at hadv with hlate htimed hawoken
  · cases hadv
    exact .go h hloc rfl Iff.rfl trivial fun _ => trivial
  · cases hadv
    subst hawoken
    exact .acquired hloc rfl rfl rfl (fun _ _ => Iff.rfl) ((h.mutex_iff hloc).not.mpr id) False.elim
      (.accept (role_at hloc) (h.fits_at hloc))

theorem timedOut_moved (hloc : s.loc t = .timedOut) : Moved attr s t s' := by
  simp only [advance,hloc] at hadv
  cases hadv
  split_ifs with hsq
  · refine .go h hloc rfl Iff.rfl ?_ fun _ => trivial
    have hnil : (s.go t .lockUnlock).queue=[] := queue_eq_nil hsq
    rw [Fits,hnil]
    exact not_mem_nil
  · exact .go h hloc rfl Iff.rfl trivial fun _ => trivial

theorem lockUnlock_moved (hloc : s.loc t = .lockUnlock) : Moved attr s t s' := by
  simp only [advance,hloc] at hadv
  split_ifs at hadv with hmutex
  cases hadv
  have howner := h.owner_of_waiting (role_at hloc) (h.fits_at hloc) (.inl hmutex)
  exact .acquired hloc rfl rfl rfl (fun _ _ => Iff.rfl) ((h.mutex_iff hloc).not.mpr id)
    (fun _ => hmutex) (.accept (role_at hloc) howner)

theorem unqueue_moved (hloc : s.loc t = .unqueue) : Moved attr s t s' := by
  have hmutex : s.mutex = some t := (h.mutex_iff hloc).mpr trivial
  simp only [advance,hloc] at hadv
  cases hadv
  split_ifs with hhead hmem
  · exact .go h hloc rfl Iff.rfl hhead id
  · obtain ⟨e,he,hperm⟩ := unqueue_perm hmem
    exact .step h hloc id Iff.rfl rfl rfl (.inl hmutex) trivial (.expire e _ he hperm)
  · refine .go h hloc rfl Iff.rfl ?_ id
    exact h.owner_of_waiting (role_at hloc) hmem (.inr hmutex)

theorem unqueueCas_moved (hloc : s.loc t = .unqueueCas it) : Moved attr s t s' := by
  have hmutex : s.mutex = some t := (h.mutex_iff hloc).mpr trivial
  have hit : it.sq = some t := h.fits_at hloc
  simp only [advance,hloc] at hadv
  cases hadv
  split_ifs with hcas
  · obtain ⟨e,he,hqueue⟩ := queue_eq_cons (hcas ▸ hit)
    refine .step h hloc id Iff.rfl rfl rfl (.inl hmutex) trivial (.expire e _ he ?_)
    have hperm : s.queue.Perm (e::s.queue.tail) := by rw [← hqueue]
    exact hperm
  · exact .go h hloc rfl Iff.rfl trivial id

theorem unqueued_moved {success : Bool} (hloc : s.loc t = .unqueued success) :
    Moved attr s t s' := by
  have hmutex : s.mutex = some t := (h.mutex_iff hloc).mpr trivial
  have hothers : ∀ u, u≠t → ((none : Option τ) = some u ↔ s.mutex = some u) := by
    intro u hu
    refine iff_of_false nofun ?_
    rw [hmutex]
    exact fun heq => hu (Option.some.inj heq).symm
  simp only [advance,hloc] at hadv
  cases hadv
  cases success with
  | false =>
    exact .acquired hloc rfl rfl rfl hothers nofun False.elim
      (.accept (role_at hloc) (h.fits_at hloc))
  | true =>
    refine .act rfl hothers (iff_of_false id nofun) (.inl hmutex) trivial ?_ ?_
    · rw [hloc]
      exact False.elim
    · exact .giveUp (role_at hloc)

theorem tryUnlock_moved (hloc : s.loc t = .tryUnlock) : Moved attr s t s' := by
  simp only [advance,hloc] at hadv
  cases hadv
  split_ifs with howner
  · exact .step h hloc id Iff.rfl rfl rfl (.inr (.inl rfl)) trivial (.unlock (role_at hloc) howner)
  · exact .go h hloc rfl Iff.rfl trivial id

theorem unlockCount_moved (hloc : s.loc t = .unlockCount it) : Moved attr s t s' := by
  simp only [advance,hloc] at hadv
  cases hadv
  split_ifs with hcount hsq
  · exact .step h hloc id Iff.rfl rfl rfl (.inr (.inl rfl)) trivial
      (.leave (role_at hloc) (Nat.pos_of_ne_zero hcount))
  · exact .step h hloc id Iff.rfl rfl rfl (.inr (.inl rfl)) hsq
      (.release (role_at hloc) (not_not.mp hcount))
  · exact .step h hloc id Iff.rfl rfl rfl (.inr (.inl rfl)) trivial
      (.release (role_at hloc) (not_not.mp hcount))

theorem tryUnlockCas_moved (hloc : s.loc t = .tryUnlockCas it) : Moved attr s t s' := by
  have hit : it.sq=none := h.fits_at hloc
  simp only [advance,hloc] at hadv
  cases hadv
  split_ifs with hcas
  · exact .step h hloc id Iff.rfl rfl rfl (.inr (.inl rfl)) trivial
      (.free (role_at hloc) (queue_eq_nil (hcas ▸ hit)))
  · exact .go h hloc rfl Iff.rfl trivial id

/-- The scan of the queue finds the first thread, and takes it out unless it is the head. -/
theorem reown_moved (hloc : s.loc t = .reown) : Moved attr s t s' := by
  have hmutex : s.mutex = some t := (h.mutex_iff hloc).mpr trivial
  simp only [advance,hloc] at hadv
  split at hadv
  · next hnil =>
    cases hadv
    refine .go h hloc rfl Iff.rfl ?_ id
    have hsq : s.control.sq=none := by rw [State.control,hnil]; rfl
    exact hsq
  · next it rest hqueue =>
    cases hadv
    have hfirst := schedule_first attr.protocol it rest
    rw [← hqueue] at hfirst
    split_ifs with hhead
    · refine .go h hloc rfl Iff.rfl ⟨?_,hfirst.mem,fun _ => hfirst⟩ id
      rw [State.control,hqueue,hhead]
      rfl
    · obtain ⟨e,he,hperm⟩ := unqueue_perm (mem_map_of_mem hfirst.mem)
      have hsame : e = schedule attr.protocol it rest :=
        h.eq_of_thread (hperm.mem_iff.mpr mem_cons_self) hfirst.mem he
      rw [hsame] at hperm
      exact .step h hloc id Iff.rfl rfl rfl (.inl hmutex) trivial
        (.pick _ _ (role_at hloc) hfirst hperm)

theorem reownCas_moved {res : Option (Sleeper τ)} (hloc : s.loc t = .reownCas it res) :
    Moved attr s t s' := by
  have hmutex : s.mutex = some t := (h.mutex_iff hloc).mpr trivial
  have hfits := h.fits_at hloc
  simp only [advance,hloc] at hadv
  cases hadv
  split_ifs with hcas
  · cases res with
    | none =>
      have hnil : s.queue=[] := queue_eq_nil (hcas ▸ hfits)
      have htail : s.queue.tail=s.queue := by rw [hnil,tail_nil]
      rw [htail]
      exact .step h hloc id Iff.rfl rfl rfl (.inl hmutex) trivial (.free (role_at hloc) hnil)
    | some w =>
      obtain ⟨hit,hw,hfirst⟩ := hfits
      have hsq : s.control.sq = some w.thread := hcas ▸ hit
      obtain ⟨e,he,hqueue⟩ := queue_eq_cons hsq
      have hhead : e∈s.queue := by
        rw [hqueue]
        exact mem_cons_self
      rw [h.eq_of_thread hhead hw he] at hqueue
      have howner : s.owner = some t := h.lock.owner.giving t (role_at hloc ▸ trivial)
      have hwait := (h.lock.queue.waiting _ (mem_map_of_mem hw)).1
      refine .step h hloc id Iff.rfl rfl rfl (.inl hmutex) ?_ ?_
      · exact h.fits_awake hmutex howner hwait (by rw [hloc]; nofun) rfl rfl
      · refine .hand w _ (role_at hloc) (hfirst hsq) ?_
        have hperm : s.queue.Perm (w::s.queue.tail) := by rw [← hqueue]
        exact hperm
  · exact .go h hloc rfl Iff.rfl trivial id

theorem reownStore_moved {res : Sleeper τ} (hloc : s.loc t = .reownStore res) :
    Moved attr s t s' := by
  have hmutex : s.mutex = some t := (h.mutex_iff hloc).mpr trivial
  have howner : s.owner = some t := h.lock.owner.giving t (role_at hloc ▸ trivial)
  have hwait := (h.lock.queue.passing t _ (role_at hloc)).1
  simp only [advance,hloc] at hadv
  cases hadv
  refine .step h hloc id Iff.rfl rfl rfl (.inl hmutex) ?_ ?_
  · exact h.fits_awake hmutex howner hwait (by rw [hloc]; nofun) rfl rfl
  · exact .give _ (role_at hloc)

theorem reowned_moved (hloc : s.loc t = .reowned) : Moved attr s t s' := by
  simp only [advance,hloc] at hadv
  cases hadv
  exact .drop_mutex h hloc rfl trivial id id trivial

end PS3Native.Lv2Mutex
