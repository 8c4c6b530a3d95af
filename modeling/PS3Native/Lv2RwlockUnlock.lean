import PS3Native.Lv2RwlockLock

/-!
# The steps of the calls that unlock a `lv2_rwlock`
-/
namespace PS3Native.Lv2Rwlock
open SleepQueue SharedHandOff List

variable {τ : Type*} [DecidableEq τ] {ids : Ids τ} {protocol : Protocol} {prio : τ → ℤ}
  {s s' : State τ} {t : τ} {late : Bool} {side : Side}

/-- A writer whose word is not the plain one finds the bit set. -/
theorem wunlockNext_eq (h : Inv ids s) (hplace : (s.loc t).place = .releasing .writer)
    (hne : s.owner≠2*ids.id t) : wunlockNext ids t s.owner = .unlockMutex .writer := by
  have heq := (h.word.eq_of_writer (h.mem_holders hplace)).2.2
  rw [wunlockNext,if_neg (not_not.mpr (by omega)),if_pos (by omega)]

/-- The writer that is served first is taken from its queue. -/
theorem pick_writer_moved {l₀ : Loc τ} {it : Sleeper τ} {rest : List (Sleeper τ)} (h : Inv ids s)
    (own : Side) (hloc : s.loc t=l₀) (hl₀ : l₀.Locked) (hplace : l₀.place = .releasing own)
    (hnil : s.picked=[]) (hqueue : s.queue .writer = it::rest)
    (hlast : own=.reader → s.owner = -1) :
    Moved ids s t
      ((s.pick .writer (SleepQueue.unqueue (s.queue .writer) (schedule protocol it rest).thread)
        [(schedule protocol it rest).thread]).go t
          (.grantWriter own (schedule protocol it rest).thread)) := by
  have hodd : s.owner%2=1 := h.waiters .writer (by rw [hqueue]; exact cons_ne_nil _ _)
  have hfirst := (schedule_first protocol it rest).mem
  rw [← hqueue] at hfirst
  set cpu := (schedule protocol it rest).thread
  have hmem : cpu∈threads (s.queue .writer) := mem_map_of_mem hfirst
  obtain ⟨e,he,hperm⟩ := unqueue_perm hmem
  have hnodup : (e.thread::threads (SleepQueue.unqueue (s.queue .writer) cpu)).Nodup :=
    (hperm.map Sleeper.thread).nodup_iff.mp (h.queues.nodup .writer)
  refine .pick h hloc hl₀ trivial hplace.symm hnil hodd eraseP_sublist ?_ ?_ trivial ?_
  · intro u hu
    rw [mem_singleton.mp hu]
    refine ⟨place_queued (h.queues.waits .writer cpu hmem) hmem,?_⟩
    rw [he] at hnodup
    exact (nodup_cons.mp hnodup).1
  · intro u hu
    refine mem_threads_of_perm hperm ?_
    rw [he]
    exact fun heq => hu (mem_singleton.mpr heq)
  · intro hpicked
    exact ⟨rfl,hodd,hpicked cpu mem_cons_self,hlast⟩

/-- Nobody has the lock without a thread that gives it up to a writer. -/
theorem Inv.admits_given {own : Side} (h : Inv ids s) (hplace : (s.loc t).place = .releasing own)
    (hlast : own=.reader → s.owner = -1) : Admits (drop s.holders own t) .writer := by
  have hmem := h.mem_holders hplace
  cases own with
  | reader => exact h.word.drop_reader hmem (hlast rfl)
  | writer => exact h.word.drop_writer hmem

variable (h : Inv ids s) (hadv : advance ids protocol prio s t late = some s')

include h hadv

theorem runlock_moved (hloc : s.loc t = .runlock) : Moved ids s t s' := by
  simp only [advance,hloc] at hadv
  cases hadv
  split_ifs with hval
  · exact .stay h hloc id id rfl hval id
  · exact .stay h hloc id id rfl trivial id

theorem runlockCas_moved {val : ℤ} (hloc : s.loc t = .runlockCas val) : Moved ids s t s' := by
  have hval : val < 0 ∧ val%2=0 := h.fits_at hloc
  have hreader : t∈s.holders .reader := h.mem_holders (hloc ▸ rfl)
  simp only [advance,hloc] at hadv
  cases hadv
  split_ifs with heq
  · subst heq
    have heven := hval.2
    exact .release h hloc id rfl (h.word.release_reader hreader (.inl heven)) heven (by omega)
  · exact .stay h hloc id id rfl trivial id

theorem wunlock_moved (hloc : s.loc t = .wunlock) : Moved ids s t s' := by
  have hplace : (s.loc t).place = .releasing .writer := hloc ▸ rfl
  simp only [advance,hloc] at hadv
  cases hadv
  split_ifs with hne
  · rw [wunlockNext_eq h hplace hne]
    exact .stay h hloc id id rfl trivial id
  · exact .stay h hloc id id rfl trivial id

theorem wunlockCas_moved (hloc : s.loc t = .wunlockCas) : Moved ids s t s' := by
  have hplace : (s.loc t).place = .releasing .writer := hloc ▸ rfl
  simp only [advance,hloc] at hadv
  cases hadv
  split_ifs with heq
  · have hnext : wunlockNext ids t s.owner = .returned .ok := by
      rw [wunlockNext,if_neg (not_not.mpr (by omega)),if_neg (by omega)]
    rw [hnext]
    exact .release h hloc id rfl (h.word.release_writer (h.mem_holders hplace)) (by omega) rfl
  · rw [wunlockNext_eq h hplace heq]
    exact .stay h hloc id id rfl trivial id

theorem unlockMutex_moved (hloc : s.loc t = .unlockMutex side) : Moved ids s t s' := by
  simp only [advance,hloc] at hadv
  cases side with
  | reader
  | writer => exact .enter h hloc hadv trivial rfl trivial fun hnil hsettled => ⟨hnil,hsettled⟩

theorem runlockSlow_moved (hloc : s.loc t = .runlockSlow) : Moved ids s t s' := by
  obtain ⟨hnil,hsettled⟩ := h.stage hloc trivial
  have hplace : (s.loc t).place = .releasing .reader := hloc ▸ rfl
  have hreader := h.mem_holders hplace
  obtain ⟨hwriter,_,hneg⟩ := h.word.neg_of_reader hreader
  simp only [advance,hloc] at hadv
  cases hadv
  split_ifs with hmore hpos
  · have hword := h.word.release_reader hreader (.inr hmore)
    refine .within h hloc trivial trivial rfl rfl (.inr (step_release hplace rfl)) hword
      (h.queues.go rfl rfl (.inr (h.not_mem (by rw [hplace]; trivial)))) ?_ trivial ⟨hnil,?_⟩
    · intro own hne
      have hodd := h.waiters own hne
      change (s.owner+2)%2=1
      omega
    · intro hodd _
      change (s.owner+2)%2 = 1 at hodd
      exact hsettled (by omega) hwriter
  · omega
  · exact .hold h hloc trivial trivial rfl trivial ⟨hnil,hsettled,by change s.owner = -1; omega⟩

/-- The bit says that a writer is queued, whom the last reader finds. -/
theorem runlockHand_moved (hloc : s.loc t = .runlockHand) : Moved ids s t s' := by
  obtain ⟨hnil,hsettled,hlast⟩ := h.stage hloc trivial
  have hwriter : s.holders .writer=[] := (h.word.readers_of_nonpos (by omega)).1
  have hne : s.queue .writer≠[] := hsettled (by omega) hwriter
  simp only [advance,hloc] at hadv
  split at hadv
  · next hqueue => exact absurd hqueue hne
  · next it rest hqueue =>
    cases hadv
    exact pick_writer_moved h .reader hloc trivial rfl hnil hqueue fun _ => hlast

theorem wunlockHand_moved (hloc : s.loc t = .wunlockHand) : Moved ids s t s' := by
  obtain ⟨hnil,hsettled⟩ := h.stage hloc trivial
  simp only [advance,hloc] at hadv
  split at hadv
  · next hwriters =>
    cases hadv
    split_ifs with hreaders
    · have hodd := h.waiters .reader hreaders
      refine pick_readers_moved h hloc trivial trivial rfl hnil hodd hwriters trivial ?_
      rintro s₁ rfl hqueue hplaces
      exact ⟨rfl,hodd,hqueue,h.queues.nodup .reader,hplaces⟩
    · refine .hold h hloc trivial trivial rfl trivial ⟨hnil,hsettled,?_⟩
      intro side
      cases side with
      | reader => exact not_not.mp hreaders
      | writer => exact hwriters
  · next it rest hqueue =>
    cases hadv
    exact pick_writer_moved h .writer hloc trivial rfl hnil hqueue (by rintro ⟨⟩)

theorem wunlockZero_moved (hloc : s.loc t = .wunlockZero) : Moved ids s t s' := by
  obtain ⟨hnil,_,hempty⟩ := h.stage hloc trivial
  have hplace : (s.loc t).place = .releasing .writer := hloc ▸ rfl
  simp only [advance,hloc] at hadv
  cases hadv
  exact .within h hloc trivial trivial rfl rfl (.inr (step_release hplace rfl))
    (h.word.release_writer (h.mem_holders hplace))
    (h.queues.go rfl rfl (.inr (h.not_mem (by rw [hplace]; trivial))))
    (fun side hne => absurd (hempty side) hne) trivial ⟨hnil,by rintro ⟨⟩⟩

theorem grantWriter_moved {own : Side} {w : τ} (hloc : s.loc t = .grantWriter own w) :
    Moved ids s t s' := by
  obtain ⟨hpicked,_,hw,hlast⟩ := h.stage hloc trivial
  have hplace : (s.loc t).place = .releasing own := hloc ▸ rfl
  have hadmits := h.admits_given hplace hlast
  have hts : ∀ u∈[w], s.place u = .picked .writer := by
    intro u hu
    rw [mem_singleton.mp hu,hw]
  simp only [advance,hloc] at hadv
  cases hadv
  refine .within h hloc trivial trivial rfl rfl
    (.inr (step_give hplace rfl hpicked (nodup_singleton w) hts hadmits fun _ => Nat.le_refl 1))
    (word_of_writer (w := w) (by simp [grant,hadmits.1]) hadmits.2 (by dsimp only; split_ifs <;> omega))
    (h.queues.go rfl rfl (.inr (h.not_mem (by rw [hplace]; trivial)))) ?_ trivial ⟨rfl,?_,?_⟩
  · intro side hne
    have hbit : s.queue .writer≠[] ∨ s.queue .reader≠[] := by
      cases side with
      | reader => exact .inr hne
      | writer => exact .inl hne
    simp only [if_pos hbit]
    omega
  · intro _ hwriter
    simp [State.go,grant] at hwriter
  · refine h.awaits_given (h.mutex_of_locked hloc trivial) ?_ hts
    rw [place_of_loc hplace trivial]
    rintro ⟨⟩

theorem grantReaders_moved {ts : List τ} (hloc : s.loc t = .grantReaders ts) :
    Moved ids s t s' := by
  obtain ⟨rfl,_,hempty,hnodup,hplaces⟩ := h.stage hloc trivial
  have hplace : (s.loc t).place = .releasing .writer := hloc ▸ rfl
  obtain ⟨hwriter,hreader⟩ := h.word.drop_writer (h.mem_holders hplace)
  simp only [advance,hloc] at hadv
  cases hadv
  refine .within h hloc trivial trivial rfl rfl
    (.inr (step_give hplace rfl rfl hnodup hplaces hwriter (by rintro ⟨⟩))) 
    (word_of_readers hwriter (by simp [grant,hreader]) rfl)
    (h.queues.go rfl rfl (.inr (h.not_mem (by rw [hplace]; trivial))))
    (fun side hne => absurd (hempty side) hne) trivial ⟨rfl,?_,?_⟩
  · intro hodd
    change (-2*(s.picked.length : ℤ))%2 = 1 at hodd
    omega
  · refine h.awaits_given (h.mutex_of_locked hloc trivial) ?_ hplaces
    rw [place_of_loc hplace trivial]
    rintro ⟨⟩

theorem leave_moved {ret : Ret} (hloc : s.loc t = .leave ret) : Moved ids s t s' := by
  obtain ⟨hnil,hsettled⟩ := h.stage hloc trivial
  simp only [advance,hloc] at hadv
  cases hadv
  by_cases hret : ret=.etimedout
  · subst hret
    have hplace : (s.loc t).place = .expired := by
      rw [hloc]
      rfl
    refine .exit h hloc trivial id (.inr ?_) (.inr (h.not_mem (by rw [hplace]; trivial))) trivial hnil
      hsettled
    exact step_of_place (.giveUp (place_of_loc hplace trivial)) rfl rfl
      (place_go_update (l := .returned .etimedout) trivial)
  · have hplace : (Loc.returned ret : Loc τ).place = (Loc.leave ret : Loc τ).place := by
      cases ret with
      | etimedout => exact absurd rfl hret
      | _ => rfl
    exact .exit h hloc trivial id (.inl (lock_go (s := {s with mutex := none}) (hloc ▸ hplace)))
      (.inl hplace) trivial hnil hsettled

end PS3Native.Lv2Rwlock
