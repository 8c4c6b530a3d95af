import PS3Native.Lv2RwlockMoves

/-! # The steps of the calls that lock a `lv2_rwlock` and of the threads that wait for it -/
namespace PS3Native.Lv2Rwlock
open SleepQueue SharedHandOff List

variable {τ : Type*} [DecidableEq τ] {ids : Ids τ} {protocol : Protocol} {prio : τ → ℤ}
  {s s' : State τ} {t : τ} {late : Bool} {side : Side} {timed : Bool}

/-- A reader that finds the word readable. -/
theorem Inv.admits_reader (h : Inv ids s) (hread : Readable s.owner) : Admits s.holders .reader :=
  (h.word.readers_of_nonpos hread.1).1

theorem Inv.admits_writer (h : Inv ids s) (hzero : s.owner=0) : Admits s.holders .writer :=
  h.word.free_of_zero hzero

theorem take_reader_moved {l : Loc τ} (h : Inv ids s) (hloc : s.loc t=l) (hl : ¬l.Locked)
    (hout : l.place=.outside) (hread : Readable s.owner) :
    Moved ids s t ((s.take t .reader (s.owner-2)).go t (.returned .ok)) := by
  have heven := hread.2
  exact Moved.take h hloc hl hout (h.admits_reader hread) (h.word.take_reader hread) heven (by omega)

theorem take_writer_moved {l : Loc τ} (h : Inv ids s) (hloc : s.loc t=l) (hl : ¬l.Locked)
    (hout : l.place=.outside) (hzero : s.owner=0) :
    Moved ids s t ((s.take t .writer (2*ids.id t)).go t (.returned .ok)) :=
  Moved.take h hloc hl hout (h.admits_writer hzero) (h.word.take_writer hzero) (by omega) (by omega)

/-- A thread that is not the writer does not have the lock as a writer. -/
theorem Inv.held_writer (h : Inv ids s) (hout : (s.loc t).place = .outside)
    (hdiv : s.owner/2≠ids.id t) : s.held .writer t=0 := by
  refine h.held_eq_zero hout fun hmem => hdiv ?_
  obtain ⟨_,_,heq⟩ := h.word.eq_of_writer hmem
  omega

/-- A call gets the lock with the mutex of the object. -/
theorem take_leave_moved {owner : ℤ} (h : Inv ids s) (hloc : s.loc t = .lockSlow side timed)
    (hadmits : Admits s.holders side) (hword : Word ids owner (grant s.holders side [t]))
    (heven : s.owner%2=0) (heven' : owner%2=0) :
    Moved ids s t ((s.take t side owner).go t (.leave .ok)) := by
  obtain ⟨hnil,_⟩ := h.stage hloc trivial
  have hout : (s.loc t).place = .outside := hloc ▸ rfl
  refine .within h hloc trivial trivial rfl rfl (.inr (step_take hout rfl hadmits)) hword
    (h.queues.go rfl rfl (.inl hout.symm)) ?_ trivial ⟨hnil,?_⟩
  · intro own hne
    have hodd := h.waiters own hne
    omega
  · intro hodd
    change owner%2 = 1 at hodd
    omega

variable {deadlk : Bool}

theorem setBit_moved (h : Inv ids s) (hloc : s.loc t = .lockSlow side timed) (hne : s.owner≠0)
    (hdeadlk : deadlk=false)
    (hsettled : side=.reader → Settled {s with owner := setBit s.owner}) :
    Moved ids s t ({s with owner := setBit s.owner}.go t (.emplace side timed deadlk)) := by
  obtain ⟨hnil,_⟩ := h.stage hloc trivial
  have hout : (Loc.emplace side timed deadlk : Loc τ).place = (s.loc t).place := hloc ▸ rfl
  refine .within h hloc trivial trivial rfl rfl
    (.inl (lock_go (s := {s with owner := setBit s.owner}) hout)) (h.word.setBit hne)
    (h.queues.go rfl rfl (.inl hout)) (fun _ _ => setBit_mod_two _) trivial ?_
  exact ⟨hnil,setBit_mod_two _,hdeadlk,hsettled⟩

theorem expire_moved {l : Loc τ} (h : Inv ids s) (hloc : s.loc t = .unqueue side)
    (hmem : t∈threads (s.queue side)) (hl : l.Locked) (hplace : l.place=.expired)
    (hfits : Fits ((s.setQueue side (SleepQueue.unqueue (s.queue side) t)).go t l) t l)
    (hstage : s.owner%2=1 →
      Stage ((s.setQueue side (SleepQueue.unqueue (s.queue side) t)).go t l) l) :
    Moved ids s t ((s.setQueue side (SleepQueue.unqueue (s.queue side) t)).go t l) := by
  have hwait : (s.loc t).place = .granted side := hloc ▸ rfl
  have hodd : s.owner%2=1 := h.waiters side fun hnil => by
    rw [hnil] at hmem
    cases hmem
  obtain ⟨e,he,hperm⟩ := unqueue_perm hmem
  have hnot : ∀ own, t∉threads ((s.setQueue side (SleepQueue.unqueue (s.queue side) t)).queue own) := by
    intro own
    by_cases hown : own=side
    · subst hown
      rw [threads_setQueue_self]
      have hnodup : (e.thread::threads (SleepQueue.unqueue (s.queue own) t)).Nodup :=
        (hperm.map Sleeper.thread).nodup_iff.mp (h.queues.nodup own)
      rw [he] at hnodup
      exact (nodup_cons.mp hnodup).1
    · rw [threads_setQueue_of_ne hown]
      intro hmem'
      have hplace' := h.queues.waits own t hmem'
      rw [hwait] at hplace'
      cases hplace'
      exact hown rfl
  exact .within h hloc trivial hl rfl rfl
    (.inr (step_expire he hperm (place_queued hwait hmem) hplace)) h.word
    ((h.queues.shrink eraseP_sublist).go rfl rfl (.inr hnot)) (fun _ _ => hodd) hfits (hstage hodd)

theorem pick_readers_moved {l₀ l : Loc τ} (h : Inv ids s) (hloc : s.loc t=l₀) (hl₀ : l₀.Locked)
    (hl : l.Locked) (hplace : l.place=l₀.place) (hnil : s.picked=[]) (hodd : s.owner%2=1)
    (hwriters : s.queue .writer=[])
    (hfits : Fits ((s.pick .reader [] (threads (s.queue .reader))).go t l) t l)
    (hstage : ∀ s₁ : State τ, s₁ = (s.pick .reader [] (threads (s.queue .reader))).go t l →
      (∀ side, s₁.queue side=[]) → (∀ u∈threads (s.queue .reader), s₁.place u = .picked .reader) →
      Stage s₁ l) : Moved ids s t ((s.pick .reader [] (threads (s.queue .reader))).go t l) := by
  refine .pick h hloc hl₀ hl hplace hnil hodd (nil_sublist _) ?_ ?_ hfits ?_
  · intro u hu
    exact ⟨place_queued (h.queues.waits .reader u hu) hu,not_mem_nil⟩
  · intro u hu
    exact ⟨fun hmem => absurd hmem not_mem_nil,fun hmem => absurd hmem hu⟩
  · refine hstage _ rfl ?_
    intro side
    cases side with
    | reader => simp [State.go,State.pick,State.setQueue]
    | writer => simpa [State.go,State.pick,State.setQueue] using hwriters

variable (h : Inv ids s) (hadv : advance ids protocol prio s t late = some s')

include h hadv

theorem rlock_moved (hloc : s.loc t = .rlock timed) : Moved ids s t s' := by
  simp only [advance,hloc] at hadv
  cases hadv
  split_ifs with hread
  · exact .stay h hloc id id rfl hread id
  · exact .stay h hloc id id rfl trivial id

theorem rlockCas_moved {val : ℤ} (hloc : s.loc t = .rlockCas timed val) : Moved ids s t s' := by
  have hread : Readable val := h.fits_at hloc
  simp only [advance,hloc] at hadv
  cases hadv
  split_ifs with hval
  · subst hval
    exact take_reader_moved h hloc id rfl hread
  · exact .stay h hloc id id rfl trivial id

theorem tryrlock_moved (hloc : s.loc t = .tryrlock) : Moved ids s t s' := by
  simp only [advance,hloc] at hadv
  cases hadv
  split_ifs with hread
  · exact take_reader_moved h hloc id rfl hread
  · exact .stay h hloc id id rfl trivial id

theorem wlock_moved (hloc : s.loc t = .wlock timed) : Moved ids s t s' := by
  have hout : (s.loc t).place = .outside := hloc ▸ rfl
  have hpos := ids.pos t
  simp only [advance,hloc] at hadv
  cases hadv
  split_ifs with hzero hdiv
  · exact .stay h hloc id id rfl (h.held_writer hout (by omega)) id
  · exact .stay h hloc id id rfl trivial id
  · exact .stay h hloc id id rfl (h.held_writer hout hdiv) id

theorem wlockCas_moved (hloc : s.loc t = .wlockCas timed) : Moved ids s t s' := by
  simp only [advance,hloc] at hadv
  cases hadv
  split_ifs with hzero
  · exact take_writer_moved h hloc id rfl hzero
  · exact .stay h hloc id id rfl (h.fits_at hloc) id

theorem trywlock_moved (hloc : s.loc t = .trywlock) : Moved ids s t s' := by
  simp only [advance,hloc] at hadv
  cases hadv
  split_ifs
  · exact .stay h hloc id id rfl trivial id
  · exact .stay h hloc id id rfl trivial id

theorem trywlockCas_moved (hloc : s.loc t = .trywlockCas) : Moved ids s t s' := by
  simp only [advance,hloc] at hadv
  cases hadv
  split_ifs with hzero
  · exact take_writer_moved h hloc id rfl hzero
  · exact .stay h hloc id id rfl trivial id

theorem lockMutex_moved (hloc : s.loc t = .lockMutex side timed) : Moved ids s t s' := by
  have hfits := h.fits_at hloc
  simp only [advance,hloc] at hadv
  cases side with
  | reader => exact .enter h hloc hadv trivial rfl trivial fun hnil hsettled => ⟨hnil,hsettled⟩
  | writer => exact .enter h hloc hadv trivial rfl hfits fun hnil hsettled => ⟨hnil,hsettled⟩

theorem lockSlow_reader_moved (hloc : s.loc t = .lockSlow .reader timed) : Moved ids s t s' := by
  obtain ⟨_,hsettled⟩ := h.stage hloc trivial
  simp only [advance,hloc] at hadv
  cases hadv
  split_ifs with hread
  · have heven := hread.2
    exact take_leave_moved h hloc (h.admits_reader hread) (h.word.take_reader hread) heven (by omega)
  · have hne : s.owner≠0 := fun hzero => hread (by rw [hzero]; exact ⟨le_refl 0,rfl⟩)
    refine setBit_moved h hloc hne rfl fun _ _ hwriter => ?_
    -- the reader is held up by a writer, or by the bit
    have hodd : s.owner%2=1 := by
      rcases h.word with ⟨_,heq,_⟩ | ⟨w,hw,_⟩
      · by_contra heven
        exact hread ⟨by omega,by omega⟩
      · have hnone : s.holders .writer=[] := hwriter
        rw [hw] at hnone
        cases hnone
    exact hsettled hodd hwriter

theorem lockSlow_writer_moved (hloc : s.loc t = .lockSlow .writer timed) : Moved ids s t s' := by
  have hheld : s.held .writer t=0 := h.fits_at hloc
  have hnot : t∉s.holders .writer := by
    have hcount := h.count_eq t .writer
    rw [hheld,place_of_loc (hloc ▸ rfl) (p := .outside) trivial] at hcount
    exact count_eq_zero.mp hcount
  simp only [advance,hloc] at hadv
  cases hadv
  split_ifs with hzero
  · exact take_leave_moved h hloc (h.admits_writer hzero) (h.word.take_writer hzero) (by omega)
      (by omega)
  · exact setBit_moved h hloc hzero (decide_eq_false fun hdiv => hnot (h.word.mem_of_div_two hdiv))
      (by rintro ⟨⟩)

theorem emplace_moved (hloc : s.loc t = .emplace side timed deadlk) : Moved ids s t s' := by
  obtain ⟨hnil,hodd,hdeadlk,hsettled⟩ := h.stage hloc trivial
  have hout : (s.loc t).place = .outside := hloc ▸ rfl
  have hqueues : Queues {s with tag := s.tag+1} := ⟨h.queues.nodup,h.queues.waits⟩
  simp only [advance,hloc] at hadv
  cases hadv
  refine .within h hloc trivial trivial rfl rfl (.inr (step_of_place
    (.join side (place_of_loc hout trivial)) rfl rfl (place_push rfl rfl))) h.word
    (hqueues.push rfl (h.not_mem (by rw [hout]; trivial)) rfl)
    (fun _ _ => hodd) trivial ⟨hnil,?_,hdeadlk⟩
  cases side with
  | reader => exact fun hodd hwriter => hsettled rfl hodd hwriter
  | writer =>
    intro _ _
    simp [State.go,State.setQueue]

theorem emplaced_moved (hloc : s.loc t = .emplaced side timed deadlk) : Moved ids s t s' := by
  obtain ⟨hnil,hsettled,hdeadlk⟩ := h.stage hloc trivial
  subst hdeadlk
  simp only [advance,hloc] at hadv
  cases hadv
  have hplace : (Loc.wait side timed false : Loc τ).place = (s.loc t).place := hloc ▸ rfl
  exact .exit h hloc trivial id (.inl (lock_go (s := {s with mutex := none}) hplace)) (.inl rfl)
    trivial hnil hsettled

theorem wait_moved {timed awoken : Bool} (hloc : s.loc t = .wait side timed awoken) :
    Moved ids s t s' := by
  simp only [advance,hloc] at hadv
  split_ifs at hadv with hlate htimed hawoken
  · cases hadv
    exact .stay h hloc id id rfl trivial fun _ => trivial
  · subst hawoken
    have hgranted : s.place t = .granted side := h.fits_at hloc
    cases hadv
    exact .outside h hloc id id rfl rfl ⟨rfl,rfl,.inl ⟨rfl,rfl⟩⟩ (.inr (step_accept hgranted rfl))
      h.word (.inr (h.not_mem_of_granted hgranted)) trivial (by rintro ⟨⟩)

theorem timedOut_moved (hloc : s.loc t = .timedOut side) : Moved ids s t s' := by
  simp only [advance,hloc] at hadv
  cases hadv
  split_ifs with hempty
  · obtain ⟨rfl,hempty⟩ := hempty
    refine .stay h hloc id id rfl ?_ id
    change t∉threads (s.queue .reader)
    rw [hempty]
    exact not_mem_nil
  · exact .stay h hloc id id rfl trivial id

/-- A thread in no queue that sees the mutex of the object free was given the lock. -/
theorem lockUnlock_moved (hloc : s.loc t = .lockUnlock) : Moved ids s t s' := by
  have hnot : t∉threads (s.queue .reader) := h.fits_at hloc
  simp only [advance,hloc] at hadv
  split_ifs at hadv with hfree
  have hgranted : s.place t = .granted .reader := by
    refine place_granted (hloc ▸ rfl) hnot ?_
    rw [(h.neutral hfree).1]
    exact not_mem_nil
  cases hadv
  exact .outside h hloc id id rfl rfl ⟨rfl,rfl,.inl ⟨rfl,rfl⟩⟩ (.inr (step_accept hgranted rfl))
    h.word (.inr (h.not_mem_of_granted hgranted)) trivial fun _ hne => absurd hfree hne

theorem timeoutLock_moved (hloc : s.loc t = .timeoutLock side) : Moved ids s t s' := by
  simp only [advance,hloc] at hadv
  exact .enter h hloc hadv trivial rfl trivial fun hnil hsettled => ⟨hnil,hsettled⟩

theorem unqueue_moved (hloc : s.loc t = .unqueue side) : Moved ids s t s' := by
  obtain ⟨hnil,hsettled⟩ := h.stage hloc trivial
  simp only [advance,hloc] at hadv
  cases hadv
  split_ifs with hmem
  · cases side with
    | reader =>
      exact expire_moved h hloc hmem trivial rfl trivial fun _ => ⟨hnil,hsettled⟩
    | writer =>
      exact expire_moved h hloc hmem trivial rfl trivial fun hodd => ⟨hnil,hodd⟩
  · refine .accept h hloc (place_granted (hloc ▸ rfl) hmem ?_)
    rw [hnil]
    exact not_mem_nil

theorem unqueued_moved (hloc : s.loc t = .unqueued) : Moved ids s t s' := by
  obtain ⟨hnil,hodd⟩ := h.stage hloc trivial
  simp only [advance,hloc] at hadv
  cases hadv
  split_ifs with hreaders hempty
  · obtain ⟨_,hwriters,hneg⟩ := hreaders
    refine pick_readers_moved h hloc trivial trivial rfl hnil hodd hwriters trivial ?_
    rintro s₁ rfl hqueue hplaces
    exact ⟨rfl,hodd,hqueue,(h.word.readers_of_nonpos hneg.le).1,h.queues.nodup .reader,hplaces⟩
  · refine .hold h hloc trivial trivial rfl trivial ⟨hnil,hodd,?_⟩
    intro side
    cases side with
    | reader => exact hempty.1
    | writer => exact hempty.2
  · refine .hold h hloc trivial trivial rfl trivial ⟨hnil,?_⟩
    -- without queued writers, readers are queued behind a writer
    intro _ hwriter hwriters
    have hneg := h.word.neg_of_odd hodd hwriter
    by_cases hreader : s.queue .reader=[]
    · exact hempty ⟨hreader,hwriters⟩
    · exact hreaders ⟨hreader,hwriters,hneg⟩

theorem addReaders_moved {ts : List τ} (hloc : s.loc t = .addReaders ts) : Moved ids s t s' := by
  obtain ⟨rfl,hodd,hempty,hwriter,hnodup,hplaces⟩ := h.stage hloc trivial
  have hplace : (s.loc t).place = .expired := hloc ▸ rfl
  simp only [advance,hloc] at hadv
  cases hadv
  refine .within h hloc trivial trivial rfl rfl
    (.inr (step_letIn (by rw [hplace]; rfl) rfl hnodup hplaces hwriter))
    (h.word.add_readers hwriter s.picked) (h.queues.go rfl rfl (.inl (by rw [hplace]; rfl)))
    (fun side hne => absurd (hempty side) hne) trivial ⟨rfl,?_,?_⟩
  · intro hbit
    have heven := clearBit_mod_two (s.owner-2*s.picked.length)
    change clearBit (s.owner-2*s.picked.length)%2 = 1 at hbit
    omega
  · refine h.awaits_given (h.mutex_of_locked hloc trivial) ?_ hplaces
    rw [place_of_loc hplace trivial]
    rintro ⟨⟩

theorem clearBit_moved (hloc : s.loc t = .clearBit) : Moved ids s t s' := by
  obtain ⟨hnil,_,hempty⟩ := h.stage hloc trivial
  have hplace : (Loc.leave .etimedout : Loc τ).place = (s.loc t).place := hloc ▸ rfl
  simp only [advance,hloc] at hadv
  cases hadv
  refine .within h hloc trivial trivial rfl rfl
    (.inl (lock_go (s := {s with owner := clearBit s.owner}) hplace)) h.word.clearBit
    (h.queues.go rfl rfl (.inl hplace)) (fun side hne => absurd (hempty side) hne) trivial ⟨hnil,?_⟩
  intro hbit
  have heven := clearBit_mod_two s.owner
  change clearBit s.owner%2 = 1 at hbit
  omega

end PS3Native.Lv2Rwlock
