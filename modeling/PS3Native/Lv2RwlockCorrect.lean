import PS3Native.Lv2RwlockRuns
import PS3Native.Schedule

/-!
# `lv2_rwlock` is exclusive and strands nobody
-/
namespace PS3Native.Lv2Rwlock
open SleepQueue SharedHandOff Schedule
open HandOff (Ticket)

variable {τ : Type*} [DecidableEq τ] {ids : Ids τ} {protocol : Protocol} {prio : τ → ℤ}
  {s s' : State τ} {t u : τ} {late : Bool} {side : Side}

theorem ticket_queued_iff (h : Inv ids s) :
    s.ticket t = .queued ↔ ∃ side, t∈threads (s.queue side) := by
  constructor
  · intro hticket
    rcases place_cases s t with ⟨_,heq⟩ | ⟨side,_,⟨hmem,_⟩ | ⟨_,_,heq⟩ | ⟨_,_,heq⟩⟩
    · rw [State.ticket,heq] at hticket
      cases hloc : (s.loc t).place with
      | queued own => exact absurd hloc ((s.loc t).place_ne own).1
      | _ =>
        rw [hloc] at hticket
        cases hticket
    · exact ⟨side,hmem⟩
    all_goals
      rw [State.ticket,heq] at hticket
      cases hticket
  · rintro ⟨side,hmem⟩
    rw [State.ticket,place_queued (h.queues.waits side t hmem) hmem]
    rfl

theorem ticket_expired_iff : s.ticket t = .expired ↔ (s.loc t).place = .expired := by
  constructor
  · intro hticket
    rcases place_cases s t with ⟨_,heq⟩ | ⟨side,_,⟨_,heq⟩ | ⟨_,_,heq⟩ | ⟨_,_,heq⟩⟩
    · rw [State.ticket,heq] at hticket
      cases hloc : (s.loc t).place with
      | expired => rfl
      | _ =>
        rw [hloc] at hticket
        cases hticket
    all_goals
      rw [State.ticket,heq] at hticket
      cases hticket
  · intro hloc
    rw [State.ticket,place_of_loc hloc trivial]
    rfl

/-- A thread that has taken itself out of a queue goes on until it returns. -/
theorem advance_expired (hplace : (s.loc t).place = .expired)
    (hadv : advance ids protocol prio s t late = some s') :
    (s'.loc t).place = .expired ∨ s'.loc t = .returned .etimedout := by
  cases hloc : s.loc t with simp only [advance,hloc] at hadv
  | unqueued =>
    cases hadv
    split_ifs <;> rw [loc_go_self] <;> exact .inl rfl
  | addReaders ts | clearBit =>
    cases hadv
    rw [loc_go_self]
    exact .inl rfl
  | awake ts ret =>
    cases hadv
    rw [loc_go_self]
    rw [hloc] at hplace
    cases ret with
    | etimedout => exact .inl rfl
    | _ => cases hplace
  | leave ret =>
    cases hadv
    rw [loc_go_self]
    rw [hloc] at hplace
    cases ret with
    | etimedout => exact .inr rfl
    | _ => cases hplace
  | _ =>
    rw [hloc] at hplace
    cases hplace

section

variable (h : Inv ids s) (hstep : Step ids protocol prio s s')

include h

theorem Inv.mem_of_held (hheld : 0 < s.held side t) : t∈s.holders side := by
  have hcount := h.count_eq t side
  exact List.count_pos_iff.mp (by omega)

include hstep

theorem Inv.next (t : τ) : Ticket.Next (s.ticket t) (s'.ticket t) := by
  rcases (h.step hstep).2 with heq | ⟨u,hlock⟩
  · have hsame : s'.place t = s.place t := congrFun (congrArg Lock.place heq) t
    rw [State.ticket,State.ticket,hsame]
    exact .stay _
  · exact hlock.ticket t

theorem Inv.given (hhanded : s.ticket t = .handed) (hout : s'.ticket t = .outside) :
    ∃ side, t∈s'.holders side ∧ s'.held side t = s.held side t+1 := by
  obtain ⟨hinv,heq | ⟨u,hlock⟩⟩ := h.step hstep
  · have hsame : s'.place t = s.place t := congrFun (congrArg Lock.place heq) t
    rw [State.ticket,hsame] at hout
    rw [State.ticket,hout] at hhanded
    cases hhanded
  · obtain ⟨side,_,hheld⟩ := hlock.given hhanded hout
    exact ⟨side,hinv.mem_of_held (Nat.lt_of_lt_of_eq (Nat.succ_pos _) hheld.symm),hheld⟩

theorem Inv.expired_returns (hexpired : s.ticket t = .expired) (hout : s'.ticket t = .outside) :
    s'.loc t = .returned .etimedout := by
  have hplace := ticket_expired_iff.mp hexpired
  have hleft : (s'.loc t).place≠.expired := by
    intro hplace'
    rw [ticket_expired_iff.mpr hplace'] at hout
    cases hout
  have hother : ∀ u, Moved ids s u s' → t≠u → s'.loc t = .returned .etimedout := by
    intro u hm htu
    rw [hm.loc t htu] at hleft
    exact absurd hplace hleft
  cases hstep with
  | call u c hcall =>
    refine hother u (call_moved h hcall) ?_
    rintro rfl
    cases hloc : s.loc t with
    | idle | returned ret =>
      rw [hloc] at hplace
      cases hplace
    | _ =>
      simp only [call,hloc] at hcall
      cases hcall
  | advance u late hadv =>
    by_cases htu : t=u
    · subst htu
      exact (advance_expired hplace hadv).resolve_left hleft
    · by_cases hawake : ∃ ts ret, s.loc u = .awake ts ret
      · obtain ⟨ts,ret,hloc⟩ := hawake
        simp only [advance,hloc] at hadv
        cases hadv
        rw [loc_go_of_ne rfl htu,awakeAll_place_loc] at hleft
        exact absurd hplace hleft
      · exact hother u (advance_moved h hadv fun ts ret hloc => hawake ⟨ts,ret,hloc⟩) htu
  | drawn => exact absurd hplace hleft

end

structure Correct (ids : Ids τ) (protocol : Protocol) (prio : τ → ℤ) (s : State τ) : Prop where
  /-- A thread has the lock as often as its calls have it, outside of calls. -/
  holders : ∀ t side, s.held side t ≤ (s.holders side).count t ∧
    (s.loc t = .idle ∨ (∃ ret, s.loc t = .returned ret) → (s.holders side).count t = s.held side t)
  /-- A writer is alone. -/
  exclusive : ∀ t, 0 < s.held .writer t →
    s.held .writer t=1 ∧ ∀ u side, 0 < s.held side u → u=t ∧ side=.writer
  /-- The word stands for the threads that have the lock, and fits into 64 bits. -/
  word : Word ids s.owner s.holders
  word_fits : (s.holders .reader).length ≤ 2^62 → -2^63 ≤ s.owner ∧ s.owner < 2^63
  /-- Its bit is set while a thread is queued. Without a writer it says that writers are. -/
  bit_of_queued : ∀ side, s.queue side≠[] → s.owner%2=1
  bit_iff : s.mutex=none → s.holders .writer=[] → (s.owner%2=1 ↔ s.queue .writer≠[])
  /-- A thread is queued once, and leaves the queue once. -/
  distinct : (threads (s.queue .reader)++threads (s.queue .writer)).Nodup
  queued : ∀ t, s.ticket t = .queued ↔ ∃ side, t∈threads (s.queue side)
  next : ∀ s', Step ids protocol prio s s' → ∀ t, Ticket.Next (s.ticket t) (s'.ticket t)
  given : ∀ s', Step ids protocol prio s s' → ∀ t, s.ticket t = .handed → s'.ticket t = .outside →
    ∃ side, t∈s'.holders side ∧ s'.held side t = s.held side t+1
  returns_etimedout : ∀ s', Step ids protocol prio s s' → ∀ t, s.ticket t = .expired →
    s'.ticket t = .outside → s'.loc t = .returned .etimedout
  /-- Nobody waits for a lock that is free. -/
  free : s.mutex=none → (∀ side, s.holders side=[]) → ∀ side, s.queue side=[]
  ensured : ∀ t, s.loc t≠.failed

theorem Inv.exclusive (h : Inv ids s) (hheld : 0 < s.held .writer t) :
    s.held .writer t=1 ∧ ∀ u side, 0 < s.held side u → u=t ∧ side=.writer := by
  obtain ⟨hwriter,hreader,_⟩ := h.word.eq_of_writer (h.mem_of_held hheld)
  constructor
  · have hcount := h.count_eq t .writer
    rw [hwriter,List.count_singleton_self] at hcount
    omega
  · intro u side hu
    have hmem := h.mem_of_held hu
    cases side with
    | reader =>
      rw [hreader] at hmem
      cases hmem
    | writer =>
      rw [hwriter,List.mem_singleton] at hmem
      exact ⟨hmem,rfl⟩

omit [DecidableEq τ] in
theorem Word.fits {owner : ℤ} {holders : Side → List τ} (h : Word ids owner holders)
    (hlength : (holders .reader).length ≤ 2^62) : -2^63 ≤ owner ∧ owner < 2^63 := by
  rcases h with ⟨_,heq,_⟩ | ⟨w,_,_,heq⟩
  · omega
  · have hlt := ids.lt w
    omega

theorem Inv.even_of_free (h : Inv ids s) (hfree : ∀ side, s.holders side=[]) : s.owner%2=0 := by
  rcases h.word with ⟨_,_,heven⟩ | ⟨w,hw,_⟩
  · exact heven (hfree .reader)
  · rw [hfree .writer] at hw
    cases hw

theorem Inv.distinct (h : Inv ids s) :
    (threads (s.queue .reader)++threads (s.queue .writer)).Nodup := by
  refine List.Nodup.append (h.queues.nodup .reader) (h.queues.nodup .writer) ?_
  intro t hreader hwriter
  have hplace := h.queues.waits .reader t hreader
  rw [h.queues.waits .writer t hwriter] at hplace
  cases hplace

/-- In every state of every interleaving `lv2_rwlock` belongs to one writer or to readers,
its word says to whom, and nobody is left in a queue. -/
theorem lv2_rwlock_correct (h : Reachable ids protocol prio s) : Correct ids protocol prio s where
  holders := by
    intro t side
    have hcount := h.inv.count_eq t side
    refine ⟨by omega,?_⟩
    intro hloc
    have hout : (s.loc t).place = .outside := by
      rcases hloc with hloc | ⟨ret,hloc⟩ <;> rw [hloc] <;> rfl
    rw [place_of_loc hout trivial] at hcount
    exact hcount
  exclusive := fun t hheld => h.inv.exclusive hheld
  word := h.inv.word
  word_fits := h.inv.word.fits
  bit_of_queued := h.inv.waiters
  bit_iff := fun hmutex hwriter =>
    ⟨fun hodd => (h.inv.neutral hmutex).2 hodd hwriter,h.inv.waiters .writer⟩
  distinct := h.inv.distinct
  queued := fun t => ticket_queued_iff h.inv
  next := fun s' hstep t => h.inv.next hstep t
  given := fun s' hstep t hhanded hout => h.inv.given hstep hhanded hout
  returns_etimedout := fun s' hstep t hexpired hout => h.inv.expired_returns hstep hexpired hout
  free := by
    intro _ hfree side
    by_contra hne
    have hodd := h.inv.waiters side hne
    have heven := h.inv.even_of_free hfree
    omega
  ensured := by
    intro t hloc
    exact h.inv.fits_at hloc

inductive Act (τ : Type*)
  | call (t : τ) (c : Call)
  | advance (t : τ) (late : Bool)

def take (ids : Ids τ) (protocol : Protocol) (prio : τ → ℤ) (s : State τ) :
    Act τ → Option (State τ)
  | .call t c => call s t c
  | .advance t late => advance ids protocol prio s t late

theorem step_of_take (s : State τ) (act : Act τ) (s' : State τ)
    (h : take ids protocol prio s act = some s') : Step ids protocol prio s s' := by
  cases act with
  | call t c => exact .call t c h
  | advance t late => exact .advance t late h

inductive Worker
  | first | second | third
  deriving DecidableEq, Repr

def workerIds : Ids Worker where
  id
    | .first => 1
    | .second => 2
    | .third => 3
  injective := by
    intro t u h
    cases t <;> cases u <;> first | rfl | cases h
  pos := by
    intro t
    cases t <;> decide
  lt := by
    intro t
    cases t <;> decide

def advances (t : Worker) (n : ℕ) : List (Act Worker) := List.replicate n (.advance t false)

/-- The first thread has the lock as a writer, and the second one queues on a side. -/
def queuedRun (side : Side) : List (Act Worker) :=
  .call .first (.lock .writer false)::advances .first 2 ++
    .call .second (.lock side true)::advances .second 5

/-- Then the third thread queues as a writer and gets the lock, and the second after it. -/
def handOverRun : List (Act Worker) :=
  queuedRun .reader++.call .third (.lock .writer true)::advances .third 5 ++
    .call .first (.unlock .writer)::advances .first 6++advances .third 1 ++
    .call .third (.unlock .writer)::advances .third 6++advances .second 1

theorem lv2_rwlock_correct_handed_over :
    ∃ s, Reachable workerIds .fifo (fun _ => 0) s ∧ s.owner = -2 ∧ s.loc .second = .returned .ok ∧
      s.loc .third = .returned .ok ∧ Correct workerIds .fifo (fun _ => 0) s := by
  have hrun : ((run (take workerIds .fifo fun _ => 0) (initial Worker 0) handOverRun).map
      fun s => (s.owner,s.loc .second,s.loc .third)) = some (-2,.returned .ok,.returned .ok) := by decide
  obtain ⟨s,hpath,hfacts⟩ := exists_of_run step_of_take hrun
  simp only [Prod.mk.injEq] at hfacts
  have hreach : Reachable workerIds .fifo (fun _ => 0) s := ⟨0,hpath⟩
  exact ⟨s,hreach,hfacts.1,hfacts.2.1,hfacts.2.2,lv2_rwlock_correct hreach⟩

/-- The word of a writer with its bit set does not say whether a writer is queued or a
reader. -/
theorem owner_word_same_for_queued_reader_and_writer :
    ∃ s s', Reachable workerIds .fifo (fun _ => 0) s ∧ Reachable workerIds .fifo (fun _ => 0) s' ∧
      s.mutex=none ∧ s'.mutex=none ∧ s.owner=s'.owner ∧
      s.queue .writer=[] ∧ s'.queue .writer≠[] := by
  have hrun : ∀ side : Side, ∃ s, Reachable workerIds .fifo (fun _ => 0) s ∧ s.mutex=none ∧ s.owner=3 ∧
      s.queue .writer = if side=.writer then [⟨.second,0,1⟩] else [] := by
    intro side
    have hrun : ((run (take workerIds .fifo fun _ => 0) (initial Worker 0) (queuedRun side)).map
        fun s => (s.mutex,s.owner,s.queue .writer)) =
          some (none,3,if side=.writer then [⟨.second,0,1⟩] else []) := by
      cases side <;> decide
    obtain ⟨s,hpath,hfacts⟩ := exists_of_run step_of_take hrun
    simp only [Prod.mk.injEq] at hfacts
    exact ⟨s,⟨0,hpath⟩,hfacts⟩
  obtain ⟨s,hreach,hmutex,howner,hqueue⟩ := hrun .reader
  obtain ⟨s',hreach',hmutex',howner',hqueue'⟩ := hrun .writer
  refine ⟨s,s',hreach,hreach',hmutex,hmutex',howner.trans howner'.symm,hqueue,?_⟩
  rw [hqueue']
  exact List.cons_ne_nil _ _

end PS3Native.Lv2Rwlock
