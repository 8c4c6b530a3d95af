import PS3Native.Lv2RwlockUnlock

/-!
# The runs of `lv2_rwlock`
-/
namespace PS3Native.Lv2Rwlock
open SleepQueue SharedHandOff

variable {τ : Type*} [DecidableEq τ] {ids : Ids τ} {protocol : Protocol} {prio : τ → ℤ}
  {s s' : State τ} {t u : τ} {late : Bool}

theorem inv_initial (ids : Ids τ) (tag : ℕ) : Inv ids (initial τ tag) where
  lock := ⟨.inl rfl,fun _ _ => rfl⟩
  word := word_of_readers (n := 0) rfl rfl rfl
  locked := fun _ => ⟨by rintro ⟨⟩,by rintro ⟨⟩⟩
  queues := ⟨fun _ => List.nodup_nil,fun _ _ hmem => absurd hmem List.not_mem_nil⟩
  waiters := fun _ hne => absurd rfl hne
  fits := fun _ => trivial
  inside := ⟨rfl,by rintro ⟨⟩⟩

theorem advance_moved (h : Inv ids s) (hadv : advance ids protocol prio s t late = some s')
    (hawake : ∀ ts ret, s.loc t≠.awake ts ret) : Moved ids s t s' := by
  cases hloc : s.loc t with
  | idle | returned ret | failed =>
    simp only [advance,hloc] at hadv
    cases hadv
  | rlock timed => exact rlock_moved h hadv hloc
  | rlockCas timed val => exact rlockCas_moved h hadv hloc
  | tryrlock => exact tryrlock_moved h hadv hloc
  | wlock timed => exact wlock_moved h hadv hloc
  | wlockCas timed => exact wlockCas_moved h hadv hloc
  | trywlock => exact trywlock_moved h hadv hloc
  | trywlockCas => exact trywlockCas_moved h hadv hloc
  | lockMutex side timed => exact lockMutex_moved h hadv hloc
  | lockSlow side timed =>
    cases side with
    | reader => exact lockSlow_reader_moved h hadv hloc
    | writer => exact lockSlow_writer_moved h hadv hloc
  | emplace side timed deadlk => exact emplace_moved h hadv hloc
  | emplaced side timed deadlk => exact emplaced_moved h hadv hloc
  | wait side timed awoken => exact wait_moved h hadv hloc
  | timedOut side => exact timedOut_moved h hadv hloc
  | lockUnlock => exact lockUnlock_moved h hadv hloc
  | timeoutLock side => exact timeoutLock_moved h hadv hloc
  | unqueue side => exact unqueue_moved h hadv hloc
  | unqueued => exact unqueued_moved h hadv hloc
  | addReaders ts => exact addReaders_moved h hadv hloc
  | clearBit => exact clearBit_moved h hadv hloc
  | runlock => exact runlock_moved h hadv hloc
  | runlockCas val => exact runlockCas_moved h hadv hloc
  | wunlock => exact wunlock_moved h hadv hloc
  | wunlockCas => exact wunlockCas_moved h hadv hloc
  | unlockMutex side => exact unlockMutex_moved h hadv hloc
  | runlockSlow => exact runlockSlow_moved h hadv hloc
  | runlockHand => exact runlockHand_moved h hadv hloc
  | runlockZero | ensureEmpty => exact absurd (h.stage hloc trivial) id
  | wunlockHand => exact wunlockHand_moved h hadv hloc
  | wunlockZero => exact wunlockZero_moved h hadv hloc
  | grantWriter own w => exact grantWriter_moved h hadv hloc
  | grantReaders ts => exact grantReaders_moved h hadv hloc
  | awake ts ret => exact absurd hloc (hawake ts ret)
  | leave ret => exact leave_moved h hadv hloc

variable {l : Loc τ}

theorem unlock_moved (h : Inv ids s) {side : Side} {l₀ : Loc τ} (hloc : s.loc t=l₀)
    (hl₀ : ¬l₀.Locked) (hout : l₀.place=.outside) (hl : ¬l.Locked)
    (hplace : l.place = .releasing side) (hheld : 0 < s.held side t)
    (hfits : Fits ({s with held := count s.held side t (s.held side t-1)}.go t l) t l) :
    Moved ids s t ({s with held := count s.held side t (s.held side t-1)}.go t l) := by
  have hout' : (s.loc t).place = .outside := hloc ▸ hout
  refine .outside h hloc hl₀ hl rfl rfl ⟨rfl,rfl,.inl ⟨rfl,rfl⟩⟩ (.inr ?_) h.word
    (.inr (h.not_mem (by rw [hout']; trivial))) hfits ?_
  · refine step_of_place (.unlock side (place_of_loc hout' trivial) hheld) rfl rfl ?_
    rw [place_go_update (by rw [hplace]; trivial),hplace]
    rfl
  · exact fun hawaits => absurd (by rw [hout]; trivial) hawaits.not_steady

theorem start_moved (h : Inv ids s) {l₀ : Loc τ} (hloc : s.loc t=l₀) (hl₀ : ¬l₀.Locked)
    (hout : l₀.place=.outside) (hawaits : ¬l₀.Awaits) {c : Call} (hcall : (match c with
      | .unlock side =>
        if 0 < s.held side t then
          some ({s with held := count s.held side t (s.held side t-1)}.go t c.start)
        else none
      | _ => some (s.go t c.start)) = some s') : Moved ids s t s' := by
  cases c with
  | lock side timed | trylock side =>
    cases hcall
    cases side <;> exact .stay h hloc hl₀ id hout.symm trivial fun hawait => absurd hawait hawaits
  | unlock side =>
    simp only at hcall
    split_ifs at hcall with hheld
    cases hcall
    cases side <;> exact unlock_moved h hloc hl₀ hout id rfl hheld trivial

theorem call_moved (h : Inv ids s) {c : Call} (hcall : call s t c = some s') : Moved ids s t s' := by
  cases hloc : s.loc t with simp only [call,hloc] at hcall
  | idle | returned ret =>
    exact start_moved h hloc id rfl id hcall
  | _ =>
    cases hcall

omit [DecidableEq τ] in
theorem Loc.awaken_place (l : Loc τ) : l.awaken.place=l.place := by
  cases l <;> rfl

omit [DecidableEq τ] in
theorem Loc.awaken_locked (l : Loc τ) : l.awaken.Locked ↔ l.Locked := by
  cases l <;> exact Iff.rfl

theorem awakeAll_place_loc (s : State τ) (ts : List τ) (u : τ) :
    ((s.awakeAll ts).loc u).place = (s.loc u).place := by
  simp only [State.awakeAll]
  split_ifs
  · exact (s.loc u).awaken_place
  · rfl

theorem awakeAll_place (s : State τ) (ts : List τ) : (s.awakeAll ts).place=s.place := by
  funext u
  exact place_congr (awakeAll_place_loc s ts u) (fun _ => Iff.rfl) Iff.rfl

theorem awakeAll_lock (s : State τ) (ts : List τ) : (s.awakeAll ts).lock=s.lock := by
  rw [State.lock,awakeAll_place]
  rfl

theorem Fits.awakeAll (h : Fits s u l) (ts : List τ) : Fits (s.awakeAll ts) u l := by
  cases l with
  | wait side timed awoken =>
    cases awoken with
    | false => trivial
    | true =>
      change (s.awakeAll ts).place u = .granted side
      rw [awakeAll_place]
      exact h
  | lockMutex side timed | lockSlow side timed => cases side <;> exact h
  | _ => exact h

/-- A thread that has got the lock is woken. -/
theorem Fits.awaken {side : Side} (h : Fits s u l) (hloc : s.loc u=l)
    (hgranted : s.place u = .granted side) : Fits s u l.awaken := by
  cases l with
  | wait own timed awoken =>
    have hwait := (place_iff.2.2.mp hgranted).1
    rw [hloc] at hwait
    cases hwait
    exact hgranted
  | _ => exact h

theorem Inv.awakeAll {ts : List τ} {ret : Ret} (h : Inv ids s) (hloc : s.loc t = .leave ret)
    (hts : ∀ u∈ts, (∃ side, s.place u = .granted side) ∧ (s.loc u).Awaits) :
    Inv ids (s.awakeAll ts) where
  lock := by
    rw [awakeAll_lock]
    exact h.lock
  __ := h
  locked := by
    intro u
    rw [← show s.mutex = (s.awakeAll ts).mutex from rfl,← h.locked u]
    simp only [State.awakeAll]
    split_ifs
    · exact (s.loc u).awaken_locked
    · exact Iff.rfl
  queues := by
    refine ⟨h.queues.nodup,?_⟩
    intro side u hmem
    rw [awakeAll_place_loc]
    exact h.queues.waits side u hmem
  fits := by
    intro u
    by_cases hu : u∈ts
    · obtain ⟨⟨side,hgranted⟩,_⟩ := hts u hu
      have hawoken : (s.awakeAll ts).loc u = (s.loc u).awaken := if_pos hu
      rw [hawoken]
      exact ((h.fits u).awaken rfl hgranted).awakeAll ts
    · have hsame : (s.awakeAll ts).loc u = s.loc u := if_neg hu
      rw [hsame]
      exact (h.fits u).awakeAll ts
  inside := by
    have hmutex : (s.awakeAll ts).mutex = some t := h.mutex_of_locked hloc trivial
    have hsame : (s.awakeAll ts).loc t = .leave ret := by
      simp only [State.awakeAll,hloc]
      split_ifs <;> rfl
    rw [Section,hmutex]
    change Stage _ ((s.awakeAll ts).loc t)
    rw [hsame]
    exact h.stage hloc trivial

theorem awakeAll_go (s : State τ) (ts : List τ) (t : τ) (ret : Ret) :
    (s.awakeAll ts).go t (.leave ret) = (s.go t (.leave ret)).awakeAll ts := by
  have hloc : ((s.awakeAll ts).go t (.leave ret)).loc = ((s.go t (.leave ret)).awakeAll ts).loc := by
    funext u
    by_cases hu : u=t
    · subst hu
      simp only [State.go,State.awakeAll,Function.update_self]
      split_ifs <;> rfl
    · simp [State.go,State.awakeAll,hu]
  exact congrArg (fun loc => {s with loc := loc}) hloc

theorem awake_step (h : Inv ids s) {ts : List τ} {ret : Ret} (hloc : s.loc t = .awake ts ret)
    (hadv : advance ids protocol prio s t late = some s') : Inv ids s' ∧ s'.lock=s.lock := by
  obtain ⟨hnil,hsettled,hts⟩ := h.stage hloc trivial
  have hplace : (Loc.leave ret : Loc τ).place = (Loc.awake ts ret : Loc τ).place := by
    cases ret <;> rfl
  have hgo : (s.go t (.leave ret)).place=s.place := place_go (hloc ▸ hplace)
  have hinv : Inv ids (s.go t (.leave ret)) :=
    (Moved.hold (l := .leave ret) h hloc trivial trivial hplace trivial ⟨hnil,hsettled⟩).inv h
  simp only [advance,hloc] at hadv
  cases hadv
  rw [awakeAll_go]
  refine ⟨hinv.awakeAll (loc_go_self s t (.leave ret)) ?_,?_⟩
  · intro u hu
    obtain ⟨hgranted,hawaits⟩ := hts u hu
    have hut : u≠t := by
      rintro rfl
      rw [hloc] at hawaits
      exact hawaits
    rw [hgo,loc_go_of_ne rfl hut]
    exact ⟨hgranted,hawaits⟩
  · rw [awakeAll_lock]
    exact lock_go (hloc ▸ hplace)

theorem Inv.step (h : Inv ids s) (hstep : Step ids protocol prio s s') :
    Inv ids s' ∧ (s'.lock=s.lock ∨ ∃ t, SharedHandOff.Step t s.lock s'.lock) := by
  have hmoved : ∀ t, Moved ids s t s' →
      Inv ids s' ∧ (s'.lock=s.lock ∨ ∃ t, SharedHandOff.Step t s.lock s'.lock) :=
    fun t hm => ⟨hm.inv h,hm.lock.imp_right fun hlock => ⟨t,hlock⟩⟩
  cases hstep with
  | call t c hcall => exact hmoved t (call_moved h hcall)
  | advance t late hadv =>
    by_cases hawake : ∃ ts ret, s.loc t = .awake ts ret
    · obtain ⟨ts,ret,hloc⟩ := hawake
      obtain ⟨hinv,hlock⟩ := awake_step h hloc hadv
      exact ⟨hinv,.inl hlock⟩
    · exact hmoved t (advance_moved h hadv fun ts ret hloc => hawake ⟨ts,ret,hloc⟩)
  | drawn => exact ⟨⟨h.lock,h.word,h.locked,⟨h.queues.nodup,h.queues.waits⟩,h.waiters,h.fits,
      h.inside⟩,.inl rfl⟩

theorem Reachable.inv (h : Reachable ids protocol prio s) : Inv ids s := by
  obtain ⟨tag,hrun⟩ := h
  induction hrun with
  | refl => exact inv_initial ids tag
  | tail _ hstep ih => exact (ih.step hstep).1

end PS3Native.Lv2Rwlock
