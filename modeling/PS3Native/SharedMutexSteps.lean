import PS3Native.SharedMutex

/-! # The atomic operations of `shared_mutex` -/
namespace PS3Native.SharedMutex

/-- What the word is in a reachable state, to a thread of role `r`. -/
structure Bounds (v : ℕ) (r : Role) : Prop where
  low : v%2^30+2^14 < 2^30
  top : v < 2^31
  reader : r=.reader → 1 ≤ v
  writer : r=.writer → 2^14 ≤ v
  signaller : r=.signaller → v < 2^30

def Loc.At (loc : Loc) (r : Role) : Prop := loc.role=r ∧ loc.Sound

section Operations

variable {m m' : BitVec 32} {loc loc' : Loc}

theorem and_cSig_iff (hm : m.toNat < 2^31) : m &&& cSig≠0 ↔ 2^30 ≤ m.toNat := by
  rw [show cSig = BitVec.twoPow 32 30 by decide,BitVec.and_twoPow,BitVec.getLsbD,
    Nat.testBit_eq_decide_div_mod_eq]
  split_ifs with h
  · simp only [decide_eq_true_eq] at h
    exact iff_of_true (by decide) (by omega)
  · simp only [decide_eq_true_eq] at h
    exact iff_of_false (by simp) (by omega)

theorem upgradable_iff (hm : m.toNat < 2^31) : upgradable m ↔ m.toNat%2^14=1 := by
  rw [upgradable,beq_iff_eq,← BitVec.toNat_inj]
  have hsum : (m+cOne-1).toNat = m.toNat+(2^14-1) := by bv_omega
  rw [BitVec.toNat_umod,hsum,show cOne.toNat = 2^14 from rfl,show (0 : BitVec 32).toNat = 0 from rfl]
  omega

theorem impLockShared_at {val : BitVec 32} (hval : val.toNat < 2^31) :
    (impLockShared val).At .outside := by
  have hlt : val < cErr := hval
  unfold impLockShared
  split_ifs with hsig
  · exact ⟨rfl,hsig⟩
  · exact ⟨rfl,trivial⟩

theorem impLock_at {val : BitVec 32} (hval : val.toNat < 2^31) : (impLock val).At .outside := by
  have hlt : val < cErr := hval
  unfold impLock
  split_ifs with hsig
  · exact ⟨rfl,hsig⟩
  · exact ⟨rfl,trivial⟩

theorem nextPass_at {passes i : ℕ} {again : ℕ → Loc} {done : Loc} {r : Role}
    (hagain : ∀ i, (again i).At r) (hdone : done.At r) : (nextPass passes i again done).At r := by
  unfold nextPass
  split_ifs
  · exact hagain _
  · exact hdone

theorem unlockShared_effect (hb : Bounds m.toNat .reader) :
    ∃ r, Effect m.toNat .reader (m-1).toNat r ∧
      (if cOne ≤ m then impUnlockShared m else .idle).At r := by
  have hpos := hb.reader rfl
  have htop := hb.top
  have hsub : (m-1).toNat = m.toNat-1 := by bv_omega
  have hle : cOne ≤ m ↔ 2^14 ≤ m.toNat := Iff.rfl
  have hlast : (m-1)%cOne=0 ↔ m.toNat%2^14=1 := by
    rw [← BitVec.toNat_inj,BitVec.toNat_umod,hsub,show cOne.toNat = 2^14 from rfl,
      show (0 : BitVec 32).toNat = 0 from rfl]
    omega
  have herr : m-1 < cErr := by
    show (m-1).toNat < 2^31
    omega
  rw [hsub]
  unfold impUnlockShared
  split_ifs with hone hlast'
  · exact ⟨.signaller,.releaseSharedSignal (hle.mp hone) (hlast.mp hlast'),rfl,trivial⟩
  · exact ⟨.outside,.releaseShared fun _ h => hlast' (hlast.mpr h),rfl,trivial⟩
  · exact ⟨.outside,.releaseShared fun h => absurd (hle.mpr h) hone,rfl,trivial⟩

theorem unlock_effect (hb : Bounds m.toNat .writer) :
    ∃ r, Effect m.toNat .writer (m-cOne).toNat r ∧
      (if m≠cOne then impUnlock m else .idle).At r := by
  have hpos := hb.writer rfl
  have htop := hb.top
  have hsub : (m-cOne).toNat = m.toNat-2^14 := by bv_omega
  have heq : m=cOne ↔ m.toNat = 2^14 := by
    rw [← BitVec.toNat_inj]
    rfl
  have herr : m-cOne < cErr := by
    show (m-cOne).toNat < 2^31
    omega
  rw [hsub]
  unfold impUnlock
  split_ifs with hne hzero
  · exact ⟨.signaller,.releaseSignal (mt heq.mpr hne),rfl,trivial⟩
  · have : (m-cOne).toNat=0 := by rw [not_not.mp hzero]; rfl
    exact absurd (heq.mpr (by omega)) hne
  · have := heq.mp (not_not.mp hne)
    rw [this]
    exact ⟨.outside,.release rfl,rfl,trivial⟩

theorem downgrade_effect (hb : Bounds m.toNat .writer) :
    Effect m.toNat .writer (m-(cOne-1)).toNat .reader := by
  have hpos := hb.writer rfl
  have hsub : (m-(cOne-1)).toNat = m.toNat-(2^14-1) := by bv_omega
  rw [hsub]
  exact .downgrade

theorem some_pair_inj {α β : Type*} {a a' : α} {b b' : β} (h : some (a,b) = some (a',b')) :
    a=a' ∧ b=b' := by
  simpa using h

theorem Loc.At.ite {p : Prop} [Decidable p] {yes no : Loc} {r : Role} (hyes : p → yes.At r)
    (hno : ¬p → no.At r) : (if p then yes else no).At r := by
  split_ifs with hp
  · exact hyes hp
  · exact hno hp

theorem load_effect {next : Loc} {r : Role} (h : some (m,next) = some (m',loc'))
    (hnext : next.At r) : ∃ r', Effect m.toNat r m'.toNat r' ∧ loc'.At r' := by
  cases h
  exact ⟨r,.keep r,hnext⟩

theorem cas_effect {value new : BitVec 32} {won lost : Loc} {r r' : Role}
    (h : some (if m=value then (new,won) else (m,lost)) = some (m',loc'))
    (heffect : m=value → Effect value.toNat r new.toNat r') (hwon : won.At r')
    (hlost : lost.At r) : ∃ r', Effect m.toNat r m'.toNat r' ∧ loc'.At r' := by
  split_ifs at h with heq <;> cases h
  · exact ⟨r',heq ▸ heffect heq,hwon⟩
  · exact ⟨r,.keep r,hlost⟩

theorem eq_zero_iff : m=0 ↔ m.toNat=0 := by
  rw [← BitVec.toNat_inj]
  rfl

/-- Every call begins with a change of role, or none. -/
theorem call_effect {c : Call} (hb : Bounds m.toNat loc.role) (h : call m loc c = some (m',loc')) :
    ∃ r, Effect m.toNat loc.role m'.toNat r ∧ loc'.At r := by
  have htop := hb.top
  unfold call at h
  split at h
  · exact load_effect h (.ite (fun hlt => ⟨rfl,hlt⟩) fun _ => ⟨rfl,trivial⟩)
  · exact load_effect h (.ite (fun _ => impLockShared_at htop) fun hge => ⟨rfl,BitVec.not_le.mp hge⟩)
  · exact cas_effect h (fun _ => .acquire rfl) ⟨rfl,trivial⟩ ⟨rfl,trivial⟩
  · exact cas_effect h (fun _ => .acquire rfl) ⟨rfl,trivial⟩ (impLock_at htop)
  · exact load_effect h (.ite (fun _ => ⟨rfl,trivial⟩) fun _ => ⟨rfl,trivial⟩)
  · cases h
    exact unlockShared_effect hb
  · exact load_effect h (.ite (fun hup => ⟨rfl,hup⟩) fun _ => ⟨rfl,trivial⟩)
  · cases h
    exact unlock_effect hb
  · cases h
    exact ⟨.reader,downgrade_effect hb,rfl,trivial⟩
  · cases h

/-- A compare-and-swap that makes a reader of a thread outside. -/
theorem acquireShared_effect (hm : m < cOne-1) : Effect m.toNat .outside (m+1).toNat .reader := by
  have hlt : m.toNat < 2^14-1 := hm
  have hadd : (m+1).toNat = m.toNat+1 := by bv_omega
  rw [hadd]
  exact .acquireShared hlt

theorem stealShared_effect (htop : m.toNat < 2^31) (hsig : m &&& cSig≠0) :
    Effect m.toNat .outside (m-cSig+1).toNat .reader := by
  have hle := (and_cSig_iff htop).mp hsig
  have hadd : (m-cSig+1).toNat = m.toNat-2^30+1 := by bv_omega
  rw [hadd]
  exact .stealShared hle

theorem steal_effect (htop : m.toNat < 2^31) (hsig : m &&& cSig≠0) :
    Effect m.toNat .outside (m-cSig+cOne).toNat .writer := by
  have hle := (and_cSig_iff htop).mp hsig
  have hadd : (m-cSig+cOne).toNat = m.toNat-2^30+2^14 := by bv_omega
  rw [hadd]
  exact .steal hle

theorem upgrade_effect (htop : m.toNat < 2^31) (hup : upgradable m) :
    Effect m.toNat .reader (m+cOne-1).toNat .writer := by
  have hadd : (m+cOne-1).toNat = m.toNat+(2^14-1) := by bv_omega
  rw [hadd]
  exact .upgrade ((upgradable_iff htop).mp hup)

/-- `fetch_add(c_one)` takes a free mutex, or enqueues the thread. -/
theorem fetchAdd_effect (hb : Bounds m.toNat .outside) {free wait : Loc} (hfree : free.At .writer)
    (hwait : wait.At .waiter) :
    ∃ r, Effect m.toNat .outside (m+cOne).toNat r ∧ (if m=0 then free else wait).At r := by
  have htop := hb.top
  have hadd : (m+cOne).toNat = m.toNat+2^14 := by bv_omega
  rw [hadd]
  split_ifs with hzero
  · have hv := eq_zero_iff.mp hzero
    rw [hv]
    exact ⟨.writer,.acquire rfl,hfree⟩
  · exact ⟨.waiter,.enqueue (mt eq_zero_iff.mpr hzero),hwait⟩

theorem not_overflow (hb : Bounds m.toNat loc.role) :
    m%cSig+cOne < cSig ∧ m%cSig+cOne-1 < cSig := by
  have hlow := hb.low
  have hmod : (m%cSig).toNat = m.toNat%2^30 := by
    rw [BitVec.toNat_umod,show cSig.toNat = 2^30 from rfl]
  have hadd : (m%cSig+cOne).toNat = m.toNat%2^30+2^14 := by
    rw [BitVec.toNat_add,hmod,show cOne.toNat = 2^14 from rfl]
    omega
  have hsub : (m%cSig+cOne-1).toNat = m.toNat%2^30+2^14-1 := by
    rw [BitVec.toNat_sub_of_le,hadd]
    · rfl
    · show 1 ≤ (m%cSig+cOne).toNat
      omega
  rw [BitVec.lt_def,BitVec.lt_def,hadd,hsub,show cSig.toNat = 2^30 from rfl]
  omega

/-- `fetch_add(c_one - 1)` makes a writer of the only reader, and a waiter of another. -/
theorem addUpgrade_effect (hb : Bounds m.toNat .reader) :
    ∃ r, Effect m.toNat .reader (m+(cOne-1)).toNat r ∧
      (if m%cOne=1 then Loc.exclusive else .waitCheck .hold).At r := by
  have htop := hb.top
  have hadd : (m+(cOne-1)).toNat = m.toNat+(2^14-1) := by bv_omega
  have hone : m%cOne=1 ↔ m.toNat%2^14=1 := by
    rw [← BitVec.toNat_inj,BitVec.toNat_umod]
    rfl
  rw [hadd]
  split_ifs with h
  · exact ⟨.writer,.upgrade (hone.mp h),rfl,trivial⟩
  · exact ⟨.waiter,.upgradeWait (mt hone.mpr h),rfl,trivial⟩

/-- Every other operation is a change of role, or none. -/
theorem advance_effect (hb : Bounds m.toNat loc.role) (hs : loc.Sound)
    (h : advance m loc = some (m',loc')) : ∃ r, Effect m.toNat loc.role m'.toNat r ∧ loc'.At r := by
  have htop := hb.top
  have hspin : ∀ i, (nextPass 10 i .spinShared .addShared).At .outside :=
    fun i => nextPass_at (fun _ => ⟨rfl,trivial⟩) ⟨rfl,trivial⟩
  have hspinLock : ∀ i, (nextPass 10 i .spinLock .addLock).At .outside :=
    fun i => nextPass_at (fun _ => ⟨rfl,trivial⟩) ⟨rfl,trivial⟩
  have hspinUpgrade : ∀ i, (nextPass 10 i .spinUpgrade .addUpgrade).At .reader :=
    fun i => nextPass_at (fun _ => ⟨rfl,trivial⟩) ⟨rfl,trivial⟩
  cases loc with
  | idle | shared | exclusive | failed | notify => cases h
  | tryLockSharedCas value | spinSharedCas i value =>
    exact cas_effect h (fun _ => acquireShared_effect hs) ⟨rfl,trivial⟩ ⟨rfl,trivial⟩
  | lockSharedCas value =>
    have hvalue : value.toNat < 2^31 := by
      have hlt : value.toNat < 2^14-1 := hs
      omega
    exact cas_effect h (fun _ => acquireShared_effect hs) ⟨rfl,trivial⟩ (impLockShared_at hvalue)
  | stealShared val =>
    exact cas_effect h (fun heq => stealShared_effect (heq ▸ htop) hs) ⟨rfl,trivial⟩ ⟨rfl,trivial⟩
  | spinShared i => exact load_effect h (.ite (fun hlt => ⟨rfl,hlt⟩) fun _ => ⟨rfl,trivial⟩)
  | spinSharedLoad i => exact load_effect h (.ite (fun hsig => ⟨rfl,hsig⟩) fun _ => hspin i)
  | spinSharedSteal i old =>
    exact cas_effect h (fun heq => stealShared_effect (heq ▸ htop) hs) ⟨rfl,trivial⟩ (hspin i)
  | addShared | addLock =>
    obtain ⟨rfl,rfl⟩ := some_pair_inj h
    rw [if_pos (not_overflow hb).1]
    exact fetchAdd_effect hb ⟨rfl,trivial⟩ ⟨rfl,trivial⟩
  | downgrade =>
    obtain ⟨rfl,rfl⟩ := some_pair_inj h
    exact ⟨.reader,downgrade_effect hb,rfl,trivial⟩
  | stealLock val =>
    exact cas_effect h (fun heq => steal_effect (heq ▸ htop) hs) ⟨rfl,trivial⟩ ⟨rfl,trivial⟩
  | spinLock i =>
    exact load_effect h (.ite (fun _ => ⟨rfl,trivial⟩) fun _ =>
      .ite (fun hsig => ⟨rfl,hsig⟩) fun _ => hspinLock i)
  | spinTryLock i => exact cas_effect h (fun _ => .acquire rfl) ⟨rfl,trivial⟩ (hspinLock i)
  | spinSteal i old =>
    exact cas_effect h (fun heq => steal_effect (heq ▸ htop) hs) ⟨rfl,trivial⟩ (hspinLock i)
  | upgradeCas value =>
    exact cas_effect h (fun heq => upgrade_effect (heq ▸ htop) hs) ⟨rfl,trivial⟩ ⟨rfl,trivial⟩
  | spinUpgrade i => exact load_effect h (.ite (fun hup => ⟨rfl,hup⟩) fun _ => hspinUpgrade i)
  | spinUpgradeCas i value =>
    exact cas_effect h (fun heq => upgrade_effect (heq ▸ htop) hs) ⟨rfl,trivial⟩ (hspinUpgrade i)
  | addUpgrade =>
    obtain ⟨rfl,rfl⟩ := some_pair_inj h
    rw [if_neg (not_not.mpr (not_overflow hb).2)]
    exact addUpgrade_effect hb
  | spinFree i max =>
    exact load_effect h (.ite (fun _ => ⟨rfl,trivial⟩) fun _ =>
      nextPass_at (fun _ => ⟨rfl,trivial⟩) ⟨rfl,trivial⟩)
  | addFree =>
    obtain ⟨rfl,rfl⟩ := some_pair_inj h
    exact fetchAdd_effect hb ⟨rfl,trivial⟩ ⟨rfl,trivial⟩
  | unlock =>
    obtain ⟨rfl,rfl⟩ := some_pair_inj h
    exact unlock_effect hb
  | waitCheck after =>
    simp only [advance] at h
    split_ifs at h with hsig <;> cases h
    · have hle : 2^30 ≤ m.toNat := hsig
      have hsub : (m-cSig).toNat = m.toNat-2^30 := by bv_omega
      rw [hsub]
      exact ⟨.writer,.take hle,by cases after <;> rfl,by cases after <;> trivial⟩
    · exact ⟨.waiter,.keep _,rfl,BitVec.not_le.mp hsig⟩
  | waitSleep after old =>
    exact load_effect h (.ite (fun _ => ⟨rfl,trivial⟩) fun _ => ⟨rfl,trivial⟩)
  | asleep after => exact load_effect h ⟨rfl,trivial⟩
  | signal =>
    obtain ⟨rfl,rfl⟩ := some_pair_inj h
    have hadd : (m+cSig).toNat = m.toNat+2^30 := by bv_omega
    rw [hadd]
    exact ⟨.outside,.signal,rfl,trivial⟩

end Operations

end PS3Native.SharedMutex
