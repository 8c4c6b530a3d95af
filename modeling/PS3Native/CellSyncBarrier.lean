import PS3Native.Interleaving
import Mathlib.Data.BitVec

/-!
# `CellSyncBarrier`

The barrier packs its round into one `s16`: while the sign bit is clear it counts
notifies, while it is set it counts down the waits. Every call is a loop around one
atomic operation on the control word, and any number of threads may be inside.
-/
namespace PS3Native

inductive CellSyncError
  | again | inval | perm | busy | abort | stat | align | nullPointer
  deriving DecidableEq, Repr

/-- How a call ends. `stopped` is the early return of a thread that is being stopped. -/
inductive CellSyncOutcome
  | ok
  | stopped
  | error (code : CellSyncError)
  deriving DecidableEq, Repr

namespace CellSyncBarrier
open Interleaving List

structure Ctrl where
  value : BitVec 16
  count : BitVec 16
  deriving DecidableEq, Repr

def tryNotify (ctrl : Ctrl) : Option Ctrl :=
  if ctrl.value &&& 0x8000#16≠0#16 then none
  else
    let value := ctrl.value+1#16
    some {ctrl with value := if value.toInt=ctrl.count.toNat then value ||| 0x8000#16 else value}

def tryWait (ctrl : Ctrl) : Option Ctrl :=
  if ctrl.value &&& 0x8000#16 = 0#16 then none
  else
    let value := ctrl.value-1#16
    some {ctrl with value := if value.toInt = -0x8000 then 0#16 else value}

/-- The control word that `cellSyncBarrierInitialize` exchanges in. -/
def initialized (totalCount : BitVec 16) : Ctrl := ⟨0#16,totalCount⟩

inductive Op
  | notify | wait
  deriving DecidableEq, Repr

inductive Pc
  | idle
  | loop (op : Op) (blocking : Bool)

inductive Input
  | call (op : Op) (blocking : Bool)
  | attempt (stopped : Bool)

def Op.attempt : Op → Ctrl → Option Ctrl
  | .notify => tryNotify
  | .wait => tryWait

def program : Program Ctrl Pc Input (Op × CellSyncOutcome)
  | ctrl, .idle, .call op blocking => some (ctrl,.loop op blocking,[])
  | ctrl, .loop op blocking, .attempt stopped =>
    match op.attempt ctrl with
    | some ctrl => some (ctrl,.idle,[(op,.ok)])
    | none =>
      if !blocking then some (ctrl,.idle,[(op,.error .busy)])
      else if stopped then some (ctrl,.idle,[(op,.stopped)])
      else some (ctrl,.loop op blocking,[])
  | _, _, _ => none

abbrev State (τ : Type*) := System Ctrl Pc (Op × CellSyncOutcome) τ

def initial (τ : Type*) (totalCount : BitVec 16) : State τ :=
  ⟨initialized totalCount,fun _ => .idle,[]⟩

def successes (log : List (Op × CellSyncOutcome)) : List Op :=
  log.filterMap fun entry => if entry.2=.ok then some entry.1 else none

def completeRounds (count rounds : ℕ) : List Op :=
  (List.replicate rounds (List.replicate count .notify++List.replicate count .wait)).flatten

/-- The successful steps so far are complete rounds and a part of the next one. -/
inductive InRound (count : ℕ) : BitVec 16 → List Op → Prop
  | notifying {value : BitVec 16} {rounds notifies : ℕ} : notifies < count →
      value.toNat=notifies →
      InRound count value (completeRounds count rounds++List.replicate notifies .notify)
  | waiting {value : BitVec 16} {rounds waits : ℕ} : waits < count →
      value.toNat = 0x8000+(count-waits) →
      InRound count value (completeRounds count rounds ++
        (List.replicate count .notify++List.replicate waits .wait))

theorem and_sign (value : BitVec 16) : value &&& 0x8000#16 = 0#16 ↔ value.toNat < 0x8000 := by
  rw [show 0x8000#16 = BitVec.twoPow 16 15 by decide,BitVec.and_twoPow,BitVec.getLsbD,
    Nat.testBit_eq_decide_div_mod_eq]
  split_ifs with h
  · simp only [decide_eq_true_eq] at h
    exact iff_of_false (by decide) (by omega)
  · simp only [decide_eq_true_eq] at h
    exact iff_of_true rfl (by omega)

theorem toNat_or_sign {value : BitVec 16} (h : value.toNat < 0x8000) :
    (value ||| 0x8000#16).toNat = 0x8000+value.toNat := by
  have hor := Nat.two_pow_add_eq_or_of_lt (i := 15) h 1
  rw [BitVec.toNat_or,Nat.or_comm]
  exact hor.symm

variable {ctrl ctrl' : Ctrl}

theorem tryNotify_eq_none : tryNotify ctrl=none ↔ 0x8000 ≤ ctrl.value.toNat := by
  rw [tryNotify]
  split_ifs with h
  · simpa [and_sign] using h
  · simpa [and_sign] using h

theorem tryWait_eq_none : tryWait ctrl=none ↔ ctrl.value.toNat < 0x8000 := by
  rw [tryWait]
  split_ifs with h
  · simpa [and_sign] using h
  · simpa [and_sign] using h

theorem tryNotify_spec (hcount : ctrl.count.toNat < 0x8000)
    (hvalue : ctrl.value.toNat < ctrl.count.toNat) (h : tryNotify ctrl = some ctrl') :
    ctrl'.count=ctrl.count ∧ ctrl'.value.toNat =
      if ctrl.value.toNat+1=ctrl.count.toNat then 0x8000+ctrl.count.toNat
      else ctrl.value.toNat+1 := by
  have hsum : (ctrl.value+1#16).toNat = ctrl.value.toNat+1 := by
    rw [BitVec.toNat_add,BitVec.toNat_ofNat]
    omega
  have hint : (ctrl.value+1#16).toInt = ctrl.value.toNat+1 := by
    rw [BitVec.toInt_eq_toNat_of_lt (by omega),hsum]
    rfl
  rw [tryNotify] at h
  split_ifs at h
  obtain rfl := Option.some.inj h
  refine ⟨rfl,?_⟩
  split_ifs with h₁ h₂ h₂
  · rw [toNat_or_sign (by omega),hsum]
    omega
  · omega
  · omega
  · exact hsum

theorem tryWait_spec (hvalue : 0x8000 < ctrl.value.toNat) (h : tryWait ctrl = some ctrl') :
    ctrl'.count=ctrl.count ∧ ctrl'.value.toNat =
      if ctrl.value.toNat=0x8001 then 0 else ctrl.value.toNat-1 := by
  have hdiff : (ctrl.value-1#16).toNat = ctrl.value.toNat-1 := by
    rw [BitVec.toNat_sub,BitVec.toNat_ofNat]
    omega
  have hint : (ctrl.value-1#16).toInt = (ctrl.value.toNat : ℤ)-1-0x10000 := by
    rw [BitVec.toInt_eq_toNat_cond,hdiff]
    split_ifs <;> omega
  rw [tryWait] at h
  split_ifs at h
  obtain rfl := Option.some.inj h
  refine ⟨rfl,?_⟩
  split_ifs with h₁ h₂ h₂
  · rfl
  · omega
  · omega
  · exact hdiff

theorem completeRounds_succ (count rounds : ℕ) : completeRounds count (rounds+1) =
    completeRounds count rounds++(replicate count .notify++replicate count .wait) := by
  simp [completeRounds,replicate_succ']

theorem InRound.notify {done : List Op} (hcount : ctrl.count.toNat < 0x8000)
    (h : InRound ctrl.count.toNat ctrl.value done) (hstep : tryNotify ctrl = some ctrl') :
    ctrl'.count=ctrl.count ∧ InRound ctrl.count.toNat ctrl'.value (done++[.notify]) := by
  cases h with
  | @notifying rounds notifies hlt hvalue =>
    obtain ⟨hkeep,hnext⟩ := tryNotify_spec hcount (hvalue.trans_lt hlt) hstep
    refine ⟨hkeep,?_⟩
    rw [append_assoc,← replicate_succ']
    split_ifs at hnext with hlast
    · rw [show notifies+1 = ctrl.count.toNat by omega]
      have hwait : InRound ctrl.count.toNat ctrl'.value (completeRounds ctrl.count.toNat rounds ++
          (replicate ctrl.count.toNat .notify++replicate 0 .wait)) :=
        .waiting (by omega) (by omega)
      simpa using hwait
    · exact .notifying (by omega) (by omega)
  | waiting _ hvalue =>
    rw [tryNotify_eq_none.mpr (by omega)] at hstep
    cases hstep

theorem InRound.wait {done : List Op} (h : InRound ctrl.count.toNat ctrl.value done)
    (hcount : ctrl.count.toNat < 0x8000) (hstep : tryWait ctrl = some ctrl') :
    ctrl'.count=ctrl.count ∧ InRound ctrl.count.toNat ctrl'.value (done++[.wait]) := by
  cases h with
  | notifying hlt hvalue =>
    rw [tryWait_eq_none.mpr (by omega)] at hstep
    cases hstep
  | @waiting rounds waits hlt hvalue =>
    obtain ⟨hkeep,hnext⟩ := tryWait_spec (by omega) hstep
    refine ⟨hkeep,?_⟩
    rw [append_assoc,append_assoc,← replicate_succ']
    split_ifs at hnext with hlast
    · rw [show waits+1 = ctrl.count.toNat by omega,← completeRounds_succ]
      have hnotify : InRound ctrl.count.toNat ctrl'.value
          (completeRounds ctrl.count.toNat (rounds+1)++replicate 0 .notify) :=
        .notifying (by omega) hnext
      simpa using hnotify
    · exact .waiting (by omega) (by omega)

theorem successes_append (xs ys : List (Op × CellSyncOutcome)) :
    successes (xs++ys) = successes xs++successes ys :=
  filterMap_append

/-- A step of a thread leaves the control word alone or is a successful operation on it. -/
theorem program_cases {pc pc' : Pc} {input : Input} {events : List (Op × CellSyncOutcome)}
    (h : program ctrl pc input = some (ctrl',pc',events)) :
    ctrl'=ctrl ∧ successes events=[] ∨
      ∃ op : Op, op.attempt ctrl = some ctrl' ∧ successes events = [op] := by
  cases pc with
  | idle =>
    cases input with
    | call op blocking =>
      cases h
      exact .inl ⟨rfl,rfl⟩
    | attempt => cases h
  | loop op blocking =>
    cases input with
    | call => cases h
    | attempt stopped =>
      simp only [program] at h
      cases hop : op.attempt ctrl with
      | some next =>
        rw [hop] at h
        cases h
        exact .inr ⟨op,hop,rfl⟩
      | none =>
        rw [hop] at h
        left
        split_ifs at h <;> cases h <;> exact ⟨rfl,rfl⟩

structure Invariant (totalCount : BitVec 16) {τ : Type*} (s : State τ) : Prop where
  count : s.shared.count=totalCount
  round : InRound s.shared.count.toNat s.shared.value (successes s.log)

theorem program_invariant {τ : Type*} [DecidableEq τ] {totalCount : BitVec 16}
    (hcount : totalCount.toNat < 0x8000) (s : State τ) (t : τ) (input : Input) (ctrl : Ctrl)
    (pc : Pc) (events : List (Op × CellSyncOutcome)) (h : Invariant totalCount s)
    (hstep : program s.shared (s.thread t) input = some (ctrl,pc,events)) :
    Invariant totalCount (s.move t ctrl pc events) := by
  obtain ⟨hc,hround⟩ := h
  have hlt : s.shared.count.toNat < 0x8000 := by rwa [hc]
  rcases program_cases hstep with ⟨rfl,hnone⟩ | ⟨op,hop,hone⟩
  · exact ⟨hc,by simpa [successes_append,hnone] using hround⟩
  · have hnext : ctrl.count=s.shared.count ∧
        InRound s.shared.count.toNat ctrl.value (successes s.log++[op]) := by
      cases op with
      | notify => exact hround.notify hlt hop
      | wait => exact hround.wait hlt hop
    refine ⟨hnext.1.trans hc,?_⟩
    simpa [successes_append,hone,hnext.1] using hnext.2

/-- The successful steps of every run are complete rounds of `total_count` notifies and
`total_count` waits and a part of the next round, and the value never overflows. -/
theorem barrier_alternates_rounds {τ : Type*} [DecidableEq τ] (totalCount : BitVec 16)
    (hpos : 0 < totalCount.toNat) (hmax : totalCount.toNat ≤ 32767)
    {schedule : List (τ × Input)} {s : State τ}
    (hrun : run program (initial τ totalCount) schedule = some s) :
    (∃ rounds k, k < totalCount.toNat ∧
      (successes s.log = completeRounds totalCount.toNat rounds++List.replicate k .notify ∨
        successes s.log = completeRounds totalCount.toNat rounds ++
          (List.replicate totalCount.toNat .notify++List.replicate k .wait))) ∧
    (tryNotify s.shared≠none → s.shared.value.toInt+1 ≤ 32767) ∧
    (tryWait s.shared≠none → -32768 ≤ s.shared.value.toInt-1) := by
  have hstart : InRound totalCount.toNat 0#16 (completeRounds totalCount.toNat 0 ++
      replicate 0 .notify) := .notifying hpos rfl
  have hinit : Invariant totalCount (initial τ totalCount) := ⟨rfl,hstart⟩
  obtain ⟨hc,hround⟩ := run_invariant (program_invariant (by omega)) hinit hrun
  rw [hc] at hround
  have hint := BitVec.toInt_eq_toNat_cond s.shared.value
  generalize successes s.log = done at hround ⊢
  cases hround with
  | @notifying rounds k hk hvalue =>
    refine ⟨⟨rounds,k,hk,.inl rfl⟩,?_⟩
    split_ifs at hint <;> omega
  | @waiting rounds k hk hvalue =>
    refine ⟨⟨rounds,k,hk,.inr rfl⟩,?_⟩
    split_ifs at hint <;> omega

/-- Two threads meet at a barrier for two. The early wait and the late notify fail. -/
theorem barrier_alternates_rounds_two_threads : let schedule : List (Bool × Input) :=
      [(true,.call .notify true),(true,.attempt false),(true,.call .wait false),
        (true,.attempt false),(false,.call .notify false),(false,.attempt false),
        (true,.call .notify false),(true,.attempt false),(false,.call .wait true),
        (false,.attempt false)]
    ∃ s : State Bool, run program (initial Bool 2) schedule = some s ∧
      successes s.log = [.notify,.notify,.wait] ∧
      (∃ rounds k, k < 2 ∧ (successes s.log = completeRounds 2 rounds++replicate k .notify ∨
          successes s.log = completeRounds 2 rounds ++ (replicate 2 .notify++replicate k .wait))) ∧
      (tryNotify s.shared≠none → s.shared.value.toInt+1 ≤ 32767) ∧
      (tryWait s.shared≠none → -32768 ≤ s.shared.value.toInt-1) := by
  intro schedule
  obtain ⟨s,hrun,hlog⟩ : ∃ s : State Bool, run program (initial Bool 2) schedule = some s ∧
      successes s.log = [.notify,.notify,.wait] := ⟨_,rfl,rfl⟩
  exact ⟨s,hrun,hlog,barrier_alternates_rounds 2 (by decide) (by decide) hrun⟩

end CellSyncBarrier
end PS3Native
