import PS3Native.EventFlagSequential

/-!
# `sys_event_flag_set` against its sequential meaning

The calls that need no lock only clear bits. Every retry has seen a bit go, so that the
set ends, and the update that commits has met a part of the pattern that was read.
-/
namespace PS3Native.EventFlag
open BitSet List
open SleepQueue (Protocol)

theorem bits_interference_apply (pattern : BitVec 64) (call : Interference) :
    bits (call.apply pattern) ⊆ bits pattern := by
  cases call with
  | clear bitptn => exact fun i hi => (mem_bits_and.mp hi).1
  | trywait bitptn mode =>
    rw [Interference.apply]
    by_cases h : Satisfies pattern bitptn mode.wait
    · rw [checkPattern_of_satisfies h]
      exact bits_leaves_subset _
    · rw [checkPattern_of_not_satisfies h]
      exact Finset.Subset.refl _

theorem bits_interference (calls : List Interference) (pattern : BitVec 64) :
    bits (calls.foldl Interference.apply pattern) ⊆ bits pattern := by
  induction calls generalizing pattern with
  | nil => exact Finset.Subset.refl _
  | cons call calls ih => exact (ih _).trans (bits_interference_apply pattern call)

variable {τ : Type*} [DecidableEq τ] {protocol : Protocol} {queue order : List (Waiter τ)}
  {bitptn pattern found new read : BitVec 64} {env : ℕ → List Interference} {regs : τ → Regs}
  {a : Attempt τ} {c : Committed τ}

omit [DecidableEq τ] in
theorem ne_of_commit_eq_none (h : commit found pattern bitptn a=none) : found≠pattern := by
  rintro rfl
  simp [commit] at h

omit [DecidableEq τ] in
/-- A committed update meets the bits the attempt depends on, and leaves what the attempt
has left of the pattern it meets. -/
theorem of_commit_eq_some (h : commit found pattern bitptn a = some new)
    (hsub : bits found ⊆ bits pattern) :
    (∀ i∈bits a.dependantMask, i∈bits (pattern ||| bitptn) → i∈bits (found ||| bitptn)) ∧
      new = a.toWrite &&& (found ||| bitptn) := by
  rw [commit] at h
  split_ifs at h with hdiff
  rw [not_not,eq_zero_iff] at hdiff
  constructor
  · intro i hi hmem
    have hsame := hdiff i
    rw [mem_bits_and,mem_bits_and,mem_bits_not,mem_bits_xor] at hsame
    rw [mem_bits_or] at hmem ⊢
    tauto
  · rw [← Option.some.inj h,eq_iff_bits]
    intro i
    simp only [mem_bits_and,mem_bits_or,mem_bits_not]
    tauto

/-- The pattern after what happens before the first read, the second one and each of the updates. -/
def patternAt (env : ℕ → List Interference) (pattern : BitVec 64) : ℕ → BitVec 64
  | 0 => (env 0).foldl Interference.apply pattern
  | n+1 => (env (n+1)).foldl Interference.apply (patternAt env pattern n)

theorem bits_patternAt (env : ℕ → List Interference) (pattern : BitVec 64) (n : ℕ) :
    bits (patternAt env pattern n) ⊆ bits pattern := by
  induction n with
  | zero => exact bits_interference _ _
  | succ n ih => exact (bits_interference _ _).trans ih

/-- The set was committed by an attempt that read `read` and started with these registers. -/
structure CommittedBy (protocol : Protocol) (queue : List (Waiter τ)) (bitptn read : BitVec 64)
    (regs : τ → Regs) (c : Committed τ) : Prop where
  found_sub : bits c.found ⊆ bits read
  commit_eq : commit c.found read bitptn (attempt protocol queue bitptn read regs) = some c.pattern
  woken_eq : c.woken = if (attempt protocol queue bitptn read regs).count=0 then [] else
    (queue.filter fun w => ((attempt protocol queue bitptn read regs).regs w.thread).ok).map Waiter.thread
  queue_eq : c.queue = queue.filter fun w => w.thread∉c.woken

/-- The attempt that commits is the first one, or the first one has failed. -/
theorem setLoop_spec {fuel n : ℕ} (h : setLoop protocol queue bitptn env fuel (n+2)
      (patternAt env pattern (n+1)) regs = some c) :
    ∃ m regs', CommittedBy protocol queue bitptn (patternAt env pattern (m+1)) regs' c ∧
      c.found = patternAt env pattern (m+2) ∧ (regs'=regs ∨
        commit (patternAt env pattern (n+2)) (patternAt env pattern (n+1)) bitptn
          (attempt protocol queue bitptn (patternAt env pattern (n+1)) regs) = none) := by
  induction fuel generalizing n regs with
  | zero => cases h
  | succ fuel ih =>
    rw [setLoop] at h
    split at h
    · next new hcommit =>
      obtain rfl := Option.some.inj h
      exact ⟨n,regs,⟨bits_interference _ _,hcommit,rfl,rfl⟩,rfl,.inl rfl⟩
    · next hcommit =>
      obtain ⟨m,regs',hc,hfound,-⟩ := ih (n := n+1) h
      exact ⟨m,regs',hc,hfound,.inr hcommit⟩

/-- As many attempts as there are bits, and one more, are enough. -/
theorem setLoop_isSome (protocol : Protocol) (queue : List (Waiter τ)) (bitptn : BitVec 64)
    (env : ℕ → List Interference) {fuel : ℕ} (n : ℕ) (regs : τ → Regs)
    (hfuel : (bits pattern).card < fuel) :
    (setLoop protocol queue bitptn env fuel n pattern regs).isSome := by
  induction fuel generalizing n pattern regs with
  | zero => omega
  | succ fuel ih =>
    rw [setLoop]
    split
    · rfl
    · next hcommit =>
      apply ih
      have hlt := card_bits_lt (bits_interference (env n) pattern) (ne_of_commit_eq_none hcommit)
      omega

theorem sysEventFlagSet_finishes :
    sysEventFlagSet protocol queue bitptn env pattern≠.unfinished := by
  have hfuel := Nat.lt_succ_of_le
    (card_bits_le ((env 1).foldl Interference.apply ((env 0).foldl Interference.apply pattern)))
  obtain ⟨c,hc⟩ := Option.isSome_iff_exists.mp
    (setLoop_isSome protocol queue bitptn env 2 (fun _ => ⟨false,0⟩) hfuel)
  rw [sysEventFlagSet]
  simp only [hc]
  split_ifs <;> exact nofun

/-- The loop over the waiters follows any arrangement in the order of the protocol. -/
theorem attempt_eq (bitptn : BitVec 64) (hdistinct : Distinct queue)
    (horder : InOrder protocol queue order) (pattern : BitVec 64) (regs : τ → Regs) :
    attempt protocol queue bitptn pattern regs =
      attemptList bitptn order ⟨pattern ||| bitptn,0,0,regs⟩ := by
  rw [attempt,attemptLoop_eq,← horder.eq_serviceOrder hdistinct]

/-- The waiters that are woken are those with `CELL_OK` in their register. -/
theorem CommittedBy.mem_woken (hc : CommittedBy protocol queue bitptn read regs c)
    (hdistinct : Distinct queue) (horder : InOrder protocol queue order) {t : τ} :
    t∈c.woken ↔ ∃ v∈order, v.thread=t ∧
      ((attempt protocol queue bitptn read regs).regs v.thread).ok := by
  rw [hc.woken_eq]
  split_ifs with hcount
  · refine iff_of_false not_mem_nil ?_
    rintro ⟨v,hv,-,hok⟩
    rw [attempt_eq _ hdistinct horder] at hcount hok
    rw [ok_of_count_eq_zero (horder.nodup_thread hdistinct) hcount v hv] at hok
    cases hok
  · simp only [mem_map,mem_filter,horder.perm.mem_iff,and_assoc]
    exact exists_congr fun v => and_congr_right fun _ => and_comm

/-- What a set should do: wake the waiters of the sequential run from the pattern the
update has met with the new bits, leave the pattern of that run, and keep the others. -/
structure Correct (queue order : List (Waiter τ)) (bitptn : BitVec 64) (c : Committed τ) : Prop where
  woken : ∀ t, t∈c.woken ↔ t∈(sequential order (c.found ||| bitptn)).1
  pattern : c.pattern = (sequential order (c.found ||| bitptn)).2
  queue : c.queue = queue.filter fun w => w.thread∉(sequential order (c.found ||| bitptn)).1

/-- An attempt commits correctly if no OR waiter had a bit of the pattern that was read, and it started
without answers or the sequential run leaves bits. -/
theorem CommittedBy.correct (hc : CommittedBy protocol queue bitptn read regs c)
    (hdistinct : Distinct queue) (horder : InOrder protocol queue order)
    (hor : ∀ w∈order, w.mode.wait=.or → ∀ i∈bits w.bitptn, i∉bits read)
    (hend : (∀ v∈order, (regs v.thread).ok=false ∧ ¬Satisfies 0 v.bitptn v.mode.wait) ∨
      (sequential order (c.found ||| bitptn)).2≠0) : Correct queue order bitptn c := by
  have hattempt := attempt_eq bitptn hdistinct horder read regs
  obtain ⟨hdep,hnew⟩ := of_commit_eq_some hc.commit_eq hc.found_sub
  have hmet : (read ||| bitptn) &&& (c.found ||| bitptn) = c.found ||| bitptn := by
    rw [and_eq_right_iff]
    intro i hi
    rw [mem_bits_or] at hi ⊢
    exact hi.imp_left fun h => hc.found_sub h
  rw [hattempt] at hdep hnew
  have hkept : ∀ w∈order, w.mode.wait=.or → ∀ i∈bits w.bitptn, i∈bits (read ||| bitptn) →
      i∈bits (c.found ||| bitptn) := fun w hw hwait i hi hmem =>
    mem_bits_or.mpr (.inr ((mem_bits_or.mp hmem).resolve_left (hor w hw hwait i hi)))
  obtain ⟨hagree,hpattern⟩ := agrees_of_kept (a := ⟨read ||| bitptn,0,0,regs⟩)
    (fun i hi => mem_bits_or.mpr (.inr hi)) (horder.nodup_thread hdistinct) hdep hkept
    (by rwa [hmet])
  rw [hmet,← hattempt] at hagree
  rw [hmet] at hpattern
  have hwoken : ∀ t, t∈c.woken ↔ t∈(sequential order (c.found ||| bitptn)).1 := by
    intro t
    rw [hc.mem_woken hdistinct horder]
    constructor
    · rintro ⟨v,hv,rfl,hok⟩
      exact (hagree v hv).mp hok
    · intro ht
      obtain ⟨v,hv,rfl⟩ := mem_map.mp (sequential_subset _ _ ht)
      exact ⟨v,hv,rfl,(hagree v hv).mpr ht⟩
  refine ⟨hwoken,by rw [hnew,hpattern],?_⟩
  rw [hc.queue_eq]
  simp only [hwoken]

/-- Between the first read and the update after it no bit is cleared that an AND waiter which the set
satisfies has and the set does not. -/
def Undisturbed (order : List (Waiter τ)) (bitptn : BitVec 64) (env : ℕ → List Interference)
    (pattern : BitVec 64) : Prop :=
  ∀ w∈order, w.mode.wait=.and →
    w.thread∈(sequential order (patternAt env pattern 1 ||| bitptn)).1 →
      (patternAt env pattern 2 ^^^ patternAt env pattern 1) &&& (w.bitptn &&& ~~~bitptn)=0

/-- Then the first attempt commits. -/
theorem Undisturbed.commit (h : Undisturbed order bitptn env pattern) (hdistinct : Distinct queue)
    (horder : InOrder protocol queue order) (regs : τ → Regs) :
    commit (patternAt env pattern 2) (patternAt env pattern 1) bitptn
      (attempt protocol queue bitptn (patternAt env pattern 1) regs)≠none := by
  rw [attempt_eq bitptn hdistinct horder,EventFlag.commit,if_neg]
  · exact nofun
  · rw [not_not,eq_zero_iff]
    intro i hi
    rw [mem_bits_and,mem_bits_and] at hi
    rcases mem_dependantMask order hi.2.1 with hmem | ⟨w,hw,hwait,hwoken,hmem⟩
    · exact not_mem_bits_zero hmem
    · refine eq_zero_iff.mp (h w hw hwait hwoken) i ?_
      exact mem_bits_and.mpr ⟨hi.1,mem_bits_and.mpr ⟨hmem,hi.2.2⟩⟩

/-- Three waiters, the newest first, none of which bit 2 alone satisfies. -/
def raceQueue : List (Waiter ℕ) :=
  [⟨2,0b010,⟨.or,.keep⟩,0,by decide⟩,⟨1,0b011,⟨.and,.clear⟩,0,by decide⟩,
    ⟨0,0b101,⟨.and,.clear⟩,0,by decide⟩]

theorem race_inOrder : InOrder .fifo raceQueue raceQueue.reverse := ⟨reverse_perm _,by decide⟩

def raceEnv : ℕ → List Interference
  | 2 => [.clear 0]
  | _ => []

end PS3Native.EventFlag
