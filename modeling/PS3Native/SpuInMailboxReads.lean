import PS3Native.SpuInMailboxPushes
import PS3Native.Schedule

/-!
# Reads of the fourth value

The SPU reads `value3` between its load of `values` and the exchange. If no push was between
its two writes at that time, and `value3_inval` has not come round to the value it had, the
exchange succeeds only if what was read is the fourth value.
-/
namespace PS3Native.SpuInMailbox

open History

variable {s s' : State}

def SpuLoc.old? : SpuLoc → Option Values
  | .update _ old | .exchange _ old _ => some old
  | _ => none

def Loc.stored? : Loc → Option UInt32
  | .load v | .exchange v _ | .jostle v _ => some v
  | _ => none

structure ReadInv (s : State) : Prop where
  stored : ∀ v, s.pusher.stored? = some v → s.value3=v
  steady : s.values.count=4 → s.pusher.between=false → s.value3=s.fourth
  loadedAt : s.loadedAt ≤ s.updates
  version : ∀ old, s.spu.old? = some old → old.count=4 → s.values.count=4 ∧
    s.values.value3Inval = old.value3Inval+UInt16.ofNat (s.updates-s.loadedAt)
  read : ∀ op old new, s.spu = .exchange op old new → op.pops=true → old.count=4 →
    s.overlapped=false → s.updates=s.loadedAt → new.value2=s.fourth

theorem readInv_initial : ReadInv initial where
  stored _ h := by cases h
  steady h := by cases h
  loadedAt := Nat.le_refl 0
  version _ h := by cases h
  read _ _ _ h := by cases h

variable {jostling : Jostling} {log : List (QueueEvent UInt32)} {old : Values} {op : Op}
  {v : UInt32}

theorem pushUpdate_full {data : Values} (v : UInt32) (hcount : data.count ≤ 4) :
    ((pushUpdate v data).count=4 → 3 ≤ data.count) ∧
      (data.count=4 → (pushUpdate v data).count=4 ∧
        (pushUpdate v data).value3Inval = data.value3Inval+1) := by
  rcases count_cases hcount with h | h | h | h | h <;> simp [pushUpdate,h]

theorem readInv_placed
    (hplace : ∀ l pushed, l.stored? = none → ReadInv {s with pusher := l, pushed := pushed}) :
    ReadInv (s.placed v old) := by
  rw [State.placed]
  split
  · exact hplace (.reset v old) s.pushed rfl
  · exact hplace .idle (s.pushed++[v]) rfl

section

variable (h : ReadInv s)

include h

/-- A step of the SPU after which it has loaded no word. -/
theorem ReadInv.spuLeaves {values : Values} {l : SpuLoc} {results : List UInt32}
    (hl : l.old? = none) (hcount : values.count=4 → s.values.count=4) :
    ReadInv { s with
      values := values, jostlingValue := jostling, spu := l, log := log, results := results } where
  __ := h
  steady hfull := h.steady (hcount hfull)
  version old hold := by
    rw [hl] at hold
    cases hold
  read op old new hspu := by
    cases hspu
    cases hl

theorem ReadInv.spuLoads (op : Op) : ReadInv (s.spuLoads op) where
  __ := h
  loadedAt := Nat.le_refl _
  version old hold hfull := by
    cases hold
    refine ⟨hfull,?_⟩
    rw [State.spuLoads,Nat.sub_self]
    exact (UInt16.add_zero _).symm
  read _ _ _ hspu := by cases hspu

theorem ReadInv.spuReads {new : Values} {overlapped : Bool} (hspu : s.spu = .update op old)
    (hread : op.pops → old.count=4 → overlapped=false → new.value2=s.fourth) :
    ReadInv { s with
      spu := .exchange op old new, jostlingValue := jostling, overlapped := overlapped } where
  __ := h
  version old' hold := by
    cases hold
    exact h.version old (by rw [hspu]; rfl)
  read op' old' new' hloc hpops hfull hoverlapped _ := by
    cases hloc
    exact hread hpops hfull hoverlapped

theorem ReadInv.spuUpdates (hspu : s.spu = .update op old) : ReadInv (s.spuUpdates op old) := by
  unfold State.spuUpdates
  split
  · split
    · refine h.spuReads hspu fun _ hfull hbetween => ?_
      exact h.steady (h.version old (by rw [hspu]; rfl) hfull).1 hbetween
    · next hpops => exact h.spuReads hspu fun hset => absurd hset hpops
  · next hcount =>
    have hzero : old.count=0 := not_not.1 hcount
    cases op with
    | tryPop => exact h.spuReads hspu fun _ hfull => absurd (hzero.symm.trans hfull) (by decide)
    | popWait popValue =>
      exact h.spuReads hspu fun _ hfull => absurd (hzero.symm.trans hfull) (by decide)

theorem ReadInv.spuExchanged (hinv : Inv s) {new : Values}
    (hspu : s.spu = .exchange op s.values new) :
    ReadInv (State.spuExchanged {s with values := new} op s.values) := by
  have hfits := hinv.spuFits
  rw [hspu,SpuFits] at hfits
  unfold ExchangeFits at hfits
  unfold State.spuExchanged
  split at hfits
  · next hcount =>
    rw [if_pos hcount]
    split at hfits
    · next hpops =>
      obtain ⟨value3,rfl⟩ := hfits
      rw [if_pos hpops]
      refine h.spuLeaves (l := .idle) rfl fun hfull => ?_
      have := hinv.count
      have : s.values.count-1=4 := hfull
      omega
    · next hpops =>
      subst hfits
      rw [if_neg hpops]
      exact h.spuLeaves (l := .idle) rfl id
  · next hcount =>
    rw [if_neg hcount]
    cases op with
    | tryPop =>
      cases hfits
      exact h.spuLeaves (l := .idle) rfl id
    | popWait popValue =>
      obtain ⟨rfl,-⟩ := hfits
      exact h.spuLeaves (l := .check popValue 9) rfl id

theorem ReadInv.advanceSpu (hinv : Inv s) (hadv : advanceSpu s = some s') : ReadInv s' := by
  rw [SpuInMailbox.advanceSpu] at hadv
  split at hadv
  · cases hadv
  · next op _ =>
    cases hadv
    exact h.spuLoads op
  · next op old hspu =>
    cases hadv
    exact h.spuUpdates hspu
  · next op old new hspu =>
    split at hadv
    · next hvalues =>
      cases hadv
      subst hvalues
      exact h.spuExchanged hinv hspu
    · cases hadv
      exact h.spuLoads op
  · next popValue left _ =>
    split at hadv
    · cases hadv
      refine h.spuLeaves ?_ id
      split
      · rfl
      · rfl
    · cases hadv
      refine h.spuLeaves ?_ id
      split
      · rfl
      · rfl
  · next popValue _ =>
    cases hadv
    exact h.spuLeaves (l := .reload popValue) rfl id
  · next popValue _ =>
    split at hadv
    · cases hadv
      exact h.spuLeaves (l := .waitOn popValue) rfl id
    · cases hadv
      refine h.spuLeaves ?_ id
      split
      · rfl
      · rfl
  · cases hadv
    exact h.spuLeaves (l := .idle) rfl id

theorem ReadInv.go {l : Loc} {value3 : UInt32} {pushed : List UInt32}
    (hstored : ∀ v, l.stored? = some v → value3=v)
    (hsteady : s.values.count=4 → l.between=false → value3=s.fourth) :
    ReadInv { s with
      pusher := l, value3 := value3, jostlingValue := jostling, log := log, pushed := pushed } where
  stored := hstored
  steady := hsteady
  __ := h

theorem ReadInv.loaded (hpusher : s.pusher.stored? = some v) :
    ReadInv {s with pusher := loaded v s.values} := by
  have hvalue := h.stored v hpusher
  refine h.go ?_ ?_
  · intro u hu
    rw [SpuInMailbox.loaded] at hu
    split at hu <;>
    · cases hu
      exact hvalue
  · intro _ hbetween
    rw [SpuInMailbox.loaded] at hbetween
    split at hbetween <;> cases hbetween

theorem ReadInv.update (hinv : Inv s) (hpusher : s.pusher.stored? = some v) {l : Loc}
    {pushed : List UInt32} (hl : l.stored? = none) :
    ReadInv { s with
      values := pushUpdate v s.values
      pusher := l
      log := log
      pushed := pushed
      fourth := if 3 ≤ s.values.count then v else s.fourth
      updates := s.updates+1 } := by
  obtain ⟨hthree,hfull⟩ := pushUpdate_full v hinv.count
  have hle := h.loadedAt
  exact
    { stored := by
        intro u hu
        cases hl.symm.trans hu
      steady := by
        intro hcount _
        rw [if_pos (hthree hcount)]
        exact h.stored v hpusher
      loadedAt := Nat.le_succ_of_le hle
      version := by
        intro old hold hcount
        obtain ⟨hvalues,hinval⟩ := h.version old hold hcount
        refine ⟨(hfull hvalues).1,?_⟩
        rw [(hfull hvalues).2,hinval,Nat.succ_sub hle,UInt16.add_assoc,Nat.succ_eq_add_one,
          UInt16.ofNat_add]
        rfl
      read := by
        intro op old new _ _ _ _ hEq
        have hEq : s.updates+1=s.loadedAt := hEq
        omega }

/-- The push ends the wait of an SPU, which has loaded no word. -/
theorem ReadInv.endWait (hinv : Inv s) (hpusher : s.pusher = .reset v old) :
    ReadInv (State.finish {s with values := {s.values with wait := false, occupy := false}} v) := by
  have hfits := hinv.pusherFits
  rw [hpusher] at hfits
  have hold : s.spu.old? = none := by
    have hwaiting := (hinv.waits hfits.1).1
    cases hspu : s.spu <;> rw [hspu] at hwaiting <;> first | rfl | cases hwaiting
  exact
    { stored := by rintro u ⟨⟩
      steady := fun hfull _ => h.steady hfull (by rw [hpusher]; rfl)
      loadedAt := h.loadedAt
      version := by
        intro old' hold'
        cases hold.symm.trans hold'
      read := h.read }

theorem ReadInv.advance (hinv : Inv s) (hadv : advance s = some s') : ReadInv s' := by
  have hfits := hinv.pusherFits
  rw [SpuInMailbox.advance] at hadv
  split at hadv
  · cases hadv
  · next v hpusher =>
    cases hadv
    refine h.go (l := .load v) ?_ (by rintro _ ⟨⟩)
    rintro u ⟨⟩
    rfl
  · next v hpusher =>
    cases hadv
    exact h.loaded (by rw [hpusher]; rfl)
  · next v old hpusher =>
    split at hadv
    · next hvalues =>
      cases hadv
      subst hvalues
      exact readInv_placed fun l pushed hl => h.update hinv (by rw [hpusher]; rfl) hl
    · cases hadv
      exact h.loaded (by rw [hpusher]; rfl)
  · next v old hpusher =>
    rw [hpusher] at hfits
    rw [if_pos hfits.2.2.2] at hadv
    cases hadv
    refine readInv_placed fun l pushed hl => h.go ?_ ?_
    · intro u hu
      cases hl.symm.trans hu
    · intro hfull
      have hempty := (hinv.waits hfits.2.1).2 hfits.2.2.1
      exact absurd (hempty.symm.trans hfull) (by decide)
  · next v old hpusher =>
    rw [hpusher] at hfits
    rw [if_pos hfits.1] at hadv
    cases hadv
    exact h.endWait hinv hpusher
  · cases hadv

theorem ReadInv.step (hinv : Inv s) (hstep : WholeStep s s') : ReadInv s' := by
  cases hstep with
  | callSpu hcall =>
    rw [callSpu] at hcall
    split at hcall
    · cases hcall
      exact h.spuLeaves (l := .load _) rfl id
    · cases hcall
  | spu _ hadv => exact h.advanceSpu hinv hadv
  | call hcall =>
    rw [call] at hcall
    split at hcall
    · next hpusher =>
      cases hcall
      refine h.go (l := .store _) (by rintro _ ⟨⟩) fun hfull _ => ?_
      exact h.steady hfull (by rw [hpusher]; rfl)
    · cases hcall
  | push hadv => exact h.advance hinv hadv

end

theorem WholeReachable.readInv (h : WholeReachable s) : ReadInv s := by
  induction h with
  | refl => exact readInv_initial
  | tail hreach hstep ih => exact ih.step (WholeReachable.inv hreach) hstep

theorem eq_zero_of_eq_add_ofNat {a : UInt16} {n : ℕ} (h : a = a+UInt16.ofNat n) (hn : n < 65536) :
    n=0 := by
  have hnat := congrArg UInt16.toNat h
  rw [UInt16.toNat_add,UInt16.toNat_ofNat'] at hnat
  omega

/-- A torn pop has read `value3` while a push was between its two writes, or `value3_inval`
has come round since the pop loaded the word. -/
theorem ReadInv.of_torn (h : ReadInv s) (htorn : Torn s) :
    s.overlapped ∨ 65536 ≤ s.updates-s.loadedAt := by
  obtain ⟨op,old,new,hspu,rfl,hpops,hfull,hne⟩ := htorn
  have hinval := (h.version s.values (by rw [hspu]; rfl) hfull).2
  cases hoverlapped : s.overlapped with
  | true => exact .inl rfl
  | false =>
    refine .inr (Nat.le_of_not_lt fun hlt => hne ?_)
    have hsub := eq_zero_of_eq_add_ofNat hinval hlt
    have hle := h.loadedAt
    exact h.read op s.values new hspu hpops hfull hoverlapped (by omega)

open Schedule List

/-- The log is legal for a queue of capacity four that overwrites its newest value, and leaves
what the words show. -/
def Legal (s : State) : Prop :=
  replay (boundedQueue 4) [] s.log = some (contents s.values s.fourth)

structure Fifo (s : State) : Prop where
  legal : Legal s
  /-- The popped values are those that pops have returned or are about to. -/
  pops : poppedOf s.log = s.results++handed s.spu s.jostlingValue
  /-- The pushed values are those whose pushes have returned or are about to. -/
  pushes : pushedOf s.log = s.pushed++s.pusher.made
  /-- What has taken effect stays. -/
  grows : ∀ s', Step s s' → s.log <+: s'.log
  /-- Every push is done. -/
  done : s.pusher≠.notDone
  /-- A step of the SPU keeps to the queue exactly if it is not a torn pop. -/
  tight : ∀ s', advanceSpu s = some s' → (Legal s' ↔ ¬Torn s)
  /-- A pop is torn only if it has read `value3` between the two writes of a push, or if so
  many pushes came in between that `value3_inval` has come round. -/
  rare : Torn s → s.overlapped=true ∨ 65536 ≤ s.updates-s.loadedAt

theorem not_legal_of_torn (h : Inv s) (htorn : Torn s) (hadv : advanceSpu s = some s') :
    ¬Legal s' := by
  obtain ⟨op,old,new,hspu,rfl,hpops,hfull,hne⟩ := htorn
  have hcount : s.values.count≠0 := by
    rw [hfull]
    decide
  have hfits := h.spuFits
  rw [hspu,SpuFits,exchangeFits_of_ne hcount,if_pos hpops] at hfits
  obtain ⟨value3,rfl⟩ := hfits
  have hs' : s' = { s with
      values := popUpdate value3 s.values
      spu := .idle
      log := s.log++[.pop s.values.value0]
      results := s.results++[s.values.value0] } := by
    simp only [advanceSpu,hspu,if_true,Option.some.injEq] at hadv
    rw [← hadv]
    unfold State.spuExchanged
    rw [if_pos hcount,if_pos hpops]
  subst hs'
  intro hlegal
  exact contents_pop_torn hfull hne ((replay_concat h.legal _).symm.trans hlegal)

theorem log_spuExchanged (s : State) (op : Op) (old : Values) :
    s.log <+: (s.spuExchanged op old).log := by
  unfold State.spuExchanged
  split
  · split
    · exact prefix_append ..
    · exact prefix_append ..
  · cases op <;> exact prefix_refl _

theorem log_spuUpdates (s : State) (op : Op) (old : Values) : (s.spuUpdates op old).log=s.log := by
  unfold State.spuUpdates
  split
  · split
    · rfl
    · rfl
  · cases op <;> rfl

theorem log_advanceSpu (hadv : advanceSpu s = some s') : s.log <+: s'.log := by
  rw [advanceSpu] at hadv
  split at hadv
  · cases hadv
  · cases hadv
    exact prefix_refl _
  · next op old _ =>
    cases hadv
    exact log_spuUpdates s op old ▸ prefix_refl _
  · next op old new _ =>
    split at hadv
    · cases hadv
      exact log_spuExchanged {s with values := new} op old
    · cases hadv
      exact prefix_refl _
  · split at hadv <;>
    · cases hadv
      exact prefix_refl _
  · cases hadv
    exact prefix_refl _
  · split at hadv <;>
    · cases hadv
      exact prefix_refl _
  · cases hadv
    exact prefix_refl _

theorem log_placed (s : State) (v : UInt32) (old : Values) : (s.placed v old).log=s.log := by
  rw [State.placed]
  split
  · rfl
  · rfl

theorem log_advance (hadv : advance s = some s') : s.log <+: s'.log := by
  rw [advance] at hadv
  split at hadv
  · cases hadv
  · cases hadv
    exact prefix_refl _
  · cases hadv
    exact prefix_refl _
  · split at hadv
    · cases hadv
      rw [log_placed]
      exact prefix_append ..
    · cases hadv
      exact prefix_refl _
  · split at hadv
    · cases hadv
      rw [log_placed]
      exact prefix_append ..
    · cases hadv
      exact prefix_refl _
  · split at hadv <;>
    · cases hadv
      exact prefix_refl _
  · cases hadv

theorem log_step (hstep : Step s s') : s.log <+: s'.log := by
  cases hstep with
  | callSpu hcall =>
    rw [callSpu] at hcall
    split at hcall <;> cases hcall
    exact prefix_refl _
  | spu hadv => exact log_advanceSpu hadv
  | call hcall =>
    rw [call] at hcall
    split at hcall <;> cases hcall
    exact prefix_refl _
  | push hadv => exact log_advance hadv

theorem in_mailbox_fifo (h : WholeReachable s) : Fifo s := by
  have hinv := h.inv
  exact
    { legal := hinv.legal
      pops := hinv.pops
      pushes := hinv.pushes
      grows := fun _ hstep => log_step hstep
      done := by
        intro hpusher
        have hfits := hinv.pusherFits
        rw [hpusher] at hfits
        exact hfits
      tight := by
        intro s' hadv
        constructor
        · exact fun hlegal htorn => not_legal_of_torn hinv htorn hadv hlegal
        · exact fun hwhole => (hinv.advanceSpu hwhole hadv).legal
      rare := h.readInv.of_torn }

section Schedule

inductive Choice
  | callSpu (op : Op)
  | spu
  | call (v : UInt32)
  | push

def take (s : State) : Choice → Option State
  | .callSpu op => callSpu s op
  | .spu => advanceSpu s
  | .call v => call s v
  | .push => advance s

theorem step_of_take (s : State) (c : Choice) (s' : State) (h : take s c = some s') : Step s s' := by
  cases c with
  | callSpu op => exact .callSpu h
  | spu => exact .spu h
  | call v => exact .call h
  | push => exact .push h

def whole (s : State) : Choice → Bool
  | .spu =>
    match s.spu with
    | .exchange op old new => !(s.values = old && op.pops && old.count=4) || new.value2=s.fourth
    | _ => true
  | _ => true

theorem not_torn_of_whole (h : whole s .spu) : ¬Torn s := by
  rintro ⟨op,old,new,hspu,hvalues,hpops,hfull,hne⟩
  simp [whole,hspu,hvalues,hpops,hfull,hne] at h

theorem wholeStep_of_take (s : State) (c : Choice) (s' : State)
    (h : guarded whole take s c = some s') : WholeStep s s' := by
  obtain ⟨hwhole,htake⟩ := guarded_eq_some h
  cases c with
  | callSpu op => exact .callSpu htake
  | spu => exact .spu (not_torn_of_whole hwhole) htake
  | call v => exact .call htake
  | push => exact .push htake

end Schedule

def pushes (v : UInt32) : List Choice := [.call v,.push,.push,.push]

def tryPops : List Choice := [.callSpu .tryPop,.spu,.spu,.spu]

/-- A value is handed to an SPU that waits; then five values are pushed, the last of which
overwrites the one before it, and one is popped. -/
def overwritingSchedule : List Choice :=
  [.callSpu (.popWait true),.spu,.spu,.spu,.call 7,.push,.push,.push,.push,.spu,.spu] ++
    pushes 1++pushes 2++pushes 3++pushes 4++pushes 5++tryPops

theorem in_mailbox_fifo_overwriting :
    ∃ s, Fifo s ∧ s.results = [7,1] ∧ s.pushed = [7,1,2,3,4,5] ∧
      contents s.values s.fourth = [2,3,5] := by
  have hrun : ((run (guarded whole take) initial overwritingSchedule).map fun s =>
      (s.results,s.pushed,contents s.values s.fourth)) =
        some ([7,1],[7,1,2,3,4,5],[2,3,5]) := by decide
  obtain ⟨s,hreach,hEq⟩ := exists_of_run wholeStep_of_take hrun
  simp only [Prod.mk.injEq] at hEq
  exact ⟨s,in_mailbox_fifo hreach,hEq⟩

/-- Four values are in the mailbox when a fifth push has stored `value3`. A pop moves that
value up in place of the fourth one, and the push then finds a free place. -/
def tornSchedule : List Choice :=
  pushes 1++pushes 2++pushes 3++pushes 4++[.call 5,.push]++tryPops++[.push,.push] ++
    tryPops++tryPops++tryPops++tryPops

theorem in_mailbox_loses_and_repeats :
    ∃ s, Reachable s ∧ s.pusher=.idle ∧ s.pushed = [1,2,3,4,5] ∧ s.results = [1,2,3,5,5] := by
  have hrun : ((run take initial tornSchedule).map fun s => (s.pusher,s.pushed,s.results)) =
      some (.idle,[1,2,3,4,5],[1,2,3,5,5]) := by decide
  obtain ⟨s,hreach,hEq⟩ := exists_of_run step_of_take hrun
  simp only [Prod.mk.injEq] at hEq
  exact ⟨s,hreach,hEq⟩

end PS3Native.SpuInMailbox
