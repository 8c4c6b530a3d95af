import PS3Native.SpuInMailbox

/-!
# The inbound mailbox as a queue

The log of a run without torn pops replays on a queue of capacity four that overwrites its
newest value, and leaves the values that the words show. While the SPU waits the queue is
empty, and a push hands its value over: it is pushed and popped in one step.
-/
namespace PS3Native.SpuInMailbox

open History List

variable {s s' : State}

section Contents

def contents (data : Values) (fourth : UInt32) : List UInt32 :=
  [data.value0,data.value1,data.value2,fourth].take data.count

theorem count_cases {n : ℕ} (h : n ≤ 4) : n=0 ∨ n=1 ∨ n=2 ∨ n=3 ∨ n=4 := by
  omega

variable {data : Values}

theorem contents_push (hcount : data.count ≤ 4) (fourth v : UInt32) :
    boundedQueue 4 (contents data fourth) (.push v) =
      some (contents (pushUpdate v data) (if 3 ≤ data.count then v else fourth)) := by
  rcases count_cases hcount with h | h | h | h | h <;> simp [boundedQueue,contents,pushUpdate,h]

theorem contents_pop {value3 fourth : UInt32} (hcount : data.count ≤ 4) (hne : data.count≠0)
    (hread : data.count=4 → value3=fourth) :
    boundedQueue 4 (contents data fourth) (.pop data.value0) =
      some (contents (popUpdate value3 data) fourth) := by
  rcases count_cases hcount with h | h | h | h | h
  · exact absurd h hne
  all_goals simp [boundedQueue,queue,contents,popUpdate,h]
  exact (hread h).symm

theorem contents_pop_torn {value3 fourth : UInt32} (hcount : data.count=4)
    (hread : value3≠fourth) :
    boundedQueue 4 (contents data fourth) (.pop data.value0) ≠
      some (contents (popUpdate value3 data) fourth) := by
  simpa [boundedQueue,queue,contents,popUpdate,hcount] using hread.symm

theorem contents_peek (hcount : data.count ≤ 4) (hne : data.count≠0) (fourth : UInt32) :
    boundedQueue 4 (contents data fourth) (.peek data.value0) = some (contents data fourth) := by
  rcases count_cases hcount with h | h | h | h | h
  · exact absurd h hne
  all_goals simp [boundedQueue,queue,contents,h]

theorem contents_empty (hcount : data.count=0) (fourth : UInt32) : contents data fourth=[] := by
  rw [contents,hcount,take_zero]

theorem count_pushUpdate (v : UInt32) (hcount : data.count ≤ 4) :
    (pushUpdate v data).count ≤ 4 ∧ (pushUpdate v data).wait=data.wait ∧
      (pushUpdate v data).occupy=data.occupy := by
  rcases count_cases hcount with h | h | h | h | h <;> simp [pushUpdate,h]

end Contents

section Invariant

def SpuLoc.waiting? : SpuLoc → Option Bool
  | .check popValue _ | .waitOn popValue | .reload popValue => some popValue
  | _ => none

def handed : SpuLoc → Jostling → List UInt32
  | .check true _, .value v | .waitOn true, .value v | .reload true, .value v | .take, .value v => [v]
  | _, _ => []

def ExchangeFits (jostling : Jostling) (op : Op) (old new : Values) : Prop :=
  if old.count≠0 then
    if op.pops then ∃ value3, new = popUpdate value3 old else new=old
  else
    match op with
    | .tryPop => new=old
    | .popWait popValue =>
      new = {old with wait := true, occupy := popValue} ∧
        jostling = if popValue then .flag else .value 0

def WaitFits (values : Values) (jostling : Jostling) (pusher : Loc) (popValue : Bool) : Prop :=
  (values.wait=true → values.occupy=popValue) ∧
    (popValue=true →
      if values.wait then jostling = .flag ∨ ∃ v old, pusher = .reset v old ∧ jostling = .value v
      else ∃ v, jostling = .value v)

def SpuFits (values : Values) (jostling : Jostling) (pusher : Loc) : SpuLoc → Prop
  | .exchange op old new => ExchangeFits jostling op old new
  | .check popValue _ | .waitOn popValue | .reload popValue => WaitFits values jostling pusher popValue
  | .take => ∃ v, jostling = .value v
  | _ => True

def PusherFits (values : Values) (jostling : Jostling) : Loc → Prop
  | .exchange _ old => old.occupy=false
  | .jostle _ old => old.wait=true ∧ values.wait=true ∧ values.occupy=true ∧ jostling=.flag
  | .reset v _ => values.wait=true ∧ (values.occupy=true → jostling = .value v)
  | .notDone => False
  | _ => True

/-- The value that the pusher has put in place and whose push has not returned. -/
def Loc.made : Loc → List UInt32
  | .reset v _ => [v]
  | _ => []

structure Inv (s : State) : Prop where
  legal : replay (boundedQueue 4) [] s.log = some (contents s.values s.fourth)
  count : s.values.count ≤ 4
  flags : s.values.wait=false → s.values.occupy=false
  waits : s.values.wait=true →
    (s.spu.waiting?).isSome ∧ (s.values.occupy=true → s.values.count=0)
  spuFits : SpuFits s.values s.jostlingValue s.pusher s.spu
  pusherFits : PusherFits s.values s.jostlingValue s.pusher
  pops : poppedOf s.log = s.results++handed s.spu s.jostlingValue
  pushes : pushedOf s.log = s.pushed++s.pusher.made

theorem inv_initial : Inv initial where
  legal := rfl
  count := by decide
  flags _ := rfl
  waits h := by cases h
  spuFits := trivial
  pusherFits := trivial
  pops := rfl
  pushes := rfl

end Invariant

section Spu

def SpuLoc.Quiet : SpuLoc → Prop
  | .idle | .load _ | .update _ _ | .exchange _ _ _ => True
  | _ => False

variable {l : SpuLoc} {jostling : Jostling} {op : Op}

theorem SpuLoc.Quiet.waiting (h : l.Quiet) : l.waiting? = none := by
  cases l <;> first | rfl | exact h.elim

theorem SpuLoc.Quiet.handed (h : l.Quiet) (j : Jostling) : handed l j=[] := by
  cases l <;> first | rfl | exact h.elim

/-- An SPU that does not wait has left no flag in the word. -/
theorem Inv.wait_eq_false (h : Inv s) (hspu : s.spu.waiting? = none) : s.values.wait=false := by
  refine eq_false_of_ne_true fun hwait => ?_
  have hsome := (h.waits hwait).1
  rw [hspu] at hsome
  cases hsome

/-- While no SPU waits, the pusher depends on no word that the SPU changes. -/
theorem Inv.pusherFits_of_quiet (h : Inv s) (hwait : s.values.wait=false) (values : Values)
    (jostling : Jostling) : PusherFits values jostling s.pusher ∧ s.pusher.made=[] := by
  have hfits := h.pusherFits
  cases hpusher : s.pusher with
  | idle | store _ | load _ => exact ⟨trivial,rfl⟩
  | exchange v old =>
    rw [hpusher] at hfits
    exact ⟨hfits,rfl⟩
  | jostle v old =>
    rw [hpusher,PusherFits,hwait] at hfits
    cases hfits.2.1
  | reset v old =>
    rw [hpusher,PusherFits,hwait] at hfits
    cases hfits.1
  | notDone =>
    rw [hpusher] at hfits
    exact hfits.elim

/-- A step of an SPU that does not wait, which leaves `values`. -/
theorem Inv.quiet (h : Inv s) (hspu : s.spu.Quiet) {loadedAt : ℕ} {overlapped : Bool} (hl : l.Quiet)
    (hfits : SpuFits s.values jostling s.pusher l) :
    Inv { s with
      spu := l, jostlingValue := jostling, loadedAt := loadedAt, overlapped := overlapped } where
  __ := h
  waits hwait := absurd (h.wait_eq_false hspu.waiting) (by rw [hwait]; rintro ⟨⟩)
  spuFits := hfits
  pusherFits := (h.pusherFits_of_quiet (h.wait_eq_false hspu.waiting) s.values jostling).1
  pops := by
    have hpops := h.pops
    rw [hspu.handed] at hpops
    rw [hl.handed]
    exact hpops

theorem exchangeFits_of_ne {old new : Values} (hcount : old.count≠0) :
    ExchangeFits jostling op old new ↔
      if op.pops then ∃ value3, new = popUpdate value3 old else new=old := by
  unfold ExchangeFits
  rw [if_pos hcount]

theorem Inv.spuUpdates (h : Inv s) {old : Values} (hspu : s.spu = .update op old) :
    Inv (s.spuUpdates op old) := by
  have hquiet : s.spu.Quiet := by
    rw [hspu]
    trivial
  unfold State.spuUpdates
  split
  · next hcount =>
    split
    · next hpops =>
      refine h.quiet hquiet (l := .exchange op old _) trivial ?_
      rw [SpuFits,exchangeFits_of_ne hcount,if_pos hpops]
      exact ⟨s.value3,rfl⟩
    · next hpops =>
      refine h.quiet hquiet (l := .exchange op old old) trivial ?_
      rw [SpuFits,exchangeFits_of_ne hcount,if_neg hpops]
  · next hcount =>
    cases op with
    | tryPop =>
      refine h.quiet hquiet (l := .exchange .tryPop old old) trivial ?_
      rw [SpuFits,ExchangeFits,if_neg hcount]
    | popWait popValue =>
      refine h.quiet hquiet (l := .exchange (.popWait popValue) old _) trivial ?_
      rw [SpuFits,ExchangeFits,if_neg hcount]
      exact ⟨rfl,rfl⟩

theorem Inv.popValue (h : Inv s) (hspu : s.spu.Quiet) (hcount : s.values.count≠0)
    {value3 : UInt32} (hwhole : s.values.count=4 → value3=s.fourth) :
    Inv { s with
      values := popUpdate value3 s.values
      spu := .idle
      log := s.log++[.pop s.values.value0]
      results := s.results++[s.values.value0] } where
  legal := (replay_concat h.legal _).trans (contents_pop h.count hcount hwhole)
  count := Nat.le_trans (Nat.sub_le ..) h.count
  flags _ := rfl
  waits hwait := by cases hwait
  spuFits := trivial
  pusherFits := (h.pusherFits_of_quiet (h.wait_eq_false hspu.waiting) _ _).1
  pops := by
    have hpops := h.pops
    rw [hspu.handed,append_nil] at hpops
    rw [poppedOf_append,hpops]
    exact (append_nil _).symm
  pushes := by
    rw [pushedOf_append]
    exact (append_nil _).trans h.pushes

theorem Inv.peekValue (h : Inv s) (hspu : s.spu.Quiet) (hcount : s.values.count≠0) :
    Inv {s with spu := .idle, log := s.log++[.peek s.values.value0]} where
  legal := (replay_concat h.legal _).trans (contents_peek h.count hcount s.fourth)
  __ := h
  waits hwait := absurd (h.wait_eq_false hspu.waiting) (by rw [hwait]; rintro ⟨⟩)
  spuFits := trivial
  pops := by
    have hpops := h.pops
    rw [hspu.handed] at hpops
    rw [poppedOf_append]
    exact (append_nil _).trans hpops
  pushes := by
    rw [pushedOf_append]
    exact (append_nil _).trans h.pushes

theorem Inv.startWait (h : Inv s) (hspu : s.spu.Quiet) {popValue : Bool}
    (hcount : s.values.count=0)
    (hjostling : s.jostlingValue = if popValue then .flag else .value 0) :
    Inv { s with
      values := {s.values with wait := true, occupy := popValue}, spu := .check popValue 9 } where
  __ := h
  flags hwait := by cases hwait
  waits _ := ⟨rfl,fun _ => hcount⟩
  spuFits := by
    refine ⟨fun _ => rfl,fun hpop => .inl ?_⟩
    rw [hpop] at hjostling
    exact hjostling
  pusherFits := (h.pusherFits_of_quiet (h.wait_eq_false hspu.waiting) _ _).1
  pops := by
    have hpops := h.pops
    rw [hspu.handed] at hpops
    cases popValue with
    | false => exact hpops
    | true =>
      rw [hjostling]
      exact hpops

/-- The SPU has found the word that it has loaded. -/
theorem Inv.spuExchanged (h : Inv s) {new : Values} (hspu : s.spu = .exchange op s.values new)
    (hwhole : ¬Torn s) : Inv (State.spuExchanged {s with values := new} op s.values) := by
  have hquiet : s.spu.Quiet := by
    rw [hspu]
    trivial
  have hfits := h.spuFits
  rw [hspu,SpuFits] at hfits
  unfold ExchangeFits at hfits
  unfold State.spuExchanged
  split at hfits
  · next hcount =>
    rw [if_pos hcount]
    split at hfits
    · next hpops =>
      obtain ⟨value3,rfl⟩ := hfits
      rw [if_pos hpops]
      refine h.popValue hquiet hcount fun hfull => ?_
      by_contra hne
      exact hwhole ⟨op,s.values,_,hspu,rfl,hpops,hfull,hne⟩
    · next hpops =>
      subst hfits
      rw [if_neg hpops]
      exact h.peekValue hquiet hcount
  · next hcount =>
    rw [if_neg hcount]
    cases op with
    | tryPop =>
      cases hfits
      exact h.quiet hquiet (l := .idle) trivial trivial
    | popWait popValue =>
      obtain ⟨rfl,hjostling⟩ := hfits
      exact h.startWait hquiet (not_not.1 hcount) hjostling

theorem spuFits_of_waiting {values : Values} {pusher : Loc} {popValue : Bool}
    (h : l.waiting? = some popValue) :
    SpuFits values jostling pusher l ↔ WaitFits values jostling pusher popValue := by
  cases l <;> cases h <;> rfl

theorem handed_of_waiting {popValue : Bool} (h : l.waiting? = some popValue) (j : Jostling) :
    handed l j = if popValue then handed .take j else [] := by
  cases l <;> cases h <;> cases popValue <;> cases j <;> rfl

theorem Inv.keepWait (h : Inv s) {popValue : Bool} (hspu : s.spu.waiting? = some popValue)
    (hl : l.waiting? = some popValue) : Inv {s with spu := l} where
  __ := h
  waits hwait := ⟨by rw [hl]; rfl,(h.waits hwait).2⟩
  spuFits := (spuFits_of_waiting hl).2 ((spuFits_of_waiting hspu).1 h.spuFits)
  pops := by
    have hpops := h.pops
    rw [handed_of_waiting hspu] at hpops
    rwa [handed_of_waiting hl]

theorem Inv.seeEnd (h : Inv s) {popValue : Bool} (hspu : s.spu.waiting? = some popValue)
    (hwait : s.values.wait=false) : Inv {s with spu := if popValue then .take else .idle} := by
  have hpops := h.pops
  rw [handed_of_waiting hspu] at hpops
  refine { h with
      waits := fun hwait' => absurd (hwait.symm.trans hwait') Bool.false_ne_true
      spuFits := ?_
      pops := ?_ }
  · have hfits := (spuFits_of_waiting hspu).1 h.spuFits
    cases popValue with
    | false => trivial
    | true =>
      have hvalue := hfits.2 rfl
      rwa [hwait] at hvalue
  · cases popValue with
    | false => exact hpops
    | true => exact hpops

theorem Inv.takeValue (h : Inv s) (hspu : s.spu=.take) : Inv { s with
      spu := .idle
      jostlingValue := .value 0
      results := s.results++[s.jostlingValue.low] } := by
  have hfits := h.spuFits
  have hpops := h.pops
  rw [hspu] at hfits hpops
  obtain ⟨v,hv⟩ := hfits
  have hwait : s.values.wait=false := h.wait_eq_false (by rw [hspu]; rfl)
  exact { h with
      waits := fun hwait' => absurd (hwait.symm.trans hwait') Bool.false_ne_true
      spuFits := trivial
      pusherFits := (h.pusherFits_of_quiet hwait _ _).1
      pops := by
        rw [hv] at hpops ⊢
        exact hpops.trans (append_nil _).symm }

theorem Inv.advanceSpu (h : Inv s) (hwhole : ¬Torn s) (hadv : advanceSpu s = some s') : Inv s' := by
  rw [SpuInMailbox.advanceSpu] at hadv
  split at hadv
  · cases hadv
  · next op hspu =>
    cases hadv
    exact h.quiet (by rw [hspu]; trivial) (l := .update op s.values) trivial trivial
  · next op old hspu =>
    cases hadv
    exact h.spuUpdates hspu
  · next op old new hspu =>
    split at hadv
    · next hvalues =>
      cases hadv
      subst hvalues
      exact h.spuExchanged hspu hwhole
    · cases hadv
      exact h.quiet (by rw [hspu]; trivial) (l := .update op s.values) trivial trivial
  · next popValue left hspu =>
    have hwaiting : s.spu.waiting? = some popValue := by
      rw [hspu]
      rfl
    split at hadv
    · cases hadv
      refine h.keepWait hwaiting ?_
      split
      · rfl
      · rfl
    · next hwait =>
      cases hadv
      exact h.seeEnd hwaiting (eq_false_of_ne_true fun hset => hwait (.inl hset))
  · next popValue hspu =>
    cases hadv
    exact h.keepWait (by rw [hspu]; rfl) rfl
  · next popValue hspu =>
    have hwaiting : s.spu.waiting? = some popValue := by
      rw [hspu]
      rfl
    split at hadv
    · cases hadv
      exact h.keepWait hwaiting rfl
    · next hwait =>
      cases hadv
      exact h.seeEnd hwaiting (eq_false_of_ne_true hwait)
  · next hspu =>
    cases hadv
    exact h.takeValue hspu

end Spu

end PS3Native.SpuInMailbox
