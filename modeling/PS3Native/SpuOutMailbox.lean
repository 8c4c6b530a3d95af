import Mathlib.Logic.Relation
import PS3Native.SpuChannel
import PS3Native.Schedule

/-!
# The outbound mailbox of an SPU

One SPU calls `spu_channel::push_wait`, any number of threads call `pop`. A `push_wait` that finds
the channel full leaves its value in `jostling_value` for the next `pop` to install. One that is
stopped while it waits returns `false`, and the same channel write is executed again later.

The values taken by pops, then the one in the channel, are those of the channel writes that have
returned `true`, then the one a pop has installed for an SPU that waits. Every step keeps this but
a pop that installs a stale value.
-/
namespace PS3Native.SpuOutMailbox

open SpuChannel

/-- The arguments of `push_wait`. With `push` unset it waits for a free channel only. -/
structure Write where
  value : UInt32
  push : Bool
  deriving DecidableEq, Repr

/-- Where the SPU stands in `push_wait`, with the word that its update has loaded, the number
of times it still looks before it may sleep, or the word that it has seen last. -/
inductive SpuLoc
  | idle
  | aborted (w : Write)
  | load (w : Write)
  | update (w : Write) (old : Data)
  | exchange (w : Write) (old : Data)
  | check (w : Write) (left : ℕ)
  | isStopped (w : Write) (state : Data)
  | waitOn (w : Write) (state : Data)
  | asleep (w : Write)
  | abort (w : Write)
  deriving DecidableEq, Repr

inductive Loc
  | idle
  | load
  | read (old : Data)
  | exchange (old new : Data)
  | notify (old : Data)
  deriving DecidableEq, Repr

structure State (τ : Type*) where
  data : Data
  jostlingValue : Jostling
  spu : SpuLoc
  loc : τ → Loc
  /-- The values of the channel writes that have returned `true`. -/
  written : List UInt32
  /-- The words that pops have found, each with its thread. -/
  pops : List (τ × Data)
  /-- The words that the pops of each thread have found that have returned. -/
  finished : τ → List Data

variable {τ : Type*} [DecidableEq τ]

def initial (τ : Type*) : State τ :=
  ⟨.zero,.value 0,.idle,fun _ => .idle,[],[],fun _ => []⟩

section PushWait

/-- What `push_wait` makes of the word, unless it leaves it. -/
def pushWaitUpdate (w : Write) (data : Data) : Option Data :=
  if data.count then some {data with occupy := data.occupy || w.push, wait := true}
  else if w.push then some (.full w.value)
  else none

/-- The value that `push_wait` leaves for a pop, if the channel is full. -/
def pushWaitJostling (w : Write) (data : Data) (jostling : Jostling) : Jostling :=
  if data.count then .value (if w.push then w.value else data.value) else jostling

def State.wrote (s : State τ) (w : Write) : State τ :=
  {s with spu := .idle, written := if w.push then s.written++[w.value] else s.written}

/-- The flags, which are the upper half of the word. -/
def upper (data : Data) : Bool × Bool × Bool := (data.count,data.occupy,data.wait)

/-- The next step of the SPU; `stopped` is what `is_stopped` says. -/
def advanceSpu (s : State τ) (stopped : Bool) : Option (State τ) :=
  match s.spu with
  | .idle | .aborted _ => none
  | .load w => some {s with spu := .update w s.data}
  | .update w old =>
    match pushWaitUpdate w old with
    | some _ =>
      some { s with
        jostlingValue := pushWaitJostling w old s.jostlingValue
        spu := .exchange w old }
    | none => if old.wait then some {s with spu := .check w 9} else some (s.wrote w)
  | .exchange w old =>
    if s.data=old then
      (pushWaitUpdate w old).map fun state =>
        if state.wait then {s with data := state, spu := .check w 9}
        else State.wrote {s with data := state} w
    else some {s with spu := .update w s.data}
  | .check w left =>
    if s.data.wait then
      some {s with spu := if left=0 then .isStopped w s.data else .check w (left-1)}
    else some (s.wrote w)
  | .isStopped w state => some {s with spu := if stopped then .abort w else .waitOn w state}
  | .waitOn w state =>
    some {s with spu := if upper s.data = upper state then .asleep w else .check w 0}
  | .asleep w => if stopped then some {s with spu := .check w 0} else none
  | .abort w =>
    if s.data.wait then some {s with data := {s.data with wait := false}, spu := .aborted w}
    else some (s.wrote w)

/-- The SPU starts a channel write, the same one again if it was aborted. -/
def callSpu (s : State τ) (w : Write) : Option (State τ) :=
  match s.spu with
  | .idle => some {s with spu := .load w}
  | .aborted v => if v=w then some {s with spu := .load w} else none
  | _ => none

end PushWait

section Pop

def State.go (s : State τ) (t : τ) (l : Loc) : State τ := {s with loc := Function.update s.loc t l}

def State.finish (s : State τ) (t : τ) (old : Data) : State τ :=
  { s with
    loc := Function.update s.loc t .idle
    finished := Function.update s.finished t (s.finished t++[old]) }

/-- `data & ~(bit_count | bit_occupy | bit_wait)` -/
def emptied (data : Data) : Data := ⟨false,false,false,data.value⟩

/-- The word that the update of a pop has loaded decides whether it reads `jostling_value`. -/
def loaded (old : Data) : Loc :=
  if old.count ∧ old.occupy then .read old else .exchange old (emptied old)

def SpuLoc.awaken : SpuLoc → SpuLoc
  | .asleep w => .check w 0
  | l => l

def advance (s : State τ) (t : τ) : Option (State τ) :=
  match s.loc t with
  | .idle => none
  | .load => some (s.go t (loaded s.data))
  | .read old => some (s.go t (.exchange old (.full s.jostlingValue.low)))
  | .exchange old new =>
    if s.data=old then
      let taken := {s with data := new, pops := s.pops++[(t,old)]}
      some (if old.wait then taken.go t (.notify old) else taken.finish t old)
    else some (s.go t (loaded s.data))
  | .notify old => some (State.finish {s with spu := s.spu.awaken} t old)

def call (s : State τ) (t : τ) : Option (State τ) :=
  if s.loc t = .idle then some (s.go t .load) else none

end Pop

inductive Step (s : State τ) : State τ → Prop
  | callSpu {w : Write} {s' : State τ} (h : callSpu s w = some s') : Step s s'
  | spu {stopped : Bool} {s' : State τ} (h : advanceSpu s stopped = some s') : Step s s'
  | call {t : τ} {s' : State τ} (h : call s t = some s') : Step s s'
  | pop {t : τ} {s' : State τ} (h : advance s t = some s') : Step s s'

/-- The pop is about to install a value that is not the one an SPU waits to write: nobody
waits, or the value was read before the SPU left another. -/
def Stale (s : State τ) (t : τ) : Prop :=
  ∃ old new, s.loc t = .exchange old new ∧ s.data=old ∧ old.count=true ∧ old.occupy=true ∧
    ¬(old.wait=true ∧ new = .full s.jostlingValue.low)

inductive FreshStep (s : State τ) : State τ → Prop
  | callSpu {w : Write} {s' : State τ} (h : callSpu s w = some s') : FreshStep s s'
  | spu {stopped : Bool} {s' : State τ} (h : advanceSpu s stopped = some s') : FreshStep s s'
  | call {t : τ} {s' : State τ} (h : call s t = some s') : FreshStep s s'
  | pop {t : τ} {s' : State τ} (hfresh : ¬Stale s t) (h : advance s t = some s') : FreshStep s s'

def Reachable (s : State τ) : Prop := Relation.ReflTransGen Step (initial τ) s

def FreshReachable (s : State τ) : Prop := Relation.ReflTransGen FreshStep (initial τ) s

open Schedule

variable {τ : Type*} {s s' : State τ} {t u : τ}

section Spec

def popped (pops : List (τ × Data)) : List UInt32 :=
  ((pops.map Prod.snd).filter Data.count).map Data.value

def content (data : Data) : List UInt32 := if data.count then [data.value] else []

/-- The value of a channel write that waits, once it is in the channel. -/
def Write.pending (w : Write) (data : Data) : List UInt32 :=
  if w.push ∧ data.wait=false then [w.value] else []

def SpuLoc.pending (data : Data) : SpuLoc → List UInt32
  | .check w _ | .isStopped w _ | .waitOn w _ | .asleep w | .abort w => w.pending data
  | .idle | .aborted _ | .load _ | .update _ _ | .exchange _ _ => []

/-- Each written word is delivered once, in order. -/
def Delivered (s : State τ) : Prop :=
  popped s.pops++content s.data = s.written++s.spu.pending s.data

end Spec

section Invariant

/-- The word while the SPU does not wait. Only an aborted write leaves it occupied. -/
def Rests (data : Data) (w : Write) : Prop :=
  data.wait=false ∧ (data.occupy=true → w.push=true)

def Prepared (jostling : Jostling) (w : Write) (old : Data) : Prop :=
  if old.count then w.push=true → jostling = .value w.value else w.push=true

def Awaits (data : Data) (jostling : Jostling) (w : Write) : Prop :=
  if data.wait then
    data.count=true ∧ data.occupy=w.push ∧ (w.push=true → jostling = .value w.value)
  else data.occupy=false

def SpuFits (data : Data) (jostling : Jostling) : SpuLoc → Prop
  | .idle => data.wait=false ∧ data.occupy=false
  | .aborted w | .load w => Rests data w
  | .update w old => Rests data w ∧ old.wait=false
  | .exchange w old => Rests data w ∧ Prepared jostling w old
  | .check w _ | .isStopped w _ | .waitOn w _ | .asleep w | .abort w => Awaits data jostling w

def Loc.Fits : Loc → Prop
  | .read old => old.count=true ∧ old.occupy=true
  | .exchange old new =>
    if old.count ∧ old.occupy then ∃ v, new = .full v else new = emptied old
  | _ => True

def Loc.made : Loc → List Data
  | .notify old => [old]
  | _ => []

structure Inv [DecidableEq τ] (s : State τ) : Prop where
  spuFits : SpuFits s.data s.jostlingValue s.spu
  occupied : s.data.occupy=true → s.data.count=true
  fits : ∀ t, (s.loc t).Fits
  delivered : Delivered s
  history : ∀ t, entriesOf t s.pops = s.finished t++(s.loc t).made

theorem inv_initial [DecidableEq τ] : Inv (initial τ) where
  spuFits := ⟨rfl,rfl⟩
  occupied h := by cases h
  fits _ := trivial
  delivered := rfl
  history _ := rfl

end Invariant

section PushWait

variable [DecidableEq τ] {data : Data} {w : Write}

theorem pending_of_wait (hwait : data.wait) (w : Write) : w.pending data=[] := by
  simp [Write.pending,hwait]

theorem pushWaitUpdate_eq_some {old : Data} (h : pushWaitUpdate w old = some data) :
    (old.count ∧ data = {old with occupy := old.occupy || w.push, wait := true}) ∨
      (old.count=false ∧ w.push ∧ data = .full w.value) := by
  rw [pushWaitUpdate] at h
  split at h
  · next hcount =>
    cases h
    exact .inl ⟨hcount,rfl⟩
  · next hcount =>
    split at h
    · next hpush =>
      cases h
      exact .inr ⟨eq_false_of_ne_true hcount,hpush,rfl⟩
    · cases h

theorem prepared_update {old : Data} (h : pushWaitUpdate w old = some data) (jostling : Jostling) :
    Prepared (pushWaitJostling w old jostling) w old := by
  rcases pushWaitUpdate_eq_some h with ⟨hcount,-⟩ | ⟨hcount,hpush,-⟩
  · rw [Prepared,if_pos hcount,pushWaitJostling,if_pos hcount]
    intro hpush
    rw [if_pos hpush]
  · rw [Prepared,if_neg (by rw [hcount]; exact Bool.false_ne_true)]
    exact hpush

section

variable (h : Inv s)

include h

/-- A step of the SPU changes the two words, its location and what it has written. -/
theorem Inv.spuStep (data : Data) (jostling : Jostling) (l : SpuLoc) (written : List UInt32)
    (hfits : SpuFits data jostling l) (hoccupied : data.occupy → data.count)
    (hdelivered : popped s.pops++content s.data = s.written++s.spu.pending s.data →
      popped s.pops++content data = written++l.pending data) :
    Inv {s with data := data, jostlingValue := jostling, spu := l, written := written} where
  spuFits := hfits
  occupied := hoccupied
  __ := h
  delivered := hdelivered h.delivered

theorem Inv.spuGo (l : SpuLoc) (jostling : Jostling) (hfits : SpuFits s.data jostling l)
    (hpending : l.pending s.data = s.spu.pending s.data) :
    Inv {s with jostlingValue := jostling, spu := l} :=
  h.spuStep s.data jostling l s.written hfits h.occupied fun hdelivered =>
    hpending ▸ hdelivered

/-- `push_wait` returns `true` once the word shows no wait. -/
theorem Inv.returns (hpending : s.spu.pending s.data = w.pending s.data)
    (hfits : Awaits s.data s.jostlingValue w) (hwait : s.data.wait=false) : Inv (s.wrote w) := by
  have hoccupy : s.data.occupy=false := by
    rwa [Awaits,if_neg (by rw [hwait]; exact Bool.false_ne_true)] at hfits
  refine h.spuStep s.data s.jostlingValue .idle (if w.push then s.written++[w.value] else s.written)
    ⟨hwait,hoccupy⟩ h.occupied ?_
  intro hdelivered
  rw [hdelivered,hpending,Write.pending]
  cases w.push <;> simp [SpuLoc.pending,hwait]

theorem Inv.writeEmpty (hspu : s.spu.pending s.data=[]) (hpush : w.push)
    (hcount : s.data.count=false) : Inv (State.wrote {s with data := .full w.value} w) := by
  refine h.spuStep (.full w.value) s.jostlingValue .idle
    (if w.push then s.written++[w.value] else s.written) ⟨rfl,rfl⟩ (fun _ => rfl) ?_
  intro hdelivered
  simp only [content,hcount,Bool.false_eq_true,if_false,List.append_nil,hspu] at hdelivered
  simp [content,Data.full,hdelivered,hpush,SpuLoc.pending]

theorem Inv.startWait (hspu : s.spu.pending s.data=[]) (hrests : Rests s.data w)
    (hcount : s.data.count) (hprepared : w.push → s.jostlingValue = .value w.value) :
    Inv { s with
      data := {s.data with occupy := s.data.occupy || w.push, wait := true}, spu := .check w 9 } := by
  have hoccupy : (s.data.occupy || w.push)=w.push := by
    cases hoccupy : s.data.occupy with
    | false => rfl
    | true => exact (hrests.2 hoccupy).symm
  refine h.spuStep {s.data with occupy := s.data.occupy || w.push, wait := true} s.jostlingValue
    (.check w 9) s.written ?_ (fun _ => hcount) ?_
  · exact ⟨hcount,hoccupy,hprepared⟩
  · intro hdelivered
    rw [SpuLoc.pending,pending_of_wait rfl]
    rw [hspu] at hdelivered
    exact hdelivered

theorem Inv.giveUp (hpending : s.spu.pending s.data = w.pending s.data)
    (hfits : Awaits s.data s.jostlingValue w) (hwait : s.data.wait) :
    Inv {s with data := {s.data with wait := false}, spu := .aborted w} := by
  rw [Awaits,if_pos hwait] at hfits
  refine h.spuStep {s.data with wait := false} s.jostlingValue (.aborted w) s.written
    ⟨rfl,fun hoccupy => hfits.2.1 ▸ hoccupy⟩ h.occupied ?_
  intro hdelivered
  rw [hpending,pending_of_wait hwait] at hdelivered
  exact hdelivered

/-- A write that waits for a free channel only has found one. -/
theorem Inv.seesFree (hspu : s.spu.pending s.data=[]) (hrests : Rests s.data w)
    (hpush : w.push=false) : Inv (s.wrote w) := by
  have hoccupy : s.data.occupy=false := eq_false_of_ne_true fun hoccupy =>
    Bool.false_ne_true (hpush.symm.trans (hrests.2 hoccupy))
  refine h.spuStep s.data s.jostlingValue .idle (if w.push then s.written++[w.value] else s.written)
    ⟨hrests.1,hoccupy⟩ h.occupied ?_
  intro hdelivered
  rw [hpush,if_neg Bool.false_ne_true,hdelivered,hspu]
  rfl

theorem Inv.advanceSpu {stopped : Bool} (hadv : advanceSpu s stopped = some s') : Inv s' := by
  have hfits := h.spuFits
  rw [SpuOutMailbox.advanceSpu] at hadv
  split at hadv
  · cases hadv
  · cases hadv
  · next w hspu =>
    cases hadv
    rw [hspu] at hfits
    exact h.spuGo (.update w s.data) s.jostlingValue ⟨hfits,hfits.1⟩ (by rw [hspu]; rfl)
  · next w old hspu =>
    rw [hspu] at hfits
    split at hadv
    · next data hdata =>
      cases hadv
      exact h.spuGo (.exchange w old) (pushWaitJostling w old s.jostlingValue)
        ⟨hfits.1,prepared_update hdata _⟩ (by rw [hspu]; rfl)
    · next hnone =>
      have hpush : w.push=false := by
        rw [pushWaitUpdate] at hnone
        split at hnone
        · cases hnone
        · split at hnone
          · cases hnone
          · next hpush => exact eq_false_of_ne_true hpush
      rw [if_neg (by rw [hfits.2]; exact Bool.false_ne_true)] at hadv
      cases hadv
      exact h.seesFree (by rw [hspu]; rfl) hfits.1 hpush
  · next w old hspu =>
    rw [hspu] at hfits
    obtain ⟨hrests,hprepared⟩ := hfits
    have hpending : s.spu.pending s.data=[] := by
      rw [hspu]
      rfl
    split at hadv
    · next hdata =>
      subst hdata
      obtain ⟨data,hdata,rfl⟩ := Option.map_eq_some_iff.1 hadv
      rcases pushWaitUpdate_eq_some hdata with ⟨hcount,rfl⟩ | ⟨hcount,hpush,rfl⟩
      · rw [Prepared,if_pos hcount] at hprepared
        exact h.startWait hpending hrests hcount hprepared
      · exact h.writeEmpty hpending hpush hcount
    · cases hadv
      exact h.spuGo (.update w s.data) s.jostlingValue ⟨hrests,hrests.1⟩ hpending.symm
  · next w left hspu =>
    rw [hspu] at hfits
    split at hadv
    · cases hadv
      refine h.spuGo (if left=0 then .isStopped w s.data else .check w (left-1)) s.jostlingValue
        ?_ ?_
      · split
        · exact hfits
        · exact hfits
      · rw [hspu]
        split
        · rfl
        · rfl
    · next hwait =>
      cases hadv
      exact h.returns (by rw [hspu]; rfl) hfits (eq_false_of_ne_true hwait)
  · next w state hspu =>
    rw [hspu] at hfits
    cases hadv
    cases stopped with
    | true => exact h.spuGo (.abort w) s.jostlingValue hfits (by rw [hspu]; rfl)
    | false => exact h.spuGo (.waitOn w state) s.jostlingValue hfits (by rw [hspu]; rfl)
  · next w state hspu =>
    rw [hspu] at hfits
    cases hadv
    split
    · exact h.spuGo (.asleep w) s.jostlingValue hfits (by rw [hspu]; rfl)
    · exact h.spuGo (.check w 0) s.jostlingValue hfits (by rw [hspu]; rfl)
  · next w hspu =>
    rw [hspu] at hfits
    split at hadv
    · cases hadv
      exact h.spuGo (.check w 0) s.jostlingValue hfits (by rw [hspu]; rfl)
    · cases hadv
  · next w hspu =>
    rw [hspu] at hfits
    split at hadv
    · next hwait =>
      cases hadv
      exact h.giveUp (by rw [hspu]; rfl) hfits hwait
    · next hwait =>
      cases hadv
      exact h.returns (by rw [hspu]; rfl) hfits (eq_false_of_ne_true hwait)

theorem Inv.callSpu (hcall : callSpu s w = some s') : Inv s' := by
  have hfits := h.spuFits
  rw [SpuOutMailbox.callSpu] at hcall
  split at hcall
  · next hspu =>
    cases hcall
    rw [hspu] at hfits
    refine h.spuGo (.load w) s.jostlingValue ⟨hfits.1,?_⟩ (by rw [hspu]; rfl)
    intro hoccupy
    rw [hfits.2] at hoccupy
    cases hoccupy
  · next v hspu =>
    rw [hspu] at hfits
    split at hcall
    · next hv =>
      cases hcall
      subst hv
      exact h.spuGo (.load v) s.jostlingValue hfits (by rw [hspu]; rfl)
    · cases hcall
  · cases hcall

end

end PushWait

end PS3Native.SpuOutMailbox
