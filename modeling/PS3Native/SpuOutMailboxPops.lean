import PS3Native.SpuOutMailbox

/-!
# Pops from the outbound mailbox

A pop that finds the word that it has loaded takes the value of it. If an SPU waits, the pop
installs the value that the SPU has left; the channel is empty otherwise.
-/
namespace PS3Native.SpuOutMailbox
open Function List

open SpuChannel Schedule

variable {τ : Type*} [DecidableEq τ] {s s' : State τ} {t u : τ}

omit [DecidableEq τ] in
theorem popped_concat (pops : List (τ × Data)) (t : τ) (old : Data) :
    popped (pops++[(t,old)]) = popped pops++content old := by
  cases hcount : old.count <;> simp [popped,content,hcount]

theorem loaded_fits (data : Data) : (loaded data).Fits ∧ (loaded data).made=[] := by
  rw [loaded]
  split
  · next h => exact ⟨h,rfl⟩
  · next h =>
    refine ⟨?_,rfl⟩
    rw [Loc.Fits,if_neg h]

/-- A thread that has not made its pop goes on to a place where it has not either. -/
theorem Inv.go (h : Inv s) {l : Loc} (hfits : l.Fits) (hmade : (s.loc t).made=[])
    (hl : l.made=[]) : Inv (s.go t l) where
  __ := h
  fits := forall_update (P := Loc.Fits) h.fits hfits
  history := by
    intro u
    have hu := h.history u
    change entriesOf u s.pops = s.finished u++(update s.loc t l u).made
    by_cases hut : u=t
    · subst hut
      rw [update_self,hl,hu,hmade]
    · rw [update_of_ne hut,hu]

def State.took (s : State τ) (t : τ) (new : Data) : State τ :=
  let taken := {s with data := new, pops := s.pops++[(t,s.data)]}
  if s.data.wait then taken.go t (.notify s.data) else taken.finish t s.data

theorem history_took (h : Inv s) (hmade : (s.loc t).made=[]) (new : Data) (u : τ) :
    entriesOf u (s.took t new).pops = (s.took t new).finished u++((s.took t new).loc u).made := by
  have hu := h.history u
  by_cases hut : u=t
  · subst hut
    rw [hmade,append_nil] at hu
    rw [State.took]
    split <;> simp [State.go,State.finish,entriesOf_append,entriesOf_self,hu,Loc.made]
  · rw [State.took]
    split <;> simp [State.go,State.finish,entriesOf_append,entriesOf_of_ne hut,hu,update_of_ne hut]

theorem took_frame (s : State τ) (t : τ) (new : Data) :
    (s.took t new).data=new ∧ (s.took t new).jostlingValue=s.jostlingValue ∧
      (s.took t new).spu=s.spu ∧ (s.took t new).written=s.written ∧
      (s.took t new).pops = s.pops++[(t,s.data)] := by
  rw [State.took]
  split <;> exact ⟨rfl,rfl,rfl,rfl,rfl⟩

theorem took_fits (h : Inv s) (new : Data) (u : τ) : ((s.took t new).loc u).Fits := by
  rw [State.took]
  split
  · exact forall_update (P := Loc.Fits) h.fits (l := .notify s.data) trivial u
  · exact forall_update (P := Loc.Fits) h.fits (l := .idle) trivial u

theorem delivered_took_iff (new : Data) : Delivered (s.took t new) ↔
    popped s.pops++content s.data++content new = s.written++s.spu.pending new := by
  obtain ⟨hdata,-,hspu,hwritten,hpops⟩ := took_frame s t new
  rw [Delivered,hdata,hspu,hwritten,hpops,popped_concat]

variable {new : Data}

theorem Inv.took (h : Inv s) (hmade : (s.loc t).made=[])
    (hfits : SpuFits new s.jostlingValue s.spu) (hoccupied : new.occupy → new.count)
    (hdelivered : s.written++s.spu.pending s.data++content new = s.written++s.spu.pending new) :
    Inv (s.took t new) where
  spuFits := by
    obtain ⟨hdata,hjostling,hspu,-⟩ := took_frame s t new
    rwa [hdata,hjostling,hspu]
  occupied := by rwa [(took_frame s t new).1]
  fits := took_fits h new
  delivered := by
    have hold := h.delivered
    rw [Delivered] at hold
    rw [delivered_took_iff,hold,hdelivered]
  history := history_took h hmade new

def SpuLoc.Waiting (l : SpuLoc) (w : Write) : Prop :=
  (∀ data jostling, SpuFits data jostling l ↔ Awaits data jostling w) ∧
    ∀ data, l.pending data = w.pending data

def SpuLoc.Quiet (l : SpuLoc) : Prop :=
  (∀ data jostling, SpuFits data jostling l → data.wait=false ∧
    ∀ new : Data, new.wait=false → new.occupy=false → SpuFits new jostling l) ∧
    ∀ data, l.pending data=[]

theorem rests_of_free {data : Data} (hwait : data.wait=false) (hoccupy : data.occupy=false)
    (w : Write) : Rests data w :=
  ⟨hwait,fun h => absurd (hoccupy.symm.trans h) Bool.false_ne_true⟩

theorem SpuLoc.waiting_or_quiet (l : SpuLoc) : (∃ w, l.Waiting w) ∨ l.Quiet := by
  cases l with
  | check w _ | isStopped w _ | waitOn w _ | asleep w | abort w =>
    exact .inl ⟨w,fun _ _ => Iff.rfl,fun _ => rfl⟩
  | idle => exact .inr ⟨fun _ _ h => ⟨h.1,fun _ hwait hoccupy => ⟨hwait,hoccupy⟩⟩,fun _ => rfl⟩
  | aborted w | load w =>
    exact .inr ⟨fun _ _ h => ⟨h.1,fun _ hwait hoccupy => rests_of_free hwait hoccupy w⟩,fun _ => rfl⟩
  | update w _ | exchange w _ =>
    exact .inr ⟨fun _ _ h => ⟨h.1.1,fun _ hwait hoccupy => ⟨rests_of_free hwait hoccupy w,h.2⟩⟩,
      fun _ => rfl⟩

theorem Inv.waiting_of_wait (h : Inv s) (hwait : s.data.wait) :
    ∃ w, s.spu.Waiting w ∧ s.data.count ∧ s.data.occupy=w.push ∧
      (w.push → s.jostlingValue = .value w.value) := by
  rcases s.spu.waiting_or_quiet with ⟨w,hw⟩ | hquiet
  · have hfits := (hw.1 _ _).1 h.spuFits
    rw [Awaits,if_pos hwait] at hfits
    exact ⟨w,hw,hfits⟩
  · exact absurd (hquiet.1 _ _ h.spuFits).1 (by rw [hwait]; rintro ⟨⟩)

theorem Inv.install (h : Inv s) (hmade : (s.loc t).made=[]) (hoccupy : s.data.occupy)
    (hwait : s.data.wait) : Inv (s.took t (.full s.jostlingValue.low)) := by
  obtain ⟨w,hw,-,hpush,hvalue⟩ := h.waiting_of_wait hwait
  rw [hoccupy] at hpush
  rw [hvalue hpush.symm]
  refine h.took hmade ((hw.1 _ _).2 rfl) (fun _ => rfl) ?_
  rw [hw.2,hw.2,pending_of_wait hwait]
  simp [content,Write.pending,← hpush,Data.full,Jostling.low]

theorem Inv.empties (h : Inv s) (hmade : (s.loc t).made=[]) (hoccupy : s.data.occupy=false) :
    Inv (s.took t (emptied s.data)) := by
  have hcontent : content (emptied s.data)=[] := rfl
  rcases s.spu.waiting_or_quiet with ⟨w,hw⟩ | hquiet
  · refine h.took hmade ((hw.1 _ _).2 rfl) (by rintro ⟨⟩) ?_
    rw [hw.2,hw.2,hcontent,append_nil]
    cases hwait : s.data.wait with
    | false => simp [Write.pending,hwait,emptied]
    | true =>
      have hfits := (hw.1 _ _).1 h.spuFits
      rw [Awaits,if_pos hwait,hoccupy] at hfits
      simp [Write.pending,← hfits.2.1]
  · refine h.took hmade ((hquiet.1 _ _ h.spuFits).2 _ rfl rfl) (by rintro ⟨⟩) ?_
    rw [hquiet.2,hquiet.2,hcontent,append_nil]

/-- A pop that installs a stale value loses the pending one, or delivers one that no channel
write has written. -/
theorem not_delivered_of_stale (h : Inv s) {v : UInt32} (hoccupy : s.data.occupy)
    (hstale : ¬(s.data.wait ∧ v=s.jostlingValue.low)) : ¬Delivered (s.took t (.full v)) := by
  have hdelivered := h.delivered
  rw [delivered_took_iff,hdelivered]
  have hfull : content (.full v) = [v] := rfl
  cases hwait : s.data.wait with
  | true =>
    obtain ⟨w,hw,-,hpush,hvalue⟩ := h.waiting_of_wait hwait
    rw [hoccupy] at hpush
    rw [hvalue hpush.symm] at hstale
    have hne : v≠w.value := fun hv => hstale ⟨hwait,hv⟩
    rw [hw.2,hw.2,pending_of_wait hwait,hfull]
    simpa [Write.pending,← hpush,Data.full] using hne
  | false =>
    rcases s.spu.waiting_or_quiet with ⟨w,hw⟩ | hquiet
    · have hfits := (hw.1 _ _).1 h.spuFits
      rw [Awaits,if_neg (by rw [hwait]; exact Bool.false_ne_true),hoccupy] at hfits
      cases hfits
    · rw [hquiet.2,hquiet.2,hfull]
      simp

omit [DecidableEq τ] in
theorem stale_iff (hloc : s.loc t = .exchange s.data new) :
    Stale s t ↔ (s.data.count ∧ s.data.occupy) ∧
      ¬(s.data.wait ∧ new = .full s.jostlingValue.low) := by
  constructor
  · rintro ⟨old,new',hloc',rfl,hcount,hoccupy,hstale⟩
    rw [hloc] at hloc'
    cases hloc'
    exact ⟨⟨hcount,hoccupy⟩,hstale⟩
  · rintro ⟨⟨hcount,hoccupy⟩,hstale⟩
    exact ⟨s.data,new,hloc,rfl,hcount,hoccupy,hstale⟩

/-- A pop that finds the word that it has loaded keeps the invariant, or breaks the delivery. -/
theorem Inv.exchange (h : Inv s) (hloc : s.loc t = .exchange s.data new) :
    (Stale s t ∧ ¬Delivered (s.took t new)) ∨ (¬Stale s t ∧ Inv (s.took t new)) := by
  have hfits := h.fits t
  have hmade : (s.loc t).made=[] := by
    rw [hloc]
    rfl
  rw [hloc,Loc.Fits] at hfits
  rw [stale_iff hloc]
  split at hfits
  · next hfull =>
    obtain ⟨v,rfl⟩ := hfits
    have hvalue : Data.full v = .full s.jostlingValue.low ↔ v=s.jostlingValue.low := by
      simp [Data.full]
    rw [hvalue]
    by_cases hfresh : s.data.wait ∧ v=s.jostlingValue.low
    · obtain ⟨hwait,rfl⟩ := hfresh
      exact .inr ⟨fun hstale => hstale.2 ⟨hwait,rfl⟩,h.install hmade hfull.2 hwait⟩
    · exact .inl ⟨⟨hfull,hfresh⟩,not_delivered_of_stale h hfull.2 hfresh⟩
  · next hfull =>
    have hoccupy : s.data.occupy=false :=
      eq_false_of_ne_true fun hoccupy => hfull ⟨h.occupied hoccupy,hoccupy⟩
    subst hfits
    exact .inr ⟨fun hstale => hfull hstale.1,h.empties hmade hoccupy⟩

omit [DecidableEq τ] in
theorem not_stale {l : Loc} (hloc : s.loc t=l) (hne : ∀ new, l≠.exchange s.data new) :
    ¬Stale s t := by
  rintro ⟨old,new,hloc',rfl,-⟩
  exact hne new (hloc.symm.trans hloc')

theorem spuFits_awaken (data : Data) (jostling : Jostling) (l : SpuLoc) :
    SpuFits data jostling l.awaken ↔ SpuFits data jostling l := by
  cases l <;> exact Iff.rfl

theorem pending_awaken (data : Data) (l : SpuLoc) : l.awaken.pending data = l.pending data := by
  cases l <;> rfl

theorem Inv.notifySpu (h : Inv s) {old : Data} (hloc : s.loc t = .notify old) :
    Inv (State.finish {s with spu := s.spu.awaken} t old) where
  spuFits := by
    have hfits := h.spuFits
    change SpuFits s.data s.jostlingValue s.spu.awaken
    rwa [spuFits_awaken]
  occupied := h.occupied
  fits := forall_update (P := Loc.Fits) h.fits (l := .idle) trivial
  delivered := by
    have hdelivered := h.delivered
    change popped s.pops++content s.data = s.written++s.spu.awaken.pending s.data
    rwa [pending_awaken]
  history := by
    intro u
    have hu := h.history u
    change entriesOf u s.pops = update s.finished t (s.finished t++[old]) u ++
      (update s.loc t .idle u).made
    by_cases hut : u=t
    · subst hut
      rw [update_self,update_self,hu,hloc]
      exact (append_nil _).symm
    · rw [update_of_ne hut,update_of_ne hut,hu]

/-- A step of a pop keeps the invariant unless it is stale, and then it breaks the delivery. -/
theorem Inv.advance (h : Inv s) (hadv : advance s t = some s') :
    (Stale s t ∧ ¬Delivered s') ∨ (¬Stale s t ∧ Inv s') := by
  obtain ⟨hfits,hmade⟩ := loaded_fits s.data
  cases hloc : s.loc t with
  | idle =>
    rw [SpuOutMailbox.advance,hloc] at hadv
    cases hadv
  | load =>
    rw [SpuOutMailbox.advance,hloc] at hadv
    cases hadv
    exact .inr ⟨not_stale hloc (by rintro new ⟨⟩),h.go hfits (by rw [hloc]; rfl) hmade⟩
  | read old =>
    have hold := h.fits t
    rw [hloc,Loc.Fits] at hold
    rw [SpuOutMailbox.advance,hloc] at hadv
    cases hadv
    refine .inr ⟨not_stale hloc (by rintro new ⟨⟩),h.go ?_ (by rw [hloc]; rfl) rfl⟩
    rw [Loc.Fits,if_pos hold]
    exact ⟨_,rfl⟩
  | exchange old new =>
    by_cases hdata : s.data=old
    · subst hdata
      simp only [SpuOutMailbox.advance,hloc,if_true] at hadv
      cases hadv
      exact h.exchange hloc
    · simp only [SpuOutMailbox.advance,hloc,if_neg hdata] at hadv
      cases hadv
      refine .inr ⟨not_stale hloc ?_,h.go hfits (by rw [hloc]; rfl) hmade⟩
      rintro new' ⟨⟩
      exact hdata rfl
  | notify old =>
    rw [SpuOutMailbox.advance,hloc] at hadv
    cases hadv
    exact .inr ⟨not_stale hloc (by rintro new ⟨⟩),h.notifySpu hloc⟩

theorem Inv.step (h : Inv s) (hstep : FreshStep s s') : Inv s' := by
  cases hstep with
  | callSpu hcall => exact h.callSpu hcall
  | spu hadv => exact h.advanceSpu hadv
  | @call t _ hcall =>
    rw [SpuOutMailbox.call] at hcall
    split at hcall
    · next hloc =>
      cases hcall
      exact h.go (l := .load) trivial (by rw [hloc]; rfl) rfl
    · cases hcall
  | pop hfresh hadv => exact ((h.advance hadv).resolve_left fun hstale => hfresh hstale.1).2

theorem FreshReachable.inv (h : FreshReachable s) : Inv s := by
  induction h with
  | refl => exact inv_initial
  | tail _ hstep ih => exact ih.step hstep

/-- In a run without stale installs each written word is delivered once and in order, whatever
was aborted; the pops are those that have returned and those that are about to; and a step of
a pop keeps the delivery if and only if it is not stale. -/
theorem out_mailbox_delivers (h : FreshReachable s) :
    Delivered s ∧ (∀ t, entriesOf t s.pops = s.finished t++(s.loc t).made) ∧
      ∀ t s', advance s t = some s' → (Delivered s' ↔ ¬Stale s t) := by
  have hinv := h.inv
  refine ⟨hinv.delivered,hinv.history,?_⟩
  intro t s' hadv
  rcases hinv.advance hadv with ⟨hstale,hbroken⟩ | ⟨hfresh,hinv'⟩
  · exact iff_of_false hbroken (not_not_intro hstale)
  · exact iff_of_true hinv'.delivered hfresh

section Schedule

inductive Choice (τ : Type*)
  | callSpu (w : Write)
  | spu (stopped : Bool)
  | call (t : τ)
  | pop (t : τ)

def take (s : State τ) : Choice τ → Option (State τ)
  | .callSpu w => callSpu s w
  | .spu stopped => advanceSpu s stopped
  | .call t => call s t
  | .pop t => advance s t

def fresh (s : State τ) : Choice τ → Bool
  | .pop t =>
    match s.loc t with
    | .exchange old new =>
      !(s.data = old && old.count && old.occupy) || (old.wait && new = .full s.jostlingValue.low)
    | _ => true
  | _ => true

theorem step_of_take (s : State τ) (c : Choice τ) (s' : State τ) (h : take s c = some s') :
    Step s s' := by
  cases c with
  | callSpu w => exact .callSpu h
  | spu stopped => exact .spu h
  | call t => exact .call h
  | pop t => exact .pop h

omit [DecidableEq τ] in
theorem not_stale_of_fresh (h : fresh s (.pop t)) : ¬Stale s t := by
  rintro ⟨old,new,hloc,hdata,hcount,hoccupy,hstale⟩
  simp [fresh,hloc,hdata,hcount,hoccupy] at h
  exact hstale h

theorem freshStep_of_take (s : State τ) (c : Choice τ) (s' : State τ)
    (h : guarded fresh take s c = some s') : FreshStep s s' := by
  obtain ⟨hfresh,htake⟩ := guarded_eq_some h
  cases c with
  | callSpu w => exact .callSpu htake
  | spu stopped => exact .spu htake
  | call t => exact .call htake
  | pop t => exact .pop (not_stale_of_fresh hfresh) htake

end Schedule

inductive Worker
  | first
  | second
  deriving DecidableEq

/-- The SPU looks ten times, is stopped and gives up its channel write. -/
def aborts : List (Choice Worker) := List.replicate 10 (.spu false)++[.spu true,.spu true]

/-- A channel write whose word finds its place at once or that starts to wait. -/
def writes (value : UInt32) : List (Choice Worker) :=
  [.callSpu ⟨value,true⟩,.spu false,.spu false,.spu false]

/-- The SPU writes 1, is stopped while it waits to write 2, and writes 2 again. -/
def abortedSchedule : List (Choice Worker) :=
  writes 1++writes 2++aborts++writes 2 ++
    [.call .first,.pop .first,.pop .first,.pop .first,.pop .first,.spu false]

theorem out_mailbox_delivers_aborted :
    ∃ s : State Worker, Delivered s ∧ s.written = [1,2] ∧ popped s.pops = [1] ∧ s.data = .full 2 := by
  have hrun : ((run (guarded fresh take) (initial Worker) abortedSchedule).map fun s =>
      (s.written,popped s.pops,s.data)) = some ([1,2],[1],.full 2) := by decide
  obtain ⟨s,hreach,hEq⟩ := exists_of_run freshStep_of_take hrun
  simp only [Prod.mk.injEq] at hEq
  exact ⟨s,(out_mailbox_delivers hreach).1,hEq⟩

def pops (t : Worker) (steps : ℕ) : List (Choice Worker) := .call t::List.replicate steps (.pop t)

/-- Two pops come between the abort and the second execution of the write of 2. -/
def abortedPopSchedule : List (Choice Worker) :=
  writes 1++writes 2++aborts++pops .first 3++pops .first 2

/-- The first thread has read the pending value when the second one installs it, and the SPU
writes another one. -/
def staleReadSchedule : List (Choice Worker) :=
  writes 1++writes 1++[.call .first,.pop .first,.pop .first]++pops .second 4 ++
    [.spu false]++writes 2++[.pop .first,.spu false]++pops .second 2

theorem out_mailbox_delivers_wrong_words :
    (∃ s : State Worker, Reachable s ∧ s.spu = .aborted ⟨2,true⟩ ∧ s.written = [1] ∧
      popped s.pops = [1,2]) ∧
    ∃ s : State Worker, Reachable s ∧ s.spu=.idle ∧ s.written = [1,1,2] ∧
      popped s.pops = [1,1,1] := by
  have haborted : ((run take (initial Worker) abortedPopSchedule).map fun s =>
      (s.spu,s.written,popped s.pops)) = some (.aborted ⟨2,true⟩,[1],[1,2]) := by decide
  have hstale : ((run take (initial Worker) staleReadSchedule).map fun s =>
      (s.spu,s.written,popped s.pops)) = some (.idle,[1,1,2],[1,1,1]) := by decide
  obtain ⟨s₁,hreach₁,hEq₁⟩ := exists_of_run step_of_take haborted
  obtain ⟨s₂,hreach₂,hEq₂⟩ := exists_of_run step_of_take hstale
  simp only [Prod.mk.injEq] at hEq₁ hEq₂
  exact ⟨⟨s₁,hreach₁,hEq₁⟩,s₂,hreach₂,hEq₂⟩

end PS3Native.SpuOutMailbox
