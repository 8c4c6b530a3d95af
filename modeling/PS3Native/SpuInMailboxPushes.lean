import PS3Native.SpuInMailboxFifo

/-!
# Pushes to the inbound mailbox

A push that finds no SPU waiting for a value adds one to the queue. It hands the value over
otherwise, and ends the wait; there is a wait to end whenever it gets there.
-/
namespace PS3Native.SpuInMailbox

open History List

variable {s s' : State}

theorem spuFits_of_made {values : Values} {jostling : Jostling} {pusher : Loc} {l : SpuLoc}
    (h : SpuFits values jostling pusher l) (hmade : pusher.made=[]) (pusher' : Loc) :
    SpuFits values jostling pusher' l := by
  have hwait : ∀ popValue, WaitFits values jostling pusher popValue →
      WaitFits values jostling pusher' popValue := by
    rintro popValue ⟨hoccupy,hvalue⟩
    refine ⟨hoccupy,fun hpop => ?_⟩
    have hvalue := hvalue hpop
    split at hvalue
    · next hset =>
      rw [if_pos hset]
      refine .inl (hvalue.resolve_right ?_)
      rintro ⟨v,old,rfl,-⟩
      cases hmade
    · next hset =>
      rwa [if_neg hset]
  cases l with
  | check popValue _ | waitOn popValue | reload popValue => exact hwait popValue h
  | idle | load _ | update _ _ | exchange _ _ _ | take => exact h

theorem spuFits_congr {values values' : Values} (hwait : values'.wait=values.wait)
    (hoccupy : values'.occupy=values.occupy) {jostling : Jostling} {pusher : Loc} {l : SpuLoc}
    (h : SpuFits values jostling pusher l) : SpuFits values' jostling pusher l := by
  cases l with
  | check popValue _ | waitOn popValue | reload popValue =>
    rw [SpuFits,WaitFits] at h ⊢
    rwa [hwait,hoccupy]
  | idle | load _ | update _ _ | exchange _ _ _ | take => exact h

variable {v : UInt32}

section

variable (h : Inv s) (hmade : s.pusher.made=[])

include h hmade

theorem Inv.go {l : Loc} (value3 : UInt32) (hfits : PusherFits s.values s.jostlingValue l)
    (hl : l.made=[]) : Inv {s with pusher := l, value3 := value3} where
  __ := h
  spuFits := spuFits_of_made h.spuFits hmade l
  pusherFits := hfits
  pushes := by
    have hpushes := h.pushes
    rw [hmade] at hpushes
    rw [hl]
    exact hpushes

/-- An SPU that waits for a value holds its flag up until a push has handed one over. -/
theorem Inv.flag_of_occupy (hoccupy : s.values.occupy) :
    s.values.wait ∧ s.jostlingValue=.flag := by
  have hwait : s.values.wait := by
    cases hwait : s.values.wait with
    | true => rfl
    | false => exact (h.flags hwait).symm.trans hoccupy
  refine ⟨hwait,?_⟩
  obtain ⟨popValue,hpop⟩ := Option.isSome_iff_exists.1 (h.waits hwait).1
  have hfits := (spuFits_of_waiting hpop).1 h.spuFits
  have hvalue := hfits.2 ((hfits.1 hwait).symm.trans hoccupy)
  rw [if_pos hwait] at hvalue
  refine hvalue.resolve_right ?_
  rintro ⟨v,old,hpusher,-⟩
  rw [hpusher] at hmade
  cases hmade

theorem Inv.loaded (v : UInt32) : Inv {s with pusher := loaded v s.values} := by
  refine h.go hmade s.value3 ?_ ?_
  · rw [SpuInMailbox.loaded]
    split
    · next hoccupy =>
      obtain ⟨hwait,hflag⟩ := h.flag_of_occupy hmade hoccupy
      exact ⟨hwait,hwait,hoccupy,hflag⟩
    · next hoccupy => exact eq_false_of_ne_true hoccupy
  · rw [SpuInMailbox.loaded]
    split
    · rfl
    · rfl

theorem Inv.update (hoccupy : s.values.occupy=false) {l : Loc} {pushed : List UInt32}
    (hfits : PusherFits (pushUpdate v s.values) s.jostlingValue l)
    (hpushed : pushed++l.made = s.pushed++[v]) :
    Inv { s with
      values := pushUpdate v s.values
      pusher := l
      log := s.log++[.push v]
      pushed := pushed
      fourth := if 3 ≤ s.values.count then v else s.fourth
      updates := s.updates+1 } := by
  obtain ⟨hcount,hwait,hoccupy'⟩ := count_pushUpdate v h.count
  have hpushes := h.pushes
  rw [hmade,append_nil] at hpushes
  exact
    { legal := (replay_concat h.legal (.push v)).trans (contents_push h.count s.fourth v)
      count := hcount
      flags := fun _ => hoccupy'.trans hoccupy
      waits := fun hset => ⟨(h.waits (hwait.symm.trans hset)).1,
        fun hset => absurd ((hoccupy'.trans hoccupy).symm.trans hset) Bool.false_ne_true⟩
      spuFits := spuFits_of_made (spuFits_congr hwait hoccupy' h.spuFits) hmade l
      pusherFits := hfits
      pops := by
        rw [poppedOf_append]
        exact (append_nil _).trans h.pops
      pushes := by
        rw [pushedOf_append,hpushes]
        exact hpushed.symm }

theorem Inv.place (hoccupy : s.values.occupy=false) :
    Inv (State.placed { s with
      values := pushUpdate v s.values
      log := s.log++[.push v]
      fourth := if 3 ≤ s.values.count then v else s.fourth
      updates := s.updates+1 } v s.values) := by
  obtain ⟨-,hwait,hoccupy'⟩ := count_pushUpdate v h.count
  rw [State.placed]
  split
  · next hset =>
    refine h.update hmade hoccupy (l := .reset v s.values) ⟨hwait.trans hset,fun hset => ?_⟩ rfl
    exact absurd ((hoccupy'.trans hoccupy).symm.trans hset) Bool.false_ne_true
  · exact h.update hmade hoccupy (l := .idle) trivial (append_nil _)

end

/-- The value is handed to the SPU that waits: it is pushed and popped at once. -/
theorem Inv.handOver (h : Inv s) {old : Values} (hpusher : s.pusher = .jostle v old) :
    Inv (State.placed { s with
      jostlingValue := .value v
      log := s.log++[.push v,.pop v] } v old) := by
  have hfits := h.pusherFits
  rw [hpusher] at hfits
  obtain ⟨hold,hwait,hoccupy,hflag⟩ := hfits
  obtain ⟨hsome,hempty⟩ := h.waits hwait
  obtain ⟨popValue,hpop⟩ := Option.isSome_iff_exists.1 hsome
  have hwaitFits := (spuFits_of_waiting hpop).1 h.spuFits
  have htrue : popValue := (hwaitFits.1 hwait).symm.trans hoccupy
  have hpops := h.pops
  have hpushes := h.pushes
  rw [handed_of_waiting hpop,htrue,if_pos rfl,hflag] at hpops
  rw [hpusher] at hpushes
  have hcontents := contents_empty (hempty hoccupy) s.fourth
  rw [State.placed,if_pos hold]
  exact
    { legal := by
        have hpush : boundedQueue 4 (contents s.values s.fourth) (.push v) = some [v] := by
          rw [hcontents]
          rfl
        have hlog : s.log++[.push v,.pop v] = s.log++[.push v]++[.pop v] := by simp
        change replay (boundedQueue 4) [] (s.log++[.push v,.pop v]) = some (contents s.values s.fourth)
        rw [hlog,replay_concat ((replay_concat h.legal _).trans hpush),hcontents]
        simp [boundedQueue,queue]
      count := h.count
      flags := h.flags
      waits := h.waits
      spuFits := by
        refine (spuFits_of_waiting hpop).2 ⟨hwaitFits.1,fun _ => ?_⟩
        rw [if_pos hwait]
        exact .inr ⟨v,old,rfl,rfl⟩
      pusherFits := ⟨hwait,fun _ => rfl⟩
      pops := by
        change poppedOf (s.log++[.push v,.pop v]) = s.results++handed s.spu (.value v)
        rw [handed_of_waiting hpop,htrue,if_pos rfl,poppedOf_append,hpops]
        simp [handed,poppedOf]
      pushes := by
        change pushedOf (s.log++[.push v,.pop v]) = s.pushed++[v]
        rw [pushedOf_append,hpushes]
        simp [Loc.made,pushedOf] }

theorem Inv.endWait (h : Inv s) {old : Values} (hpusher : s.pusher = .reset v old) :
    Inv (State.finish {s with values := {s.values with wait := false, occupy := false}} v) := by
  have hfits := h.pusherFits
  rw [hpusher] at hfits
  obtain ⟨hwait,hvalue⟩ := hfits
  obtain ⟨popValue,hpop⟩ := Option.isSome_iff_exists.1 (h.waits hwait).1
  have hwaitFits := (spuFits_of_waiting hpop).1 h.spuFits
  have hpushes := h.pushes
  rw [hpusher] at hpushes
  exact
    { legal := h.legal
      count := h.count
      flags := fun _ => rfl
      waits := by rintro ⟨⟩
      spuFits := by
        refine (spuFits_of_waiting hpop).2 ⟨by rintro ⟨⟩,fun htrue => ?_⟩
        exact ⟨v,hvalue ((hwaitFits.1 hwait).trans htrue)⟩
      pusherFits := trivial
      pops := h.pops
      pushes := hpushes.trans (append_nil _).symm }

theorem Inv.advance (h : Inv s) (hadv : advance s = some s') : Inv s' := by
  have hfits := h.pusherFits
  rw [SpuInMailbox.advance] at hadv
  split at hadv
  · cases hadv
  · next v hpusher =>
    cases hadv
    exact h.go (by rw [hpusher]; rfl) v (l := .load v) trivial rfl
  · next v hpusher =>
    cases hadv
    exact h.loaded (by rw [hpusher]; rfl) v
  · next v old hpusher =>
    rw [hpusher] at hfits
    split at hadv
    · next hvalues =>
      cases hadv
      subst hvalues
      exact h.place (by rw [hpusher]; rfl) hfits
    · cases hadv
      exact h.loaded (by rw [hpusher]; rfl) v
  · next v old hpusher =>
    rw [hpusher] at hfits
    rw [if_pos hfits.2.2.2] at hadv
    cases hadv
    exact h.handOver hpusher
  · next v old hpusher =>
    rw [hpusher] at hfits
    rw [if_pos hfits.1] at hadv
    cases hadv
    exact h.endWait hpusher
  · cases hadv

theorem Inv.step (h : Inv s) (hstep : WholeStep s s') : Inv s' := by
  cases hstep with
  | callSpu hcall =>
    rw [callSpu] at hcall
    split at hcall
    · next hspu =>
      cases hcall
      exact h.quiet (by rw [hspu]; trivial) (l := .load _) trivial trivial
    · cases hcall
  | spu hwhole hadv => exact h.advanceSpu hwhole hadv
  | call hcall =>
    rw [call] at hcall
    split at hcall
    · next hpusher =>
      cases hcall
      exact h.go (by rw [hpusher]; rfl) s.value3 (l := .store _) trivial rfl
    · cases hcall
  | push hadv => exact h.advance hadv

theorem WholeReachable.inv (h : WholeReachable s) : Inv s := by
  induction h with
  | refl => exact inv_initial
  | tail _ hstep ih => exact ih.step hstep

end PS3Native.SpuInMailbox
