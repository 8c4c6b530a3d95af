import PS3Native.CellSyncQueueLayout

/-!
# `CellSyncQueue` is a FIFO under every interleaving

A clear that is stopped between its two loops leaves `_pop` set without a holder, so a set flag
does not imply that there is one.
-/
namespace PS3Native.CellSyncQueue
open Interleaving History RingSlots

variable {τ : Type*} [DecidableEq τ] {cfg : Config}

def writerRole : Pc → Option Writer
  | .copyIn position data copied => some (.push position data copied)
  | .clearStore => some .clear
  | _ => none

def readerRole : Pc → Option Reader
  | .copyOut peek position copied => some (.read peek position copied)
  | .clearLoop => some .clear
  | .clearStore => some .clear
  | _ => none

def PcOk (cfg : Config) : Pc → Prop
  | .check op => op.fits cfg=true
  | .loop op => op.fits cfg=true
  | .thrown => False
  | _ => True

structure Simulates (cfg : Config) (s : State τ) (contents : List (List Byte))
    (w : Option (τ × Writer)) (r : Option (τ × Reader)) : Prop where
  history : replay queue [] s.log = some contents
  writer : Holds writerRole s.thread w
  reader : Holds readerRole s.thread r
  push_flag : w≠none → s.shared.ctrl.push = 1#8
  pop_flag : r≠none → s.shared.ctrl.pop = 1#8
  layout : Layout cfg s.shared contents (w.map Prod.snd) (r.map Prod.snd)
  pcs : ∀ t, PcOk cfg (s.thread t)

theorem given_le (w : Option Writer) : given w ≤ 1 := by
  rcases w with _ | ⟨_ | _⟩ <;> simp [given]

theorem taken_le (r : Option Reader) : taken r ≤ 1 := by
  unfold taken
  split <;> simp

namespace Simulates
variable {s : State τ} {contents : List (List Byte)} {w : Option (τ × Writer)}
  {r : Option (τ × Reader)} {t : τ}

omit [DecidableEq τ] in
theorem given_le_push (h : Simulates cfg s contents w r) :
    given (w.map Prod.snd) ≤ s.shared.ctrl.push.toNat := by
  cases w with
  | none => exact Nat.zero_le _
  | some holder =>
    rw [h.push_flag (by simp)]
    exact given_le _

omit [DecidableEq τ] in
theorem taken_le_pop (h : Simulates cfg s contents w r) :
    taken (r.map Prod.snd) ≤ s.shared.ctrl.pop.toNat := by
  cases r with
  | none => exact Nat.zero_le _
  | some holder =>
    rw [h.pop_flag (by simp)]
    exact taken_le _

omit [DecidableEq τ] in
theorem writer_eq_none (h : Simulates cfg s contents w r) (hpush : s.shared.ctrl.push = 0#8) :
    w=none := by
  by_contra hw
  rw [h.push_flag hw] at hpush
  cases hpush

omit [DecidableEq τ] in
theorem reader_eq_none (h : Simulates cfg s contents w r) (hpop : s.shared.ctrl.pop = 0#8) :
    r=none := by
  by_contra hr
  rw [h.pop_flag hr] at hpop
  cases hpop

omit [DecidableEq τ] in
theorem in_range (h : Simulates cfg s contents w r) : s.shared.ctrl.next.toNat < cfg.depth.toNat ∧
      s.shared.ctrl.count.toNat ≤ cfg.depth.toNat := by
  have hc := h.layout.count_eq
  have hl := h.layout.len_le
  exact ⟨h.layout.next_lt,by omega⟩

omit [DecidableEq τ] in
theorem checkDepth_eq (h : Simulates cfg s contents w r) : checkDepth s.shared.ctrl cfg.depth := by
  obtain ⟨hnext,hcount⟩ := h.in_range
  simp only [checkDepth,BitVec.lt_def,gt_iff_lt,BitVec.toNat_setWidth,Bool.not_eq_true',
    Bool.or_eq_false_iff,decide_eq_false_iff_not]
  omega

variable {pc : Pc} {blocking : Bool} {data : List Byte} {position : BitVec 32}

theorem history_nil (h : Simulates cfg s contents w r) {m : Memory} :
    replay queue [] (s.move t m pc []).log = some contents := by
  rw [System.move_log,List.append_nil]
  exact h.history

theorem takePush (h : Simulates cfg s contents none r) {m : Memory} {role : Writer}
    (hw : writerRole pc = some role) (hr : readerRole pc = readerRole (s.thread t))
    (hpush : m.ctrl.push = 1#8) (hpop : m.ctrl.pop=s.shared.ctrl.pop)
    (hlayout : Layout cfg m contents (some role) (r.map Prod.snd)) (hpc : PcOk cfg pc) :
    Simulates cfg (s.move t m pc []) contents (some (t,role)) r where
  history := h.history_nil
  writer := by
    have := h.writer.change (t := t) (by simp) pc
    rwa [hw] at this
  reader := h.reader.keep hr
  push_flag _ := hpush
  pop_flag hr := hpop.trans (h.pop_flag hr)
  layout := hlayout
  pcs := forall_update h.pcs hpc

theorem takePop (h : Simulates cfg s contents w none) {m : Memory} {role : Reader}
    (hw : writerRole pc = writerRole (s.thread t)) (hr : readerRole pc = some role)
    (hpush : m.ctrl.push=s.shared.ctrl.push) (hpop : m.ctrl.pop = 1#8)
    (hlayout : Layout cfg m contents (w.map Prod.snd) (some role)) (hpc : PcOk cfg pc) :
    Simulates cfg (s.move t m pc []) contents w (some (t,role)) where
  history := h.history_nil
  writer := h.writer.keep hw
  reader := by
    have := h.reader.change (t := t) (by simp) pc
    rwa [hr] at this
  push_flag hw := hpush.trans (h.push_flag hw)
  pop_flag _ := hpop
  layout := hlayout
  pcs := forall_update h.pcs hpc

section

variable (h : Simulates cfg s contents w r)

include h

theorem quiet (hw : writerRole pc = writerRole (s.thread t))
    (hr : readerRole pc = readerRole (s.thread t)) (hpc : PcOk cfg pc) :
    Simulates cfg (s.move t s.shared pc []) contents w r where
  history := h.history_nil
  writer := h.writer.keep hw
  reader := h.reader.keep hr
  __ := h
  pcs := forall_update h.pcs hpc

theorem retry_quiet {op : Op} (hpc : s.thread t = .loop op) (stopped : Bool) :
    Simulates cfg (s.move t s.shared (retry blocking stopped op) []) contents w r := by
  have hop := h.pcs t
  rw [hpc] at hop
  refine h.quiet ?_ ?_ ?_
  all_goals cases blocking <;> cases stopped <;> simp [hpc,retry,writerRole,readerRole,PcOk]
  exact hop

theorem loop_step (hcfg : Admissible cfg) {op : Op} (hpc : s.thread t = .loop op) (stopped : Bool) :
    ∃ w r, Simulates cfg (s.move t (attempt cfg s.shared stopped op).1
      (attempt cfg s.shared stopped op).2 []) contents w r := by
  have hfits : op.fits cfg := by simpa [hpc,PcOk] using h.pcs t
  cases op with
  | push blocking data =>
    rw [attempt]
    cases hop : tryPushBegin s.shared.ctrl cfg.depth with
    | none => exact ⟨w,r,h.retry_quiet hpc stopped⟩
    | some result =>
      obtain ⟨hfree,-,-,hpush,hpop,-⟩ := tryPushBegin_spec hcfg.depth_lt h.in_range.1 hop
      obtain rfl := h.writer_eq_none hfree
      refine ⟨_,_,h.takePush rfl (by simp [hpc,readerRole]) hpush hpop ?_ trivial⟩
      exact h.layout.pushBegin hcfg h.taken_le_pop (by simpa [Op.fits] using hfits) hop
  | pop blocking =>
    rw [attempt]
    cases hop : tryPopBegin s.shared.ctrl cfg.depth with
    | none => exact ⟨w,r,h.retry_quiet hpc stopped⟩
    | some result =>
      obtain ⟨hfree,-,-,hpop,hpush,-⟩ :=
        tryPopBegin_spec hcfg.depth_lt h.in_range.1 h.in_range.2 hop
      obtain rfl := h.reader_eq_none hfree
      refine ⟨_,_,h.takePop (by simp [hpc,writerRole]) rfl hpush hpop ?_ trivial⟩
      exact h.layout.popBegin hcfg h.given_le_push hop
  | peek blocking =>
    rw [attempt]
    cases hop : tryPeekBegin s.shared.ctrl cfg.depth with
    | none => exact ⟨w,r,h.retry_quiet hpc stopped⟩
    | some result =>
      obtain ⟨position,ctrl⟩ := result
      obtain ⟨hfree,hlt,hpos,rfl⟩ := tryPeekBegin_spec hcfg.depth_lt h.in_range.1 h.in_range.2 hop
      obtain rfl := h.reader_eq_none hfree
      refine ⟨_,_,h.takePop (by simp [hpc,writerRole]) rfl rfl rfl ?_ trivial⟩
      exact h.layout.readBegin h.given_le_push hlt hpos rfl rfl
  | clear =>
    rw [attempt,tryClearBegin1]
    split_ifs with hbusy
    · exact ⟨w,r,h.retry_quiet hpc stopped⟩
    · obtain rfl := h.reader_eq_none (not_not.mp hbusy)
      refine ⟨_,_,h.takePop (by simp [hpc,writerRole]) rfl rfl rfl ?_ trivial⟩
      exact h.layout.reflag rfl rfl rfl rfl (fun _ _ _ => id) (by simp)

theorem copyIn_byte (hcfg : Admissible cfg) {copied : ℕ} {b : Byte}
    (hpc : s.thread t = .copyIn position data copied) (hb : data[copied]? = some b) :
    ∃ w r, Simulates cfg (s.move t { s.shared with
      buffer := Function.update s.shared.buffer (slotByte cfg position copied) b }
      (.copyIn position data (copied+1)) []) contents w r := by
  obtain rfl := h.writer.eq_of_role (t := t) (by rw [hpc]; rfl)
  refine ⟨some (t,.push position data (copied+1)),r,h.history_nil,?_,?_,
    fun _ => h.push_flag (by simp),h.pop_flag,h.layout.writeByte hcfg hb,
    forall_update h.pcs trivial⟩
  · exact h.writer.change (by simp) (.copyIn position data (copied+1))
  · exact h.reader.keep (by rw [hpc]; rfl)

theorem copyIn_end {copied : ℕ} (hpc : s.thread t = .copyIn position data copied)
    (hend : data[copied]? = none) :
    ∃ contents w r, Simulates cfg (s.move t {s.shared with ctrl := pushEnd s.shared.ctrl} .idle
      [.push data]) contents w r := by
  obtain rfl := h.writer.eq_of_role (t := t) (by rw [hpc]; rfl)
  refine ⟨contents++[data],none,r,?_,?_,?_,by simp,h.pop_flag,
    h.layout.pushEnd hend,forall_update h.pcs trivial⟩
  · exact replay_concat h.history (.push data)
  · exact h.writer.change (by simp) .idle
  · exact h.reader.keep (by rw [hpc]; rfl)

theorem copyOut_byte (hcfg : Admissible cfg) {peek : Bool} {copied : List Byte}
    (hpc : s.thread t = .copyOut peek position copied) (hlt : copied.length < cfg.size.toNat) :
    ∃ w r, Simulates cfg (s.move t s.shared (.copyOut peek position
      (copied++[s.shared.buffer (slotByte cfg (position%cfg.depth) copied.length)])) [])
      contents w r := by
  obtain rfl := h.reader.eq_of_role (t := t) (by rw [hpc]; rfl)
  exact ⟨w,_,h.history_nil,h.writer.keep (by rw [hpc]; rfl),h.reader.change (by simp) _,
    h.push_flag,fun _ => h.pop_flag (by simp),h.layout.readByte hcfg hlt,
    forall_update h.pcs trivial⟩

theorem copyOut_end {peek : Bool} {copied : List Byte}
    (hpc : s.thread t = .copyOut peek position copied) (hend : ¬copied.length < cfg.size.toNat) :
    ∃ contents w r, Simulates cfg (s.move t {s.shared with ctrl := popEnd s.shared.ctrl} .idle
      [if peek then .peek copied else .pop copied]) contents w r := by
  obtain rfl := h.reader.eq_of_role (t := t) (by rw [hpc]; rfl)
  have hhead := h.layout.copied_eq hend
  refine ⟨if peek then contents else contents.tail,w,none,?_,?_,h.reader.change (by simp) .idle,
    h.push_flag,by simp,?_,forall_update h.pcs trivial⟩
  · rw [System.move_log,replay_concat h.history]
    cases peek <;> simp [queue,hhead]
  · exact h.writer.keep (by rw [hpc]; rfl)
  · cases peek with
    | true => exact h.layout.reflag rfl rfl rfl rfl (fun _ _ _ => id) (by simp)
    | false => exact h.layout.popEnd

theorem clearLoop_take (hpc : s.thread t = .clearLoop) (hfree : s.shared.ctrl.push = 0#8) :
    ∃ w r, Simulates cfg (s.move t {s.shared with ctrl := {s.shared.ctrl with push := 1#8}}
      .clearStore []) contents w r := by
  obtain rfl := h.writer_eq_none hfree
  refine ⟨_,_,h.takePush rfl ?_ rfl rfl ?_ trivial⟩
  · simp [hpc,readerRole]
  · exact h.layout.reflag rfl rfl rfl rfl (by simp) (fun _ _ _ => id)

/-- A clear that is stopped in its second loop keeps `_pop` set for good. -/
theorem clearLoop_stop (hpc : s.thread t = .clearLoop) :
    ∃ w r, Simulates cfg (s.move t s.shared .idle []) contents w r := by
  obtain rfl := h.reader.eq_of_role (t := t) (by rw [hpc]; rfl)
  exact ⟨w,none,h.history_nil,h.writer.keep (by rw [hpc]; rfl),h.reader.change (by simp) .idle,
    h.push_flag,by simp,h.layout.reflag rfl rfl rfl rfl (fun _ _ _ => id) (by simp),
    forall_update h.pcs trivial⟩

theorem clearStore_step (hcfg : Admissible cfg) (hpc : s.thread t = .clearStore) :
    ∃ contents w r, Simulates cfg (s.move t {s.shared with ctrl := emptyCtrl} .idle [.clear])
      contents w r := by
  obtain rfl := h.reader.eq_of_role (t := t) (by rw [hpc]; rfl)
  obtain rfl := h.writer.eq_of_role (t := t) (by rw [hpc]; rfl)
  refine ⟨[],none,none,replay_concat h.history .clear,h.writer.change (by simp) .idle,
    h.reader.change (by simp) .idle,by simp,by simp,.empty hcfg _,forall_update h.pcs trivial⟩

end

end Simulates

theorem program_simulates (hcfg : Admissible cfg) (s : State τ) (t : τ) (input : Input) (m : Memory)
    (pc : Pc) (events : List Event) (hs : ∃ contents w r, Simulates cfg s contents w r)
    (hstep : program cfg s.shared (s.thread t) input = some (m,pc,events)) :
    ∃ contents w r, Simulates cfg (s.move t m pc events) contents w r := by
  obtain ⟨contents,w,r,h⟩ := hs
  cases input with
  | call op =>
    cases hpc : s.thread t with
    | idle =>
      simp only [hpc,program] at hstep
      split_ifs at hstep with hfits
      cases hstep
      exact ⟨_,_,_,h.quiet (by rw [hpc]; rfl) (by rw [hpc]; rfl) hfits⟩
    | _ => simp [hpc,program] at hstep
  | step stopped =>
    cases hpc : s.thread t with
    | idle => simp [hpc,program] at hstep
    | check op =>
      simp only [hpc,program,h.checkDepth_eq,if_true] at hstep
      cases hstep
      have hop := h.pcs t
      rw [hpc] at hop
      exact ⟨_,_,_,h.quiet (by rw [hpc]; rfl) (by rw [hpc]; rfl) hop⟩
    | loop op =>
      simp only [hpc,program] at hstep
      cases hstep
      exact ⟨contents,h.loop_step hcfg hpc stopped⟩
    | copyIn position data copied =>
      simp only [hpc,program] at hstep
      cases hb : data[copied]? with
      | some b =>
        rw [hb] at hstep
        cases hstep
        exact ⟨contents,h.copyIn_byte hcfg hpc hb⟩
      | none =>
        rw [hb] at hstep
        cases hstep
        exact h.copyIn_end hpc hb
    | copyOut peek position copied =>
      simp only [hpc,program] at hstep
      by_cases hlt : copied.length < cfg.size.toNat
      · rw [if_pos hlt] at hstep
        cases hstep
        exact ⟨contents,h.copyOut_byte hcfg hpc hlt⟩
      · rw [if_neg hlt] at hstep
        cases hstep
        exact h.copyOut_end hpc hlt
    | clearLoop =>
      simp only [hpc,program,tryClearBegin2] at hstep
      refine ⟨contents,?_⟩
      by_cases hfree : s.shared.ctrl.push = 0#8
      · simp only [hfree,ne_eq,not_true_eq_false,if_false] at hstep
        cases hstep
        exact h.clearLoop_take hpc hfree
      · simp only [ne_eq,hfree,not_false_eq_true,if_true] at hstep
        cases stopped with
        | true =>
          cases hstep
          exact h.clearLoop_stop hpc
        | false =>
          cases hstep
          exact ⟨w,r,h.quiet (by rw [hpc]; rfl) (by rw [hpc]; rfl) trivial⟩
    | clearStore =>
      simp only [hpc,program] at hstep
      cases hstep
      exact h.clearStore_step hcfg hpc
    | thrown => simp [hpc,program] at hstep

theorem initial_simulates (τ : Type*) (hcfg : Admissible cfg) (bytes : ℕ → Byte) :
    Simulates cfg (initial τ bytes) [] none none where
  history := rfl
  writer _ _ := by simp [initial,writerRole]
  reader _ _ := by simp [initial,readerRole]
  push_flag := by simp
  pop_flag := by simp
  layout := .empty hcfg bytes
  pcs _ := trivial

omit [DecidableEq τ] in
/-- A transfer out of the queue and one into it are at different slots. -/
theorem Simulates.slots_ne {s : State τ} {contents : List (List Byte)} {w : Option (τ × Writer)}
    {r : Option (τ × Reader)} (h : Simulates cfg s contents w r) {t u : τ}
    {peek : Bool} {position position' : BitVec 32} {copied data : List Byte} {i : ℕ}
    (ht : s.thread t = .copyOut peek position copied)
    (hu : s.thread u = .copyIn position' data i) : position%cfg.depth≠position' := by
  obtain rfl := h.reader.eq_of_role (t := t) (by rw [ht]; rfl)
  obtain rfl := h.writer.eq_of_role (t := u) (by rw [hu]; rfl)
  obtain ⟨hread,v,hv,-⟩ := h.layout.reading _ _ _ rfl
  obtain ⟨hwrite,-⟩ := h.layout.writing _ _ _ rfl
  intro heq
  rw [← heq,BitVec.toNat_umod,hread] at hwrite
  have hpos : 0 < contents.length := by
    cases contents with
    | nil => cases hv
    | cons => exact Nat.succ_pos _
  have := ringSlot_injective h.layout.next_lt h.layout.len_le (Nat.lt_add_right _ hpos)
    (Nat.lt_succ_self _) hwrite
  omega

/-- In every run on an initialised queue the completed calls are a legal FIFO history, no
slot is read while another thread writes it, and the control word stays in range, so that
`check_depth` never throws. -/
theorem queue_completes_fifo {τ : Type*} [DecidableEq τ] (cfg : Config)
    (hpos : 1 ≤ cfg.depth.toNat) (hmax : cfg.depth.toNat ≤ 0xFFFFFF)
    (hfits : cfg.depth.toNat*cfg.size.toNat ≤ 2^32) (bytes : ℕ → Byte)
    {schedule : List (τ × Input)} {s : State τ}
    (hrun : run (program cfg) (initial τ bytes) schedule = some s) :
    (∃ contents, replay queue [] s.log = some contents) ∧
    (∀ t u peek position copied position' data copied', s.thread t = .copyOut peek position copied →
      s.thread u = .copyIn position' data copied' → position%cfg.depth≠position') ∧
    s.shared.ctrl.next.toNat < cfg.depth.toNat ∧ s.shared.ctrl.count.toNat ≤ cfg.depth.toNat ∧
    ∀ t, s.thread t≠.thrown := by
  have hcfg : Admissible cfg := ⟨hpos,by omega,hfits⟩
  obtain ⟨contents,w,r,h⟩ := run_invariant (program_simulates hcfg)
    ⟨_,_,_,initial_simulates τ hcfg bytes⟩ hrun
  refine ⟨⟨contents,h.history⟩,fun _ _ _ _ _ _ _ _ ht hu => h.slots_ne ht hu,
    h.in_range.1,h.in_range.2,fun t ht => ?_⟩
  have hpc := h.pcs t
  rw [ht] at hpc
  exact hpc

/-- A pop that waits for a push in flight, and a peek that finds the pop in flight. -/
theorem queue_completes_fifo_two_threads : let schedule : List (Bool × Input) :=
      [(true,.call (.push true [7])),(true,.step false),(true,.step false),
        (false,.call (.pop true)),(false,.step false),(false,.step false),
        (true,.step false),(true,.step false),(false,.step false),(false,.step false),
        (true,.call (.peek false)),(true,.step false),(true,.step false),(false,.step false)]
    ∃ s : State Bool, run (program ⟨1,2⟩) (initial Bool fun _ => 0) schedule = some s ∧
      s.log = [.push [7],.pop [7]] ∧
      (∃ contents, replay queue [] s.log = some contents) ∧
      (∀ t u peek position copied position' data copied',
        s.thread t = .copyOut peek position copied →
        s.thread u = .copyIn position' data copied' → position%2#32≠position') ∧
      s.shared.ctrl.next.toNat < 2 ∧ s.shared.ctrl.count.toNat ≤ 2 ∧
      ∀ t, s.thread t≠.thrown := by
  intro schedule
  obtain ⟨s,hrun,hlog⟩ : ∃ s : State Bool,
      run (program ⟨1,2⟩) (initial Bool fun _ => 0) schedule = some s ∧
      s.log = [.push [7],.pop [7]] := ⟨_,rfl,rfl⟩
  exact ⟨s,hrun,hlog,queue_completes_fifo ⟨1,2⟩ (by decide) (by decide) (by decide) _ hrun⟩

end PS3Native.CellSyncQueue
