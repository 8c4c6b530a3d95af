import PS3Native.CellSyncRwm

/-!
# `CellSyncRwm` excludes writers and reads whole records

A write that is stopped while it waits for the readers leaves `writers` set without a holder.
-/
namespace PS3Native.CellSyncRwm
open Interleaving History Function

variable {τ : Type*} {size : BitVec 32}

inductive Writer
  | waiting
  | copying (data : List Byte) (copied : ℕ)

def writerRole : Pc → Option Writer
  | .writeWait _ => some .waiting
  | .copyIn data copied => some (.copying data copied)
  | _ => none

def reading : Pc → Bool
  | .copyOut _ => true
  | _ => false

def PcOk (size : BitVec 32) : Pc → Prop
  | .writeLoop data | .writeWait data | .tryWrite data => data.length=size.toNat
  | _ => True

structure Simulates [Fintype τ] (size : BitVec 32) (start : List Byte) (s : State τ)
    (value : List Byte) (w : Option (τ × Writer)) : Prop where
  history : replay register start (transfers s.log) = some value
  noAbort : .failed (.error .abort)∉s.log
  writer : Holds writerRole s.thread w
  writer_flag : w≠none → s.shared.ctrl.writers = 1#16
  readers : s.shared.ctrl.readers.toNat = count reading s.thread
  copying : ∀ t data copied, w = some (t,.copying data copied) →
    s.shared.ctrl.readers = 0#16 ∧ data.length=size.toNat ∧
      ∀ i < copied, data[i]? = some (s.shared.buffer i)
  stable : (∀ t data copied, w≠some (t,.copying data copied)) →
    value = record size s.shared.buffer
  length : value.length=size.toNat
  reads : ∀ t copied, s.thread t = .copyOut copied → copied = value.take copied.length
  pcs : ∀ t, PcOk size (s.thread t)

theorem transfers_append (xs ys : List Event) : transfers (xs++ys) = transfers xs++transfers ys :=
  List.filterMap_append

namespace Simulates
variable [Fintype τ] [DecidableEq τ] {start value : List Byte} {s : State τ}
  {w : Option (τ × Writer)} {t : τ}

omit [DecidableEq τ] in
theorem writer_eq_none (h : Simulates size start s value w)
    (hfree : s.shared.ctrl.writers = 0#16) : w=none := by
  by_contra hw
  rw [h.writer_flag hw] at hfree
  cases hfree

omit [DecidableEq τ] in
theorem not_copying (h : Simulates size start s value w) (ht : reading (s.thread t))
    (u : τ) (data : List Byte) (copied : ℕ) : w≠some (u,.copying data copied) := by
  intro hw
  have hzero := (h.copying u data copied hw).1
  have hpos := count_pos ht
  rw [← h.readers,hzero] at hpos
  exact absurd hpos (by decide)

omit [DecidableEq τ] in
theorem log_nil (h : Simulates size start s value w) :
    replay register start (transfers (s.log++[])) = some value ∧
      Event.failed (.error .abort)∉s.log++[] := by
  rw [List.append_nil]
  exact ⟨h.history,h.noAbort⟩

variable {data : List Byte}

section

variable (h : Simulates size start s value w)

include h

theorem reads_update {pc : Pc}
    (hpc : ∀ copied, pc = .copyOut copied → copied = value.take copied.length) (u : τ)
    (copied : List Byte) (hu : update s.thread t pc u = .copyOut copied) :
    copied = value.take copied.length := by
  by_cases htu : u=t
  · subst htu
    exact hpc copied (by simpa using hu)
  · rw [update_of_ne htu] at hu
    exact h.reads u copied hu

theorem quiet {pc : Pc} {events : List Event} (hevents : transfers events=[])
    (habort : .failed (.error .abort)∉events) (hw : writerRole pc = writerRole (s.thread t))
    (hr : reading pc = reading (s.thread t)) (hpc : PcOk size pc)
    (hcopied : ∀ copied, pc = .copyOut copied → copied = value.take copied.length) :
    Simulates size start (s.move t s.shared pc events) value w where
  history := by
    rw [System.move_log,transfers_append,hevents,List.append_nil]
    exact h.history
  noAbort := by
    rw [System.move_log,List.mem_append,not_or]
    exact ⟨h.noAbort,habort⟩
  writer := h.writer.keep hw
  __ := h
  readers := h.readers.trans (count_keep hr).symm
  reads := h.reads_update hcopied
  pcs := forall_update h.pcs hpc

theorem readBegin (hcard : Fintype.card τ < 65536) {blocking : Bool}
    (hpc : s.thread t = .readLoop blocking) (hfree : s.shared.ctrl.writers = 0#16) :
    Simulates size start (s.move t { s.shared with
      ctrl := {s.shared.ctrl with readers := s.shared.ctrl.readers+1#16} } (.copyOut []) [])
      value w := by
  obtain rfl := h.writer_eq_none hfree
  have hout : reading (s.thread t)=false := by rw [hpc]; rfl
  have hlt := count_lt_card hout
  refine ⟨h.log_nil.1,h.log_nil.2,h.writer.keep (by rw [hpc]; rfl),by simp,?_,by simp,
    h.stable,h.length,h.reads_update (by rintro _ ⟨⟩; simp),forall_update h.pcs trivial⟩
  rw [System.move_thread,count_enter hout rfl,← h.readers]
  have := h.readers
  simp only [System.move_shared,BitVec.toNat_add,BitVec.toNat_ofNat]
  omega

theorem readByte {copied : List Byte} (hpc : s.thread t = .copyOut copied)
    (hlt : copied.length < size.toNat) :
    Simulates size start (s.move t s.shared
      (.copyOut (copied++[s.shared.buffer copied.length])) []) value w := by
  refine h.quiet rfl (by simp) (by rw [hpc]; rfl) (by rw [hpc]; rfl) trivial ?_
  rintro _ ⟨⟩
  have hstable := h.stable (h.not_copying (t := t) (by rw [hpc]; rfl))
  have hbound : copied.length < value.length := h.length ▸ hlt
  have hbyte : value[copied.length] = s.shared.buffer copied.length := by
    simp [hstable,record]
  rw [List.length_append,List.length_singleton,List.take_succ_eq_append_getElem hbound,
    ← h.reads t copied hpc,hbyte]

/-- The reader count is not zero when a read ends, so it does not abort. -/
theorem readEnd {copied : List Byte} (hpc : s.thread t = .copyOut copied)
    (hend : ¬copied.length < size.toNat) :
    s.shared.ctrl.readers≠0#16 ∧
    Simulates size start (s.move t { s.shared with
      ctrl := {s.shared.ctrl with readers := s.shared.ctrl.readers-1#16} } .idle
      [.read copied]) value w := by
  have hin : reading (s.thread t) := by rw [hpc]; rfl
  have hpos : 0 < s.shared.ctrl.readers.toNat := h.readers ▸ count_pos hin
  have hvalue : value=copied := by
    have hcopied := h.reads t copied hpc
    rw [List.take_of_length_le (by rw [h.length]; omega)] at hcopied
    exact hcopied.symm
  refine ⟨fun h₀ => by simp [h₀] at hpos,?_,?_,h.writer.keep (by rw [hpc]; rfl),
    h.writer_flag,?_,?_,h.stable,h.length,h.reads_update (by simp),
    forall_update h.pcs trivial⟩
  · rw [System.move_log,transfers_append]
    refine (replay_concat h.history (.read copied)).trans ?_
    simp [register,hvalue]
  · simpa using h.noAbort
  · have hleave : count reading (update s.thread t .idle)+1 = count reading s.thread :=
      count_leave hin rfl
    rw [← h.readers] at hleave
    simp only [System.move_shared,System.move_thread,BitVec.toNat_sub,BitVec.toNat_ofNat]
    omega
  · exact fun u data i hw => absurd hw (h.not_copying hin u data i)

theorem writeBegin (hpc : s.thread t = .writeLoop data) (hfree : s.shared.ctrl.writers = 0#16) :
    ∃ w, Simulates size start (s.move t { s.shared with
      ctrl := {s.shared.ctrl with writers := 1#16} } (.writeWait data) []) value w := by
  obtain rfl := h.writer_eq_none hfree
  have hdata := h.pcs t
  rw [hpc] at hdata
  exact ⟨some (t,.waiting),h.log_nil.1,h.log_nil.2,h.writer.change (by simp) (.writeWait data),
    fun _ => rfl,h.readers.trans (count_keep (by rw [hpc]; rfl)).symm,by simp,
    fun _ => h.stable (by simp),h.length,h.reads_update (by simp),forall_update h.pcs hdata⟩

theorem writeReady (hpc : s.thread t = .writeWait data) (hzero : s.shared.ctrl.readers = 0#16) :
    ∃ w, Simulates size start (s.move t s.shared (.copyIn data 0) []) value w := by
  obtain rfl := h.writer.eq_of_role (t := t) (by rw [hpc]; rfl)
  have hdata := h.pcs t
  rw [hpc] at hdata
  refine ⟨some (t,.copying data 0),h.log_nil.1,h.log_nil.2,
    h.writer.change (by simp) (.copyIn data 0),fun _ => h.writer_flag (by simp),
    h.readers.trans (count_keep (by rw [hpc]; rfl)).symm,?_,fun hno => absurd rfl (hno t data 0),
    h.length,h.reads_update (by simp),forall_update h.pcs trivial⟩
  rintro u d i ⟨⟩
  exact ⟨hzero,hdata,by simp⟩

/-- A write that is stopped while it waits keeps `writers` set for good. -/
theorem writeStop (hpc : s.thread t = .writeWait data) :
    ∃ w, Simulates size start (s.move t s.shared .idle [.failed .stopped]) value w := by
  obtain rfl := h.writer.eq_of_role (t := t) (by rw [hpc]; rfl)
  refine ⟨none,?_,?_,h.writer.change (by simp) .idle,by simp,
    h.readers.trans (count_keep (by rw [hpc]; rfl)).symm,by simp,fun _ => h.stable (by simp),
    h.length,h.reads_update (by simp),forall_update h.pcs trivial⟩
  · rw [System.move_log,transfers_append]
    exact (List.append_nil _).symm ▸ h.history
  · simpa using h.noAbort

theorem tryWriteBegin (hpc : s.thread t = .tryWrite data) (hfree : s.shared.ctrl = ⟨0#16,0#16⟩) :
    ∃ w, Simulates size start (s.move t {s.shared with ctrl := ⟨0#16,1#16⟩} (.copyIn data 0) [])
      value w := by
  obtain rfl := h.writer_eq_none (by rw [hfree])
  have hdata := h.pcs t
  rw [hpc] at hdata
  refine ⟨some (t,.copying data 0),h.log_nil.1,h.log_nil.2,
    h.writer.change (by simp) (.copyIn data 0),fun _ => rfl,?_,?_,
    fun hno => absurd rfl (hno t data 0),h.length,h.reads_update (by simp),
    forall_update h.pcs trivial⟩
  · have hkeep : count reading (update s.thread t (.copyIn data 0)) =
        count reading s.thread := count_keep (by rw [hpc]; rfl)
    rw [System.move_thread,hkeep,← h.readers,hfree]
    rfl
  · rintro u d i ⟨⟩
    exact ⟨rfl,hdata,by simp⟩

theorem writeByte {i : ℕ} {b : Byte} (hpc : s.thread t = .copyIn data i) (hb : data[i]? = some b) :
    ∃ w, Simulates size start (s.move t { s.shared with
      buffer := update s.shared.buffer i b } (.copyIn data (i+1)) []) value w := by
  obtain rfl := h.writer.eq_of_role (t := t) (by rw [hpc]; rfl)
  obtain ⟨hzero,hdata,hbytes⟩ := h.copying _ _ _ rfl
  refine ⟨some (t,.copying data (i+1)),h.log_nil.1,h.log_nil.2,
    h.writer.change (by simp) (.copyIn data (i+1)),fun _ => h.writer_flag (by simp),
    h.readers.trans (count_keep (by rw [hpc]; rfl)).symm,?_,
    fun hno => absurd rfl (hno t data (i+1)),h.length,h.reads_update (by simp),
    forall_update h.pcs trivial⟩
  rintro u d j ⟨⟩
  refine ⟨hzero,hdata,fun k hk => ?_⟩
  by_cases hki : k=i
  · subst hki
    simp [hb]
  · simp only [System.move_shared,update_of_ne hki]
    exact hbytes k (by omega)

theorem writeEnd {i : ℕ} (hpc : s.thread t = .copyIn data i) (hend : data[i]? = none) :
    ∃ value w, Simulates size start (s.move t {s.shared with ctrl := ⟨0#16,0#16⟩} .idle
      [.write data]) value w := by
  obtain rfl := h.writer.eq_of_role (t := t) (by rw [hpc]; rfl)
  obtain ⟨hzero,hdata,hbytes⟩ := h.copying _ _ _ rfl
  have hle := List.getElem?_eq_none_iff.mp hend
  have hcount := h.readers
  rw [hzero] at hcount
  refine ⟨data,none,?_,?_,h.writer.change (by simp) .idle,by simp,
    hcount.trans (count_keep (by rw [hpc]; rfl)).symm,by simp,fun _ => ?_,hdata,?_,
    forall_update h.pcs trivial⟩
  · rw [System.move_log,transfers_append]
    exact replay_concat h.history (.write data)
  · simpa using h.noAbort
  · refine List.ext_getElem? fun k => ?_
    by_cases hk : k < data.length
    · rw [hbytes k (by omega)]
      simp [record,hdata ▸ hk]
    · rw [List.getElem?_eq_none_iff.mpr (by omega),List.getElem?_eq_none_iff.mpr]
      simp only [record,List.length_map,List.length_range]
      omega
  · intro u copied hu
    by_cases htu : u=t
    · subst htu
      simp at hu
    · rw [System.move_thread,update_of_ne htu] at hu
      have hnot := count_eq_zero hcount.symm u
      rw [hu] at hnot
      cases hnot

end

end Simulates

section Program
variable [Fintype τ] [DecidableEq τ] {start : List Byte}

theorem program_simulates (hcard : Fintype.card τ < 65536) (s : State τ) (t : τ) (input : Input)
    (m : Memory) (pc : Pc) (events : List Event) (hs : ∃ value w, Simulates size start s value w)
    (hstep : program size s.shared (s.thread t) input = some (m,pc,events)) :
    ∃ value w, Simulates size start (s.move t m pc events) value w := by
  obtain ⟨value,w,h⟩ := hs
  have hdata := h.pcs t
  have hquiet : ∀ {pc events}, transfers events=[] → .failed (.error .abort)∉events →
      writerRole pc = writerRole (s.thread t) → reading pc=false → reading (s.thread t)=false →
      PcOk size pc → ∃ value w, Simulates size start (s.move t s.shared pc events) value w := by
    intro pc events hevents habort hw hpc ht hok
    refine ⟨_,_,h.quiet hevents habort hw (hpc.trans ht.symm) hok ?_⟩
    rintro copied rfl
    cases hpc
  cases input with
  | read blocking =>
    cases hpc : s.thread t with
    | idle =>
      simp only [hpc,program] at hstep hquiet
      cases hstep
      exact hquiet rfl (by simp) rfl rfl rfl trivial
    | _ => simp [hpc,program] at hstep
  | write blocking data =>
    cases hpc : s.thread t with
    | idle =>
      simp only [hpc,program] at hstep hquiet
      split_ifs at hstep with hlen
      all_goals
        cases hstep
        exact hquiet rfl (by simp) rfl rfl rfl hlen
    | _ => simp [hpc,program] at hstep
  | step stopped =>
    cases hpc : s.thread t with
    | idle => simp [hpc,program] at hstep
    | readLoop blocking =>
      simp only [hpc,program,tryReadBegin] at hstep hquiet
      by_cases hfree : s.shared.ctrl.writers = 0#16
      · rw [if_neg (not_not.mpr hfree)] at hstep
        cases hstep
        exact ⟨_,_,h.readBegin hcard hpc hfree⟩
      · split_ifs at hstep
        all_goals
          cases hstep
          exact hquiet rfl (by simp) rfl rfl rfl trivial
    | copyOut copied =>
      simp only [hpc,program,tryReadEnd] at hstep
      by_cases hlt : copied.length < size.toNat
      · rw [if_pos hlt] at hstep
        cases hstep
        exact ⟨_,_,h.readByte hpc hlt⟩
      · obtain ⟨hne,hnext⟩ := h.readEnd hpc hlt
        rw [if_neg hlt,if_neg hne] at hstep
        cases hstep
        exact ⟨_,_,hnext⟩
    | writeLoop data =>
      simp only [hpc,program,CellSyncRwm.tryWriteBegin] at hstep hquiet hdata
      by_cases hfree : s.shared.ctrl.writers = 0#16
      · rw [if_neg (not_not.mpr hfree)] at hstep
        cases hstep
        exact ⟨_,h.writeBegin hpc hfree⟩
      · rw [if_pos hfree] at hstep
        split_ifs at hstep
        · cases hstep
          exact hquiet rfl (by simp) rfl rfl rfl trivial
        · cases hstep
          exact hquiet rfl (by simp) rfl rfl rfl hdata
    | writeWait data =>
      simp only [hpc,program] at hstep hquiet hdata
      split_ifs at hstep with hzero hstop
      · cases hstep
        exact ⟨_,h.writeReady hpc hzero⟩
      · cases hstep
        exact ⟨_,h.writeStop hpc⟩
      · cases hstep
        exact hquiet rfl (by simp) rfl rfl rfl hdata
    | tryWrite data =>
      simp only [hpc,program,compareAndSwapTest] at hstep hquiet
      split_ifs at hstep with hfree
      · cases hstep
        exact ⟨_,h.tryWriteBegin hpc hfree⟩
      · cases hstep
        exact hquiet rfl (by simp) rfl rfl rfl trivial
    | copyIn data i =>
      simp only [hpc,program] at hstep
      cases hb : data[i]? with
      | some b =>
        rw [hb] at hstep
        cases hstep
        exact ⟨_,h.writeByte hpc hb⟩
      | none =>
        rw [hb] at hstep
        cases hstep
        exact h.writeEnd hpc hb

omit [DecidableEq τ] in
theorem initial_simulates (bytes : ℕ → Byte) :
    Simulates size (record size bytes) (initial τ bytes) (record size bytes) none where
  history := rfl
  noAbort := by simp [initial]
  writer _ _ := by simp [initial,writerRole]
  writer_flag := by simp
  readers := by simp [initial,count,reading]
  copying := by simp
  stable _ := rfl
  length := by simp [record]
  reads := by simp [initial]
  pcs _ := trivial

/-- In every run of fewer than 65536 threads no two copies overlap when one of them writes
the buffer, the completed reads and writes are a legal register history from the initial
contents on, and no read aborts. -/
theorem rwm_excludes_writers {τ : Type*} [Fintype τ] [DecidableEq τ]
    (hcard : Fintype.card τ < 65536) (size : BitVec 32) (bytes : ℕ → Byte)
    {schedule : List (τ × Input)} {s : State τ}
    (hrun : run (program size) (initial τ bytes) schedule = some s) :
    (∀ t u data i, s.thread t = .copyIn data i → u≠t →
      (∀ data' j, s.thread u≠.copyIn data' j) ∧ ∀ copied, s.thread u≠.copyOut copied) ∧
    (∃ value, replay register (record size bytes) (transfers s.log) = some value) ∧
    Event.failed (.error .abort)∉s.log := by
  obtain ⟨value,w,h⟩ :=
    run_invariant (program_simulates hcard) ⟨_,_,initial_simulates bytes⟩ hrun
  refine ⟨fun t u data i ht hne => ⟨fun data' j hu => ?_,fun copied hu => ?_⟩,
    ⟨value,h.history⟩,h.noAbort⟩
  · have hw := h.writer.eq_of_role (t := t) (by rw [ht]; rfl)
    have hw' := h.writer.eq_of_role (t := u) (by rw [hu]; rfl)
    rw [hw] at hw'
    exact hne (congrArg Prod.fst (Option.some.inj hw')).symm
  · have hw := h.writer.eq_of_role (t := t) (by rw [ht]; rfl)
    exact h.not_copying (t := u) (by rw [hu]; rfl) t data i hw

/-- A write waits for a reader, a second read is refused meanwhile and later sees the
write. -/
theorem rwm_excludes_writers_three_threads : let schedule : List (Fin 3 × Input) :=
      [(0,.read true),(0,.step false),(1,.write true [5]),(1,.step false),
        (1,.step false),(2,.read false),(2,.step false),(0,.step false),
        (0,.step false),(1,.step false),(1,.step false),(1,.step false),
        (2,.read false),(2,.step false),(2,.step false),(2,.step false)]
    ∃ s : State (Fin 3), run (program 1) (initial (Fin 3) fun _ => 0) schedule = some s ∧
      s.log = [.failed (.error .busy),.read [0],.write [5],.read [5]] ∧
      (∀ t u data i, s.thread t = .copyIn data i → u≠t →
        (∀ data' j, s.thread u≠.copyIn data' j) ∧ ∀ copied, s.thread u≠.copyOut copied) ∧
      (∃ value, replay register (record 1 fun _ => 0) (transfers s.log) = some value) ∧
      Event.failed (.error .abort)∉s.log := by
  intro schedule
  obtain ⟨s,hrun,hlog⟩ : ∃ s : State (Fin 3),
      run (program 1) (initial (Fin 3) fun _ => 0) schedule = some s ∧
      s.log = [.failed (.error .busy),.read [0],.write [5],.read [5]] := ⟨_,rfl,rfl⟩
  exact ⟨s,hrun,hlog,rwm_excludes_writers (by decide) 1 _ hrun⟩

end Program

end PS3Native.CellSyncRwm
