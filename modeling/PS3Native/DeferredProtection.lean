import PS3Native.AddressRange
import PS3Native.RegionOverlay

/-!
# The deferred page protection queue

The host memory manager of the RSX queues page protections instead of issuing them. The state is
the queue and the protections issued so far. A violated `ensure` is `none`, and every operation,
which runs under `g_mprotect_queue_lock`, is one step.
-/
namespace PS3Native.DeferredProtection
open RegionOverlay

inductive Protection
  | rw | ro | no | wx | rx
  deriving DecidableEq, Repr

abbrev Range := AddressRange 64

structure MMBlock where
  range : Range
  prot : Protection
  syncTag : BitVec 64
  deriving DecidableEq, Repr

def MMBlock.merge (block : MMBlock) (other : Range) : MMBlock where
  range := AddressRange.startEnd (AddressRange.minAddr block.range.start other.start)
    (AddressRange.maxAddr block.range.last other.last)
  prot := block.prot
  syncTag := block.syncTag

def MMBlock.invalidated (block : MMBlock) : MMBlock :=
  {block with range := block.range.invalidate}

structure MMState where
  queue : List MMBlock
  issued : BitVec 64 → Protection

structure MMConfig where
  /-- `g_cfg.video.disable_async_host_memory_manager` -/
  disableAsync : Bool
  /-- The host address of `vm::base(0)`. -/
  vmBase : BitVec 64
  pageShift : ℕ

/-- `get_page_size()` -/
def MMConfig.pageSize (cfg : MMConfig) : ℕ := 2^cfg.pageShift

/-- `utils::memory_protect` where it calls `mprotect`, address by address: the pages from that of
the pointer to that of the last byte. A call of size `0` does nothing. -/
def memoryProtect (cfg : MMConfig) (pointer size : BitVec 64) (prot : Protection) :
    Patch (BitVec 64) Protection where
  region a := size.toNat≠0 && pointer.toNat/cfg.pageSize ≤ a.toNat/cfg.pageSize &&
    a.toNat/cfg.pageSize*cfg.pageSize < pointer.toNat+size.toNat
  value := prot

/-- The two cursors of the source compact the valid blocks in place. -/
def mmSanitizeQueueInternal (queue : List MMBlock) : List MMBlock :=
  queue.filter (fun block => block.range.valid)

def protectBlocks (cfg : MMConfig) :
    List MMBlock → (BitVec 64 → Protection) → Option (BitVec 64 → Protection)
  | [], issued => some issued
  | block::rest, issued =>
    if block.range.valid then
      protectBlocks cfg rest
        ((memoryProtect cfg block.range.start block.range.length block.prot).apply issued)
    else none

def mmFlushMprotectQueueInternal (cfg : MMConfig) (s : MMState) (count : ℕ) : Option MMState :=
  (protectBlocks cfg (s.queue.take count) s.issued).map fun issued =>
    if s.queue.length-count=0 then ⟨[],issued⟩
    else ⟨mmSanitizeQueueInternal
      ((s.queue.take count).map MMBlock.invalidated++s.queue.drop count),issued⟩

/-- Reverse scan for the latest conflict. The result is a count of prefix blocks. -/
def mmFindConflictInternal (predicate : MMBlock → Bool) (queue : List MMBlock) : ℕ :=
  scan queue.length
where
  scan : ℕ → ℕ
    | 0 => 0
    | i+1 => if (queue[i]?).any predicate then i+1 else scan i

/-- The merge attempt over the queue, newest block first. The flags are
`has_invalid` and `is_merged`. -/
def deferScan (range : Range) (prot : Protection) : List MMBlock → List MMBlock × Bool × Bool
  | [] => ([],false,false)
  | block::rest =>
    if !block.range.touches range then
      let (rest',hasInvalid,isMerged) := deferScan range prot rest
      (block::rest',hasInvalid,isMerged)
    else if block.prot≠prot then
      if block.range.inside range then
        let (rest',_,isMerged) := deferScan range prot rest
        (block.invalidated::rest',true,isMerged)
      else if !block.range.overlaps range then
        let (rest',hasInvalid,isMerged) := deferScan range prot rest
        (block::rest',hasInvalid,isMerged)
      else (block::rest,false,false)
    else (block.merge range::rest,false,true)

/-- `tag` is what `rsx::get_shared_tag` returns during this call. -/
def mmDeferMprotectInternal (tag start length : BitVec 64) (prot : Protection)
    (queue : List MMBlock) : List MMBlock :=
  let range := AddressRange.startLength start length
  let (blocks,hasInvalid,isMerged) := deferScan range prot queue.reverse
  let queue := if hasInvalid then mmSanitizeQueueInternal blocks.reverse else blocks.reverse
  if isMerged then queue else queue++[⟨range,prot,tag⟩]

def crushInside (range : Range) : ℕ → List MMBlock → ℕ × List MMBlock
  | 0, queue => (0,queue)
  | count+1, queue =>
    match queue[count]? with
    | some block =>
      if block.range.inside range then crushInside range count (queue.set count block.invalidated)
      else (count+1,queue)
    | none => (count+1,queue)

def unlocks (prot : Protection) : Bool := prot = .rw || prot = .wx

/-- What `mm_protect` does to the queue before it issues an unlocking protection. -/
def unlockConflicts (cfg : MMConfig) (range : Range) (s : MMState) : Option MMState :=
  let count := mmFindConflictInternal (fun block => block.range.overlaps range) s.queue
  if count=0 then some s
  else
    let (count,queue) := crushInside range count s.queue
    if count=0 then some {s with queue := mmSanitizeQueueInternal queue}
    else mmFlushMprotectQueueInternal cfg {s with queue := queue} count

def mmProtect (cfg : MMConfig) (tag ptr length : BitVec 64) (prot : Protection) (s : MMState) :
    Option MMState :=
  if cfg.disableAsync then
    some {s with issued := (memoryProtect cfg ptr length prot).apply s.issued}
  else
    if unlocks prot then
      (unlockConflicts cfg (AddressRange.startLength ptr length) s).map fun s =>
        {s with issued := (memoryProtect cfg ptr length prot).apply s.issued}
    else some {s with queue := mmDeferMprotectInternal tag ptr length prot s.queue}

def mmFlush (cfg : MMConfig) (s : MMState) : Option MMState :=
  mmFlushMprotectQueueInternal cfg s s.queue.length

def flushConflict (cfg : MMConfig) (predicate : MMBlock → Bool) (s : MMState) : Option MMState :=
  let count := mmFindConflictInternal predicate s.queue
  if count=0 then some s else mmFlushMprotectQueueInternal cfg s count

/-- `vm::base` -/
def hostAddress (cfg : MMConfig) (vmAddress : BitVec 32) : BitVec 64 :=
  cfg.vmBase+vmAddress.setWidth 64

def mmFlushAddress (cfg : MMConfig) (vmAddress : BitVec 32) (s : MMState) : Option MMState :=
  if s.queue.isEmpty then some s
  else flushConflict cfg (fun block => block.range.overlapsAddress (hostAddress cfg vmAddress)) s

def mmFlushRanges (cfg : MMConfig) (ranges : List Range) (s : MMState) : Option MMState :=
  if s.queue.isEmpty || ranges.isEmpty then some s
  else flushConflict cfg (fun block => ranges.any (fun x => block.range.overlaps x)) s

def mmFlushPartial (cfg : MMConfig) (lastTag : BitVec 64) (s : MMState) : Option MMState :=
  let count := (s.queue.takeWhile (fun block => !decide (lastTag < block.syncTag))).length
  if count=0 then some s else mmFlushMprotectQueueInternal cfg s count

inductive MMCall
  | protect (tag ptr length : BitVec 64) (prot : Protection)
  | flush
  | flushAddress (vmAddress : BitVec 32)
  | flushRanges (ranges : List Range)
  | flushPartial (lastTag : BitVec 64)

def step (cfg : MMConfig) (s : MMState) : MMCall → Option MMState
  | .protect tag ptr length prot => mmProtect cfg tag ptr length prot s
  | .flush => mmFlush cfg s
  | .flushAddress vmAddress => mmFlushAddress cfg vmAddress s
  | .flushRanges ranges => mmFlushRanges cfg ranges s
  | .flushPartial lastTag => mmFlushPartial cfg lastTag s

def run (cfg : MMConfig) : MMState → List MMCall → Option MMState
  | s, [] => some s
  | s, call::calls => (step cfg s call).bind fun s => run cfg s calls

open AddressRange

def MMBlock.patch (block : MMBlock) : Patch (BitVec 64) Protection :=
  ⟨fun a => decide (a∈block.range),block.prot⟩

/-- The addresses that the protection is asked for. -/
def requested (ptr length : BitVec 64) (prot : Protection) : Patch (BitVec 64) Protection where
  region a := ptr.toNat ≤ a.toNat && a.toNat < ptr.toNat+length.toNat
  value := prot

def WholePages (cfg : MMConfig) (start stop : ℕ) : Prop := cfg.pageSize ∣ start ∧ cfg.pageSize ∣ stop

def Proper (cfg : MMConfig) (r : Range) : Prop :=
  r.valid=true ∧ r≠⟨0#64,umax 64⟩ ∧ WholePages cfg r.start.toNat (r.last.toNat+1)

variable {cfg : MMConfig} {block : MMBlock} {length ptr : BitVec 64}

/-- Whole pages are protected as they are. -/
theorem memoryProtect_eq (h : WholePages cfg ptr.toNat (ptr.toNat+length.toNat)) (prot : Protection) :
    memoryProtect cfg ptr length prot = requested ptr length prot := by
  obtain ⟨hstart,pages,hpages⟩ := h
  have hpos : 0 < cfg.pageSize := Nat.two_pow_pos _
  simp only [memoryProtect,requested,Patch.mk.injEq,and_true]
  funext a
  rw [Bool.eq_iff_iff]
  simp only [Bool.and_eq_true,decide_eq_true_eq]
  rw [Nat.le_div_iff_mul_le hpos,Nat.div_mul_cancel hstart]
  rw [hpages,Nat.mul_comm _ pages,Nat.mul_lt_mul_right hpos,Nat.div_lt_iff_lt_mul hpos,
    Nat.mul_comm pages,← hpages]
  omega

theorem Proper.toNat_length {r : Range} (h : Proper cfg r) :
    r.length.toNat = r.last.toNat-r.start.toNat+1 := by
  obtain ⟨hv,hne,-⟩ := h
  rw [valid_iff] at hv
  have hw : ¬(r.start.toNat=0 ∧ r.last.toNat = 2^64-1) := by
    rintro ⟨h₀,h₁⟩
    apply hne
    cases r
    simp only [mk.injEq,← BitVec.toNat_inj,toNat_umax]
    exact ⟨h₀,h₁⟩
  simp only [length,BitVec.toNat_add,BitVec.toNat_sub,BitVec.toNat_ofNat]
  omega

theorem memoryProtect_eq_patch (h : Proper cfg block.range) :
    memoryProtect cfg block.range.start block.range.length block.prot=block.patch := by
  have hlen := h.toNat_length
  have hv := valid_iff.mp h.1
  have hpages := h.2.2
  rw [show block.range.last.toNat+1 = block.range.start.toNat+block.range.length.toNat by omega]
    at hpages
  rw [memoryProtect_eq hpages]
  simp only [requested,MMBlock.patch,Patch.mk.injEq,and_true]
  funext a
  rw [Bool.eq_iff_iff]
  simp only [Bool.and_eq_true,decide_eq_true_eq,mem_iff,hlen]
  omega

section

variable (h₀ : 0 < length.toNat) (h : ptr.toNat+length.toNat ≤ 2^64)

include h₀ h

theorem startLength_fields : (startLength ptr length).start=ptr ∧
    (startLength ptr length).last.toNat = ptr.toNat+length.toNat-1 := by
  have hne : length≠0#64 := by
    rintro rfl
    simp at h₀
  rw [startLength,if_neg hne]
  refine ⟨rfl,?_⟩
  simp only [BitVec.toNat_sub,BitVec.toNat_add,BitVec.toNat_ofNat]
  omega

theorem startLength_proper (hpages : WholePages cfg ptr.toNat (ptr.toNat+length.toNat)) :
    Proper cfg (startLength ptr length) := by
  obtain ⟨hs,hl⟩ := startLength_fields h₀ h
  refine ⟨valid_iff.mpr (by rw [hs,hl]; omega),fun he => ?_,?_⟩
  · have h₁ := congrArg (fun r : Range => r.start.toNat) he
    have h₂ := congrArg (fun r : Range => r.last.toNat) he
    simp only [hs,hl,toNat_umax,BitVec.toNat_ofNat] at h₁ h₂
    omega
  · rwa [hs,hl,Nat.sub_add_cancel (by omega)]

theorem requested_region (prot : Protection) (a : BitVec 64) :
    (requested ptr length prot).region a ↔ a∈startLength ptr length := by
  obtain ⟨hs,hl⟩ := startLength_fields h₀ h
  simp only [requested,Bool.and_eq_true,decide_eq_true_eq,mem_iff,hs,hl]
  omega

end

@[simp] theorem patch_region {a : BitVec 64} : block.patch.region a ↔ a∈block.range := by
  simp [MMBlock.patch]

@[simp] theorem patch_region_false {a : BitVec 64} :
    block.patch.region a=false ↔ a∉block.range := by
  simp [MMBlock.patch]

theorem notMem_of_invalid {r : Range} (h : r.valid=false) (a : BitVec 64) : a∉r := by
  intro ha
  rw [valid_iff_nonempty.mpr ⟨a,ha⟩] at h
  cases h

theorem invalidated_invalid (block : MMBlock) : block.invalidated.range.valid=false :=
  invalidate_valid block.range (by decide)

theorem overlay_sanitize (issued : BitVec 64 → Protection) (queue : List MMBlock) :
    overlay issued ((mmSanitizeQueueInternal queue).map MMBlock.patch) =
      overlay issued (queue.map MMBlock.patch) := by
  induction queue generalizing issued with
  | nil => rfl
  | cons block rest ih =>
    cases hv : block.range.valid with
    | true =>
      simp only [mmSanitizeQueueInternal,List.filter_cons,hv,if_true,List.map_cons,overlay_cons]
      exact ih _
    | false =>
      simp only [mmSanitizeQueueInternal,List.filter_cons,hv,Bool.false_eq_true,if_false]
      have hid : block.patch.apply issued=issued := by
        funext a
        exact Patch.apply_of_notMem (patch_region_false.mpr (notMem_of_invalid hv a)) issued
      rw [List.map_cons,overlay_cons,hid]
      exact ih issued

theorem sanitize_of_proper {queue : List MMBlock} (h : ∀ b∈queue, Proper cfg b.range) :
    mmSanitizeQueueInternal queue=queue :=
  List.filter_eq_self.mpr fun b hb => (h b hb).1

theorem sanitize_map_invalidated (queue : List MMBlock) :
    mmSanitizeQueueInternal (queue.map MMBlock.invalidated)=[] := by
  rw [mmSanitizeQueueInternal,List.filter_eq_nil_iff]
  intro b hb
  obtain ⟨c,-,rfl⟩ := List.mem_map.mp hb
  simp [invalidated_invalid]

theorem sanitize_append (xs ys : List MMBlock) : mmSanitizeQueueInternal (xs++ys) =
      mmSanitizeQueueInternal xs++mmSanitizeQueueInternal ys := List.filter_append xs ys

theorem protectBlocks_eq {blocks : List MMBlock} (h : ∀ b∈blocks, Proper cfg b.range)
    (issued : BitVec 64 → Protection) :
    protectBlocks cfg blocks issued = some (overlay issued (blocks.map MMBlock.patch)) := by
  induction blocks generalizing issued with
  | nil => rfl
  | cons block rest ih =>
    have hb := h block List.mem_cons_self
    rw [protectBlocks,if_pos hb.1,memoryProtect_eq_patch hb,
      ih (fun b hb => h b (List.mem_cons_of_mem _ hb))]
    rfl

/-- Flushing a prefix of proper blocks issues them and keeps the valid rest. -/
theorem flushInternal_eq {s : MMState} {count : ℕ} (h : ∀ b∈s.queue.take count, Proper cfg b.range) :
    mmFlushMprotectQueueInternal cfg s count = some ⟨mmSanitizeQueueInternal (s.queue.drop count),
        overlay s.issued ((s.queue.take count).map MMBlock.patch)⟩ := by
  rw [mmFlushMprotectQueueInternal,protectBlocks_eq h,Option.map_some]
  split_ifs with hr
  · have hd : s.queue.drop count=[] := List.drop_eq_nil_iff.mpr (by omega)
    rw [hd]
    rfl
  · rw [sanitize_append,sanitize_map_invalidated,List.nil_append]

theorem findConflict_spec (predicate : MMBlock → Bool) (queue : List MMBlock) :
    ∀ b∈queue.drop (mmFindConflictInternal predicate queue), predicate b=false := by
  have hscan : ∀ n, (∀ i b, n ≤ i → queue[i]? = some b → predicate b=false) →
      ∀ i b, mmFindConflictInternal.scan predicate queue n ≤ i → queue[i]? = some b →
        predicate b=false := by
    intro n
    induction n with
    | zero => exact fun h => h
    | succ n ih =>
      intro h
      rw [mmFindConflictInternal.scan]
      split_ifs with hn
      · exact h
      · apply ih
        intro i b hi hb
        rcases Nat.lt_or_eq_of_le hi with hi | rfl
        · exact h i b hi hb
        · simpa [hb] using hn
  intro b hb
  obtain ⟨i,hi⟩ := List.mem_iff_getElem?.mp hb
  rw [List.getElem?_drop] at hi
  refine hscan queue.length (fun i b hi hb => ?_) _ b (Nat.le_add_right _ i) hi
  rw [List.getElem?_eq_none hi] at hb
  cases hb

theorem findConflict_le (predicate : MMBlock → Bool) (queue : List MMBlock) :
    mmFindConflictInternal predicate queue ≤ queue.length := by
  have hscan : ∀ n, mmFindConflictInternal.scan predicate queue n ≤ n := by
    intro n
    induction n with
    | zero => exact Nat.le_refl _
    | succ n ih =>
      rw [mmFindConflictInternal.scan]
      split_ifs <;> omega
  exact hscan _

/-- The crushed blocks are a run just below the position where crushing starts. -/
theorem crushInside_eq (range : Range) (pre post : List MMBlock) :
    ∃ as bs, pre = as++bs ∧ (∀ b∈bs, b.range.inside range) ∧
      crushInside range pre.length (pre++post) =
        (as.length,as++(bs.map MMBlock.invalidated++post)) := by
  induction pre using List.reverseRecOn generalizing post with
  | nil => exact ⟨[],[],rfl,by simp,by simp [crushInside]⟩
  | append_singleton pre block ih =>
    by_cases hin : block.range.inside range
    · obtain ⟨as,bs,rfl,hbs,he⟩ := ih (block.invalidated::post)
      refine ⟨as,bs++[block],by simp,?_,?_⟩
      · intro b hb
        rcases List.mem_append.mp hb with hb | hb
        · exact hbs b hb
        · rwa [List.mem_singleton.mp hb]
      · simpa [crushInside,hin] using he
    · refine ⟨pre++[block],[],by simp,by simp,?_⟩
      simp [crushInside,hin]

end PS3Native.DeferredProtection
