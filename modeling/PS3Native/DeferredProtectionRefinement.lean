import PS3Native.DeferredProtectionScan

/-!
# Deferred protection refines eager protection

Laying the queued blocks over the issued protections gives what eager protection would have given,
as long as the calls are for whole pages and no merge produces a block for the whole address space.
-/
namespace PS3Native.DeferredProtection
open RegionOverlay List

def effective (s : MMState) : BitVec 64 → Protection :=
  overlay s.issued (s.queue.map MMBlock.patch)

def eagerStep (protections : BitVec 64 → Protection) : MMCall → BitVec 64 → Protection
  | .protect _ ptr length prot => (requested ptr length prot).apply protections
  | _ => protections

/-- At every address, the protection of the last `mm_protect` that covers it. -/
def eager (protections : BitVec 64 → Protection) (calls : List MMCall) :
    BitVec 64 → Protection :=
  calls.foldl eagerStep protections

def MMCall.WellFormed : MMCall → Prop
  | .protect _ ptr length _ => 0 < length.toNat ∧ ptr.toNat+length.toNat ≤ 2^64
  | _ => True

/-- A call that does not run into a defect: it is for whole pages, and a deferred
protection never merges into a block for the whole address space. -/
def MMCall.Safe (cfg : MMConfig) (s : MMState) : MMCall → Prop
  | .protect _ ptr length prot => WholePages cfg ptr.toNat (ptr.toNat+length.toNat) ∧
      (unlocks prot=false →
        ¬MergesWholeSpace (AddressRange.startLength ptr length) prot s.queue)
  | _ => True

def SafeRun (cfg : MMConfig) : MMState → List MMCall → Prop
  | _, [] => True
  | s, call::calls =>
    call.WellFormed ∧ call.Safe cfg s ∧ ∀ s', step cfg s call = some s' → SafeRun cfg s' calls

structure QueueInvariant (cfg : MMConfig) (s : MMState) : Prop where
  proper : ∀ b∈s.queue, Proper cfg b.range
  direct : cfg.disableAsync=true → s.queue=[]

/-- The addresses where a call promises that the issued protection is current. -/
def Published (cfg : MMConfig) (protections : BitVec 64 → Protection) (s : MMState) :
    MMCall → Prop
  | .protect _ ptr length prot => unlocks prot=true →
      ∀ a∈AddressRange.startLength ptr length, s.issued a = protections a
  | .flush => ∀ a, s.issued a = protections a
  | .flushAddress vmAddress =>
      s.issued (hostAddress cfg vmAddress) = protections (hostAddress cfg vmAddress)
  | .flushRanges ranges => ∀ range∈ranges, ∀ a∈range, s.issued a = protections a
  | .flushPartial _ => True

variable {s : MMState} {cfg : MMConfig}

theorem issued_eq_effective {a : BitVec 64} (h : ∀ b∈s.queue, a∉b.range) :
    s.issued a = effective s a := by
  refine (overlay_of_forall_notMem fun p hp => ?_).symm
  obtain ⟨b,hb,rfl⟩ := mem_map.mp hp
  exact patch_region_false.mpr (h b hb)

section

variable (hs : QueueInvariant cfg s)

include hs

/-- Flushing any prefix of the queue is invisible in the effective protections. -/
theorem flush_prefix (count : ℕ) :
    ∃ s', mmFlushMprotectQueueInternal cfg s count = some s' ∧ QueueInvariant cfg s' ∧
      effective s' = effective s ∧ s'.queue = s.queue.drop count := by
  have hdrop : ∀ b∈s.queue.drop count, Proper cfg b.range :=
    fun b hb => hs.proper b (mem_of_mem_drop hb)
  refine ⟨_,flushInternal_eq fun b hb => hs.proper b (mem_of_mem_take hb),?_,?_,?_⟩
  · rw [sanitize_of_proper hdrop]
    exact ⟨hdrop,fun hd => by simp [hs.direct hd]⟩
  · rw [effective,sanitize_of_proper hdrop,effective,← overlay_append,← map_append,take_append_drop]
  · exact sanitize_of_proper hdrop

theorem flushConflict_spec (predicate : MMBlock → Bool) :
    ∃ s', flushConflict cfg predicate s = some s' ∧ QueueInvariant cfg s' ∧
      effective s' = effective s ∧ ∀ b∈s'.queue, predicate b=false := by
  have hfind := findConflict_spec predicate s.queue
  rw [flushConflict]
  split_ifs with hc
  · rw [hc] at hfind
    exact ⟨s,rfl,hs,rfl,by simpa using hfind⟩
  · obtain ⟨s',he,hs',heff,hq⟩ := flush_prefix hs (mmFindConflictInternal predicate s.queue)
    exact ⟨s',he,hs',heff,by rwa [hq]⟩

theorem mmFlushAddress_spec (vmAddress : BitVec 32) :
    ∃ s', mmFlushAddress cfg vmAddress s = some s' ∧ QueueInvariant cfg s' ∧
      effective s' = effective s ∧ Published cfg (effective s) s' (.flushAddress vmAddress) := by
  rw [mmFlushAddress]
  split_ifs with he
  · rw [List.isEmpty_iff] at he
    exact ⟨s,rfl,hs,rfl,issued_eq_effective (by simp [he])⟩
  · obtain ⟨s',hf,hs',heff,hq⟩ := flushConflict_spec hs
      (fun block => block.range.overlapsAddress (hostAddress cfg vmAddress))
    refine ⟨s',hf,hs',heff,?_⟩
    rw [← heff]
    refine issued_eq_effective fun b hb hab => ?_
    have hno := hq b hb
    rw [AddressRange.overlapsAddress_iff.mpr hab] at hno
    cases hno

theorem mmFlushRanges_spec (ranges : List Range) :
    ∃ s', mmFlushRanges cfg ranges s = some s' ∧ QueueInvariant cfg s' ∧
      effective s' = effective s ∧ Published cfg (effective s) s' (.flushRanges ranges) := by
  rw [mmFlushRanges]
  split_ifs with he
  · refine ⟨s,rfl,hs,rfl,fun range hrange a _ => ?_⟩
    rcases (Bool.or_eq_true _ _).mp he with he | he
    · rw [List.isEmpty_iff] at he
      exact issued_eq_effective (by simp [he])
    · rw [isEmpty_iff.mp he] at hrange
      cases hrange
  · obtain ⟨s',hf,hs',heff,hq⟩ := flushConflict_spec hs
      (fun block => ranges.any (fun x => block.range.overlaps x))
    refine ⟨s',hf,hs',heff,fun range hrange a ha => ?_⟩
    rw [← heff]
    refine issued_eq_effective fun b hb hab => ?_
    have hno := hq b hb
    have hrv := AddressRange.valid_iff_nonempty.mpr ⟨a,ha⟩
    have hov := (AddressRange.overlaps_iff_exists (hs'.proper b hb).1 hrv).mpr ⟨a,hab,ha⟩
    rw [any_eq_true.mpr ⟨range,hrange,hov⟩] at hno
    cases hno

theorem mmFlushPartial_spec (lastTag : BitVec 64) :
    ∃ s', mmFlushPartial cfg lastTag s = some s' ∧ QueueInvariant cfg s' ∧
      effective s' = effective s := by
  rw [mmFlushPartial]
  split_ifs with hc
  · exact ⟨s,rfl,hs,rfl⟩
  · obtain ⟨s',he,hs',heff,-⟩ := flush_prefix hs _
    exact ⟨s',he,hs',heff⟩

/-- Crushing and flushing before an unlock: what is left misses the range, and
outside the range the effective protections are kept. -/
theorem unlock_flush {range : Range} (hrange : range.valid) {count : ℕ}
    (hle : count ≤ s.queue.length)
    (hmiss : ∀ b∈s.queue.drop count, b.range.overlaps range=false) :
    ∃ s', (let (count,queue) := crushInside range count s.queue
        if count=0 then some {s with queue := mmSanitizeQueueInternal queue}
        else mmFlushMprotectQueueInternal cfg {s with queue := queue} count) = some s' ∧
      QueueInvariant cfg s' ∧ (∀ b∈s'.queue, ∀ a∈range, a∉b.range) ∧
      ∀ a, a∉range → effective s' a = effective s a := by
  obtain ⟨as,bs,hpre,hbs,hcrush⟩ := crushInside_eq range (s.queue.take count) (s.queue.drop count)
  rw [take_append_drop,length_take_of_le hle] at hcrush
  have hproper := hs.proper
  rw [← take_append_drop count s.queue,hpre] at hproper
  set post := s.queue.drop count with hpost
  have hpostp : ∀ b∈post, Proper cfg b.range := fun b hb => hproper b (by simp [hb])
  have hasp : ∀ b∈as, Proper cfg b.range := fun b hb => hproper b (by simp [hb])
  have hbsp : ∀ b∈bs, Proper cfg b.range := fun b hb => hproper b (by simp [hb])
  have hdirect : cfg.disableAsync → post=[] := fun hd => by simp [hpost,hs.direct hd]
  have hqueue : s.queue = as++(bs++post) := by
    rw [← append_assoc,← hpre,hpost,take_append_drop]
  have hkeep : mmSanitizeQueueInternal (bs.map MMBlock.invalidated++post)=post := by
    rw [sanitize_append,sanitize_map_invalidated,sanitize_of_proper hpostp,nil_append]
  have hresult : ∃ s', (if as.length=0 then
        some {s with queue := mmSanitizeQueueInternal (as++(bs.map MMBlock.invalidated++post))}
      else mmFlushMprotectQueueInternal cfg
        {s with queue := as++(bs.map MMBlock.invalidated++post)} as.length) = some s' ∧
      s' = ⟨post,overlay s.issued (as.map MMBlock.patch)⟩ := by
    split_ifs with hl
    · rw [length_eq_zero_iff] at hl
      subst hl
      exact ⟨_,rfl,by simp [hkeep]⟩
    · refine ⟨_,flushInternal_eq (by simpa using hasp),?_⟩
      simp [hkeep]
  obtain ⟨s',he,rfl⟩ := hresult
  refine ⟨_,by rw [hcrush]; exact he,⟨hpostp,hdirect⟩,fun b hb a ha hab => ?_,fun a ha => ?_⟩
  · have hov := (AddressRange.overlaps_iff_exists (hpostp b hb).1 hrange).mpr ⟨a,hab,ha⟩
    rw [hmiss b hb] at hov
    cases hov
  · have hgone : overlay (overlay s.issued (as.map MMBlock.patch)) (bs.map MMBlock.patch) a =
        overlay s.issued (as.map MMBlock.patch) a := by
      refine overlay_of_forall_notMem fun p hp => ?_
      obtain ⟨b,hb,rfl⟩ := mem_map.mp hp
      refine patch_region_false.mpr fun hab => ha ?_
      exact (AddressRange.inside_iff_subset (hbsp b hb).1).mp (hbs b hb) a hab
    rw [effective,effective,hqueue,map_append,map_append,overlay_append, overlay_append]
    exact overlay_congr hgone.symm _

theorem unlockConflicts_spec {range : Range} (hr : range.valid) :
    ∃ s', unlockConflicts cfg range s = some s' ∧ QueueInvariant cfg s' ∧
      (∀ b∈s'.queue, ∀ a∈range, a∉b.range) ∧
      ∀ a, a∉range → effective s' a = effective s a := by
  have hfind := findConflict_spec (fun block => block.range.overlaps range) s.queue
  rw [unlockConflicts]
  split_ifs with hc
  · rw [hc,drop_zero] at hfind
    refine ⟨s,rfl,hs,fun b hb a ha hab => ?_,fun _ _ => rfl⟩
    have hov := (AddressRange.overlaps_iff_exists (hs.proper b hb).1 hr).mpr ⟨a,hab,ha⟩
    rw [hfind b hb] at hov
    cases hov
  · exact unlock_flush hs hr (findConflict_le _ _) hfind

theorem mmProtect_unlock {ptr length : BitVec 64} (h₀ : 0 < length.toNat)
    (h : ptr.toNat+length.toNat ≤ 2^64) (hpages : WholePages cfg ptr.toNat (ptr.toNat+length.toNat))
    {prot : Protection} (hasync : cfg.disableAsync=false) (hu : unlocks prot) (tag : BitVec 64) :
    ∃ s', mmProtect cfg tag ptr length prot s = some s' ∧ QueueInvariant cfg s' ∧
      effective s' = (requested ptr length prot).apply (effective s) ∧
      ∀ a∈AddressRange.startLength ptr length, s'.issued a = effective s' a := by
  set range := AddressRange.startLength ptr length with hrange
  have hproper := startLength_proper h₀ h hpages
  have hregion := requested_region h₀ h prot
  obtain ⟨s',he,hs',hmiss,hout⟩ := unlockConflicts_spec hs hproper.1
  refine ⟨{s' with issued := (requested ptr length prot).apply s'.issued},?_,
    ⟨hs'.proper,hs'.direct⟩,?_,?_⟩
  · rw [mmProtect,if_neg (by simp [hasync]),if_pos hu,← hrange,he,memoryProtect_eq hpages]
    rfl
  · funext a
    by_cases ha : a∈range
    · have hq := issued_eq_effective (s := ⟨s'.queue,(requested ptr length prot).apply s'.issued⟩)
        fun b hb => hmiss b hb a ha
      rw [← hq,Patch.apply_of_mem ((hregion a).mpr ha)]
      exact Patch.apply_of_mem ((hregion a).mpr ha) _
    · have hno := Bool.eq_false_iff.mpr (mt (hregion a).mp ha)
      rw [Patch.apply_of_notMem hno,← hout a ha]
      exact overlay_congr (Patch.apply_of_notMem hno s'.issued) _
  · intro a ha
    exact issued_eq_effective fun b hb => hmiss b hb a ha

/-- One call: it succeeds, keeps the invariant, moves the effective protections
as eager protection does, and publishes what it promises. -/
theorem step_spec {call : MMCall} (hwf : call.WellFormed) (hsafe : call.Safe cfg s) :
    ∃ s', step cfg s call = some s' ∧ QueueInvariant cfg s' ∧
      effective s' = eagerStep (effective s) call ∧ Published cfg (effective s') s' call := by
  cases call with
  | protect tag ptr length prot =>
    obtain ⟨h₀,h⟩ := hwf
    obtain ⟨hpages,hmerge⟩ := hsafe
    cases hd : cfg.disableAsync with
    | true =>
      have hq := hs.direct hd
      have hempty : ∀ issued, effective ⟨s.queue,issued⟩ = issued := by
        intro issued
        rw [effective,hq]
        rfl
      refine ⟨⟨s.queue,(requested ptr length prot).apply s.issued⟩,
        by rw [step,mmProtect,if_pos hd,memoryProtect_eq hpages],⟨hs.proper,hs.direct⟩,?_,?_⟩
      · rw [hempty,eagerStep,show effective s = s.issued from hempty s.issued]
      · intro _ a _
        rw [hempty]
    | false =>
      cases hu : unlocks prot with
      | true =>
        obtain ⟨s',he,hs',heff,hpub⟩ := mmProtect_unlock hs h₀ h hpages hd hu tag
        exact ⟨s',he,hs',heff,fun _ => hpub⟩
      | false =>
        obtain ⟨hproper,heff⟩ := mmDeferMprotectInternal_spec hs.proper h₀ h hpages (hmerge hu) tag
        refine ⟨⟨mmDeferMprotectInternal tag ptr length prot s.queue,s.issued⟩,
          by simp [step,mmProtect,hd,hu],⟨hproper,by simp [hd]⟩,heff s.issued,by simp [Published,hu]⟩
  | flush =>
    obtain ⟨s',he,hs',heff,hq⟩ := flush_prefix hs s.queue.length
    refine ⟨s',he,hs',heff,fun a => issued_eq_effective ?_⟩
    simp [hq]
  | flushAddress vmAddress =>
    obtain ⟨s',he,hs',heff,hpub⟩ := mmFlushAddress_spec hs vmAddress
    exact ⟨s',he,hs',heff,by rwa [heff]⟩
  | flushRanges ranges =>
    obtain ⟨s',he,hs',heff,hpub⟩ := mmFlushRanges_spec hs ranges
    exact ⟨s',he,hs',heff,by rwa [heff]⟩
  | flushPartial lastTag =>
    obtain ⟨s',he,hs',heff⟩ := mmFlushPartial_spec hs lastTag
    exact ⟨s',he,hs',heff,trivial⟩

theorem run_spec {calls : List MMCall} (hsafe : SafeRun cfg s calls) :
    ∃ s', run cfg s calls = some s' ∧ effective s' = eager (effective s) calls ∧
      ∀ earlier call, calls = earlier++[call] → Published cfg (effective s') s' call := by
  induction calls generalizing s with
  | nil => exact ⟨s,rfl,rfl,by simp⟩
  | cons call calls ih =>
    obtain ⟨hwf,hcall,hrest⟩ := hsafe
    obtain ⟨s₁,hstep,hs₁,heff,hpub⟩ := step_spec hs hwf hcall
    obtain ⟨s',hrun,heff',hpub'⟩ := ih hs₁ (hrest s₁ hstep)
    refine ⟨s',by simp [run,hstep,hrun],?_,?_⟩
    · rw [heff',heff]
      rfl
    · intro earlier last hsplit
      cases earlier with
      | nil =>
        obtain ⟨rfl,rfl⟩ := cons.inj hsplit
        cases hrun
        exact hpub
      | cons _ earlier => exact hpub' earlier last (cons.inj hsplit).2

end

/-- In every run from an empty queue whose calls are for whole pages and never merge blocks
into the whole address space, no `ensure` fails, the queue laid over the issued protections is the
eager result at every address, and the last call has published what it promises. -/
theorem deferred_refines_eager (cfg : MMConfig) (initial : BitVec 64 → Protection)
    (calls : List MMCall) (hsafe : SafeRun cfg ⟨[],initial⟩ calls) :
    ∃ s, run cfg ⟨[],initial⟩ calls = some s ∧
      (∀ a, overlay s.issued (s.queue.map MMBlock.patch) a = eager initial calls a) ∧
      ∀ earlier call, calls = earlier++[call] → Published cfg (eager initial calls) s call := by
  have hinit : QueueInvariant cfg ⟨[],initial⟩ := ⟨by simp,fun _ => rfl⟩
  obtain ⟨s,hrun,heff,hpub⟩ := run_spec hinit hsafe
  refine ⟨s,hrun,fun a => congrFun heff a,fun earlier call hsplit => ?_⟩
  have := hpub earlier call hsplit
  rwa [heff] at this

/-- Two locks, a lock of the second page that swallows the older one and merges with the
first, and a flush of one address on it. -/
theorem deferred_refines_eager_two_pages :
    let calls : List MMCall := [.protect 1 0x10000 0x1000 .no,.protect 2 0x11000 0x1000 .ro,
      .protect 3 0x11000 0x1000 .no,.flushAddress 0x11000]
    ∃ s, run ⟨false,0,12⟩ ⟨[],fun _ => .rw⟩ calls = some s ∧
      (∀ a, overlay s.issued (s.queue.map MMBlock.patch) a = eager (fun _ => .rw) calls a) ∧
      ∀ earlier call, calls = earlier++[call] →
        Published ⟨false,0,12⟩ (eager (fun _ => .rw) calls) s call := by
  refine deferred_refines_eager ⟨false,0,12⟩ (fun _ => .rw) _ ?_
  iterate 3
    refine ⟨by simp [MMCall.WellFormed],⟨⟨by decide,by decide⟩,
      fun _ => not_mergesWholeSpace (by decide)⟩,?_⟩
    rintro _ ⟨⟩
  exact ⟨trivial,trivial,fun _ _ => trivial⟩

/-- Locking the last page and then the first one queues a lock of the whole address
space, and flushing that block issues nothing. A lock of half a page that is still queued when the
other half is unlocked locks that half again. -/
theorem deferred_last_and_first_page_differ :
    let calls : List MMCall := [.protect 1 0xfffffffffffff000 0x1000 .no,.protect 2 0 0x1000 .no]
    (∀ call∈calls, call.WellFormed) ∧
    (∃ s, run ⟨false,0,12⟩ ⟨[],fun _ => .rw⟩ calls = some s ∧
      overlay s.issued (s.queue.map MMBlock.patch) 0x2000 = .no ∧
      eager (fun _ => .rw) calls 0x2000 = .rw) ∧
    (∃ s, run ⟨false,0,12⟩ ⟨[],fun _ => .rw⟩ (calls++[.flushAddress 0]) = some s ∧
      s.issued 0 = .rw ∧ eager (fun _ => .rw) calls 0 = .no) ∧
    let halves : List MMCall := [.protect 1 0x10000 0x800 .no,.protect 2 0x10800 0x800 .rw,.flush]
    (∀ call∈halves, call.WellFormed) ∧
    ∃ s, run ⟨false,0,12⟩ ⟨[],fun _ => .rw⟩ halves = some s ∧
      s.issued 0x10800 = .no ∧ eager (fun _ => .rw) halves 0x10800 = .rw := by
  refine ⟨by simp [MMCall.WellFormed],⟨_,rfl,by decide,by decide⟩,⟨_,rfl,by decide,by decide⟩,
    by simp [MMCall.WellFormed],_,rfl,by decide,by decide⟩

end PS3Native.DeferredProtection
