import PS3Native.VmFirstFit

/-!
# First fit, over any history of a block

`falloc` rounds its address down, which leaves a block that does not start at a multiple of its
page size; and `alloc` gives out the address `0` of a block that starts there, which is also its
failure value.
-/
namespace PS3Native.Vm
open List

def reservedSize (b : Block) (origSize : ℕ) : ℕ := requestSize b.flags origSize

def FreeBase (b : Block) (s : BlockState) (size align base : ℕ) : Prop :=
  align ∣ base ∧ b.addr ≤ base ∧ base+size ≤ b.addr+b.size ∧
    ∀ k, InRange base size k → s.pages k &&& pageAllocated=0

inductive BlockCall
  | alloc (origSize align : BitVec 32) (flags : BitVec 64)
  | falloc (addr origSize : BitVec 32) (flags : BitVec 64)
  | dealloc (addr : BitVec 32)

/-- The state after a call; a call that throws has changed nothing. -/
def BlockCall.apply (b : Block) (s : BlockState) : BlockCall → BlockState
  | .alloc origSize align flags =>
    match Vm.alloc b s origSize align false flags with
    | .ok (_,s') => s'
    | .error _ => s
  | .falloc addr origSize flags =>
    match Vm.falloc b s addr origSize false flags with
    | .ok (_,s') => s'
    | .error _ => s
  | .dealloc addr =>
    match Vm.dealloc b s addr with
    | .ok (_,s') => s'
    | .error _ => s

def runCalls (b : Block) (s : BlockState) (calls : List BlockCall) : BlockState :=
  calls.foldl (BlockCall.apply b) s

/-- What `alloc` does: the lowest free base, recorded and given out with the guard
page skipped, or `0` when there is none. -/
def FirstFit (b : Block) (s : BlockState) (origSize align : BitVec 32) (flags : BitVec 64) : Prop :=
  (∃ base s', alloc b s origSize align false flags = .ok (base+guardOffset b.guarded,s') ∧
    base+guardOffset b.guarded≠0 ∧ origSize≠0 ∧
    FreeBase b s (reservedSize b origSize.toNat) align.toNat base ∧
    (∀ base', FreeBase b s (reservedSize b origSize.toNat) align.toNat base' → base ≤ base') ∧
    s'.map = (base,reservedSize b origSize.toNat)::s.map) ∨
  (alloc b s origSize align false flags = .ok (0,s) ∧
    (origSize=0 ∨ ∀ base, ¬FreeBase b s (reservedSize b origSize.toNat) align.toNat base))

/-- What `dealloc` does: the whole range is released and its size without the guard
pages is returned, or nothing when no range was given out at the address. -/
def ReleasesExactly (b : Block) (s : BlockState) (addr : BitVec 32) : Prop :=
  (∃ e∈s.map, ∃ s', addr.toNat = e.1+guardOffset b.guarded ∧
    dealloc b s addr = .ok (e.2-guardSize b.guarded,s') ∧ s'.map = s.map.filter (fun f => f.1≠e.1) ∧
    (∀ k, InRange e.1 e.2 k → s'.pages k=0) ∧ ∀ k, ¬InRange e.1 e.2 k → s'.pages k = s.pages k) ∨
  ((∀ e∈s.map, addr.toNat≠e.1+guardOffset b.guarded) ∧ dealloc b s addr = .ok (0,s))

structure AllocatorSpec (b : Block) (s : BlockState) : Prop where
  disjoint : s.map.Pairwise (fun e f => e.1+e.2 ≤ f.1 ∨ f.1+f.2 ≤ e.1)
  inside : ∀ e∈s.map, b.addr ≤ e.1 ∧ e.1+e.2 ≤ b.addr+b.size
  aligned : ∀ e∈s.map, e.1%4096=0 ∧ e.2%4096=0
  allocated_iff : ∀ k, InRange b.addr b.size k →
    (s.pages k &&& pageAllocated≠0 ↔ ∃ e∈s.map, InRange e.1 e.2 k)
  alloc_firstFit : ∀ origSize align flags, minPageSize b.flags ≤ align.toNat →
    align.toNat = 2^align.toNat.log2 → FirstFit b s origSize align flags
  falloc_returns : ∀ addr origSize flags, ∃ result s',
    falloc b s addr origSize false flags = .ok (result,s') ∧ (result=false → s'=s)
  dealloc_exact : ∀ addr, ReleasesExactly b s addr

section Spec

variable {b : Block} {s : BlockState}

theorem Block.requestSize_allocFlags (b : Block) (flags : BitVec 64) (origSize : ℕ) :
    requestSize (b.allocFlags false flags) origSize = reservedSize b origSize := by
  rw [requestSize,b.minPageSize_allocFlags,b.guarded_allocFlags,reservedSize,requestSize,
    Block.guarded]

section

variable (h : BlockInv b s)

include h

/-- `alloc` without a shared memory object: the first free place is taken, or none. -/
theorem BlockInv.alloc_cases (origSize align : BitVec 32) (flags : BitVec 64)
    (hle : minPageSize b.flags ≤ align.toNat) (hpow : align.toNat = 2^align.toNat.log2) :
    (∃ base, origSize≠0 ∧ alloc b s origSize align false flags = .ok (base+guardOffset b.guarded,
        Vm.taken b s base (b.allocFlags false flags) (reservedSize b origSize.toNat)) ∧
      FreeBase b s (reservedSize b origSize.toNat) align.toNat base ∧
      (∀ base', FreeBase b s (reservedSize b origSize.toNat) align.toNat base' → base ≤ base') ∧
      WholePages b.guarded base (reservedSize b origSize.toNat) ∧
      RangeFree s.pages base (reservedSize b origSize.toNat)) ∨
    (alloc b s origSize align false flags = .ok (0,s) ∧
      (origSize=0 ∨ ∀ base, ¬FreeBase b s (reservedSize b origSize.toNat) align.toNat base)) := by
  have hcases := Vm.alloc_cases (b := b) (s := s) origSize align false flags rfl rfl (Bool.and_false _)
    (by rwa [b.minPageSize_allocFlags]) hpow
  simp only [b.requestSize_allocFlags,b.guarded_allocFlags] at hcases
  rcases hcases with ⟨base,horig,hrun,hwhole,hdvd,hlow,hend,hfree,hleast⟩ | ⟨hrun,hnone⟩
  · refine .inl ⟨base,horig,hrun,⟨hdvd,hlow,hend,(h.rangeFree_iff hlow hend).mp hfree⟩,?_,
      hwhole,hfree⟩
    rintro base' ⟨hdvd',hlow',hend',hfree'⟩
    exact hleast base' hdvd' hlow' ((h.rangeFree_iff hlow' hend').mpr hfree')
  · refine .inr ⟨hrun,hnone.imp_right ?_⟩
    rintro hnot base ⟨hdvd,hlow,hend,hfree⟩
    exact hnot base hdvd hlow hend ((h.rangeFree_iff hlow hend).mpr hfree)

/-- `alloc` is first fit in a block where a range does not have the address `0`. -/
theorem BlockInv.firstFit (hzero : b.addr≠0 ∨ b.guarded ∨ b.size < minPageSize b.flags)
    (origSize align : BitVec 32) (flags : BitVec 64) (hle : minPageSize b.flags ≤ align.toNat)
    (hpow : align.toNat = 2^align.toNat.log2) : FirstFit b s origSize align flags := by
  rcases h.alloc_cases origSize align flags hle hpow with
    ⟨base,horig,hrun,hbase,hleast,hwhole,hfree⟩ | hnone
  · refine .inl ⟨base,_,hrun,?_,horig,hbase,hleast,h.recordRange_eq hwhole hfree⟩
    obtain ⟨-,hlow,hend,-⟩ := hbase
    rcases hzero with haddr | hg | hsmall
    · omega
    · rw [hg,guardOffset_true]
      omega
    · have hmin : minPageSize b.flags ≤ reservedSize b origSize.toNat := by
        have hup : origSize.toNat ≤ alignUp origSize.toNat (minPageSize b.flags) :=
          le_alignUp (minPageSize_pos b.flags)
        rw [ne_eq,← BitVec.toNat_inj] at horig
        have hpos := (Nat.pos_of_ne_zero horig).trans_le hup
        exact (Nat.le_of_dvd hpos (dvd_alignUp ..)).trans (Nat.le_add_right ..)
      omega
  · exact .inr hnone

theorem BlockInv.dealloc_found {addr : BitVec 32} {e : ℕ × ℕ} (he : e∈s.map)
    (haddr : addr.toNat = e.1+guardOffset b.guarded) :
    dealloc b s addr = .ok (e.2-guardSize b.guarded,
      {pages := withoutRange s.pages e.1 e.2, map := s.map.filter (fun f => f.1≠e.1)}) := by
  obtain ⟨value,hvalue,hholds⟩ := h.holds e he
  exact dealloc_eq (h.find_eq he) haddr (h.whole e he) hvalue hholds

theorem BlockInv.dealloc_not_found {addr : BitVec 32}
    (hnone : ∀ e∈s.map, addr.toNat≠e.1+guardOffset b.guarded) : dealloc b s addr = .ok (0,s) := by
  rw [dealloc,find?_eq_none.mpr]
  intro e he
  rw [beq_iff_eq,(h.whole e he).key_iff addr]
  exact hnone e he

theorem BlockInv.releasesExactly (addr : BitVec 32) : ReleasesExactly b s addr := by
  by_cases hfound : ∃ e∈s.map, addr.toNat = e.1+guardOffset b.guarded
  · obtain ⟨e,he,haddr⟩ := hfound
    exact .inl ⟨e,he,_,haddr,h.dealloc_found he haddr,rfl,fun k hk => if_pos hk,
      fun k hk => if_neg hk⟩
  · have hnone : ∀ e∈s.map, addr.toNat≠e.1+guardOffset b.guarded :=
      fun e he haddr => hfound ⟨e,he,haddr⟩
    exact .inr ⟨hnone,h.dealloc_not_found hnone⟩

theorem BlockInv.apply (hstart : b.AlignedStart) (call : BlockCall) :
    BlockInv b (call.apply b s) := by
  cases call with
  | alloc origSize align flags =>
    by_cases hvalid : minPageSize b.flags ≤ align.toNat ∧ align.toNat = 2^align.toNat.log2
    · rcases h.alloc_cases origSize align flags hvalid.1 hvalid.2 with
        ⟨base,-,hrun,hbase,-,hwhole,hfree⟩ | ⟨hrun,-⟩
      · simp only [BlockCall.apply,hrun]
        exact h.taken _ hwhole hbase.2.1 hbase.2.2.1 hfree
      · simpa only [BlockCall.apply,hrun] using h
    · have hrun : Vm.alloc b s origSize align false flags = .error .invalidAlignment := by
        unfold Vm.alloc
        simp only [b.minPageSize_allocFlags]
        rw [if_pos]
        by_contra hnot
        rw [not_or,not_not,not_lt] at hnot
        exact hvalid hnot
      simpa only [BlockCall.apply,hrun] using h
  | falloc addr origSize flags =>
    rcases falloc_cases (b := b) (s := s) addr origSize false flags rfl rfl (Bool.and_false _) with
      ⟨size,-,hrun,hwhole,hlow,hdvd,hend,hfree⟩ | hrun
    · rw [b.minPageSize_allocFlags] at hrun hwhole hdvd hend hfree
      simp only [BlockCall.apply,hrun]
      exact h.taken _ hwhole (hstart.le_alignDown hlow hdvd hwhole.size_pos hend) hend hfree
    · simpa only [BlockCall.apply,hrun] using h
  | dealloc addr =>
    rcases h.releasesExactly addr with ⟨e,he,-,haddr,-⟩ | ⟨-,hrun⟩
    · simp only [BlockCall.apply,h.dealloc_found he haddr]
      exact h.released he
    · simpa only [BlockCall.apply,hrun] using h

theorem BlockInv.run (hstart : b.AlignedStart) (calls : List BlockCall) :
    BlockInv b (runCalls b s calls) := by
  induction calls generalizing s with
  | nil => exact h
  | cons call calls ih => exact ih (h.apply hstart call)

theorem BlockInv.spec (hzero : b.addr≠0 ∨ b.guarded ∨ b.size < minPageSize b.flags) :
    AllocatorSpec b s where
  __ := h
  aligned := fun e he => ⟨(h.whole e he).addr_mod,(h.whole e he).size_mod⟩
  allocated_iff := fun k hk => h.allocated_iff hk
  alloc_firstFit := h.firstFit hzero
  falloc_returns := by
    intro addr origSize flags
    rcases falloc_cases (b := b) (s := s) addr origSize false flags rfl rfl (Bool.and_false _) with
      ⟨size,-,hrun,-⟩ | hrun
    · exact ⟨true,_,hrun,by simp⟩
    · exact ⟨false,s,hrun,fun _ => rfl⟩
  dealloc_exact := h.releasesExactly

end

end Spec

theorem Block.addr_lt (b : Block) : b.addr < 2^32 := by
  have := b.fits
  have := b.size_pos
  omega

/-- `falloc` of the first byte of an empty block that starts inside of a page of its
own size takes pages in front of the block. -/
theorem falloc_leaves_block {b : Block} (hstart : ¬b.AlignedStart) :
    ∃ e∈(runCalls b {pages := fun _ => 0} [.falloc (BitVec.ofNat 32 b.addr) 1 0]).map,
      e.1 < b.addr := by
  simp only [Block.AlignedStart,not_or,not_lt] at hstart
  obtain ⟨hdvd,hend⟩ := hstart
  have hmin : minPageSize b.flags=0x10000 := by
    rcases minPageSize_cases b.flags with h | h
    · rw [h] at hdvd
      have := b.addr_mod
      omega
    · exact h
  have hg : b.guarded=false := by
    by_contra hg
    rw [Bool.not_eq_false] at hg
    rw [b.minPageSize_of_guarded hg] at hmin
    omega
  have haddr : (BitVec.ofNat 32 b.addr).toNat=b.addr := by
    rw [BitVec.toNat_ofNat,Nat.mod_eq_of_lt b.addr_lt]
  rw [hmin] at hdvd hend
  have hone : (1 : BitVec 32).toNat=1 := rfl
  have hfits : alignDown b.addr 0x10000+0x10000 ≤ b.addr+b.size := by
    rwa [alignUp_eq_of_not_dvd (by decide) hdvd] at hend
  have hsize : alignU32 ((1+b.addr%0x10000)%2^32) 0x10000=0x10000 := by
    rw [alignU32,alignUp]
    omega
  have hwhole : WholePages b.guarded (alignDown b.addr 0x10000) 0x10000 := by
    have hend' := b.fits
    have hbase : alignDown b.addr 0x10000%4096=0 := by
      rw [alignDown]
      omega
    exact ⟨hbase,by decide,by decide,by omega,fun h => by simp [hg] at h⟩
  have hrun : Vm.falloc b {pages := fun _ => 0} (BitVec.ofNat 32 b.addr) 1 false 0 =
      .ok (true,taken b {pages := fun _ => 0} (alignDown b.addr 0x10000)
        (b.allocFlags false 0) 0x10000) := by
    unfold Vm.falloc
    simp only [b.minPageSize_allocFlags,b.guarded_allocFlags,haddr,hmin,hone,hsize,hg,
      ← alignDown_eq_sub_mod,Bool.and_false,Bool.false_eq_true,if_false,false_and,or_false]
    rw [if_neg (by omega),(tryAlloc_eq b _ _ hwhole).1 (fun _ _ => rfl)]
  refine ⟨(alignDown b.addr 0x10000,0x10000),?_,?_⟩
  · simp only [runCalls,foldl_cons,foldl_nil,BlockCall.apply,hrun,taken,recordRange]
    exact mem_cons_self
  · rw [alignDown]
    omega

/-- The address `0` is free in an empty block that starts there, and giving it out
looks like a failure. -/
theorem not_firstFit_at_zero {b : Block} (haddr : b.addr=0) (hg : b.guarded=false)
    (hsize : minPageSize b.flags ≤ b.size) :
    ¬FirstFit b {pages := fun _ => 0} 1 (BitVec.ofNat 32 (minPageSize b.flags)) 0 := by
  have hmin : 0 < minPageSize b.flags ∧ minPageSize b.flags < 2^32 := by
    rcases minPageSize_cases b.flags with h | h <;> omega
  have hone : reservedSize b (1 : BitVec 32).toNat = minPageSize b.flags := by
    rw [reservedSize,requestSize,← Block.guarded,hg,guardSize_false,
      show (1 : BitVec 32).toNat = 1 from rfl]
    have hlt : alignUp 1 (minPageSize b.flags) < 1+minPageSize b.flags := alignUp_lt hmin.1
    have hge : 1 ≤ alignUp 1 (minPageSize b.flags) := le_alignUp hmin.1
    have hle := Nat.le_of_dvd hge (dvd_alignUp 1 (minPageSize b.flags))
    omega
  have hfree : ∀ align, FreeBase b {pages := fun _ => 0} (reservedSize b (1 : BitVec 32).toNat)
      align 0 := by
    intro align
    refine ⟨dvd_zero _,by omega,by omega,?_⟩
    intro k _
    show (0 : BitVec 8) &&& pageAllocated=0
    decide
  rintro (⟨base,s',-,hne,-,-,hleast,-⟩ | ⟨-,hzero | hnone⟩)
  · have := hleast 0 (hfree _)
    rw [hg,guardOffset_false] at hne
    omega
  · exact absurd hzero (by decide)
  · exact hnone 0 (hfree _)

/-- Every history of an empty block keeps to the specification of the allocator
exactly when the block starts at a multiple of its page size and not at the address
`0`; guarded blocks may start there, and blocks too small for a page are exempt. -/
theorem block_first_fit_iff (b : Block) : (∀ pages, RangeFree pages b.addr b.size → ∀ calls,
      AllocatorSpec b (runCalls b {pages} calls)) ↔
    b.AlignedStart ∧ (b.addr≠0 ∨ b.guarded ∨ b.size < minPageSize b.flags) := by
  constructor
  · intro hspec
    constructor
    · by_contra hstart
      obtain ⟨e,he,hlt⟩ := falloc_leaves_block hstart
      have := ((hspec (fun _ => 0) (fun _ _ => rfl) _).inside e he).1
      omega
    · by_contra hzero
      simp only [not_or,not_lt,Bool.not_eq_true,not_not] at hzero
      obtain ⟨haddr,hg,hsize⟩ := hzero
      have hmin : (BitVec.ofNat 32 (minPageSize b.flags)).toNat = minPageSize b.flags := by
        rcases minPageSize_cases b.flags with h | h <;> rw [h] <;> rfl
      refine not_firstFit_at_zero haddr hg hsize
        ((hspec (fun _ => 0) (fun _ _ => rfl) []).alloc_firstFit 1 _ 0 hmin.ge ?_)
      rcases minPageSize_cases b.flags with h | h <;> rw [h] <;> decide
  · rintro ⟨hstart,hzero⟩ pages hfree calls
    exact ((BlockInv.empty hfree).run hstart calls).spec hzero

def mainBlockAtZero : Block where
  addr := 0
  size := 0x1fff0000
  requestedFlags := blockSize64k ||| preallocated
  addr_mod := by decide
  size_mod := by decide
  size_pos := by decide
  size_lt := by decide
  fits := by decide

/-- The first allocation in the empty main block is recorded at `0`, and returns the
`0` of a failed one although the base was free. -/
theorem alloc_in_main_block_returns_zero :
    (alloc mainBlockAtZero {pages := fun _ => 0} 0x10000#32 0x10000#32 false 0).map
        (fun result => (result.1,result.2.map)) = .ok (0,[(0,0x10000)]) ∧
      FreeBase mainBlockAtZero {pages := fun _ => 0}
        (reservedSize mainBlockAtZero (0x10000#32).toNat) (0x10000#32).toNat 0 := by
  refine ⟨by decide,by decide,by decide,by decide,?_⟩
  intro k _
  show (0 : BitVec 8) &&& pageAllocated=0
  decide

end PS3Native.Vm
