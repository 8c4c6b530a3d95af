import PS3Native.PageUnits
import PS3Native.VmFirstFit

/-!
# `check_addr` over runs of the memory manager

A 1 MiB block accepts requests in multiples of 64 KiB, and gives their pages the flag of 1 MiB
pages; `check_addr` then skips the rest of the unit.
-/
namespace PS3Native.Vm

structure VmState (ι : Type*) where
  pages : Pages
  maps : ι → List (ℕ × ℕ)

namespace VmState

variable {ι : Type*}

def empty : VmState ι := ⟨fun _ => 0,fun _ => []⟩

def block (s : VmState ι) (i : ι) : BlockState := ⟨s.pages,s.maps i⟩

def setBlock [DecidableEq ι] (s : VmState ι) (i : ι) (t : BlockState) : VmState ι :=
  ⟨t.pages,Function.update s.maps i t.map⟩

@[simp] theorem setBlock_block [DecidableEq ι] (s : VmState ι) (i : ι) :
    s.setBlock i (s.block i)=s := by
  rw [setBlock,block,Function.update_eq_self]

end VmState

inductive VmCall (ι : Type*)
  | alloc (i : ι) (origSize align : BitVec 32) (src : Bool) (flags : BitVec 64)
  | falloc (i : ι) (addr origSize : BitVec 32) (src : Bool) (flags : BitVec 64)
  | dealloc (i : ι) (addr : BitVec 32)
  | protect (addr size : BitVec 32) (flagsTest flagsSet flagsClear : BitVec 8)

variable {ι : Type*}

def VmCall.exec [DecidableEq ι] (blocks : ι → Block) (s : VmState ι) : VmCall ι → Except VmError (VmState ι)
  | .alloc i origSize align src flags =>
    (Vm.alloc (blocks i) (s.block i) origSize align src flags).map fun r => s.setBlock i r.2
  | .falloc i addr origSize src flags =>
    (Vm.falloc (blocks i) (s.block i) addr origSize src flags).map fun r => s.setBlock i r.2
  | .dealloc i addr => (Vm.dealloc (blocks i) (s.block i) addr).map fun r => s.setBlock i r.2
  | .protect addr size flagsTest flagsSet flagsClear =>
    (pageProtect s.pages addr size flagsTest flagsSet flagsClear).map fun r => {s with pages := r.2}

def unitBytes (flags : BitVec 64) : ℕ := unitPages (pageFlags flags)*4096

/-- The call takes whole units, or protects whole units. -/
def VmCall.KeepsUnits (blocks : ι → Block) (s : VmState ι) : VmCall ι → Prop
  | .alloc i origSize align src flags =>
    unitBytes ((blocks i).allocFlags src flags) ∣ align.toNat ∧
      unitBytes ((blocks i).allocFlags src flags) ∣
        requestSize ((blocks i).allocFlags src flags) origSize.toNat
  | .falloc i addr origSize src flags =>
    unitBytes ((blocks i).allocFlags src flags) ∣
        alignDown addr.toNat (minPageSize ((blocks i).allocFlags src flags)) ∧
      unitBytes ((blocks i).allocFlags src flags) ∣
        fallocSize ((blocks i).allocFlags src flags) addr.toNat origSize.toNat
  | .dealloc _ _ => True
  | .protect addr size flagsTest flagsSet flagsClear =>
    ProtectAccepted s.pages addr size flagsTest →
      ProtectsUnits s.pages addr size flagsSet flagsClear

/-- A run from empty memory, of calls that do not throw and keep the units. -/
inductive UnitRun [DecidableEq ι] (blocks : ι → Block) : VmState ι → Prop
  | start : UnitRun blocks .empty
  | step {s t : VmState ι} (call : VmCall ι) (hrun : UnitRun blocks s)
    (hkeeps : call.KeepsUnits blocks s) (hexec : call.exec blocks s = .ok t) : UnitRun blocks t

/-- The pages of a unit agree, and a recorded range is whole units of its own. -/
structure UnitInv (blocks : ι → Block) (s : VmState ι) : Prop where
  uniform : Uniform s.pages
  whole : ∀ i, ∀ e∈s.maps i, WholePages (blocks i).guarded e.1 e.2
  allocated : ∀ i, ∀ e∈s.maps i, ∀ k, InRange e.1 e.2 k → s.pages k &&& pageAllocated≠0
  closed : ∀ i, ∀ e∈s.maps i, UnitClosed s.pages (InRange e.1 e.2)
  apart : ∀ i, ∀ e∈s.maps i, ∀ j, ∀ f∈s.maps j, ∀ k, InRange e.1 e.2 k → InRange f.1 f.2 k →
    i=j ∧ e.1=f.1

section Calls

variable {b : Block} {s t : BlockState} {src : Bool} {flags : BitVec 64}

theorem unitPages_or_allocated (value : BitVec 8) :
    unitPages (value ||| pageAllocated) = unitPages value := by
  have h1m : (value ||| pageAllocated) &&& page1mSize = value &&& page1mSize := by
    rw [BitVec.and_or_distrib_right]
    exact BitVec.or_zero
  have h64k : (value ||| pageAllocated) &&& page64kSize = value &&& page64kSize := by
    rw [BitVec.and_or_distrib_right]
    exact BitVec.or_zero
  rw [unitPages,h1m,h64k,unitPages]

/-- Pages of 4 KiB speak for themselves. -/
theorem unitPages_of_blockSize4k (h : hasFlag flags blockSize4k) :
    unitPages (pageFlags flags)=1 := by
  have hbit := h
  rw [hasFlag_blockSize4k] at hbit
  have h64k : flags &&& blockSizeMask≠blockSize64k := by
    intro heq
    have := congrArg (·.getLsbD 8) heq
    simp only [BitVec.getLsbD_and,hbit,Bool.true_and] at this
    exact absurd this (by decide)
  have hsmall : hasFlag flags (blockSizeMask &&& ~~~blockSize1m) := by
    rw [hasFlag,bne_iff_ne]
    intro heq
    have := congrArg (·.getLsbD 8) heq
    simp only [BitVec.getLsbD_and,hbit,Bool.true_and] at this
    exact absurd this (by decide)
  unfold pageFlags
  rw [if_neg h64k,hsmall]
  split_ifs <;> first | decide | contradiction

theorem Block.blockSize4k_allocFlags_of (b : Block) (flags : BitVec 64)
    (hsrc : (hasFlag b.flags preallocated && src)=false) (h : b.guarded) :
    hasFlag (b.allocFlags src flags) blockSize4k := by
  cases src with
  | false =>
    rw [hasFlag_blockSize4k,b.getLsbD_allocFlags flags (by decide) (by decide),
      ← hasFlag_blockSize4k,b.blockSize4k_of_guarded h]
  | true =>
    rw [Bool.and_true,b.preallocated_of_guarded h] at hsrc
    cases hsrc

theorem innerUnits_of_dvd {base size : ℕ} (hsrc : (hasFlag b.flags preallocated && src)=false)
    (hwhole : WholePages b.guarded base size) (hbase : unitBytes (b.allocFlags src flags) ∣ base)
    (hsize : unitBytes (b.allocFlags src flags) ∣ size) :
    InnerUnits b.guarded (pageFlags (b.allocFlags src flags) ||| pageAllocated) base size := by
  rw [InnerUnits,unitPages_or_allocated,← unitBytes]
  by_cases hg : b.guarded
  · rw [unitBytes,unitPages_of_blockSize4k (b.blockSize4k_allocFlags_of flags hsrc hg),Nat.one_mul]
    obtain ⟨hinner,hinner',-⟩ := hwhole.inner_mod
    exact ⟨Nat.dvd_of_mod_eq_zero hinner,Nat.dvd_of_mod_eq_zero hinner'⟩
  · rw [Bool.not_eq_true] at hg
    rw [hg,guardOffset_false,guardSize_false]
    exact ⟨hbase,hsize⟩

/-- An `alloc` that does not throw takes a free multiple of `align`, or nothing. -/
theorem alloc_ok {origSize align : BitVec 32} {result : ℕ}
    (hrun : alloc b s origSize align src flags = .ok (result,t)) :
    t=s ∨ ∃ base size, t = taken b s base (b.allocFlags src flags) size ∧
      size = requestSize (b.allocFlags src flags) origSize.toNat ∧
      (hasFlag b.flags preallocated && src)=false ∧ align.toNat ∣ base ∧
      WholePages b.guarded base size ∧ RangeFree s.pages base size := by
  by_cases hvalid : minPageSize (b.allocFlags src flags) ≤ align.toNat ∧
      align.toNat = 2^align.toNat.log2
  · cases hsrc : hasFlag b.flags preallocated && src with
    | false =>
      rcases alloc_cases (b := b) (s := s) origSize align src flags rfl rfl hsrc hvalid.1 hvalid.2 with
        ⟨base,-,hrun',hwhole,hdvd,-,-,hfree,-⟩ | ⟨hrun',-⟩
      · rw [hrun'] at hrun
        exact .inr ⟨base,_,(Prod.mk.inj (Except.ok.inj hrun)).2.symm,rfl,rfl,hdvd,hwhole,hfree⟩
      · rw [hrun'] at hrun
        exact .inl (Prod.mk.inj (Except.ok.inj hrun)).2.symm
    | true =>
      unfold alloc at hrun
      simp only [hsrc,if_true] at hrun
      split_ifs at hrun
      exact .inl (Prod.mk.inj (Except.ok.inj hrun)).2.symm
  · unfold alloc at hrun
    rw [if_pos] at hrun
    · cases hrun
    · by_contra hnot
      rw [not_or,not_not,not_lt] at hnot
      exact hvalid hnot

theorem falloc_ok {addr origSize : BitVec 32} {result : Bool}
    (hrun : falloc b s addr origSize src flags = .ok (result,t)) :
    t=s ∨ ∃ base size, t = taken b s base (b.allocFlags src flags) size ∧
      base = alignDown addr.toNat (minPageSize (b.allocFlags src flags)) ∧
      size = fallocSize (b.allocFlags src flags) addr.toNat origSize.toNat ∧
      (hasFlag b.flags preallocated && src)=false ∧ WholePages b.guarded base size ∧
      RangeFree s.pages base size := by
  cases hsrc : hasFlag b.flags preallocated && src with
  | false =>
    rcases falloc_cases (b := b) (s := s) addr origSize src flags rfl rfl hsrc with
      ⟨size,rfl,hrun',hwhole,-,-,-,hfree⟩ | hrun'
    · rw [hrun'] at hrun
      exact .inr ⟨_,_,(Prod.mk.inj (Except.ok.inj hrun)).2.symm,rfl,rfl,rfl,hwhole,hfree⟩
    · rw [hrun'] at hrun
      exact .inl (Prod.mk.inj (Except.ok.inj hrun)).2.symm
  | true =>
    unfold falloc at hrun
    simp only [hsrc,if_true] at hrun
    split_ifs at hrun
    exact .inl (Prod.mk.inj (Except.ok.inj hrun)).2.symm

end Calls

section Invariant

variable {blocks : ι → Block} {s t : VmState ι}

theorem UnitInv.empty : UnitInv blocks .empty where
  uniform := by
    intro k j _
    rfl
  whole := by simp [VmState.empty]
  allocated := by simp [VmState.empty]
  closed := by simp [VmState.empty]
  apart := by simp [VmState.empty]

theorem UnitInv.protected (h : UnitInv blocks s) {pages : Pages} (huniform : Uniform pages)
    (hkeep : ∀ k, pages k &&& structureFlags = s.pages k &&& structureFlags) :
    UnitInv blocks {s with pages} := by
  refine ⟨huniform,h.whole,?_,?_,h.apart⟩
  · intro i e he k hk
    show pages k &&& pageAllocated≠0
    rw [and_eq_of_structureFlags (hkeep k) (by decide)]
    exact h.allocated i e he k hk
  · intro i e he k j hk hkj
    exact h.closed i e he k j hk (hkj.congr (unitPages_congr (hkeep k)))

variable [DecidableEq ι] {e : ℕ × ℕ} {i : ι}

theorem mem_maps_taken {j : ι} {base size : ℕ} {flags : BitVec 64}
    (he : e∈(s.setBlock i (taken (blocks i) (s.block i) base flags size)).maps j) :
    (j=i ∧ e = (base,size)) ∨ e∈s.maps j := by
  by_cases hj : j=i
  · subst hj
    simp only [VmState.setBlock,Function.update_self,taken,recordRange,List.mem_cons] at he
    rcases he with rfl | he
    · exact .inl ⟨rfl,rfl⟩
    · exact .inr (List.mem_filter.mp he).1
  · simp only [VmState.setBlock,Function.update_of_ne hj] at he
    exact .inr he

theorem UnitInv.taken (h : UnitInv blocks s) {base size : ℕ} {flags : BitVec 64}
    (hunits : InnerUnits (blocks i).guarded (pageFlags flags ||| pageAllocated) base size)
    (hwhole : WholePages (blocks i).guarded base size) (hfree : RangeFree s.pages base size) :
    UnitInv blocks (s.setBlock i (Vm.taken (blocks i) (s.block i) base flags size)) := by
  have hapart : ∀ j, ∀ e∈s.maps j, ∀ k, InRange e.1 e.2 k → ¬InRange base size k := by
    intro j e he k hk hk'
    refine h.allocated j e he k hk ?_
    rw [hfree k hk']
    decide
  refine ⟨h.uniform.withRange hunits hwhole hfree,?_,?_,?_,?_⟩
  · intro j e he
    rcases mem_maps_taken he with ⟨rfl,rfl⟩ | he
    · exact hwhole
    · exact h.whole j e he
  · intro j e he k hk
    show withRange _ s.pages base size _ k &&& pageAllocated≠0
    rcases mem_maps_taken he with ⟨rfl,rfl⟩ | he
    · rw [withRange_of_mem hk]
      split_ifs
      · decide
      · rw [or_and_cancel]
        decide
    · rw [withRange_of_notMem (hapart j e he k hk)]
      exact h.allocated j e he k hk
  · intro j e he k l hk hkl
    rcases mem_maps_taken he with ⟨rfl,rfl⟩ | he
    · exact (hunits.sameUnit hwhole hk hkl).1
    · refine h.closed j e he k l hk (hkl.congr ?_)
      exact congrArg unitPages (withRange_of_notMem (hapart j e he k hk))
  · intro j e he j' f hf k hk hk'
    rcases mem_maps_taken he with ⟨rfl,rfl⟩ | hold
    · rcases mem_maps_taken hf with ⟨rfl,rfl⟩ | hold'
      · exact ⟨rfl,rfl⟩
      · exact absurd hk (hapart j' f hold' k hk')
    · rcases mem_maps_taken hf with ⟨rfl,rfl⟩ | hold'
      · exact absurd hk' (hapart j e hold k hk)
      · exact h.apart j e hold j' f hold' k hk hk'

theorem mem_maps_released {j : ι} {f : ℕ × ℕ} {pages : Pages}
    (hf : f∈(s.setBlock i ⟨pages,(s.maps i).filter (fun f => f.1≠e.1)⟩).maps j) :
    f∈s.maps j ∧ ¬(i=j ∧ e.1=f.1) := by
  by_cases hj : j=i
  · subst hj
    simp only [VmState.setBlock,Function.update_self,List.mem_filter,decide_eq_true_eq] at hf
    exact ⟨hf.1,fun h => hf.2 h.2.symm⟩
  · simp only [VmState.setBlock,Function.update_of_ne hj] at hf
    exact ⟨hf,fun h => hj h.1.symm⟩

theorem UnitInv.released (h : UnitInv blocks s) (he : e∈s.maps i) : UnitInv blocks (s.setBlock i
      ⟨withoutRange s.pages e.1 e.2,(s.maps i).filter (fun f => f.1≠e.1)⟩) := by
  have hkept : ∀ j, ∀ f∈s.maps j, ¬(i=j ∧ e.1=f.1) → ∀ k, InRange f.1 f.2 k →
      withoutRange s.pages e.1 e.2 k = s.pages k := by
    intro j f hf hne k hk
    exact if_neg fun hk' => hne (h.apart i e he j f hf k hk' hk)
  refine ⟨h.uniform.withoutRange (h.closed i e he),?_,?_,?_,?_⟩
  · intro j f hf
    exact h.whole j f (mem_maps_released hf).1
  · intro j f hf k hk
    obtain ⟨hf,hne⟩ := mem_maps_released hf
    show withoutRange s.pages e.1 e.2 k &&& pageAllocated≠0
    rw [hkept j f hf hne k hk]
    exact h.allocated j f hf k hk
  · intro j f hf k l hk hkl
    obtain ⟨hf,hne⟩ := mem_maps_released hf
    exact h.closed j f hf k l hk (hkl.congr (congrArg unitPages (hkept j f hf hne k hk)))
  · intro j f hf j' g hg
    exact h.apart j f (mem_maps_released hf).1 j' g (mem_maps_released hg).1

theorem exists_of_map_eq_ok {ε α β : Type*} {x : Except ε α} {f : α → β} {y : β}
    (h : x.map f = .ok y) : ∃ a, x = .ok a ∧ f a=y := by
  cases x with
  | error e => cases h
  | ok a => exact ⟨a,rfl,Except.ok.inj h⟩

theorem UnitInv.exec (h : UnitInv blocks s) {call : VmCall ι} (hkeeps : call.KeepsUnits blocks s)
    (hexec : call.exec blocks s = .ok t) : UnitInv blocks t := by
  cases call with
  | alloc i origSize align src flags =>
    obtain ⟨⟨result,state⟩,hrun,rfl⟩ := exists_of_map_eq_ok hexec
    rcases alloc_ok hrun with rfl | ⟨base,_,rfl,rfl,hsrc,hdvd,hwhole,hfree⟩
    · simpa using h
    · exact h.taken (innerUnits_of_dvd hsrc hwhole (hkeeps.1.trans hdvd) hkeeps.2) hwhole hfree
  | falloc i addr origSize src flags =>
    obtain ⟨⟨result,state⟩,hrun,rfl⟩ := exists_of_map_eq_ok hexec
    rcases falloc_ok hrun with rfl | ⟨_,_,rfl,rfl,rfl,hsrc,hwhole,hfree⟩
    · simpa using h
    · exact h.taken (innerUnits_of_dvd hsrc hwhole hkeeps.1 hkeeps.2) hwhole hfree
  | dealloc i addr =>
    obtain ⟨⟨result,state⟩,hrun,rfl⟩ := exists_of_map_eq_ok hexec
    rcases dealloc_ok (h.whole i) hrun with rfl | ⟨e,he,rfl⟩
    · simpa using h
    · exact h.released he
  | protect addr size flagsTest flagsSet flagsClear =>
    obtain ⟨⟨result,pages⟩,hrun,rfl⟩ := exists_of_map_eq_ok hexec
    obtain ⟨huniform,hkeep⟩ := h.uniform.pageProtect hkeeps hrun
    exact h.protected huniform hkeep

theorem UnitRun.inv (h : UnitRun blocks s) : UnitInv blocks s := by
  induction h with
  | start => exact .empty
  | step call _ hkeeps hexec ih => exact ih.exec hkeeps hexec

end Invariant

/-- In every run that takes and protects whole units, `check_addr` holds exactly when
the range is in the address space and all of its pages are allocated with the flags. -/
theorem check_addr_exact_in_unit_runs [DecidableEq ι] (blocks : ι → Block) (s : VmState ι)
    (hrun : UnitRun blocks s) (addr : ℕ) (flags : BitVec 8) (size : ℕ) (hsize : 0 < size) :
    checkAddr s.pages addr flags size ↔ addr+size ≤ 2^32 ∧ ∀ k, Touches addr size k →
        HasFlags (s.pages k) pageAllocated ∧ HasFlags (s.pages k) flags :=
  hrun.inv.uniform.checkAddr_iff addr flags hsize

def userBlock (pageSize : BitVec 64) : Block where
  addr := 0x20000000
  size := 0x10000000
  requestedFlags := pageSize
  addr_mod := by decide
  size_mod := by decide
  size_pos := by decide
  size_lt := by decide
  fits := by decide

/-- A 64 KiB allocation in a 64 KiB block is such a run. -/
theorem check_addr_exact_after_alloc : ∃ s,
    UnitRun (fun _ : Unit => userBlock blockSize64k) s ∧ s.pages 0x20000 = 0xa3#8 ∧
    (checkAddr s.pages 0x20000000 pageWritable 0x10000 ↔
      0x20000000+0x10000 ≤ 2^32 ∧ ∀ k, Touches 0x20000000 0x10000 k →
        HasFlags (s.pages k) pageAllocated ∧ HasFlags (s.pages k) pageWritable) := by
  have hexec : ((VmCall.alloc () 0x10000 0x10000 false 0).exec
      (fun _ => userBlock blockSize64k) .empty).map (fun s => s.pages 0x20000) = .ok 0xa3#8 := by
    decide
  obtain ⟨s,hexec,hpage⟩ := exists_of_map_eq_ok hexec
  have hrun : UnitRun (fun _ : Unit => userBlock blockSize64k) s :=
    .step _ .start (by unfold VmCall.KeepsUnits; decide) hexec
  exact ⟨s,hrun,hpage,check_addr_exact_in_unit_runs _ s hrun _ _ _ (by decide)⟩

/-- After a 64 KiB allocation in a 1 MiB block, `check_addr` accepts the 64 KiB behind it,
which are not allocated. -/
theorem check_addr_skips_free_pages : ∃ s, (VmCall.alloc () 0x10000 0x10000 false 0).exec
      (fun _ : Unit => userBlock blockSize1m) .empty = .ok s ∧
    checkAddr s.pages 0x20000000 pageWritable 0x20000 ∧
    Touches 0x20000000 0x20000 0x20010 ∧ s.pages 0x20010=0 := by
  have hexec : ((VmCall.alloc () 0x10000 0x10000 false 0).exec
      (fun _ : Unit => userBlock blockSize1m) .empty).map
        (fun s => (checkAddr s.pages 0x20000000 pageWritable 0x20000,s.pages 0x20010)) =
      .ok (true,0) := by
    decide
  obtain ⟨s,hexec,hpage⟩ := exists_of_map_eq_ok hexec
  obtain ⟨hcheck,hzero⟩ := Prod.mk.inj hpage
  exact ⟨s,hexec,hcheck,by unfold Touches; decide,hzero⟩

end PS3Native.Vm
