import PS3Native.PageTable

/-!
# What one allocation does

`try_alloc` takes a range whose pages are all `0`, and the search takes the first
such range.
-/
namespace PS3Native.Vm
open List

theorem hasFlag_twoPow (flags : BitVec 64) {i : ℕ} (hi : i < 64) :
    hasFlag flags (BitVec.twoPow 64 i) = flags.getLsbD i := by
  rw [hasFlag,BitVec.and_twoPow]
  cases flags.getLsbD i with
  | false => simp
  | true =>
    simp only [if_true,bne_iff_ne]
    intro h
    have := congrArg BitVec.toNat h
    rw [BitVec.toNat_twoPow_of_lt hi] at this
    simp at this

theorem hasFlag_blockSize4k (flags : BitVec 64) : hasFlag flags blockSize4k = flags.getLsbD 8 := by
  rw [show blockSize4k = BitVec.twoPow 64 8 by decide,hasFlag_twoPow flags (by decide)]

theorem hasFlag_stackGuarded (flags : BitVec 64) : hasFlag flags stackGuarded = flags.getLsbD 4 := by
  rw [show stackGuarded = BitVec.twoPow 64 4 by decide,hasFlag_twoPow flags (by decide)]

variable {b : Block}

/-- Only a block of 4 KiB pages is guarded. -/
theorem Block.blockSize4k_of_guarded (h : b.guarded) : hasFlag b.flags blockSize4k := by
  rw [Block.guarded,hasFlag_stackGuarded,Block.flags] at h
  rw [hasFlag_blockSize4k,Block.flags]
  simp only [processBlockFlags] at h ⊢
  generalize (if b.requestedFlags &&& blockSizeMask=0 then b.requestedFlags ||| blockSize1m
    else b.requestedFlags) = f at h ⊢
  split_ifs at h ⊢ with h4k
  · rw [hasFlag_blockSize4k] at h4k
    rw [BitVec.getLsbD_or,h4k,Bool.true_or]
  · rw [BitVec.getLsbD_and,show (~~~stackGuarded).getLsbD 4 = false by decide,Bool.and_false] at h
    cases h

theorem Block.preallocated_of_guarded (h : b.guarded) : hasFlag b.flags preallocated := by
  have h4k := b.blockSize4k_of_guarded h
  rw [show preallocated = BitVec.twoPow 64 5 by decide,hasFlag_twoPow _ (by decide),Block.flags]
  rw [hasFlag_blockSize4k,Block.flags] at h4k
  simp only [processBlockFlags] at h4k ⊢
  generalize (if b.requestedFlags &&& blockSizeMask=0 then b.requestedFlags ||| blockSize1m
    else b.requestedFlags) = f at h4k ⊢
  split_ifs at h4k ⊢ with h4k'
  · rw [BitVec.getLsbD_or,show preallocated.getLsbD 5 = true by decide,Bool.or_true]
  · rw [hasFlag_blockSize4k] at h4k'
    rw [BitVec.getLsbD_and,Bool.eq_false_iff.mpr h4k',Bool.false_and] at h4k
    cases h4k

theorem Block.getLsbD_allocFlags (b : Block) (flags : BitVec 64) {i : ℕ}
    (hi : allocProtMask.getLsbD i=false) (hi' : i < 64) :
    (b.allocFlags false flags).getLsbD i = b.flags.getLsbD i := by
  rw [Block.allocFlags,if_neg Bool.false_ne_true,BitVec.getLsbD_or,BitVec.getLsbD_and,
    BitVec.getLsbD_and,BitVec.getLsbD_not,hi]
  simp [hi']

theorem Block.minPageSize_allocFlags (b : Block) (flags : BitVec 64) :
    minPageSize (b.allocFlags false flags) = minPageSize b.flags := by
  rw [minPageSize,hasFlag_blockSize4k,b.getLsbD_allocFlags flags (by decide) (by decide),
    minPageSize,hasFlag_blockSize4k]

theorem Block.guarded_allocFlags (b : Block) (flags : BitVec 64) :
    hasFlag (b.allocFlags false flags) stackGuarded=b.guarded := by
  rw [hasFlag_stackGuarded,b.getLsbD_allocFlags flags (by decide) (by decide),Block.guarded,
    hasFlag_stackGuarded]

/-- A guarded block is preallocated, so no shared memory object comes in, and then its
guard flag is that of every allocation. -/
theorem Block.guarded_allocFlags_of (b : Block) {src : Bool} (flags : BitVec 64)
    (hsrc : (hasFlag b.flags preallocated && src)=false) (h : b.guarded) :
    hasFlag (b.allocFlags src flags) stackGuarded := by
  cases src with
  | false => rw [b.guarded_allocFlags,h]
  | true =>
    rw [b.preallocated_of_guarded h] at hsrc
    cases hsrc

theorem minPageSize_cases (flags : BitVec 64) :
    minPageSize flags=0x1000 ∨ minPageSize flags=0x10000 := by
  unfold minPageSize
  split_ifs <;> simp

theorem Block.minPageSize_of_guarded (h : b.guarded) : minPageSize b.flags=0x1000 := by
  rw [minPageSize,if_pos (b.blockSize4k_of_guarded h)]

theorem guardSize_true : guardSize true=0x2000 := if_pos rfl

theorem guardSize_false : guardSize false=0 := if_neg Bool.false_ne_true

theorem guardOffset_true : guardOffset true=0x1000 := if_pos rfl

theorem guardOffset_false : guardOffset false=0 := if_neg Bool.false_ne_true

theorem pageFlags_not_allocated (bflags : BitVec 64) : pageFlags bflags &&& pageAllocated=0 := by
  unfold pageFlags
  split_ifs <;> decide

def InRange (addr size k : ℕ) : Prop := addr ≤ k*4096 ∧ k*4096 < addr+size

def RangeFree (pages : Pages) (addr size : ℕ) : Prop := ∀ k, InRange addr size k → pages k=0

def IsGuard (guarded : Bool) (addr size k : ℕ) : Prop :=
  guarded=true ∧ (k*4096=addr ∨ k*4096+4096 = addr+size)

instance (addr size k : ℕ) : Decidable (InRange addr size k) := inferInstanceAs (Decidable (_ ∧ _))

instance (guarded : Bool) (addr size k : ℕ) : Decidable (IsGuard guarded addr size k) :=
  inferInstanceAs (Decidable (_ ∧ _))

def withRange (guarded : Bool) (pages : Pages) (addr size : ℕ) (value : BitVec 8) : Pages := fun k =>
  if InRange addr size k then (if IsGuard guarded addr size k then pageAllocated else value)
  else pages k

theorem withRange_of_mem {guarded : Bool} {pages : Pages} {addr size k : ℕ} {value : BitVec 8}
    (h : InRange addr size k) : withRange guarded pages addr size value k =
      if IsGuard guarded addr size k then pageAllocated else value := if_pos h

theorem withRange_of_notMem {guarded : Bool} {pages : Pages} {addr size k : ℕ} {value : BitVec 8}
    (h : ¬InRange addr size k) : withRange guarded pages addr size value k = pages k := if_neg h

/-- The sizes and addresses `try_alloc` is called with. -/
structure WholePages (guarded : Bool) (addr size : ℕ) : Prop where
  addr_mod : addr%4096=0
  size_mod : size%4096=0
  size_pos : 0 < size
  fits : addr+size ≤ 2^32
  room : guarded=true → 0x3000 ≤ size

theorem pagesFree_iff {guarded : Bool} {addr size : ℕ} (h : WholePages guarded addr size)
    (pages : Pages) :
    pagesFree pages (addr/4096) ((addr+size-1)%2^32/4096) ↔ RangeFree pages addr size := by
  have := h.addr_mod
  have := h.size_pos
  have := h.fits
  simp only [pagesFree,all_eq_true,mem_range'_1,beq_iff_eq,RangeFree,InRange]
  constructor
  · intro hfree k hk
    exact hfree k (by omega)
  · intro hfree k hk
    exact hfree k (by omega)

theorem pageMap_eq {pages : Pages} {addr size : ℕ} (haddr : addr%4096=0) (hsize : size%4096=0)
    (hpos : 0 < size) (bflags : BitVec 64) (hfree : RangeFree pages addr size) :
    pageMap pages addr (pageFlags bflags) size =
      .ok (withRange false pages addr size (pageFlags bflags ||| pageAllocated)) := by
  have hall : (range' (addr/4096) (size/4096)).all (fun i => pages i == 0) := by
    simp only [all_eq_true,mem_range'_1,beq_iff_eq]
    intro k hk
    exact hfree k (by simp only [InRange]; omega)
  have hargs : ¬(size=0 ∨ size%4096≠0 ∨ addr%4096≠0 ∨ pageFlags bflags &&& pageAllocated≠0) := by
    simp only [pageFlags_not_allocated,haddr,hsize,ne_eq,not_true,or_false]
    omega
  rw [pageMap,if_neg hargs,hall,Bool.not_true,if_neg Bool.false_ne_true]
  congr 1
  funext k
  have hmem : (addr/4096 ≤ k ∧ k < addr/4096+size/4096) ↔ InRange addr size k := by
    simp only [InRange]
    omega
  simp [fillPages,withRange,hmem,IsGuard]

section Guards

variable {guarded : Bool} {pages : Pages} {addr size : ℕ}

section

variable (h : WholePages guarded addr size)

include h

theorem WholePages.inner_iff (k : ℕ) :
    InRange (addr+guardOffset guarded) (size-guardSize guarded) k ↔
      InRange addr size k ∧ ¬IsGuard guarded addr size k := by
  have haddr := h.addr_mod
  have hsize := h.size_mod
  cases hg : guarded with
  | false => simp [guardOffset_false,guardSize_false,IsGuard]
  | true =>
    have hoffset := guardOffset_true
    have hguards := guardSize_true
    simp only [InRange,IsGuard,true_and]
    omega

theorem WholePages.inner_mod :
    (addr+guardOffset guarded)%4096=0 ∧ (size-guardSize guarded)%4096=0 ∧
      0 < size-guardSize guarded := by
  have haddr := h.addr_mod
  have hsize := h.size_mod
  have hpos := h.size_pos
  have hroom := h.room
  unfold guardOffset guardSize
  split_ifs with hg
  · have := hroom hg
    omega
  · omega

theorem WholePages.inRange_of_isGuard {k : ℕ} (hk : IsGuard guarded addr size k) :
    InRange addr size k := by
  have hroom := h.room hk.1
  simp only [IsGuard,hk.1,true_and] at hk
  simp only [InRange]
  omega

theorem mapGuards_eq (hg : guarded) (hfree : RangeFree pages addr size) :
    ∃ pages', mapGuards pages addr size = .ok pages' ∧
      ∀ k, pages' k = if IsGuard guarded addr size k then pageAllocated else pages k := by
  have haddr := h.addr_mod
  have hsize := h.size_mod
  have hroom := h.room hg
  have hfirst : pages (addr/4096)=0 := hfree _ (by simp only [InRange]; omega)
  have hlast : pages (addr/4096+size/4096-1)=0 := hfree _ (by simp only [InRange]; omega)
  have hne : addr/4096+size/4096-1≠addr/4096 := by omega
  refine ⟨Function.update (Function.update pages (addr/4096) pageAllocated)
    (addr/4096+size/4096-1) pageAllocated,?_,?_⟩
  · simp [mapGuards,hfirst,Function.update_of_ne hne,hlast]
  · intro k
    simp only [Function.update_apply,IsGuard,hg,true_and]
    split_ifs <;> first | rfl | omega

theorem mapGuards_inner {pages' : Pages} (hfree : RangeFree pages addr size)
    (hpages' : ∀ k, pages' k = if IsGuard guarded addr size k then pageAllocated else pages k) :
    RangeFree pages' (addr+guardOffset guarded) (size-guardSize guarded) ∧
      ∀ value, withRange false pages' (addr+guardOffset guarded) (size-guardSize guarded) value =
        withRange guarded pages addr size value := by
  constructor
  · intro k hk
    obtain ⟨hin,hnot⟩ := (h.inner_iff k).mp hk
    rw [hpages',if_neg hnot,hfree k hin]
  · intro value
    funext k
    by_cases hin : InRange (addr+guardOffset guarded) (size-guardSize guarded) k
    · obtain ⟨hout,hnot⟩ := (h.inner_iff k).mp hin
      rw [withRange_of_mem hin,withRange_of_mem hout,if_neg hnot,
        if_neg (fun h => Bool.false_ne_true h.1)]
    · rw [withRange_of_notMem hin,hpages',withRange]
      by_cases hk : IsGuard guarded addr size k
      · rw [if_pos hk,if_pos (h.inRange_of_isGuard hk),if_pos hk]
      · rw [if_neg hk,if_neg (fun hout => hin ((h.inner_iff k).mpr ⟨hout,hk⟩))]

end

end Guards

def taken (b : Block) (s : BlockState) (addr : ℕ) (bflags : BitVec 64) (size : ℕ) : BlockState where
  pages := withRange b.guarded s.pages addr size (pageFlags bflags ||| pageAllocated)
  map := recordRange s.map addr size

theorem tryAlloc_eq (b : Block) (s : BlockState) {addr size : ℕ} (bflags : BitVec 64)
    (h : WholePages b.guarded addr size) :
    (RangeFree s.pages addr size →
      tryAlloc b s addr bflags size = .ok (some (taken b s addr bflags size))) ∧
    (¬RangeFree s.pages addr size → tryAlloc b s addr bflags size = .ok none) := by
  have hcheck := pagesFree_iff h s.pages
  constructor
  · intro hfree
    obtain ⟨pages',hguards,hfree',hwith⟩ : ∃ pages',
        (if b.guarded then mapGuards s.pages addr size else .ok s.pages) = .ok pages' ∧
        RangeFree pages' (addr+guardOffset b.guarded) (size-guardSize b.guarded) ∧
        ∀ value, withRange false pages' (addr+guardOffset b.guarded)
          (size-guardSize b.guarded) value = withRange b.guarded s.pages addr size value := by
      by_cases hg : b.guarded
      · obtain ⟨pages',hguards,hpages'⟩ := mapGuards_eq h hg hfree
        exact ⟨pages',by rw [if_pos hg,hguards],mapGuards_inner h hfree hpages'⟩
      · rw [Bool.not_eq_true] at hg
        refine ⟨s.pages,if_neg (by simp [hg]),?_⟩
        rw [hg,guardOffset_false,guardSize_false]
        exact ⟨hfree,fun _ => rfl⟩
    have hinner := h.inner_mod
    simp only [tryAlloc,hcheck.mpr hfree,Bool.not_true,Bool.false_eq_true,if_false,hguards]
    rw [pageMap_eq hinner.1 hinner.2.1 hinner.2.2 bflags hfree',hwith,taken]
  · intro hfree
    rw [tryAlloc,Bool.eq_false_iff.mpr (fun hf => hfree (hcheck.mp hf))]
    rfl

/-- The search ends, and takes the first free multiple of `align` if there is one. -/
theorem searchLoop_spec (b : Block) (s : BlockState) (flags : BitVec 64) {size align max : ℕ}
    (hpos : 0 < align) (hmax : max < 2^32)
    (hwhole : ∀ base, align ∣ base → base ≤ max → WholePages b.guarded base size)
    (n fuel addr : ℕ) (hn : addr+n*align = max) (hfuel : n < fuel) (haddr : align ∣ addr) :
    (∃ base, searchLoop b s flags size align max fuel addr =
        .ok (some (base,taken b s base flags size)) ∧
      align ∣ base ∧ addr ≤ base ∧ base ≤ max ∧ RangeFree s.pages base size ∧
      ∀ base', align ∣ base' → addr ≤ base' → RangeFree s.pages base' size → base ≤ base') ∨
    (searchLoop b s flags size align max fuel addr = .ok none ∧
      ∀ base, align ∣ base → addr ≤ base → base ≤ max → ¬RangeFree s.pages base size) := by
  induction n generalizing fuel addr with obtain ⟨fuel,rfl⟩ : ∃ k, fuel = k+1 := ⟨fuel-1,by omega⟩
  | zero =>
    obtain rfl : addr=max := by omega
    obtain ⟨hsome,hnone⟩ := tryAlloc_eq b s flags (hwhole addr haddr (Nat.le_refl _))
    by_cases hfree : RangeFree s.pages addr size
    · refine .inl ⟨addr,?_,haddr,Nat.le_refl _,Nat.le_refl _,hfree,fun _ _ h _ => h⟩
      rw [searchLoop,hsome hfree]
    · refine .inr ⟨by rw [searchLoop,hnone hfree]; simp,?_⟩
      intro base _ hle hge
      obtain rfl : addr=base := by omega
      exact hfree
  | succ n ih =>
    rw [Nat.succ_mul] at hn
    obtain ⟨hsome,hnone⟩ := tryAlloc_eq b s flags (hwhole addr haddr (by omega))
    by_cases hfree : RangeFree s.pages addr size
    · refine .inl ⟨addr,?_,haddr,Nat.le_refl _,by omega,hfree,fun _ _ h _ => h⟩
      rw [searchLoop,hsome hfree]
    · have hstep : searchLoop b s flags size align max (fuel+1) addr =
          searchLoop b s flags size align max fuel (addr+align) := by
        rw [searchLoop,hnone hfree]
        rw [if_neg (by omega),Nat.mod_eq_of_lt (by omega)]
      have hnext : ∀ base, align ∣ base → addr ≤ base → RangeFree s.pages base size →
          addr+align ≤ base := by
        intro base hbase hle hbfree
        have hne : addr≠base := by
          rintro rfl
          exact hfree hbfree
        have hdvd := (Nat.dvd_sub hbase haddr)
        have := Nat.le_of_dvd (by omega) hdvd
        omega
      rw [hstep]
      rcases ih fuel (addr+align) (by omega) (by omega) ((Nat.dvd_add_right haddr).mpr dvd_rfl) with
        ⟨base,heq,hdvd,hle,hge,hbfree,hleast⟩ | ⟨heq,hnot⟩
      · refine .inl ⟨base,heq,hdvd,by omega,hge,hbfree,?_⟩
        intro base' hdvd' hle' hfree'
        exact hleast base' hdvd' (hnext base' hdvd' hle' hfree') hfree'
      · refine .inr ⟨heq,?_⟩
        intro base hdvd hle hge hbfree
        exact hnot base hdvd (hnext base hdvd hle hbfree) hge hbfree

end PS3Native.Vm
