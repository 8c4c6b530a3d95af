import PS3Native.VmAllocator

/-!
# What one release does

`dealloc` finds a range by the address that was given out, and its size again by the
page flags. Whatever the flags are, a release that does not throw has cleared all
pages of the range, guard pages included.
-/
namespace PS3Native.Vm

def withoutRange (pages : Pages) (addr size : ℕ) : Pages := fun k =>
  if InRange addr size k then 0 else pages k

/-- The pages of a recorded range carry one value, except for its guard pages. -/
def RangeHolds (guarded : Bool) (pages : Pages) (addr size : ℕ) (value : BitVec 8) : Prop :=
  ∀ k, InRange addr size k → pages k = if IsGuard guarded addr size k then pageAllocated else value

theorem unmapScan_eq {pages : Pages} {value : BitVec 8} (hvalue : value &&& pageAllocated≠0)
    (count i size : ℕ) (mapFlags : BitVec 8) (hpages : ∀ k, i ≤ k → k < i+count → pages k=value)
    (hflags : size=0 ∨ mapFlags = value &&& ~~~(pageWritable ||| pageReadable)) :
    unmapScan pages count i size mapFlags = .ok (size+count*4096) := by
  induction count generalizing i size mapFlags with
  | zero => simp [unmapScan]
  | succ count ih =>
    have hi : pages i=value := hpages i (Nat.le_refl _) (by omega)
    have hconsistent : ¬(size≠0 ∧ mapFlags≠value &&& ~~~(pageWritable ||| pageReadable)) := by
      rintro ⟨hsize,hne⟩
      rcases hflags with hzero | heq
      · exact hsize hzero
      · exact hne heq
    rw [unmapScan,hi,if_neg hvalue]
    rw [if_neg hconsistent,ih (i+1) (size+4096) _ (fun k _ _ => hpages k (by omega) (by omega))
      (.inr rfl)]
    congr 1
    omega

theorem fillPages_zero {addr size : ℕ} (haddr : addr%4096=0) (hsize : size%4096=0)
    (pages : Pages) : fillPages pages (addr/4096) (addr/4096+size/4096) 0 =
      withoutRange pages addr size := by
  funext k
  have hmem : (addr/4096 ≤ k ∧ k < addr/4096+size/4096) ↔ InRange addr size k := by
    simp only [InRange]
    omega
  simp [fillPages,withoutRange,hmem]

theorem pageUnmap_eq {pages : Pages} {addr size : ℕ} {value : BitVec 8}
    (haddr : addr%4096=0) (hsize : size%4096=0) (hpos : 0 < size)
    (hvalue : value &&& pageAllocated≠0) (hpages : ∀ k, InRange addr size k → pages k=value) :
    pageUnmap pages addr size = .ok (size,withoutRange pages addr size) := by
  have hscan : unmapScan pages (size/4096) (addr/4096) 0 0 = .ok size := by
    rw [unmapScan_eq hvalue _ _ _ _ ?_ (.inl rfl)]
    · congr 1
      omega
    · intro k hk hk'
      exact hpages k (by simp only [InRange]; omega)
  rw [pageUnmap,if_neg (by omega),hscan]
  simp only
  rw [if_neg (by omega),fillPages_zero haddr hsize]

theorem pageUnmap_ok {pages pages' : Pages} {addr size : ℕ} (haddr : addr%4096=0)
    (hsize : size%4096=0) (h : pageUnmap pages addr size = .ok (size,pages')) :
    pages' = withoutRange pages addr size := by
  unfold pageUnmap at h
  split_ifs at h
  cases hscan : unmapScan pages (size/4096) (addr/4096) 0 0 with
  | error e =>
    simp only [hscan] at h
    exact nomatch h
  | ok found =>
    simp only [hscan] at h
    split_ifs at h
    obtain ⟨rfl,rfl⟩ : found=size ∧
        fillPages pages (addr/4096) (addr/4096+found/4096) 0=pages' := by
      simpa using h
    exact fillPages_zero haddr hsize pages

section Guards

variable {guarded : Bool} {pages pages' : Pages} {addr size : ℕ} {value : BitVec 8}

section

variable (hg : guarded=true) (h : WholePages guarded addr size)

include hg h

theorem WholePages.isGuard_iff (k : ℕ) :
    IsGuard guarded addr size k ↔ k = (addr+guardOffset guarded)/4096-1 ∨
      k = (addr+guardOffset guarded)/4096+(size-guardSize guarded)/4096 := by
  have haddr := h.addr_mod
  have hsize := h.size_mod
  have hroom := h.room hg
  have hoffset : guardOffset guarded=0x1000 := hg ▸ guardOffset_true
  have hguards : guardSize guarded=0x2000 := hg ▸ guardSize_true
  simp only [IsGuard,hg,true_and] at hoffset hguards ⊢
  omega

theorem update_guards (k : ℕ) :
    Function.update (Function.update pages ((addr+guardOffset guarded)/4096-1) 0)
        ((addr+guardOffset guarded)/4096+(size-guardSize guarded)/4096) 0 k =
      if IsGuard guarded addr size k then 0 else pages k := by
  simp only [Function.update_apply,h.isGuard_iff hg]
  by_cases hlast : k = (addr+guardOffset guarded)/4096+(size-guardSize guarded)/4096
  · rw [if_pos hlast,if_pos (Or.inr hlast)]
  · simp only [if_neg hlast,or_iff_left hlast]

theorem unmapGuards_ok
    (hrun : unmapGuards pages (addr+guardOffset guarded) (size-guardSize guarded) = .ok pages')
    (k : ℕ) : pages' k = if IsGuard guarded addr size k then 0 else pages k := by
  simp only [unmapGuards] at hrun
  split_ifs at hrun
  obtain rfl := Except.ok.inj hrun
  exact update_guards hg h k

theorem unmapGuards_eq (hpages : RangeHolds guarded pages addr size value) :
    ∃ pages', unmapGuards pages (addr+guardOffset guarded) (size-guardSize guarded) =
      .ok pages' := by
  have hguard : ∀ k, IsGuard guarded addr size k → pages k=pageAllocated := by
    intro k hk
    rw [hpages k (h.inRange_of_isGuard hk),if_pos hk]
  have hfirst := hguard _ ((h.isGuard_iff hg _).mpr (.inl rfl))
  have hlast := hguard _ ((h.isGuard_iff hg _).mpr (.inr rfl))
  have hne : (addr+guardOffset guarded)/4096+(size-guardSize guarded)/4096 ≠
      (addr+guardOffset guarded)/4096-1 := by
    have hoffset : guardOffset guarded=0x1000 := hg ▸ guardOffset_true
    omega
  simp only [unmapGuards,hfirst,ne_eq,not_true,if_false,Function.update_of_ne hne,hlast]
  exact ⟨_,rfl⟩

end

/-- Clearing the guard pages and what is between them clears the range. -/
theorem withoutRange_inner (h : WholePages guarded addr size)
    (hpages' : ∀ k, pages' k = if IsGuard guarded addr size k then 0 else pages k) :
    withoutRange pages' (addr+guardOffset guarded) (size-guardSize guarded) =
      withoutRange pages addr size := by
  funext k
  by_cases hin : InRange addr size k
  · rw [withoutRange,withoutRange,if_pos hin,hpages']
    by_cases hk : IsGuard guarded addr size k
    · rw [if_pos hk,ite_self]
    · rw [if_pos ((h.inner_iff k).mpr ⟨hin,hk⟩)]
  · rw [withoutRange,withoutRange,if_neg hin,if_neg (fun hk => hin ((h.inner_iff k).mp hk).1),
      hpages',if_neg (fun hk => hin (h.inRange_of_isGuard hk))]

theorem not_isGuard_of_not_guarded (hg : ¬guarded) (k : ℕ) : ¬IsGuard guarded addr size k :=
  fun h => hg h.1

/-- The key `dealloc` looks for is that of a range exactly at the address given out. -/
theorem WholePages.key_iff (h : WholePages guarded addr size) (given : BitVec 32) :
    addr = (given.toNat+2^32-guardOffset guarded)%2^32 ↔
      given.toNat = addr+guardOffset guarded := by
  have hfits := h.fits
  have hroom := h.room
  unfold guardOffset
  split_ifs with hg
  · have := hroom hg
    omega
  · omega

end Guards

variable {b : Block} {s t : BlockState} {addr : BitVec 32} {key size result : ℕ} {value : BitVec 8}

/-- `dealloc` of a recorded range gives back its size without the guard pages, and
clears all of its pages. -/
theorem dealloc_eq (hfound : s.map.find? (fun e => e.1 == key) = some (key,size))
    (haddr : addr.toNat = key+guardOffset b.guarded) (h : WholePages b.guarded key size)
    (hvalue : value &&& pageAllocated≠0) (hpages : RangeHolds b.guarded s.pages key size value) :
    dealloc b s addr = .ok (size-guardSize b.guarded,
      {pages := withoutRange s.pages key size, map := s.map.filter (fun e => e.1≠key)}) := by
  have hkey := (h.key_iff addr).mpr haddr
  obtain ⟨pages',hguards,hpages'⟩ : ∃ pages',
      (if b.guarded then unmapGuards s.pages addr.toNat (size-guardSize b.guarded)
        else .ok s.pages) = .ok pages' ∧
      ∀ k, pages' k = if IsGuard b.guarded key size k then 0 else s.pages k := by
    by_cases hg : b.guarded
    · obtain ⟨pages',hguards⟩ := unmapGuards_eq hg h hpages
      exact ⟨pages',by rw [if_pos hg,haddr,hguards],unmapGuards_ok hg h hguards⟩
    · exact ⟨s.pages,if_neg hg,fun k => (if_neg (not_isGuard_of_not_guarded hg k)).symm⟩
  have hinner : ∀ k, InRange (key+guardOffset b.guarded) (size-guardSize b.guarded) k →
      pages' k=value := by
    intro k hk
    obtain ⟨hin,hnot⟩ := (h.inner_iff k).mp hk
    rw [hpages',if_neg hnot,hpages k hin,if_neg hnot]
  obtain ⟨hmod,hsmod,hpos⟩ := h.inner_mod
  have hunmap := pageUnmap_eq hmod hsmod hpos hvalue hinner
  rw [withoutRange_inner h hpages'] at hunmap
  simp only [dealloc,← hkey,hfound,hguards]
  rw [haddr,hunmap]
  simp

/-- A `dealloc` that does not throw does nothing, or clears a recorded range. -/
theorem dealloc_ok (hwhole : ∀ e∈s.map, WholePages b.guarded e.1 e.2)
    (hrun : dealloc b s addr = .ok (result,t)) :
    t=s ∨ ∃ e∈s.map, t =
      {pages := withoutRange s.pages e.1 e.2, map := s.map.filter (fun f => f.1≠e.1)} := by
  simp only [dealloc] at hrun
  cases hfound : s.map.find? (fun e => e.1 == (addr.toNat+2^32-guardOffset b.guarded)%2^32) with
  | none =>
    simp only [hfound,Except.ok.injEq,Prod.mk.injEq] at hrun
    exact .inl hrun.2.symm
  | some e =>
    have he := List.mem_of_find?_eq_some hfound
    have hkey : e.1 = (addr.toNat+2^32-guardOffset b.guarded)%2^32 := by
      simpa using List.find?_some hfound
    have h := hwhole e he
    have haddr := (h.key_iff addr).mp hkey
    obtain ⟨hmod,hsmod,-⟩ := h.inner_mod
    refine .inr ⟨e,he,?_⟩
    rw [← hkey] at hfound hrun
    simp only [hfound] at hrun
    cases hguards : (if b.guarded then unmapGuards s.pages addr.toNat (e.2-guardSize b.guarded)
        else .ok s.pages) with
    | error err => simp [hguards] at hrun
    | ok pages' =>
      have hpages' : ∀ k, pages' k = if IsGuard b.guarded e.1 e.2 k then 0 else s.pages k := by
        split_ifs at hguards with hg
        · rw [haddr] at hguards
          exact unmapGuards_ok hg h hguards
        · obtain rfl := Except.ok.inj hguards
          exact fun k => (if_neg (not_isGuard_of_not_guarded hg k)).symm
      cases hunmap : pageUnmap pages' addr.toNat (e.2-guardSize b.guarded) with
      | error err => simp [hguards,hunmap] at hrun
      | ok unmapped =>
        simp only [hguards,hunmap] at hrun
        split_ifs at hrun with hsize
        obtain ⟨found,pages''⟩ := unmapped
        obtain rfl : e.2-guardSize b.guarded=found := not_not.mp hsize
        rw [haddr] at hunmap
        have hpages := pageUnmap_ok hmod hsmod hunmap
        rw [withoutRange_inner h hpages'] at hpages
        rw [hpages] at hrun
        exact (Prod.mk.inj (Except.ok.inj hrun)).2.symm

end PS3Native.Vm
