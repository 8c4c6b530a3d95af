import PS3Native.VmRelease
import Mathlib.Data.List.Pairwise

/-!
# The invariant of a block and its calls

The recorded ranges of a block are disjoint, and its pages carry `page_allocated`
exactly where a range is recorded. `alloc` takes the lowest free place, `falloc` the
place it is asked for, rounded down to a page of the block.
-/
namespace PS3Native.Vm
open List

/-- What `alloc` reserves for a request, guard pages included. -/
def requestSize (flags : BitVec 64) (origSize : ℕ) : ℕ :=
  alignUp origSize (minPageSize flags)+guardSize (hasFlag flags stackGuarded)

def fallocSize (flags : BitVec 64) (addr origSize : ℕ) : ℕ :=
  alignU32 ((origSize+addr%minPageSize flags)%2^32) (minPageSize flags)

theorem or_and_cancel (value flag : BitVec 8) : (value ||| flag) &&& flag=flag := by
  grind

structure BlockInv (b : Block) (s : BlockState) : Prop where
  whole : ∀ e∈s.map, WholePages b.guarded e.1 e.2
  inside : ∀ e∈s.map, b.addr ≤ e.1 ∧ e.1+e.2 ≤ b.addr+b.size
  disjoint : s.map.Pairwise (fun e f => e.1+e.2 ≤ f.1 ∨ f.1+f.2 ≤ e.1)
  holds : ∀ e∈s.map, ∃ value, value &&& pageAllocated≠0 ∧
    RangeHolds b.guarded s.pages e.1 e.2 value
  free : ∀ k, InRange b.addr b.size k → (∀ e∈s.map, ¬InRange e.1 e.2 k) → s.pages k=0

section Invariant

variable {b : Block} {s : BlockState}

theorem BlockInv.empty {pages : Pages} (h : RangeFree pages b.addr b.size) :
    BlockInv b {pages} := by
  constructor <;> simp_all [RangeFree]

variable {e : ℕ × ℕ} {base size : ℕ}

section

variable (h : BlockInv b s)

include h

theorem BlockInv.allocated (he : e∈s.map) {k : ℕ} (hk : InRange e.1 e.2 k) :
    s.pages k &&& pageAllocated≠0 := by
  obtain ⟨value,hvalue,hholds⟩ := h.holds e he
  rw [hholds k hk]
  split_ifs
  · decide
  · exact hvalue

theorem BlockInv.allocated_iff {k : ℕ} (hk : InRange b.addr b.size k) :
    s.pages k &&& pageAllocated≠0 ↔ ∃ e∈s.map, InRange e.1 e.2 k := by
  constructor
  · intro hne
    by_contra hnone
    rw [h.free k hk (fun e he hin => hnone ⟨e,he,hin⟩)] at hne
    exact hne (by decide)
  · rintro ⟨e,he,hin⟩
    exact h.allocated he hin

theorem BlockInv.rangeFree_iff (hbase : b.addr ≤ base) (hsize : base+size ≤ b.addr+b.size) :
    RangeFree s.pages base size ↔ ∀ k, InRange base size k → s.pages k &&& pageAllocated=0 := by
  constructor
  · intro hfree k hk
    rw [hfree k hk]
    decide
  · intro hfree k hk
    refine h.free k ⟨hbase.trans hk.1,hk.2.trans_le hsize⟩ ?_
    intro e he hin
    exact h.allocated he hin (hfree k hk)

theorem BlockInv.apart_of_free (hwhole : WholePages b.guarded base size)
    (hfree : RangeFree s.pages base size) (he : e∈s.map) : base+size ≤ e.1 ∨ e.1+e.2 ≤ base := by
  by_contra hmeet
  have hb := hwhole.addr_mod
  have hbpos := hwhole.size_pos
  have hepos := (h.whole e he).size_pos
  have hea := (h.whole e he).addr_mod
  have hk : InRange base size (max base e.1/4096) ∧ InRange e.1 e.2 (max base e.1/4096) := by
    simp only [InRange]
    omega
  apply h.allocated he hk.2
  rw [hfree _ hk.1]
  decide

theorem BlockInv.recordRange_eq (hwhole : WholePages b.guarded base size)
    (hfree : RangeFree s.pages base size) : recordRange s.map base size = (base,size)::s.map := by
  rw [recordRange,filter_eq_self.mpr]
  intro e he
  have := h.apart_of_free hwhole hfree he
  have := hwhole.size_pos
  have := (h.whole e he).size_pos
  simp only [ne_eq,decide_not,Bool.not_eq_true',decide_eq_false_iff_not]
  omega

theorem BlockInv.taken (bflags : BitVec 64) (hwhole : WholePages b.guarded base size)
    (hbase : b.addr ≤ base) (hsize : base+size ≤ b.addr+b.size)
    (hfree : RangeFree s.pages base size) : BlockInv b (taken b s base bflags size) := by
  have hmap : (Vm.taken b s base bflags size).map = (base,size)::s.map :=
    h.recordRange_eq hwhole hfree
  have hvalue : (pageFlags bflags ||| pageAllocated) &&& pageAllocated≠0 := by
    rw [or_and_cancel]
    decide
  refine ⟨?_,?_,?_,?_,?_⟩
  · intro e he
    rw [hmap] at he
    rcases mem_cons.mp he with rfl | he
    · exact hwhole
    · exact h.whole e he
  · intro e he
    rw [hmap] at he
    rcases mem_cons.mp he with rfl | he
    · exact ⟨hbase,hsize⟩
    · exact h.inside e he
  · rw [hmap,pairwise_cons]
    exact ⟨fun e he => h.apart_of_free hwhole hfree he,h.disjoint⟩
  · intro e he
    rw [hmap] at he
    rcases mem_cons.mp he with rfl | he
    · exact ⟨_,hvalue,fun k hk => withRange_of_mem hk⟩
    · obtain ⟨value,hv,hholds⟩ := h.holds e he
      refine ⟨value,hv,fun k hk => ?_⟩
      have hnot : ¬InRange base size k := by
        have := h.apart_of_free hwhole hfree he
        simp only [InRange] at hk ⊢
        omega
      exact (withRange_of_notMem hnot).trans (hholds k hk)
  · intro k hk hnone
    rw [hmap] at hnone
    have hnot : ¬InRange base size k := hnone (base,size) mem_cons_self
    exact (withRange_of_notMem hnot).trans
      (h.free k hk fun e he => hnone e (mem_cons_of_mem _ he))

theorem BlockInv.find_eq (he : e∈s.map) : s.map.find? (fun f => f.1 == e.1) = some e := by
  obtain ⟨f,hf⟩ : ∃ f, s.map.find? (fun f => f.1 == e.1) = some f :=
    Option.isSome_iff_exists.mp (find?_isSome.mpr ⟨e,he,by simp⟩)
  have hmem := mem_of_find?_eq_some hf
  have hkey : f.1=e.1 := by simpa using find?_some hf
  have hsymm : Std.Symm (fun e f : ℕ × ℕ => e.1+e.2 ≤ f.1 ∨ f.1+f.2 ≤ e.1) := ⟨fun _ _ h => h.symm⟩
  by_cases hef : f=e
  · rw [hf,hef]
  · have hapart := List.Pairwise.forall h.disjoint hmem he hef
    have := (h.whole f hmem).size_pos
    have := (h.whole e he).size_pos
    omega

theorem BlockInv.released (he : e∈s.map) :
    BlockInv b {pages := withoutRange s.pages e.1 e.2, map := s.map.filter (fun f => f.1≠e.1)} := by
  have hsub : ∀ f∈s.map.filter (fun f => f.1≠e.1), f∈s.map ∧ f.1≠e.1 := by
    intro f hf
    simpa using mem_filter.mp hf
  have hsymm : Std.Symm (fun e f : ℕ × ℕ => e.1+e.2 ≤ f.1 ∨ f.1+f.2 ≤ e.1) := ⟨fun _ _ h => h.symm⟩
  have hnot : ∀ f∈s.map, f.1≠e.1 → ∀ k, InRange f.1 f.2 k → ¬InRange e.1 e.2 k := by
    intro f hf hne k hk
    have hapart := List.Pairwise.forall h.disjoint hf he (fun heq => hne (congrArg Prod.fst heq))
    simp only [InRange] at hk ⊢
    omega
  refine ⟨fun f hf => h.whole f (hsub f hf).1,fun f hf => h.inside f (hsub f hf).1,
    h.disjoint.filter _,?_,?_⟩
  · intro f hf
    obtain ⟨hmem,hne⟩ := hsub f hf
    obtain ⟨value,hv,hholds⟩ := h.holds f hmem
    exact ⟨value,hv,fun k hk => (if_neg (hnot f hmem hne k hk)).trans (hholds k hk)⟩
  · intro k hk hnone
    by_cases hin : InRange e.1 e.2 k
    · exact if_pos hin
    · refine (if_neg hin).trans (h.free k hk ?_)
      intro f hf hfk
      refine hnone f (mem_filter.mpr ⟨hf,?_⟩) hfk
      simp only [ne_eq,decide_not,Bool.not_eq_true',decide_eq_false_iff_not]
      intro heq
      rw [Option.some.inj ((h.find_eq hf).symm.trans (heq ▸ h.find_eq he))] at hfk
      exact hin hfk

end

end Invariant

variable {flags : BitVec 64}

theorem minPageSize_dvd_align {align : ℕ} (hle : minPageSize flags ≤ align)
    (hpow : align = 2^align.log2) : minPageSize flags ∣ align := by
  have hexp : ∃ i, minPageSize flags = 2^i := by
    rcases minPageSize_cases flags with h | h
    · exact ⟨12,h⟩
    · exact ⟨16,h⟩
  obtain ⟨i,hi⟩ := hexp
  rw [hi] at hle ⊢
  rw [hpow] at hle ⊢
  exact Nat.pow_dvd_pow 2 ((Nat.pow_le_pow_iff_right (by decide)).mp hle)

/-- The size checks of `alloc` refuse exactly what does not fit the block. -/
theorem alloc_size_iff (b : Block) (flags : BitVec 64) (origSize : BitVec 32) : ¬(origSize=0 ∨
      (alignU32 origSize.toNat (minPageSize flags) +
        guardSize (hasFlag flags stackGuarded))%2^32=0 ∨
      (alignU32 origSize.toNat (minPageSize flags) +
        guardSize (hasFlag flags stackGuarded))%2^32 < origSize.toNat ∨
      b.size < (alignU32 origSize.toNat (minPageSize flags) +
        guardSize (hasFlag flags stackGuarded))%2^32) ↔
    origSize≠0 ∧ requestSize flags origSize.toNat ≤ b.size := by
  have hsize := b.size_lt
  have hzero : origSize=0 ↔ origSize.toNat=0 := by
    rw [← BitVec.toNat_inj]
    rfl
  have hguard : guardSize (hasFlag flags stackGuarded)=0 ∨
      guardSize (hasFlag flags stackGuarded)=0x2000 := by
    unfold guardSize
    split_ifs <;> simp
  rw [ne_eq,hzero,requestSize,alignU32,alignUp]
  rcases minPageSize_cases flags with hmin | hmin <;> rcases hguard with hg | hg
  all_goals
    rw [hmin,hg]
    omega

theorem alloc_size_eq {b : Block} {origSize : BitVec 32}
    (h : requestSize flags origSize.toNat ≤ b.size) :
    (alignU32 origSize.toNat (minPageSize flags) + guardSize (hasFlag flags stackGuarded))%2^32 =
      requestSize flags origSize.toNat := by
  have hsize := b.size_lt
  rw [requestSize] at h ⊢
  rw [alignU32,Nat.mod_eq_of_lt (by omega),Nat.mod_eq_of_lt (by omega)]

theorem minPageSize_pos (flags : BitVec 64) : 0 < minPageSize flags := by
  rcases minPageSize_cases flags with h | h <;> omega

theorem minPageSize_page (flags : BitVec 64) : 4096 ∣ minPageSize flags := by
  rcases minPageSize_cases flags with h | h
  · rw [h]
  · rw [h]
    decide

theorem requestSize_whole {guarded : Bool} {origSize base : ℕ}
    (hguarded : guarded → hasFlag flags stackGuarded) (horig : 0 < origSize)
    (hbase : base%4096=0) (hfits : base+requestSize flags origSize ≤ 2^32) :
    WholePages guarded base (requestSize flags origSize) := by
  have hup : origSize ≤ alignUp origSize (minPageSize flags) := le_alignUp (minPageSize_pos flags)
  have hmod : alignUp origSize (minPageSize flags)%4096=0 :=
    Nat.mod_eq_zero_of_dvd ((minPageSize_page flags).trans (dvd_alignUp ..))
  have hguard : guardSize (hasFlag flags stackGuarded)%4096=0 := by
    unfold guardSize
    split_ifs <;> rfl
  refine ⟨hbase,?_,?_,hfits,?_⟩
  · rw [requestSize]
    omega
  · rw [requestSize]
    omega
  · intro hg
    rw [requestSize,hguarded hg,guardSize_true]
    omega

theorem guardOffset_lt_requestSize {origSize : ℕ} (horig : 0 < origSize) :
    guardOffset (hasFlag flags stackGuarded) < requestSize flags origSize := by
  have hup : origSize ≤ alignUp origSize (minPageSize flags) := le_alignUp (minPageSize_pos flags)
  unfold requestSize guardOffset guardSize
  split_ifs <;> omega

/-- One spec for `alloc`: the first free place, or none. -/
theorem alloc_cases {b : Block} {s : BlockState} (origSize align : BitVec 32) (src : Bool)
    (flags : BitVec 64) {f : BitVec 64} {size : ℕ} (hf : b.allocFlags src flags=f)
    (hrequest : requestSize f origSize.toNat=size)
    (hsrc : (hasFlag b.flags preallocated && src)=false)
    (hle : minPageSize f ≤ align.toNat) (hpow : align.toNat = 2^align.toNat.log2) :
    (∃ base, origSize≠0 ∧ alloc b s origSize align src flags =
        .ok (base+guardOffset (hasFlag f stackGuarded),taken b s base f size) ∧
      WholePages b.guarded base size ∧ align.toNat ∣ base ∧ b.addr ≤ base ∧
      base+size ≤ b.addr+b.size ∧ RangeFree s.pages base size ∧
      ∀ base', align.toNat ∣ base' → b.addr ≤ base' → RangeFree s.pages base' size → base ≤ base') ∨
    (alloc b s origSize align src flags = .ok (0,s) ∧
      (origSize=0 ∨ ∀ base, align.toNat ∣ base → b.addr ≤ base →
        base+size ≤ b.addr+b.size → ¬RangeFree s.pages base size)) := by
  subst hf hrequest
  have hguarded := b.guarded_allocFlags_of flags hsrc
  unfold alloc
  simp only [hsrc,Bool.false_eq_true,if_false]
  generalize b.allocFlags src flags = f at hle hguarded ⊢
  have hvalid : ¬(align.toNat < minPageSize f ∨ align.toNat≠2^align.toNat.log2) := by
    rw [not_or,not_not]
    exact ⟨by omega,hpow⟩
  have hpage : 4096 ∣ align.toNat := (minPageSize_page f).trans (minPageSize_dvd_align hle hpow)
  have halign : 0 < align.toNat := (minPageSize_pos f).trans_le hle
  have hfits := b.fits
  rw [if_neg hvalid]
  by_cases hsize : origSize≠0 ∧ requestSize f origSize.toNat ≤ b.size
  · rw [if_neg ((alloc_size_iff b f origSize).mpr hsize),alloc_size_eq hsize.2]
    have horig : 0 < origSize.toNat := by
      have hne := hsize.1
      rw [ne_eq,← BitVec.toNat_inj] at hne
      exact Nat.pos_of_ne_zero hne
    have hoffset : guardOffset (hasFlag f stackGuarded) < requestSize f origSize.toNat :=
      guardOffset_lt_requestSize horig
    set size := requestSize f origSize.toNat with hreserved
    have htop : (b.addr+b.size-size)%2^32/align.toNat*align.toNat =
        alignDown (b.addr+b.size-size) align.toNat := by
      rw [Nat.mod_eq_of_lt (by omega),alignDown]
    rw [htop]
    have hmaxle := alignDown_le (b.addr+b.size-size) align.toNat
    have hmaxdvd := dvd_alignDown (b.addr+b.size-size) align.toNat
    set max := alignDown (b.addr+b.size-size) align.toNat with hmax
    have hbase : ∀ base, align.toNat ∣ base → base+size ≤ b.addr+b.size → base ≤ max := by
      intro base hdvd hend
      rw [hmax,le_alignDown_iff hdvd]
      omega
    by_cases hroom : b.addr ≤ max
    · have hup := (alignUp_le_iff halign hmaxdvd).mpr hroom
      have haddr : alignU32 b.addr align.toNat = alignUp b.addr align.toNat :=
        Nat.mod_eq_of_lt (by omega)
      rw [if_neg (by omega),haddr]
      have hdvd := dvd_alignUp b.addr align.toNat
      have hcount := Nat.div_mul_cancel (Nat.dvd_sub hmaxdvd hdvd)
      have hfuel : (max-alignUp b.addr align.toNat)/align.toNat < 2^20 := by
        rw [Nat.div_lt_iff_lt_mul halign]
        have := Nat.le_of_dvd halign hpage
        calc max-alignUp b.addr align.toNat < 2^20*4096 := by omega
          _ ≤ 2^20*align.toNat := Nat.mul_le_mul_left _ this
      have hwhole : ∀ base, align.toNat ∣ base → base ≤ max → WholePages b.guarded base size := by
        intro base hb hle
        exact requestSize_whole hguarded horig (Nat.mod_eq_zero_of_dvd (hpage.trans hb)) (by omega)
      have hstart : ∀ base, align.toNat ∣ base → b.addr ≤ base → alignUp b.addr align.toNat ≤ base :=
        fun base hb hle => (alignUp_le_iff halign hb).mpr hle
      have hge : b.addr ≤ alignUp b.addr align.toNat := le_alignUp halign
      rcases searchLoop_spec b s f halign (by omega) hwhole _ (2^20)
        (alignUp b.addr align.toNat) (by omega) hfuel hdvd with
        ⟨base,hsearch,hb,hlow,hhigh,hfree,hleast⟩ | ⟨hsearch,hnone⟩
      · rw [hsearch]
        refine .inl ⟨base,hsize.1,?_,hwhole base hb hhigh,hb,by omega,by omega,hfree,?_⟩
        · simp only [Except.ok.injEq,Prod.mk.injEq,and_true]
          exact Nat.mod_eq_of_lt (by omega)
        · intro base' hb' hle' hfree'
          exact hleast base' hb' (hstart base' hb' hle') hfree'
      · rw [hsearch]
        refine .inr ⟨rfl,.inr ?_⟩
        intro base hb hlow hend hfree
        exact hnone base hb (hstart base hb hlow) (hbase base hb hend) hfree
    · rw [if_pos (.inl (by omega))]
      refine .inr ⟨rfl,.inr ?_⟩
      intro base hb hlow hend _
      exact hroom (hlow.trans (hbase base hb hend))
  · rw [if_pos (not_not.mp (mt (alloc_size_iff b f origSize).mp hsize))]
    refine .inr ⟨rfl,?_⟩
    by_cases hzero : origSize=0
    · exact .inl hzero
    · refine .inr fun base _ hbase hend _ => hsize ⟨hzero,by omega⟩

theorem falloc_cases {b : Block} {s : BlockState} (addr origSize : BitVec 32) (src : Bool)
    (flags : BitVec 64) {f : BitVec 64} {base : ℕ} (hf : b.allocFlags src flags=f)
    (hbase : alignDown addr.toNat (minPageSize f)=base)
    (hsrc : (hasFlag b.flags preallocated && src)=false) :
    (∃ size, size = fallocSize f addr.toNat origSize.toNat ∧
      falloc b s addr origSize src flags = .ok (true,taken b s base f size) ∧
      WholePages b.guarded base size ∧ b.addr ≤ addr.toNat ∧ minPageSize f ∣ size ∧
      base+size ≤ b.addr+b.size ∧ RangeFree s.pages base size) ∨
    falloc b s addr origSize src flags = .ok (false,s) := by
  subst hf hbase
  have hguarded := b.guarded_allocFlags_of flags hsrc
  unfold falloc fallocSize
  simp only [hsrc,Bool.false_eq_true,if_false,← alignDown_eq_sub_mod]
  generalize b.allocFlags src flags = f at hguarded ⊢
  set size := alignU32 ((origSize.toNat+addr.toNat%minPageSize f)%2^32)
    (minPageSize f) with hsizedef
  split_ifs with hinvalid
  · exact .inr rfl
  · simp only [not_or,not_lt,Bool.not_eq_true] at hinvalid
    obtain ⟨hsize,hlow,-,-,hend,-,hg⟩ := hinvalid
    have hdvd : minPageSize f ∣ size := by
      rw [hsizedef,alignU32,Nat.dvd_mod_iff]
      · exact dvd_alignUp ..
      · rcases minPageSize_cases f with h | h <;> rw [h] <;> decide
    have hfits := b.fits
    have hwhole : WholePages b.guarded (alignDown addr.toNat (minPageSize f)) size := by
      refine ⟨Nat.mod_eq_zero_of_dvd ((minPageSize_page f).trans (dvd_alignDown ..)),
        Nat.mod_eq_zero_of_dvd ((minPageSize_page f).trans hdvd),by omega,by omega,?_⟩
      intro hguard
      rw [hguarded hguard] at hg
      cases hg
    obtain ⟨hsome,hnone⟩ := tryAlloc_eq b s f hwhole
    by_cases hfree : RangeFree s.pages (alignDown addr.toNat (minPageSize f)) size
    · rw [hsome hfree]
      exact .inl ⟨size,rfl,rfl,hwhole,hlow,hdvd,hend,hfree⟩
    · rw [hnone hfree]
      exact .inr rfl

/-- The block starts at a multiple of its page size, or is too small for a page. -/
def Block.AlignedStart (b : Block) : Prop :=
  minPageSize b.flags ∣ b.addr ∨ b.addr+b.size < alignUp b.addr (minPageSize b.flags)

/-- The rounded address of `falloc` is in the block. -/
theorem Block.AlignedStart.le_alignDown {b : Block} (h : b.AlignedStart) {addr size : ℕ}
    (haddr : b.addr ≤ addr) (hdvd : minPageSize b.flags ∣ size) (hpos : 0 < size)
    (hend : alignDown addr (minPageSize b.flags)+size ≤ b.addr+b.size) :
    b.addr ≤ alignDown addr (minPageSize b.flags) := by
  rcases h with hb | hsmall
  · exact (le_alignDown_iff hb).mpr haddr
  · have hmin := minPageSize_pos b.flags
    have hsum := (Nat.dvd_add_right (dvd_alignDown addr (minPageSize b.flags))).mpr hdvd
    have hlt : addr < alignDown addr (minPageSize b.flags)+minPageSize b.flags :=
      lt_alignDown_add hmin
    have hle := Nat.le_of_dvd hpos hdvd
    have hup := (alignUp_le_iff hmin hsum).mpr (by omega : b.addr ≤ _)
    omega

end PS3Native.Vm
