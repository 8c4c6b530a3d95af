import PS3Native.PageProtect
import PS3Native.VmRelease

/-!
# Page tables of whole units

A page that carries the flag of 64 KiB or 1 MiB pages speaks for its unit of 16 or 256 pages. In a
page table where the pages of a unit agree, the samples `check_addr` takes are enough.
-/
namespace PS3Native.Vm

/-- How many pages a page with these flags speaks for. -/
def unitPages (value : BitVec 8) : ℕ :=
  if value &&& page1mSize≠0 then 256 else if value &&& page64kSize≠0 then 16 else 1

def SameUnit (pages : Pages) (k j : ℕ) : Prop :=
  j/unitPages (pages k) = k/unitPages (pages k)

def Uniform (pages : Pages) : Prop := ∀ k j, SameUnit pages k j → pages j = pages k

def UnitClosed (pages : Pages) (P : ℕ → Prop) : Prop := ∀ k j, P k → SameUnit pages k j → P j

def HasFlags (value flags : BitVec 8) : Prop := value &&& flags=flags

def Touches (addr size k : ℕ) : Prop := addr < (k+1)*4096 ∧ k*4096 < addr+size

section Flags

variable {value value' flags flags' mask : BitVec 8}

theorem unitPages_pos (value : BitVec 8) : 0 < unitPages value := by
  unfold unitPages
  split_ifs <;> decide

/-- The flags `page_protect` is not meant to change. -/
abbrev structureFlags : BitVec 8 := pageAllocated ||| page1mSize ||| page64kSize

theorem and_eq_of_structureFlags (h : value &&& structureFlags = value' &&& structureFlags)
    {flag : BitVec 8} (hflag : structureFlags &&& flag=flag) : value &&& flag = value' &&& flag := by
  have := congrArg (· &&& flag) h
  simpa only [BitVec.and_assoc,hflag] using this

theorem unitPages_congr (h : value &&& structureFlags = value' &&& structureFlags) :
    unitPages value = unitPages value' := by
  have h1m : value &&& page1mSize = value' &&& page1mSize := and_eq_of_structureFlags h (by decide)
  have h64k : value &&& page64kSize = value' &&& page64kSize :=
    and_eq_of_structureFlags h (by decide)
  rw [unitPages,h1m,h64k,unitPages]

theorem hasFlags_iff_bits : HasFlags value flags ↔ ∀ i, flags.getLsbD i → value.getLsbD i := by
  constructor
  · intro h i hi
    rw [← h,BitVec.getLsbD_and,Bool.and_eq_true] at hi
    exact hi.1
  · intro h
    apply BitVec.eq_of_getLsbD_eq
    intro i _
    rw [BitVec.getLsbD_and]
    cases hi : flags.getLsbD i with
    | false => rw [Bool.and_false]
    | true => rw [h i hi,Bool.and_true]

theorem hasFlags_or : HasFlags value (flags ||| flags') ↔
    HasFlags value flags ∧ HasFlags value flags' := by
  simp only [hasFlags_iff_bits,BitVec.getLsbD_or,Bool.or_eq_true]
  constructor
  · intro h
    exact ⟨fun i hi => h i (.inl hi),fun i hi => h i (.inr hi)⟩
  · rintro ⟨h,h'⟩ i (hi | hi)
    · exact h i hi
    · exact h' i hi

theorem not_and_eq_zero_iff : ~~~value &&& flags=0 ↔ HasFlags value flags := by
  rw [hasFlags_iff_bits]
  constructor
  · intro h i hi
    have hbit := congrArg (·.getLsbD i) h
    simp only [BitVec.getLsbD_and,BitVec.getLsbD_not,hi,BitVec.lt_of_getLsbD hi,decide_true,
      Bool.true_and,Bool.and_true,BitVec.ofNat_eq_ofNat,BitVec.getLsbD_zero] at hbit
    simpa using hbit
  · intro h
    apply BitVec.eq_of_getLsbD_eq
    intro i hlt
    cases hi : flags.getLsbD i with
    | false => simp [hi]
    | true => simp [h i hi]

/-- Masks that avoid a flag leave it as it is. -/
theorem protectedValue_and (hset : flags &&& mask=0) (hclear : flags' &&& mask=0) :
    protectedValue flags flags' value &&& mask = value &&& mask := by
  apply BitVec.eq_of_getLsbD_eq
  intro i hlt
  have hseti := congrArg (·.getLsbD i) hset
  have hcleari := congrArg (·.getLsbD i) hclear
  simp only [BitVec.getLsbD_and,BitVec.ofNat_eq_ofNat,BitVec.getLsbD_zero] at hseti hcleari
  simp only [protectedValue,BitVec.getLsbD_and,BitVec.getLsbD_or,BitVec.getLsbD_not,hlt,
    decide_true,Bool.true_and]
  cases hmask : mask.getLsbD i with
  | false => simp
  | true =>
    rw [hmask,Bool.and_true] at hseti hcleari
    simp [hseti,hcleari]

end Flags

section Units

variable {pages pages' : Pages} {k j l : ℕ}

theorem SameUnit.symm (h : SameUnit pages k j) (heq : pages j = pages k) : SameUnit pages j k := by
  rw [SameUnit,heq]
  exact Eq.symm h

theorem SameUnit.eq (h : SameUnit pages k j) (hunit : unitPages (pages k)=1) : j=k := by
  simpa only [SameUnit,hunit,Nat.div_one] using h

theorem SameUnit.congr (h : SameUnit pages' k j)
    (hunit : unitPages (pages' k) = unitPages (pages k)) : SameUnit pages k j := by
  rwa [SameUnit,hunit] at h

/-- Units are intervals. -/
theorem SameUnit.between (h : SameUnit pages k j) (hl : min k j ≤ l) (hl' : l ≤ max k j) :
    SameUnit pages k l := by
  have hlow := Nat.div_le_div_right (c := unitPages (pages k)) hl
  have hhigh := Nat.div_le_div_right (c := unitPages (pages k)) hl'
  simp only [SameUnit] at h ⊢
  rcases Nat.le_total k j with hkj | hkj
  · rw [Nat.min_eq_left hkj] at hlow
    rw [Nat.max_eq_right hkj] at hhigh
    omega
  · rw [Nat.min_eq_right hkj] at hlow
    rw [Nat.max_eq_left hkj] at hhigh
    omega

theorem nextSample_eq (value : BitVec 8) (i : ℕ) :
    nextSample value i = (i/unitPages value+1)*unitPages value := by
  have hup : ∀ unit, 0 < unit → alignUp (i+1) unit = (i/unit+1)*unit := by
    intro unit hpos
    rw [alignUp,← Nat.add_div_right i hpos]
    congr 2
    omega
  unfold nextSample unitPages
  split_ifs
  · exact hup 256 (by decide)
  · exact hup 16 (by decide)
  · rw [Nat.div_one,Nat.mul_one]

theorem lt_nextSample (value : BitVec 8) (i : ℕ) : i < nextSample value i := by
  rw [nextSample_eq,Nat.mul_comm]
  exact Nat.lt_mul_div_succ i (unitPages_pos value)

theorem sameUnit_of_lt_nextSample (hk : k ≤ j) (hj : j < nextSample (pages k) k) :
    SameUnit pages k j := by
  rw [nextSample_eq] at hj
  have hlow := Nat.div_le_div_right (c := unitPages (pages k)) hk
  have hhigh := (Nat.div_lt_iff_lt_mul (unitPages_pos _)).mpr hj
  simp only [SameUnit]
  omega

end Units

theorem checkLoop_iff {pages : Pages} (h : Uniform pages) (flags : BitVec 8) (max fuel i : ℕ)
    (hfuel : max+1-i ≤ fuel) : checkLoop pages flags max fuel i ↔
      ∀ k, i ≤ k → k ≤ max → HasFlags (pages k) flags := by
  induction fuel generalizing i with
  | zero =>
    simp only [checkLoop,true_iff]
    intro k hk hk'
    omega
  | succ fuel ih =>
    rw [checkLoop]
    split_ifs with hmax hfail
    · simp only [true_iff]
      intro k hk hk'
      omega
    · simp only [false_iff]
      intro hall
      exact hfail (not_and_eq_zero_iff.mpr (hall i (Nat.le_refl _) (by omega)))
    · have hnext := lt_nextSample (pages i) i
      rw [ih _ (by omega)]
      constructor
      · intro hall k hk hk'
        rcases Nat.lt_or_ge k (nextSample (pages i) i) with hlt | hge
        · rw [h i k (sameUnit_of_lt_nextSample hk hlt)]
          exact not_and_eq_zero_iff.mp (not_not.mp hfail)
        · exact hall k hge hk'
      · intro hall k hk hk'
        exact hall k (by omega) hk'

/-- Where the pages of a unit agree, `check_addr` is exact. -/
theorem Uniform.checkAddr_iff {pages : Pages} (h : Uniform pages) (addr : ℕ) (flags : BitVec 8)
    {size : ℕ} (hsize : 0 < size) : checkAddr pages addr flags size ↔
      addr+size ≤ 2^32 ∧ ∀ k, Touches addr size k →
        HasFlags (pages k) pageAllocated ∧ HasFlags (pages k) flags := by
  rw [checkAddr,if_neg (by omega)]
  split_ifs with hrange
  · simp only [false_iff,not_and]
    intro hfits
    omega
  · have hfits : addr+size ≤ 2^32 := by omega
    rw [checkLoop_iff h _ _ _ _ (Nat.le_refl _),and_iff_right hfits]
    simp only [hasFlags_or,Touches]
    constructor
    · intro hall k hk
      exact (hall k (by omega) (by omega)).symm
    · intro hall k hk hk'
      exact (hall k (by omega)).symm

section Changes

variable {pages pages' : Pages} {guarded : Bool} {addr size : ℕ} {value : BitVec 8}

theorem UnitClosed.mem_iff (h : Uniform pages) {P : ℕ → Prop} (hclosed : UnitClosed pages P)
    {k j : ℕ} (hkj : SameUnit pages k j) : P j ↔ P k :=
  ⟨fun hj => hclosed j k hj (hkj.symm (h k j hkj)),fun hk => hclosed k j hk hkj⟩

theorem SameUnit.eq_of_free {k j : ℕ} (h : SameUnit pages k j) (hk : pages k=0) : j=k :=
  h.eq (by rw [hk]; decide)

theorem Uniform.withoutRange (h : Uniform pages) (hclosed : UnitClosed pages (InRange addr size)) :
    Uniform (withoutRange pages addr size) := by
  intro k j hkj
  by_cases hk : InRange addr size k
  · rw [hkj.eq_of_free (if_pos hk)]
  · have hkj' : SameUnit pages k j := hkj.congr (by rw [Vm.withoutRange,if_neg hk])
    rw [Vm.withoutRange,Vm.withoutRange,if_neg hk,if_neg (mt (hclosed.mem_iff h hkj').mp hk),
      h k j hkj']

/-- What is between the guard pages of a range is whole units of its value. -/
def InnerUnits (guarded : Bool) (value : BitVec 8) (addr size : ℕ) : Prop :=
  unitPages value*4096 ∣ addr+guardOffset guarded ∧
    unitPages value*4096 ∣ size-guardSize guarded

theorem InnerUnits.mem (h : InnerUnits guarded value addr size) {k j : ℕ}
    (hk : InRange (addr+guardOffset guarded) (size-guardSize guarded) k)
    (hkj : j/unitPages value = k/unitPages value) :
    InRange (addr+guardOffset guarded) (size-guardSize guarded) j := by
  obtain ⟨⟨q,hq⟩,⟨r,hr⟩⟩ := h
  have hpos := unitPages_pos value
  rw [hq,hr] at hk ⊢
  generalize unitPages value = unit at *
  have hiff : ∀ l, InRange (unit*4096*q) (unit*4096*r) l ↔ q ≤ l/unit ∧ l/unit < q+r := by
    intro l
    have hlow : unit*4096*q = q*unit*4096 := by rw [Nat.mul_comm,Nat.mul_assoc]
    have hhigh : unit*4096*q+unit*4096*r = (q+r)*unit*4096 := by
      rw [← Nat.mul_add,Nat.mul_right_comm,Nat.mul_comm unit]
    rw [InRange,hhigh,hlow,Nat.le_div_iff_mul_le hpos,Nat.div_lt_iff_lt_mul hpos]
    omega
  rw [hiff] at hk ⊢
  rwa [hkj]

/-- In a page table with a range of whole units, the pages of a unit of the range
agree and are in the range. -/
theorem InnerUnits.sameUnit (hunits : InnerUnits guarded value addr size)
    (hwhole : WholePages guarded addr size) {k j : ℕ} (hk : InRange addr size k)
    (hkj : SameUnit (withRange guarded pages addr size value) k j) :
    InRange addr size j ∧ withRange guarded pages addr size value j =
      withRange guarded pages addr size value k := by
  by_cases hguard : IsGuard guarded addr size k
  · have hone : withRange guarded pages addr size value k=pageAllocated := by
      rw [withRange_of_mem hk,if_pos hguard]
    obtain rfl := hkj.eq (by rw [hone]; decide)
    exact ⟨hk,rfl⟩
  · have hvalue : withRange guarded pages addr size value k=value := by
      rw [withRange_of_mem hk,if_neg hguard]
    rw [SameUnit,hvalue] at hkj
    obtain ⟨hj,hguard'⟩ := (hwhole.inner_iff j).mp
      (hunits.mem ((hwhole.inner_iff k).mpr ⟨hk,hguard⟩) hkj)
    exact ⟨hj,by rw [hvalue,withRange_of_mem hj,if_neg hguard']⟩

/-- A unit outside of a free range stays outside when the range is taken. -/
theorem Uniform.not_inRange (h : Uniform pages) (hfree : RangeFree pages addr size) {k j : ℕ}
    (hk : ¬InRange addr size k) (hkj : SameUnit pages k j) : ¬InRange addr size j := by
  intro hj
  have hzero := hfree j hj
  have heq := h k j hkj
  rw [hzero] at heq
  exact hk (hkj.eq_of_free heq.symm ▸ hj)

theorem Uniform.withRange (h : Uniform pages) (hunits : InnerUnits guarded value addr size)
    (hwhole : WholePages guarded addr size) (hfree : RangeFree pages addr size) :
    Uniform (withRange guarded pages addr size value) := by
  intro k j hkj
  by_cases hk : InRange addr size k
  · exact (hunits.sameUnit hwhole hk hkj).2
  · have hkj' : SameUnit pages k j := hkj.congr (by rw [withRange_of_notMem hk])
    rw [withRange_of_notMem hk,withRange_of_notMem (h.not_inRange hfree hk hkj'),h k j hkj']

end Changes

section Protect

variable {flagsSet flagsClear : BitVec 8} {pages pages' : Pages} {first last : ℕ}

theorem runStart_eq_of_const {α : Type*} [DecidableEq α] (f : ℕ → α) {k j : ℕ} (hk : first ≤ k)
    (hkj : k ≤ j) (hconst : ∀ l, k ≤ l → l ≤ j → f l = f k) :
    runStart f first j = runStart f first k := by
  induction j with
  | zero =>
    obtain rfl : k=0 := by omega
    rfl
  | succ j ih =>
    rcases Nat.lt_or_ge k (j+1) with hlt | hge
    · rw [runStart_succ_of_eq f first (by omega),ih (by omega)]
      · exact fun l hl hl' => hconst l hl (by omega)
      · exact (hconst j (by omega) (by omega)).trans (hconst (j+1) hkj (Nat.le_refl _)).symm
    · obtain rfl : k = j+1 := by omega
      rfl

/-- Pages with the same values in between are written together. -/
theorem runWritten_iff_of_const {k j : ℕ} (hk : first ≤ k) (hkj : k ≤ j)
    (hconst : ∀ l, k ≤ l → l ≤ j → pages l = pages k) :
    RunWritten flagsSet flagsClear pages first last j ↔
      RunWritten flagsSet flagsClear pages first last k := by
  have hnew : ∀ l, k ≤ l → l ≤ j →
      newValue flagsSet flagsClear pages l = newValue flagsSet flagsClear pages k := by
    intro l hl hl'
    rw [newValue,hconst l hl hl',newValue]
  rw [RunWritten,RunWritten,runStart_eq_of_const _ hk hkj hnew,hnew j hkj (Nat.le_refl _)]
  refine and_congr_right fun _ => ?_
  rw [RunCloses,RunCloses,hnew j hkj (Nat.le_refl _)]
  constructor
  · rintro (hne | ⟨l,hl,hlast,hne⟩)
    · exact .inl hne
    · exact .inr ⟨l,by omega,hlast,hne⟩
  · rintro (hne | ⟨l,hl,hlast,hne⟩)
    · exact .inl hne
    · rcases Nat.lt_or_ge j l with hjl | hlj
      · exact .inr ⟨l,hjl,hlast,hne⟩
      · exact .inl (hnew l hl.le hlj ▸ hne)

theorem runWritten_iff_of_sameUnit (h : Uniform pages) {k j : ℕ} (hk : first ≤ k) (hj : first ≤ j)
    (hkj : SameUnit pages k j) : RunWritten flagsSet flagsClear pages first last j ↔
      RunWritten flagsSet flagsClear pages first last k := by
  have hbetween : ∀ l, min k j ≤ l → l ≤ max k j → pages l = pages k :=
    fun l hl hl' => h k l (hkj.between hl hl')
  rcases Nat.le_total k j with hle | hle
  · rw [Nat.min_eq_left hle,Nat.max_eq_right hle] at hbetween
    exact runWritten_iff_of_const hk hle hbetween
  · rw [Nat.min_eq_right hle,Nat.max_eq_left hle] at hbetween
    refine (runWritten_iff_of_const hj hle fun l hl hl' => ?_).symm
    rw [hbetween l hl hl',hbetween j (Nat.le_refl _) hle]

/-- Writing new values to some of the units of `P`, those of `W`, keeps the units. -/
theorem Uniform.written (h : Uniform pages) {P W : ℕ → Prop}
    (hset : flagsSet &&& structureFlags=0) (hclear : flagsClear &&& structureFlags=0)
    (hclosed : UnitClosed pages P) (hW : ∀ k j, P k → P j → SameUnit pages k j → (W j ↔ W k))
    (hout : ∀ k, ¬P k → pages' k = pages k)
    (hin : ∀ k, P k → (W k → pages' k = newValue flagsSet flagsClear pages k) ∧
      (¬W k → pages' k = pages k)) :
    Uniform pages' ∧ ∀ k, pages' k &&& structureFlags = pages k &&& structureFlags := by
  have hkeep : ∀ k, pages' k &&& structureFlags = pages k &&& structureFlags := by
    intro k
    by_cases hk : P k
    · by_cases hw : W k
      · rw [(hin k hk).1 hw]
        exact protectedValue_and hset hclear
      · rw [(hin k hk).2 hw]
    · rw [hout k hk]
  refine ⟨?_,hkeep⟩
  intro k j hkj
  replace hkj := hkj.congr (unitPages_congr (hkeep k))
  by_cases hk : P k
  · have hj := hclosed k j hk hkj
    have hiff := hW k j hk hj hkj
    by_cases hw : W k
    · rw [(hin k hk).1 hw,(hin j hj).1 (hiff.mpr hw),newValue,h k j hkj,newValue]
    · rw [(hin k hk).2 hw,(hin j hj).2 (mt hiff.mp hw),h k j hkj]
  · rw [hout k hk,hout j (mt (hclosed.mem_iff h hkj).mp hk),h k j hkj]

/-- The masks avoid the flags of allocation and size, and the range is whole units. -/
structure ProtectsUnits (pages : Pages) (addr size : BitVec 32)
    (flagsSet flagsClear : BitVec 8) : Prop where
  set : withoutCommon flagsSet flagsClear &&& structureFlags=0
  clear : withoutCommon flagsClear flagsSet &&& structureFlags=0
  closed : UnitClosed pages (InProtectRange pages addr size)

/-- What `page_protect` may do to a page table: it throws, or keeps the units and the
flags of allocation and size. -/
theorem Uniform.pageProtect (h : Uniform pages) {addr size : BitVec 32} {flagsTest : BitVec 8}
    {result : Bool} (hunits : ProtectAccepted pages addr size flagsTest →
      ProtectsUnits pages addr size flagsSet flagsClear)
    (hrun : pageProtect pages addr size flagsTest flagsSet flagsClear = .ok (result,pages')) :
    Uniform pages' ∧ ∀ k, pages' k &&& structureFlags = pages k &&& structureFlags := by
  by_cases hvalid : size=0 ∨ (size ||| addr).toNat%4096≠0
  · rw [Vm.pageProtect,if_pos hvalid] at hrun
    cases hrun
  obtain ⟨hsize,haddr,hpage⟩ := (arguments_valid_iff addr size).mp hvalid
  rcases pageProtect_cases pages flagsTest flagsSet flagsClear hsize haddr hpage with
    ⟨result',hrun',-⟩ | ⟨haccepted,written,hrun',hout,hin⟩
  · obtain ⟨-,rfl⟩ := Prod.mk.inj (Except.ok.inj (hrun'.symm.trans hrun))
    exact ⟨h,fun _ => rfl⟩
  · obtain ⟨-,rfl⟩ := Prod.mk.inj (Except.ok.inj (hrun'.symm.trans hrun))
    obtain ⟨hset,hclear,hclosed⟩ := hunits haccepted
    exact h.written hset hclear hclosed
      (fun k j hk hj hkj => runWritten_iff_of_sameUnit h hk.1 hj.1 hkj) hout
      fun k hk => ⟨(hin k hk).written,(hin k hk).kept⟩

end Protect

end PS3Native.Vm
