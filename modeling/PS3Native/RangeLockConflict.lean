import Mathlib.Algebra.Ring.Nat
import PS3Native.Alignment

/-!
# The conflict test of `vm::writer_lock`

A writer of a reservation line looks for range locks that touch the line. It cuts a range at 64 KiB
pages, of which each may be shared memory.
-/
namespace PS3Native.RangeLock

/-- `g_shmem`: zero, or the place of a page of shared memory, of which `vm` ensures the alignment. -/
structure Shmem where
  page : ℕ → ℕ
  aligned : ∀ hi, page hi%65536=0
  lt : ∀ hi, page hi < 2^64

def Shmem.translatePage (g : Shmem) (hi addr : ℕ) : ℕ :=
  if g.page hi=0 then addr else addr%65536 ||| g.page hi

def Shmem.translate (g : Shmem) (addr : ℕ) : ℕ := g.translatePage (addr/65536) addr

/-- The difference of two `u64`. -/
def sub64 (a b : ℕ) : ℕ := (2^64+a-b)%2^64

def touches (point addr3 size3 : ℕ) : Bool :=
  sub64 point (addr3/128) ≤ sub64 (sub64 (addr3+size3) 1/128) (addr3/128)

/-- The loop over the pages from `hi` on, of which `left` are left. -/
def checkPages (g : Shmem) (point : ℕ) : ℕ → ℕ → ℕ → ℕ → Bool
  | 0, _, _, _ => false
  | left+1, hi, addr2, size2 =>
    let size3 := min (addr2+size2) (alignUp addr2 65536)-addr2
    touches point (g.translatePage hi addr2) size3 ||
      checkPages g point left (hi+1) (addr2+size3) (size2-size3)

/-- The predicate on a range lock. The flags of a range lock are the upper three bits of its size. -/
def conflicts (g : Shmem) (addr addr2 size2 : ℕ) : Bool :=
  if size2/2^29=2 then false
  else checkPages g (g.translate addr/128) (sub64 (addr2+size2) 1/65536+1-addr2/65536)
    (addr2/65536) addr2 size2

def Overlaps (g : Shmem) (addr addr2 size2 : ℕ) : Prop :=
  ∃ a, addr2 ≤ a ∧ a < addr2+size2 ∧ g.translate a/128 = g.translate addr/128

variable {g : Shmem} {addr addr2 size2 hi left point : ℕ}

/-- Inside of a page the translation moves all addresses alike. -/
theorem Shmem.exists_base (g : Shmem) (hhi : hi < 65536) : ∃ b, b%65536=0 ∧ b+65536 ≤ 2^64 ∧
    ∀ a, a/65536=hi → g.translatePage hi a = b+a%65536 := by
  have haligned := g.aligned hi
  have hlt := g.lt hi
  by_cases hzero : g.page hi=0
  · refine ⟨hi*65536,by omega,by omega,fun a ha => ?_⟩
    rw [translatePage,if_pos hzero]
    omega
  · refine ⟨g.page hi,haligned,by omega,fun a _ => ?_⟩
    have hor := Nat.two_pow_add_eq_or_of_lt (show a%65536 < 2^16 by omega) (g.page hi/65536)
    rw [show 2^16*(g.page hi/65536) = g.page hi by omega] at hor
    rw [translatePage,if_neg hzero,hor,Nat.or_comm]

theorem Shmem.translate_lt (g : Shmem) (haddr : addr < 2^32) : g.translate addr/128 < 2^57 := by
  obtain ⟨b,-,hle,hb⟩ := g.exists_base (show addr/65536 < 65536 by omega)
  rw [translate,hb addr rfl]
  omega

theorem touches_iff {addr3 size3 : ℕ} (hpoint : point < 2^57) (hsize : 0 < size3)
    (hle : addr3+size3 ≤ 2^64) :
    touches point addr3 size3 ↔ addr3/128 ≤ point ∧ point ≤ (addr3+size3-1)/128 := by
  rw [touches,decide_eq_true_iff,sub64,sub64,sub64]
  omega

/-- Where a page begins `align` does not go on to its end: the piece is empty, and its last byte
wraps to the one in front of it. -/
theorem checkPages_aligned (hpoint : point < 2^57) (hhi : hi < 65536) (haligned : addr2 = hi*65536)
    (hsize : 0 < size2) : checkPages g point (left+1) hi addr2 size2 := by
  obtain ⟨b,hb,hle,hbase⟩ := g.exists_base hhi
  have halign : alignUp addr2 65536=addr2 := by
    rw [alignUp]
    omega
  have htouches : touches point b 0 := by
    rw [touches,decide_eq_true_iff,sub64,sub64,sub64]
    omega
  simp only [checkPages,halign,hbase addr2 (by omega)]
  rw [show min (addr2+size2) addr2-addr2 = 0 by omega,show b+addr2%65536 = b by omega,
    htouches,Bool.true_or]

/-- A range inside of a page that does not begin it. -/
theorem checkPages_single (haddr : addr < 2^32) (haddr2 : addr2 < 2^32) (hoff : addr2%65536≠0)
    (hin : addr2%65536+size2 ≤ 65536) (hsize : 0 < size2) :
    checkPages g (g.translate addr/128) 1 (addr2/65536) addr2 size2 ↔ Overlaps g addr addr2 size2 := by
  obtain ⟨b,hb,hle,hbase⟩ := g.exists_base (show addr2/65536 < 65536 by omega)
  have halign : min (addr2+size2) (alignUp addr2 65536)-addr2=size2 := by
    rw [alignUp]
    omega
  simp only [checkPages,halign,Bool.or_false,hbase addr2 rfl]
  rw [touches_iff (g.translate_lt haddr) hsize (by omega),Overlaps]
  generalize g.translate addr/128=point
  constructor
  · rintro ⟨hfirst,hlast⟩
    obtain ⟨a,ha⟩ : ∃ a, a = addr2+(point*128-(b+addr2%65536)) := ⟨_,rfl⟩
    refine ⟨a,by omega,by omega,?_⟩
    rw [Shmem.translate,show a/65536 = addr2/65536 by omega,hbase a (by omega)]
    omega
  · rintro ⟨a,hfrom,hto,hline⟩
    rw [Shmem.translate,show a/65536 = addr2/65536 by omega,hbase a (by omega)] at hline
    omega

/-- The test is exact, except that it reports every range that begins a page or goes beyond one. -/
theorem conflicts_exact_iff (haddr : addr < 2^32) (hsize : 0 < size2) (hflags : size2 < 2^29)
    (hwrap : addr2+size2 ≤ 2^32) :
    (conflicts g addr addr2 size2 ↔ Overlaps g addr addr2 size2) ↔
      Overlaps g addr addr2 size2 ∨ addr2%65536≠0 ∧ addr2%65536+size2 ≤ 65536 := by
  have hpoint := g.translate_lt haddr
  have hlast : sub64 (addr2+size2) 1 = addr2+size2-1 := by
    rw [sub64]
    omega
  rw [conflicts,if_neg (by omega),hlast]
  by_cases hin : addr2%65536≠0 ∧ addr2%65536+size2 ≤ 65536
  · rw [show (addr2+size2-1)/65536+1-addr2/65536 = 1 by omega]
    exact iff_of_true (checkPages_single haddr (by omega) hin.1 hin.2 hsize) (.inr hin)
  have hreports : checkPages g (g.translate addr/128) ((addr2+size2-1)/65536+1-addr2/65536)
      (addr2/65536) addr2 size2 := by
    obtain ⟨left,hleft⟩ : ∃ left, (addr2+size2-1)/65536+1-addr2/65536 = left+1 :=
      ⟨(addr2+size2-1)/65536-addr2/65536,by omega⟩
    rw [hleft]
    by_cases hoff : addr2%65536=0
    · exact checkPages_aligned hpoint (by omega) (by omega) hsize
    -- the second piece begins a page
    obtain ⟨left,rfl⟩ : ∃ n, left = n+1 := ⟨left-1,by omega⟩
    have hcut : min (addr2+size2) (alignUp addr2 65536)-addr2 = 65536-addr2%65536 := by
      rw [alignUp]
      omega
    rw [checkPages,hcut,Bool.or_eq_true]
    exact .inr (checkPages_aligned hpoint (by omega) (by omega) (by omega))
  simp only [hreports,true_iff,hin,or_false]

def unshared : Shmem := ⟨fun _ => 0,fun _ => rfl,fun _ => by decide⟩

/-- A lock on the first line of a page is reported to a writer of the page behind it. -/
theorem conflicts_first_line_of_page :
    conflicts unshared 0x20000 0x10000 128 ∧ ¬Overlaps unshared 0x20000 0x10000 128 := by
  refine ⟨by decide,?_⟩
  rintro ⟨a,hfrom,hto,hline⟩
  simp only [Shmem.translate,Shmem.translatePage,unshared,if_true] at hline
  omega

/-- A lock inside of a page conflicts with its own line. -/
theorem conflicts_exact_iff_inside : conflicts unshared 0x10080 0x10080 128 ↔
    Overlaps unshared 0x10080 0x10080 128 :=
  (conflicts_exact_iff (by decide) (by decide) (by decide) (by decide)).mpr (.inr (by decide))

end PS3Native.RangeLock
