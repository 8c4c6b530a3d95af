import PS3Native.PageTable

/-!
# What `page_protect` writes

A run is written when its first page changes. A page further on whose new value is
the same but whose old value differs is then left out when the first page of its run
already has the new value.
-/
namespace PS3Native.Vm

section Runs

variable {α : Type*} [DecidableEq α] (f : ℕ → α) (first : ℕ)

/-- Where the run of equal values around `k` begins, not before `first`. -/
def runStart : ℕ → ℕ
  | 0 => 0
  | k+1 => if first < k+1 ∧ f k = f (k+1) then runStart k else k+1

theorem runStart_le (k : ℕ) : runStart f first k ≤ k := by
  induction k with
  | zero => exact Nat.le_refl _
  | succ k ih =>
    rw [runStart]
    split_ifs <;> omega

theorem runStart_first : runStart f first first=first := by
  cases first with
  | zero => rfl
  | succ k => rw [runStart,if_neg (fun h => (Nat.lt_irrefl _ h.1))]

variable {k : ℕ}

theorem runStart_succ_of_eq (hk : first ≤ k) (h : f k = f (k+1)) :
    runStart f first (k+1) = runStart f first k := by
  rw [runStart,if_pos ⟨by omega,h⟩]

theorem runStart_succ_of_ne (h : f k≠f (k+1)) : runStart f first (k+1) = k+1 := by
  rw [runStart,if_neg (fun h' => h h'.2)]

/-- All of a run has one value and one beginning. -/
theorem runStart_eq_of_le {k' : ℕ} (h : runStart f first k' ≤ k) (h' : k ≤ k') :
    runStart f first k = runStart f first k' ∧ f k = f k' := by
  induction k' with
  | zero =>
    obtain rfl : k=0 := by omega
    exact ⟨rfl,rfl⟩
  | succ k' ih =>
    rcases Nat.lt_or_ge k (k'+1) with hlt | hge
    · rw [runStart] at h ⊢
      split_ifs at h ⊢ with hrun
      · obtain ⟨hs,hf⟩ := ih h (by omega)
        exact ⟨hs,hf.trans hrun.2⟩
      · omega
    · obtain rfl : k = k'+1 := by omega
      exact ⟨rfl,rfl⟩

end Runs

variable (flagsSet flagsClear : BitVec 8) (old : Pages) (first last : ℕ)

def newValue (k : ℕ) : BitVec 8 := protectedValue flagsSet flagsClear (old k)

/-- The run of page `k` is closed inside the range, or by the value behind it. -/
def RunCloses (k : ℕ) : Prop :=
  newValue flagsSet flagsClear old k≠pageExecutable ∨
    ∃ l, k < l ∧ l < last ∧ newValue flagsSet flagsClear old l≠pageExecutable

/-- The first page of the run of page `k` changes, and the run is closed. -/
def RunWritten (k : ℕ) : Prop :=
  old (runStart (newValue flagsSet flagsClear old) first k)≠newValue flagsSet flagsClear old k ∧
    RunCloses flagsSet flagsClear old last k

/-- Page `k` has its new value exactly if its run is written. -/
structure Settled (k : ℕ) (value : BitVec 8) : Prop where
  written : RunWritten flagsSet flagsClear old first last k →
    value = newValue flagsSet flagsClear old k
  kept : ¬RunWritten flagsSet flagsClear old first last k → value = old k

def RunOpen (start : ℕ) (startValue : BitVec 8) (i : ℕ) : Prop :=
  (i=first ∧ start=first ∧ startValue=pageExecutable) ∨
    ∃ j, i = j+1 ∧ first ≤ j ∧ start = runStart (newValue flagsSet flagsClear old) first j ∧
      startValue = newValue flagsSet flagsClear old j

variable {flagsSet flagsClear old first last} {i start : ℕ} {startValue : BitVec 8}

theorem Settled.eq_newValue {k : ℕ} {value : BitVec 8}
    (h : Settled flagsSet flagsClear old first last k value)
    (hwritten : old k≠newValue flagsSet flagsClear old k →
      RunWritten flagsSet flagsClear old first last k) :
    value = newValue flagsSet flagsClear old k := by
  by_cases hw : RunWritten flagsSet flagsClear old first last k
  · exact h.written hw
  · rw [h.kept hw]
    exact not_not.mp (mt hwritten hw)

section

variable (h : RunOpen flagsSet flagsClear old first start startValue i)

include h

theorem RunOpen.start_le : start ≤ i := by
  rcases h with ⟨rfl,rfl,-⟩ | ⟨j,rfl,-,rfl,-⟩
  · exact Nat.le_refl _
  · exact (runStart_le ..).trans (Nat.le_succ j)

theorem RunOpen.run_eq {k : ℕ} (hk : start ≤ k) (hki : k < i) :
    runStart (newValue flagsSet flagsClear old) first k=start ∧
      newValue flagsSet flagsClear old k=startValue := by
  rcases h with ⟨rfl,rfl,-⟩ | ⟨j,rfl,-,rfl,rfl⟩
  · omega
  · exact runStart_eq_of_le _ _ hk (by omega)

theorem RunOpen.extend (heq : newValue flagsSet flagsClear old i=startValue) :
    RunOpen flagsSet flagsClear old first start startValue (i+1) := by
  rcases h with ⟨rfl,rfl,-⟩ | ⟨j,rfl,hj,rfl,rfl⟩
  · exact .inr ⟨_,rfl,Nat.le_refl _,(runStart_first ..).symm,heq.symm⟩
  · exact .inr ⟨j+1,rfl,by omega,(runStart_succ_of_eq _ _ hj heq.symm).symm,heq.symm⟩

theorem RunOpen.reopen (hne : newValue flagsSet flagsClear old i≠startValue) :
    RunOpen flagsSet flagsClear old first i (newValue flagsSet flagsClear old i) (i+1) := by
  rcases h with ⟨rfl,rfl,-⟩ | ⟨j,rfl,hj,rfl,rfl⟩
  · exact .inr ⟨_,rfl,Nat.le_refl _,(runStart_first ..).symm,rfl⟩
  · exact .inr ⟨j+1,rfl,by omega,(runStart_succ_of_ne _ _ hne.symm).symm,rfl⟩

theorem RunOpen.close {pages : Pages} {k : ℕ} (hold : ∀ k, start ≤ k → pages k = old k)
    (hcloses : ∀ k, start ≤ k → k < i → RunCloses flagsSet flagsClear old last k) (hk : start ≤ k)
    (hki : k < i) :
    Settled flagsSet flagsClear old first last k ((if i-start≠0 ∧ pages start≠startValue
      then fillPages pages start i startValue else pages) k) := by
  obtain ⟨hstart,hvalue⟩ := h.run_eq hk hki
  have hwritten : RunWritten flagsSet flagsClear old first last k ↔ pages start≠startValue := by
    rw [RunWritten,hstart,hvalue,hold start (Nat.le_refl _)]
    exact and_iff_left (hcloses k hk hki)
  constructor
  · intro hne
    rw [if_pos ⟨by omega,hwritten.mp hne⟩,fillPages,if_pos ⟨hk,hki⟩,hvalue]
  · intro heq
    rw [if_neg (fun h => heq (hwritten.mpr h.2)),hold k hk]

end

/-- From page `i` on, the loop writes the runs whose first page changes. -/
theorem protectLoop_spec (n : ℕ) (pages : Pages) (start : ℕ) (startValue : BitVec 8) (i : ℕ)
    (hi : i+n=last) (hfirst : first < last)
    (hopen : RunOpen flagsSet flagsClear old first start startValue i)
    (hold : ∀ k, start ≤ k → pages k = old k) :
    (∀ k, k < start ∨ last ≤ k →
      protectLoop flagsSet flagsClear last (n+1) pages start startValue i k = pages k) ∧
    ∀ k, start ≤ k → k < last → Settled flagsSet flagsClear old first last k
      (protectLoop flagsSet flagsClear last (n+1) pages start startValue i k) := by
  induction n generalizing pages start startValue i with
  | zero =>
    obtain rfl : i=last := hi
    simp only [protectLoop,Nat.lt_irrefl,if_false]
    by_cases hexec : pageExecutable=startValue
    · rw [if_neg (not_not.mpr hexec)]
      refine ⟨fun k _ => rfl,fun k hk hki => ⟨?_,fun _ => hold k hk⟩⟩
      rintro ⟨-,hne | ⟨l,hkl,hli,hne⟩⟩
      · exact (hne ((hopen.run_eq hk hki).2.trans hexec.symm)).elim
      · exact (hne ((hopen.run_eq (by omega) hli).2.trans hexec.symm)).elim
    · rw [if_pos hexec]
      refine ⟨?_,fun k hk hki => hopen.close hold ?_ hk hki⟩
      · intro k hk
        split_ifs
        · exact fillPages_of_notMem (by omega)
        · rfl
      · intro k hk hki
        exact .inl fun h => hexec (h.symm.trans (hopen.run_eq hk hki).2)
  | succ n ih =>
    have hlt : i < last := by omega
    have hnew : protectedValue flagsSet flagsClear (pages i) = newValue flagsSet flagsClear old i := by
      rw [newValue,hold i hopen.start_le]
    rw [protectLoop]
    simp only [hlt,if_true,hnew]
    by_cases hne : newValue flagsSet flagsClear old i≠startValue
    · rw [if_pos hne]
      set pages' := if i-start≠0 ∧ pages start≠startValue
        then fillPages pages start i startValue else pages with hpages'
      have hkeep : ∀ k, ¬(start ≤ k ∧ k < i) → pages' k = pages k := by
        intro k hk
        rw [hpages']
        split_ifs
        · exact fillPages_of_notMem hk
        · rfl
      obtain ⟨hout,hin⟩ := ih pages' i _ (i+1) (by omega) (hopen.reopen hne)
        (fun k hk => (hkeep k (by omega)).trans (hold k (hopen.start_le.trans hk)))
      constructor
      · intro k hk
        have := hopen.start_le
        rw [hout k (by omega),hkeep k (by omega)]
      · intro k hk hkl
        rcases Nat.lt_or_ge k i with hki | hik
        · rw [hout k (.inl hki)]
          refine hopen.close hold ?_ hk hki
          intro l hl hli
          by_cases hexec : newValue flagsSet flagsClear old l=pageExecutable
          · refine .inr ⟨i,hli,hlt,?_⟩
            rw [← hexec,(hopen.run_eq hl hli).2]
            exact hne
          · exact .inl hexec
        · exact hin k hik hkl
    · rw [if_neg hne]
      exact ih pages start startValue (i+1) (by omega) (hopen.extend (not_not.mp hne)) hold

def ProtectAccepted (pages : Pages) (addr size : BitVec 32) (flagsTest : BitVec 8) : Prop :=
  let firstFlag := pages (addr.toNat/4096)
  checkAddr pages addr.toNat (flagsTest ||| pageAllocated) size.toNat=true ∧
    protectSize firstFlag size.toNat≠0 ∧
    checkAddr pages addr.toNat
      (flagsTest ||| pageAllocated ||| (firstFlag &&& (page1mSize ||| page64kSize)))
      (protectSize firstFlag size.toNat)=true

def InProtectRange (pages : Pages) (addr size : BitVec 32) (k : ℕ) : Prop :=
  addr.toNat/4096 ≤ k ∧
    k < addr.toNat/4096+protectSize (pages (addr.toNat/4096)) size.toNat/4096

theorem protectSize_mod (firstFlag : BitVec 8) {size : ℕ} (h : size%4096=0) :
    protectSize firstFlag size%4096=0 := by
  unfold protectSize alignU32 alignUp
  split_ifs <;> omega

theorem arguments_valid_iff (addr size : BitVec 32) : ¬(size=0 ∨ (size ||| addr).toNat%4096≠0) ↔
      size≠0 ∧ addr.toNat%4096=0 ∧ size.toNat%4096=0 := by
  rw [not_or,not_not,BitVec.toNat_or,show 4096 = 2^12 from rfl,Nat.or_mod_two_pow,
    Nat.or_eq_zero_iff]
  exact and_congr_right fun _ => and_comm

theorem protectedValue_zero (value : BitVec 8) : protectedValue 0 0 value=value := by
  rw [protectedValue,BitVec.ofNat_eq_ofNat,BitVec.or_zero]
  exact BitVec.and_allOnes

/-- One spec for `page_protect`: it changes nothing when the checks do not pass or no
flag is to change, else it writes the runs whose first page changes. -/
theorem pageProtect_cases (pages : Pages) {addr size : BitVec 32} (flagsTest flagsSet
    flagsClear : BitVec 8) (hsize : size≠0) (haddr : addr.toNat%4096=0)
    (hpage : size.toNat%4096=0) :
    (∃ result, pageProtect pages addr size flagsTest flagsSet flagsClear = .ok (result,pages) ∧
      (result → withoutCommon flagsSet flagsClear=0 ∧ withoutCommon flagsClear flagsSet=0) ∧
      (result=false → ¬ProtectAccepted pages addr size flagsTest)) ∨
    (ProtectAccepted pages addr size flagsTest ∧
      ∃ pages', pageProtect pages addr size flagsTest flagsSet flagsClear = .ok (true,pages') ∧
        (∀ k, ¬InProtectRange pages addr size k → pages' k = pages k) ∧
        ∀ k, InProtectRange pages addr size k →
          Settled (withoutCommon flagsSet flagsClear) (withoutCommon flagsClear flagsSet) pages
            (addr.toNat/4096)
            (addr.toNat/4096+protectSize (pages (addr.toNat/4096)) size.toNat/4096) k
            (pages' k)) := by
  have hvalid := (arguments_valid_iff addr size).mpr ⟨hsize,haddr,hpage⟩
  unfold pageProtect
  dsimp only
  split_ifs with hcheck hnone hrecheck
  · refine .inl ⟨false,rfl,by simp,fun _ haccepted => ?_⟩
    rw [haccepted.1] at hcheck
    cases hcheck
  · exact .inl ⟨true,rfl,fun _ => hnone,by simp⟩
  · refine .inl ⟨false,rfl,by simp,fun _ haccepted => ?_⟩
    rw [haccepted.2.2] at hrecheck
    rcases hrecheck with hzero | hfail
    · exact haccepted.2.1 hzero
    · cases hfail
  · rw [not_or] at hrecheck
    have hmod := protectSize_mod (pages (addr.toNat/4096)) hpage
    have hpos := hrecheck.1
    obtain ⟨hout,hin⟩ := @protectLoop_spec (withoutCommon flagsSet flagsClear)
      (withoutCommon flagsClear flagsSet) pages (addr.toNat/4096) _
      (protectSize (pages (addr.toNat/4096)) size.toNat/4096) pages (addr.toNat/4096)
      pageExecutable (addr.toNat/4096) rfl (by omega) (.inl ⟨rfl,rfl,rfl⟩) (fun _ _ => rfl)
    refine .inr ⟨⟨by simpa using hcheck,hpos,by simpa using hrecheck.2⟩,_,rfl,?_,?_⟩
    · intro k hk
      simp only [InProtectRange] at hk
      exact hout k (by omega)
    · intro k hk
      exact hin k hk.1 hk.2

/-- `page_protect` gives every page of the range its new value, and changes nothing
else, exactly when every page that has to change is in a run whose first page has to
change too and which is closed. -/
theorem page_protect_exact_iff (pages : Pages) (addr size : BitVec 32) (flagsTest flagsSet
    flagsClear : BitVec 8) (hsize : size≠0) (haddr : addr.toNat%4096=0)
    (hpage : size.toNat%4096=0) :
    (∃ result pages',
      pageProtect pages addr size flagsTest flagsSet flagsClear = .ok (result,pages') ∧
      (result → (∀ k, InProtectRange pages addr size k → pages' k=protectedValue
          (withoutCommon flagsSet flagsClear) (withoutCommon flagsClear flagsSet) (pages k)) ∧
        ∀ k, ¬InProtectRange pages addr size k → pages' k = pages k) ∧
      (result=false → pages'=pages)) ↔
    (ProtectAccepted pages addr size flagsTest → ∀ k, InProtectRange pages addr size k →
      pages k≠newValue (withoutCommon flagsSet flagsClear) (withoutCommon flagsClear flagsSet)
        pages k →
      RunWritten (withoutCommon flagsSet flagsClear) (withoutCommon flagsClear flagsSet) pages
        (addr.toNat/4096)
        (addr.toNat/4096+protectSize (pages (addr.toNat/4096)) size.toNat/4096) k) := by
  rcases pageProtect_cases pages flagsTest flagsSet flagsClear hsize haddr hpage with
    ⟨result,hrun,htrue,hfalse⟩ | ⟨haccepted,pages',hrun,hout,hin⟩
  · cases result with
    | false =>
      exact iff_of_true ⟨false,pages,hrun,by simp,fun _ => rfl⟩ (fun h => (hfalse rfl h).elim)
    | true =>
      obtain ⟨hset,hclear⟩ := htrue rfl
      refine iff_of_true ⟨true,pages,hrun,fun _ => ⟨?_,fun _ _ => rfl⟩,by simp⟩ ?_
      · intro k _
        rw [hset,hclear,protectedValue_zero]
      · intro _ k _ hne
        rw [newValue,hset,hclear,protectedValue_zero] at hne
        exact (hne rfl).elim
  · constructor
    · rintro ⟨result,pages'',hrun',hexact,-⟩-k hk hne
      rw [hrun] at hrun'
      obtain ⟨rfl,rfl⟩ : true=result ∧ pages'=pages'' := by simpa using hrun'
      by_contra hnot
      have hkept := (hin k hk).kept hnot
      rw [(hexact rfl).1 k hk] at hkept
      exact hne hkept.symm
    · intro hwritten
      refine ⟨true,pages',hrun,fun _ => ⟨?_,hout⟩,by simp⟩
      intro k hk
      exact (hin k hk).eq_newValue (hwritten haccepted k hk)

theorem page_protect_exact_two_pages :
    ∃ result pages', pageProtect (fun _ => pageAllocated ||| pageReadable) 0x10000#32 0x2000#32 0
        pageWritable 0 = .ok (result,pages') ∧
      (result →
        (∀ k, InProtectRange (fun _ => pageAllocated ||| pageReadable) 0x10000#32 0x2000#32 k →
          pages' k = protectedValue (withoutCommon pageWritable 0) (withoutCommon 0 pageWritable)
            (pageAllocated ||| pageReadable)) ∧
        ∀ k, ¬InProtectRange (fun _ => pageAllocated ||| pageReadable) 0x10000#32 0x2000#32 k →
          pages' k = pageAllocated ||| pageReadable) ∧
      (result=false → pages' = fun _ => pageAllocated ||| pageReadable) := by
  refine (page_protect_exact_iff _ _ _ _ _ _ (by decide) (by decide) (by decide)).mpr ?_
  intro _ k _ _
  constructor
  · show (0x81#8 : BitVec 8)≠protectedValue 0x02#8 0x00#8 0x81#8
    decide
  · left
    show protectedValue 0x02#8 0x00#8 0x81#8≠pageExecutable
    decide

/-- A writable page before a read-only one: making both writable leaves the second
page read-only and reports success. -/
theorem page_protect_skips_page : ∃ pages', pageProtect
        (fun k => if k=0x10 then 0x83#8 else if k=0x11 then 0x81#8 else 0#8)
        0x10000#32 0x2000#32 0 pageWritable 0 = .ok (true,pages') ∧
      InProtectRange (fun k => if k=0x10 then 0x83#8 else if k=0x11 then 0x81#8 else 0#8)
        0x10000#32 0x2000#32 0x11 ∧
      pages' 0x11 = pageAllocated ||| pageReadable ∧
      protectedValue (withoutCommon pageWritable 0) (withoutCommon 0 pageWritable) 0x81#8 =
        pageAllocated ||| pageReadable ||| pageWritable := by
  refine ⟨_,rfl,⟨?_,?_⟩,?_,?_⟩ <;> decide

end PS3Native.Vm
