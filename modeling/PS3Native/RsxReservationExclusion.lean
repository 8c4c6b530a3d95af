import PS3Native.RsxReservationOwners

/-!
# Which reservation locks exclude each other

Two locks of which one is full exclude each other exactly if they have a block in common. With
a stride of one, ranges that share a byte have its block in common; with a larger stride they
need not.
-/
namespace PS3Native.RsxReservationLock
open Function

open ReaderWriter Schedule

variable {τ : Type*} [DecidableEq τ] {s s' : State τ} {t u : τ} {l l₁ l₂ : ReservationLock}

def Meet (l₁ l₂ : ReservationLock) : Prop := ∃ b, l₁.Block b ∧ l₂.Block b

/-- No two threads ever have the two locks at the same time. -/
def Excluded (τ : Type*) [DecidableEq τ] (l₁ l₂ : ReservationLock) : Prop :=
  ∀ s : State τ, Reachable s → ∀ t u, t≠u → ¬(s.loc t = .object l₁ ∧ s.loc u = .object l₂)

/-- The range of the lock is in main memory and longer than one byte. -/
structure ReservationLock.InMain (l : ReservationLock) : Prop where
  two_le : 2 ≤ l.length.toNat
  le_base : l.addr.toNat+l.length.toNat ≤ localMemBase.toNat

def ReservationLock.Covers (l : ReservationLock) (x : ℕ) : Prop :=
  l.addr.toNat ≤ x ∧ x < l.addr.toNat+l.length.toNat

theorem ReservationLock.InMain.length_ne_zero (h : l.InMain) : l.length≠0#32 := by
  intro hzero
  have hle := h.two_le
  rw [hzero] at hle
  exact absurd hle (by decide)

theorem ReservationLock.InMain.last_eq (h : l.InMain) :
    l.last = (l.addr.toNat+l.length.toNat-1)/cLockStride := by
  have hle := h.two_le
  have hbase := h.le_base
  have hone : (1#32).toNat=1 := rfl
  rw [last,BitVec.toNat_sub,BitVec.toNat_add,hone]
  congr 1
  omega

theorem meet_of_stride_one (h₁ : l₁.InMain) (h₂ : l₂.InMain) (hone₁ : l₁.stride=.one)
    (hone₂ : l₂.stride=.one) {x : ℕ} (hx₁ : l₁.Covers x) (hx₂ : l₂.Covers x) : Meet l₁ l₂ := by
  have hblock : ∀ l : ReservationLock, l.InMain → l.stride=.one → l.Covers x →
      l.Block (x/cLockStride) := by
    intro l h hone hx
    refine ⟨Nat.div_le_div_right hx.1,?_,?_⟩
    · rw [h.last_eq]
      exact Nat.div_le_div_right (Nat.le_sub_one_of_lt hx.2)
    · rw [hone]
      exact Nat.one_dvd _
  exact ⟨x/cLockStride,hblock l₁ h₁ hone₁ hx₁,hblock l₂ h₂ hone₂ hx₂⟩

theorem excluded_of_meet (h₁ : l₁.InMain) (h₂ : l₂.InMain) (hfull : l₁.full ∨ l₂.full)
    (hmeet : Meet l₁ l₂) : Excluded τ l₁ l₂ := by
  intro s hreach t u hne ⟨ht,hu⟩
  have hinv := hreach.inv
  obtain ⟨b,hb₁,hb₂⟩ := hmeet
  have hholds₁ : (s.rs b).Holds l₁.full t := by
    rw [hinv.holds,ht]
    exact ⟨rfl,h₁.length_ne_zero,hb₁⟩
  have hholds₂ : (s.rs b).Holds l₂.full u := by
    rw [hinv.holds,hu]
    exact ⟨rfl,h₂.length_ne_zero,hb₂⟩
  exact hne ((hinv.wellFormed b).eq_of_holds hholds₁ hholds₂ hfull)

section Disjoint

/-- No other thread has a block of the lock `l` of `t`. -/
def OthersApart (s : State τ) (t : τ) (l : ReservationLock) : Prop :=
  ∀ u, u≠t → ∀ b, l.Block b → ¬(s.loc u).Has b

def CanLock (s : State τ) (t : τ) (l : ReservationLock) : Prop :=
  ∃ s', Reachable s' ∧ s'.loc t = .object l ∧ ∀ u, u≠t → s'.loc u = s.loc u

/-- A step of `t` does not change what the other threads have. -/
theorem CanLock.of_go {s₁ : State τ} {place : Loc} (hothers : OthersApart s t l)
    (hnext : OthersApart (s₁.go t place) t l → CanLock (s₁.go t place) t l)
    (hsame : s₁.loc=s.loc) : CanLock s t l := by
  have hkeep : ∀ u, u≠t → (s₁.go t place).loc u = s.loc u :=
    fun u hut => (update_of_ne hut ..).trans (congrFun hsame u)
  obtain ⟨s',hs',hobject,hrest⟩ := hnext fun u hut b hb => by
    rw [hkeep u hut]
    exact hothers u hut b hb
  exact ⟨s',hs',hobject,fun u hut => (hrest u hut).trans (hkeep u hut)⟩

/-- A thread gets its blocks when no other thread has one of them. -/
theorem exists_locked {block : ℕ} (hreach : Reachable s) (hloc : s.loc t = .locking l block)
    (hothers : OthersApart s t l) : CanLock s t l := by
  have hpos := stride_pos l.stride
  induction hn : l.last+1-block using Nat.strong_induction_on generalizing s block with
  | _ n ih =>
    have hinv := hreach.inv
    by_cases hle : block ≤ l.last
    · have hfits := hinv.fits t
      rw [hloc] at hfits
      have hfree : ∀ full u, (s.rs block).Holds full u → full=false ∧ l.full=false := by
        intro full u hholds
        have hhas := ((hinv.holds block full u).1 hholds).2
        by_cases hut : u=t
        · rw [hut,hloc] at hhas
          exact absurd hhas.2 (Nat.lt_irrefl block)
        · exact absurd hhas (hothers u hut block ⟨hfits.2.1,hle,hfits.2.2⟩)
      obtain ⟨m,hm⟩ := exists_tryLock hfree t
      have hadv : advance s t = some (State.go { s with
          rs := update s.rs block m
          acquired := bump s.acquired t block } t (.locking l (block+l.stride.value))) := by
        simp only [advance,hloc,if_pos hle,hm,Option.map_some]
      have hless : l.last+1-(block+l.stride.value) < n := by omega
      have hnext := ih _ hless (hreach.tail (.advance hadv)) (update_self ..)
      exact .of_go hothers (fun hothers => hnext hothers rfl) rfl
    · have hadv : advance s t = some (s.go t (.object l)) := by
        simp only [advance,hloc,if_neg hle]
      exact ⟨s.go t (.object l),hreach.tail (.advance hadv),update_self ..,
        fun u hut => update_of_ne hut ..⟩

/-- A thread at rest gets a lock when no other thread has one of its blocks. -/
theorem exists_constructed (hreach : Reachable s) (h : l.InMain) (hloc : s.loc t = .idle)
    (hothers : OthersApart s t l) : CanLock s t l := by
  have hlength : ¬l.length ≤ 1#32 := by
    have hle := h.two_le
    rw [BitVec.le_def]
    have hone : (1#32).toNat=1 := rfl
    omega
  have hcall : call s t (.construct l.full l.stride (.setting l.addr l.length true)) =
      some (s.go t (.locking l l.first)) := by
    simp only [call,hloc,if_true,Constructor.target,State.lockRange,if_neg hlength]
  exact .of_go hothers (exists_locked (hreach.tail (.call hcall)) (update_self ..)) rfl

theorem meet_of_excluded [Nontrivial τ] (h₁ : l₁.InMain) (h₂ : l₂.InMain)
    (hexcluded : Excluded τ l₁ l₂) : Meet l₁ l₂ := by
  by_contra hmeet
  obtain ⟨t,u,hne⟩ := exists_pair_ne τ
  obtain ⟨s,hs,ht,hidle⟩ := exists_constructed (s := initial τ) (t := t) .refl h₁ rfl
    fun u _ b _ => id
  obtain ⟨s',hs',hu,hsame⟩ := exists_constructed hs h₂ (hidle u hne.symm) (by
    intro v hv b hb hhas
    by_cases hvt : v=t
    · rw [hvt,ht] at hhas
      exact hmeet ⟨b,hhas.2,hb⟩
    · rw [hidle v hvt] at hhas
      exact hhas)
  exact hexcluded s' hs' t u hne ⟨(hsame t hne).trans ht,hu⟩

end Disjoint

/-- Two reservation locks in main memory, one of them full, exclude each other if and only if
they have a block in common, which they do if both strides are one and the ranges share a
byte. Each lock that is taken is released once. -/
theorem reservation_lock_excludes_iff [Nontrivial τ] (h₁ : l₁.InMain) (h₂ : l₂.InMain)
    (hfull : l₁.full ∨ l₂.full) {x : ℕ} (hx₁ : l₁.Covers x) (hx₂ : l₂.Covers x) :
    (Excluded τ l₁ l₂ ↔ Meet l₁ l₂) ∧ (l₁.stride=.one → l₂.stride=.one → Excluded τ l₁ l₂) ∧
      ∀ s : State τ, Reachable s → ReleasedOnce s :=
  ⟨⟨meet_of_excluded h₁ h₂,excluded_of_meet h₁ h₂ hfull⟩,
    fun hone₁ hone₂ => excluded_of_meet h₁ h₂ hfull (meet_of_stride_one h₁ h₂ hone₁ hone₂ hx₁ hx₂),
    fun _ hreach => hreach.inv.counts⟩

inductive Worker
  | rsx
  | spu
  deriving DecidableEq

instance : Nontrivial Worker := ⟨.rsx,.spu,by decide⟩

def rsxLock (stride : Stride) : ReservationLock := ⟨true,stride,0x10000000#32,0x4000#32⟩

def spuLock : ReservationLock := ⟨false,.one,0x10002000#32,128#32⟩

theorem rsxLock_inMain (stride : Stride) : (rsxLock stride).InMain := by
  cases stride <;> exact ⟨by decide,by decide⟩

theorem spuLock_inMain : spuLock.InMain := ⟨by decide,by decide⟩

theorem covers_both (stride : Stride) :
    (rsxLock stride).Covers 0x10002000 ∧ spuLock.Covers 0x10002000 := by
  cases stride <;> exact ⟨⟨by decide,by decide⟩,by decide,by decide⟩

theorem reservation_lock_excludes_stride_one : Excluded Worker (rsxLock .one) spuLock :=
  (reservation_lock_excludes_iff (rsxLock_inMain .one) spuLock_inMain (.inl rfl)
    (covers_both .one).1 (covers_both .one).2).2.1 rfl rfl

section Schedule

inductive Choice (τ : Type*)
  | call (t : τ) (c : Call)
  | advance (t : τ)

def take (s : State τ) : Choice τ → Option (State τ)
  | .call t c => call s t c
  | .advance t => advance s t

theorem step_of_take (s : State τ) (c : Choice τ) (s' : State τ) (h : take s c = some s') :
    Step s s' := by
  cases c with
  | call t c => exact .call h
  | advance t => exact .advance h

end Schedule

def bothSchedule : List (Choice Worker) :=
  [.call .rsx (.construct true .default (.range true 0x10000000#32 0x4000#32)),
    .advance .rsx,.advance .rsx,
    .call .spu (.construct false .one (.setting 0x10002000#32 128#32 true)),
    .advance .spu,.advance .spu]

/-- With the default stride the RSX locks the first block only. -/
theorem reservation_locks_not_excluded : (∃ x, (rsxLock .default).Covers x ∧ spuLock.Covers x) ∧
      ∃ s : State Worker, Reachable s ∧
        s.loc .rsx = .object (rsxLock .default) ∧ s.loc .spu = .object spuLock := by
  have hrun : ((run take (initial Worker) bothSchedule).map fun s => (s.loc .rsx,s.loc .spu)) =
      some (.object (rsxLock .default),.object spuLock) := by decide +kernel
  obtain ⟨s,hreach,hEq⟩ := exists_of_run step_of_take hrun
  simp only [Prod.mk.injEq] at hEq
  exact ⟨⟨0x10002000,covers_both .default⟩,s,hreach,hEq⟩

end PS3Native.RsxReservationLock
