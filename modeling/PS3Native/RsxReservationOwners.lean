import PS3Native.RsxReservationLock
import PS3Native.Schedule

/-!
# Who holds which block

A thread holds the blocks of its range that its loop has visited, or has not visited yet in
`unlock`. The mutexes of the blocks agree with that in every run, and each thread has
released a block as often as it has locked it, but for the blocks that it holds.
-/
namespace PS3Native.RsxReservationLock
open Function

open ReaderWriter Schedule

variable {τ : Type*} [DecidableEq τ] {s s' : State τ} {t u : τ}

section Blocks

def ReservationLock.Block (l : ReservationLock) (b : ℕ) : Prop :=
  l.first ≤ b ∧ b ≤ l.last ∧ l.stride.value ∣ b-l.first

instance (l : ReservationLock) (b : ℕ) : Decidable (l.Block b) :=
  inferInstanceAs (Decidable (_ ∧ _ ∧ _))

/-- The loop variable stands at a multiple of the stride. -/
def ReservationLock.OnStride (l : ReservationLock) (block : ℕ) : Prop :=
  l.first ≤ block ∧ l.stride.value ∣ block-l.first

theorem stride_pos (stride : Stride) : 0 < stride.value := by
  cases stride <;> decide

theorem ReservationLock.OnStride.next {l : ReservationLock} {block : ℕ} (h : l.OnStride block) :
    l.OnStride (block+l.stride.value) := by
  obtain ⟨hle,k,hk⟩ := h
  refine ⟨by omega,k+1,?_⟩
  rw [Nat.mul_add,Nat.mul_one,← hk]
  omega

theorem onStride_first (l : ReservationLock) : l.OnStride l.first :=
  ⟨Nat.le_refl _,by rw [Nat.sub_self]; exact Nat.dvd_zero _⟩

/-- No block lies between the loop variable and its next value. -/
theorem ReservationLock.OnStride.le_or_lt {l : ReservationLock} {block b : ℕ} (h : l.OnStride block)
    (hb : l.Block b) (hne : b≠block) : b < block ∨ block+l.stride.value ≤ b := by
  obtain ⟨hle,k,hk⟩ := h
  obtain ⟨hfirst,-,j,hj⟩ := hb
  rcases Nat.lt_trichotomy j k with hlt | rfl | hgt
  · have hmul := Nat.mul_le_mul_left l.stride.value hlt.le
    omega
  · omega
  · have hmul := Nat.mul_le_mul_left l.stride.value (Nat.succ_le_of_lt hgt)
    rw [Nat.mul_succ] at hmul
    omega

end Blocks

section Invariant

def Loc.Has : Loc → ℕ → Prop
  | .idle, _ => False
  | .locking l block, b => l.Block b ∧ b < block
  | .object l, b => l.length≠0#32 ∧ l.Block b
  | .unlocking l block _, b => l.Block b ∧ block ≤ b

instance : (l : Loc) → (b : ℕ) → Decidable (l.Has b)
  | .idle, _ => inferInstanceAs (Decidable False)
  | .locking l block, b => inferInstanceAs (Decidable (l.Block b ∧ b < block))
  | .object l, b => inferInstanceAs (Decidable (l.length≠0#32 ∧ l.Block b))
  | .unlocking l block _, b => inferInstanceAs (Decidable (l.Block b ∧ block ≤ b))

def Loc.full : Loc → Bool
  | .idle => false
  | .locking l _ | .object l | .unlocking l _ _ => l.full

def Loc.Fits : Loc → Prop
  | .locking l block => l.length≠0#32 ∧ l.OnStride block
  | .unlocking l block _ => l.OnStride block
  | _ => True

/-- Each lock is released once: as often as it was taken, but for the blocks that are held. -/
def ReleasedOnce (s : State τ) : Prop :=
  ∀ t b, s.acquired t b = s.released t b+if (s.loc t).Has b then 1 else 0

structure Inv (s : State τ) : Prop where
  wellFormed : ∀ b, (s.rs b).WellFormed
  holds : ∀ b full t, (s.rs b).Holds full t ↔ (s.loc t).full=full ∧ (s.loc t).Has b
  fits : ∀ t, (s.loc t).Fits
  counts : ReleasedOnce s

omit [DecidableEq τ] in
theorem inv_initial : Inv (initial τ) where
  wellFormed _ := free_wellFormed
  holds b full t := by
    refine iff_of_false (not_holds_free full t) ?_
    rintro ⟨-,h⟩
    exact h
  fits _ := trivial
  counts t b := by
    have hidle : ¬((initial τ).loc t).Has b := id
    rw [if_neg hidle]
    rfl

end Invariant

section Moves

variable {block : ℕ} {l : ReservationLock}

theorem bump_self (f : τ → ℕ → ℕ) (t : τ) (block : ℕ) : bump f t block t block = f t block+1 := by
  rw [bump,update_self,update_self]

theorem bump_of_ne (f : τ → ℕ → ℕ) {b : ℕ} (h : ¬(u=t ∧ b=block)) :
    bump f t block u b = f u b := by
  rw [bump]
  by_cases hut : u=t
  · subst hut
    rw [update_self,update_of_ne fun hb => h ⟨rfl,hb⟩]
  · rw [update_of_ne hut]

section

variable (h : Inv s)

include h

theorem Inv.go {l : Loc} (hfits : l.Fits) (hhas : ∀ b, l.Has b ↔ (s.loc t).Has b)
    (hfull : ∀ b, l.Has b → l.full = (s.loc t).full) : Inv (s.go t l) where
  wellFormed := h.wellFormed
  holds b full u := by
    refine (h.holds b full u).trans ?_
    change _ ↔ (update s.loc t l u).full=full ∧ (update s.loc t l u).Has b
    by_cases hut : u=t
    · subst hut
      rw [update_self,hhas b]
      refine and_congr_left fun hb => ?_
      rw [hfull b ((hhas b).2 hb)]
    · rw [update_of_ne hut]
  fits := forall_update (P := Loc.Fits) h.fits hfits
  counts u b := by
    have hcounts := h.counts u b
    change s.acquired u b = s.released u b+if (update s.loc t l u).Has b then 1 else 0
    by_cases hut : u=t
    · subst hut
      rw [update_self,hcounts]
      simp only [hhas b]
    · rw [update_of_ne hut,hcounts]

theorem Inv.change {l : Loc} {m : Lock τ} {acquired released : τ → ℕ → ℕ} (hfits : l.Fits)
    (hfull : l.full = (s.loc t).full) (hhas : ∀ b, b≠block → (l.Has b ↔ (s.loc t).Has b))
    (hm : m.WellFormed) (hself : ∀ full, m.Holds full t ↔ l.full=full ∧ l.Has block)
    (hother : ∀ full u, u≠t → (m.Holds full u ↔ (s.rs block).Holds full u))
    (hcounts : acquired t block = released t block+if l.Has block then 1 else 0)
    (hsame : ∀ u b, ¬(u=t ∧ b=block) →
      acquired u b = s.acquired u b ∧ released u b = s.released u b) :
    Inv (State.go { s with
      rs := update s.rs block m, acquired := acquired, released := released } t l) where
  wellFormed b := forall_update (P := Lock.WellFormed) h.wellFormed hm b
  holds b full u := by
    change (update s.rs block m b).Holds full u ↔
      (update s.loc t l u).full=full ∧ (update s.loc t l u).Has b
    have hold := h.holds b full u
    by_cases hb : b=block
    · subst hb
      rw [update_self]
      by_cases hut : u=t
      · subst hut
        rw [update_self,hself]
      · rw [update_of_ne hut,hother full u hut,hold]
    · rw [update_of_ne hb,hold]
      by_cases hut : u=t
      · subst hut
        rw [update_self,hfull,hhas b hb]
      · rw [update_of_ne hut]
  fits := forall_update (P := Loc.Fits) h.fits hfits
  counts u b := by
    have hold := h.counts u b
    change acquired u b = released u b+if (update s.loc t l u).Has b then 1 else 0
    by_cases hut : u=t
    · subst hut
      rw [update_self]
      by_cases hb : b=block
      · subst hb
        exact hcounts
      · obtain ⟨hacquired,hreleased⟩ := hsame u b fun hsame => hb hsame.2
        rw [hacquired,hreleased,hold]
        simp only [hhas b hb]
    · obtain ⟨hacquired,hreleased⟩ := hsame u b fun hsame => hut hsame.1
      rw [update_of_ne hut,hacquired,hreleased,hold]

theorem Inv.acquire {m : Lock τ} (hloc : s.loc t = .locking l block) (hle : block ≤ l.last)
    (hlock : (s.rs block).tryLock l.full t = some m) :
    Inv (State.go { s with
      rs := update s.rs block m
      acquired := bump s.acquired t block } t (.locking l (block+l.stride.value))) := by
  have hfits := h.fits t
  have hcounts := h.counts t block
  have hnot : ∀ full, ¬(s.rs block).Holds full t := by
    intro full hholds
    have hhas := ((h.holds block full t).1 hholds).2
    rw [hloc] at hhas
    exact Nat.lt_irrefl block hhas.2
  have hnothas : ¬(s.loc t).Has block := by
    rw [hloc]
    exact fun hhas => Nat.lt_irrefl block hhas.2
  have hpos := stride_pos l.stride
  rw [hloc] at hfits
  obtain ⟨hlength,hstride⟩ := hfits
  have hhas : (Loc.locking l (block+l.stride.value)).Has block :=
    ⟨⟨hstride.1,hle,hstride.2⟩,by omega⟩
  refine h.change (l := .locking l (block+l.stride.value)) ⟨hlength,hstride.next⟩ (by rw [hloc]; rfl)
    ?_ ((h.wellFormed block).tryLock hlock (hnot l.full)) ?_ ?_ ?_ ?_
  · intro b hb
    rw [hloc]
    refine and_congr_right fun hblock => ?_
    rcases hstride.le_or_lt hblock hb with hlt | hge
    · exact iff_of_true (by omega) hlt
    · exact iff_of_false (by omega) (by omega)
  · intro full
    rw [holds_tryLock hlock,or_iff_right (hnot full)]
    exact ⟨fun hEq => ⟨hEq.1.symm,hhas⟩,fun hEq => ⟨hEq.1.symm,rfl⟩⟩
  · intro full u hut
    rw [holds_tryLock hlock]
    exact or_iff_left fun hEq => hut hEq.2
  · rw [bump_self,if_pos hhas,hcounts,if_neg hnothas]
  · exact fun u b hsame => ⟨bump_of_ne s.acquired hsame,rfl⟩

theorem Inv.release {next : Next} (hloc : s.loc t = .unlocking l block next) (hle : block ≤ l.last) :
    Inv (State.go { s with
      rs := update s.rs block ((s.rs block).unlock l.full t)
      released := bump s.released t block } t (.unlocking l (block+l.stride.value) next)) := by
  have hstride := h.fits t
  have hcounts := h.counts t block
  have hpos := stride_pos l.stride
  rw [hloc] at hstride
  have hhas : (s.loc t).Has block := by
    rw [hloc]
    exact ⟨⟨hstride.1,hle,hstride.2⟩,Nat.le_refl block⟩
  have hholds : (s.rs block).Holds l.full t := by
    rw [h.holds,hloc]
    exact ⟨rfl,hloc ▸ hhas⟩
  have hnothas : ¬(Loc.unlocking l (block+l.stride.value) next).Has block := by
    rintro ⟨-,hle⟩
    omega
  refine h.change (l := .unlocking l (block+l.stride.value) next) hstride.next (by rw [hloc]; rfl)
    ?_ ((h.wellFormed block).unlock hholds) ?_ ?_ ?_ ?_
  · intro b hb
    rw [hloc]
    refine and_congr_right fun hblock => ?_
    rcases hstride.le_or_lt hblock hb with hlt | hge
    · exact iff_of_false (by omega) (by omega)
    · exact iff_of_true hge (by omega)
  · intro full
    rw [(h.wellFormed block).holds_unlock hholds]
    refine iff_of_false ?_ fun hEq => hnothas hEq.2
    rintro ⟨hfull,hne⟩
    have hEq := ((h.holds block full t).1 hfull).1
    rw [hloc] at hEq
    exact hne ⟨hEq.symm,rfl⟩
  · intro full u hut
    rw [(h.wellFormed block).holds_unlock hholds]
    exact and_iff_left fun hEq => hut hEq.2
  · rw [bump_self,if_neg hnothas,hcounts,if_pos hhas]
  · exact fun u b hsame => ⟨rfl,bump_of_ne s.released hsame⟩

theorem Inv.lockRange (hnone : ∀ b, ¬(s.loc t).Has b) (full : Bool) (stride : Stride)
    (addr length : BitVec 32) : Inv (s.lockRange t full stride addr length) := by
  rw [State.lockRange]
  split
  · refine h.go trivial ?_ ?_
    · exact fun b => iff_of_false (fun hhas => hhas.1 rfl) (hnone b)
    · exact fun b hhas => absurd rfl hhas.1
  · next hlength =>
    refine h.go ⟨?_,onStride_first _⟩ ?_ ?_
    · rintro rfl
      exact hlength (by decide)
    · exact fun b => iff_of_false (fun hhas => Nat.not_lt.2 hhas.1.1 hhas.2) (hnone b)
    · exact fun b hhas => absurd hhas.2 (Nat.not_lt.2 hhas.1.1)

theorem Inv.advance (hadv : advance s t = some s') : Inv s' := by
  have hfits := h.fits t
  rw [RsxReservationLock.advance] at hadv
  split at hadv
  · next l block hloc =>
    rw [hloc] at hfits
    split at hadv
    · next hle =>
      obtain ⟨m,hlock,rfl⟩ := Option.map_eq_some_iff.1 hadv
      exact h.acquire hloc hle hlock
    · next hle =>
      cases hadv
      refine h.go trivial ?_ fun b _ => by rw [hloc]; rfl
      intro b
      rw [hloc]
      constructor
      · exact fun hhas => ⟨hhas.2,Nat.lt_of_le_of_lt hhas.2.2.1 (Nat.not_le.1 hle)⟩
      · exact fun hhas => ⟨hfits.1,hhas.1⟩
  · next l block next hloc =>
    split at hadv
    · next hle =>
      cases hadv
      exact h.release hloc hle
    · next hle =>
      have hnone : ∀ b, ¬(s.loc t).Has b := by
        rw [hloc]
        exact fun b hhas => hle (Nat.le_trans hhas.2 hhas.1.2.1)
      cases next with cases hadv
      | keep =>
        refine h.go trivial ?_ fun b hhas => absurd rfl hhas.1
        exact fun b => iff_of_false (fun hhas => hhas.1 rfl) (hnone b)
      | relock addr length =>
        exact h.lockRange hnone l.full l.stride addr length
      | gone =>
        exact h.go trivial (fun b => iff_of_false id (hnone b)) fun b hhas => hhas.elim
  · cases hadv

theorem Inv.startUnlock (hloc : s.loc t = .object l) (hlength : l.length≠0#32) (next : Next) :
    Inv (s.go t (.unlocking l l.first next)) := by
  refine h.go (onStride_first l) ?_ fun b _ => by rw [hloc]; rfl
  intro b
  rw [hloc]
  exact ⟨fun hhas => ⟨hlength,hhas.1⟩,fun hhas => ⟨hhas.2,hhas.2.1⟩⟩

theorem Inv.call {c : Call} (hcall : call s t c = some s') : Inv s' := by
  cases c with rw [RsxReservationLock.call] at hcall
  | construct full stride constructor =>
    split at hcall
    · next hloc =>
      have hnone : ∀ b, ¬(s.loc t).Has b := by
        rw [hloc]
        exact fun b => id
      split at hcall
      · cases hcall
        refine h.go trivial ?_ fun b hhas => absurd rfl hhas.1
        exact fun b => iff_of_false (fun hhas => hhas.1 rfl) (hnone b)
      · cases hcall
        exact h.lockRange hnone ..
    · cases hcall
  | updateIfEnabled addr length =>
    split at hcall
    · next l hloc =>
      split at hcall
      · cases hcall
        exact h
      · next hlength =>
        split at hcall
        · cases hcall
          exact h.startUnlock hloc hlength _
        · cases hcall
          exact h
    · cases hcall
  | unlock =>
    split at hcall
    · next l hloc =>
      split at hcall
      · cases hcall
        exact h
      · next hlength =>
        cases hcall
        exact h.startUnlock hloc hlength _
    · cases hcall
  | destroy =>
    split at hcall
    · next l hloc =>
      split at hcall
      · next hlength =>
        cases hcall
        refine h.go trivial ?_ fun b hhas => hhas.elim
        intro b
        rw [hloc]
        exact iff_of_false id fun hhas => hhas.1 hlength
      · next hlength =>
        cases hcall
        exact h.startUnlock hloc hlength _
    · cases hcall

theorem Inv.step (hstep : Step s s') : Inv s' := by
  cases hstep with
  | call hcall => exact h.call hcall
  | advance hadv => exact h.advance hadv

end

theorem Reachable.inv (h : Reachable s) : Inv s := by
  induction h with
  | refl => exact inv_initial
  | tail _ hstep ih => exact ih.step hstep

end Moves

end PS3Native.RsxReservationLock
