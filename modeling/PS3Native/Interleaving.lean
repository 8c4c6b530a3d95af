import Mathlib.Algebra.BigOperators.Group.Finset.Basic
import Mathlib.Data.Fintype.Card
import PS3Native.Schedule

/-!
# Interleaved threads over a shared state

A program gives, for a shared state, the local state of one thread and an input,
the next states and the events of one atomic step, or nothing where the input does
not apply. A schedule chooses the thread and the input of every step.
-/
namespace PS3Native.Interleaving
open Function

abbrev Program (σ π ι ε : Type*) := σ → π → ι → Option (σ × π × List ε)

structure System (σ π ε τ : Type*) where
  shared : σ
  thread : τ → π
  log : List ε

variable {σ π ι ε τ ρ : Type*} [DecidableEq τ]

def System.move (s : System σ π ε τ) (t : τ) (shared : σ) (pc : π) (events : List ε) :
    System σ π ε τ :=
  ⟨shared,update s.thread t pc,s.log++events⟩

section Move
variable (s : System σ π ε τ) (t : τ) (shared : σ) (pc : π) (events : List ε)

@[simp] theorem System.move_shared : (s.move t shared pc events).shared=shared := rfl

@[simp] theorem System.move_thread :
    (s.move t shared pc events).thread = update s.thread t pc := rfl

@[simp] theorem System.move_log : (s.move t shared pc events).log = s.log++events := rfl

end Move

def step (program : Program σ π ι ε) (s : System σ π ε τ) (t : τ) (input : ι) :
    Option (System σ π ε τ) :=
  (program s.shared (s.thread t) input).map fun result =>
    s.move t result.1 result.2.1 result.2.2

def run (program : Program σ π ι ε) : System σ π ε τ → List (τ × ι) → Option (System σ π ε τ)
  | s, [] => some s
  | s, (t,input)::schedule =>
    (step program s t input).bind fun s => run program s schedule

/-- What every atomic step preserves holds at the end of every schedule. -/
theorem run_invariant {program : Program σ π ι ε} {Inv : System σ π ε τ → Prop}
    (hstep : ∀ s t input shared pc events, Inv s →
      program s.shared (s.thread t) input = some (shared,pc,events) →
      Inv (s.move t shared pc events)) {s s' : System σ π ε τ} {schedule : List (τ × ι)}
    (hs : Inv s) (hrun : run program s schedule = some s') : Inv s' := by
  induction schedule generalizing s with
  | nil =>
    cases hrun
    exact hs
  | cons choice schedule ih =>
    obtain ⟨t,input⟩ := choice
    obtain ⟨s₁,hs₁,hrun⟩ := Option.bind_eq_some_iff.mp hrun
    obtain ⟨⟨shared,pc,events⟩,hprogram,rfl⟩ := Option.map_eq_some_iff.mp hs₁
    exact ih (hstep s t input shared pc events hs hprogram) hrun

/-- At most one thread has a role: `holder` names it and says which role it has. -/
def Holds (role : π → Option ρ) (thread : τ → π) (holder : Option (τ × ρ)) : Prop :=
  ∀ t r, role (thread t) = some r ↔ holder = some (t,r)

variable {role : π → Option ρ} {thread : τ → π} {holder : Option (τ × ρ)}

omit [DecidableEq τ] in
theorem Holds.eq_of_role {t : τ} {r : ρ} (h : Holds role thread holder)
    (hr : role (thread t) = some r) : holder = some (t,r) :=
  (h t r).mp hr

theorem Holds.change {t : τ} (h : Holds role thread holder)
    (hfree : ∀ u r, holder = some (u,r) → u=t) (pc : π) :
    Holds role (update thread t pc) ((role pc).map (Prod.mk t)) := by
  intro u r
  by_cases hu : u=t
  · subst hu
    simp
  · rw [update_of_ne hu,h u r]
    constructor
    · intro hr
      exact absurd (hfree u r hr) hu
    · intro hr
      obtain ⟨_,_,hpair⟩ := Option.map_eq_some_iff.mp hr
      exact absurd (congrArg Prod.fst hpair).symm hu

theorem Holds.keep {t : τ} {pc : π} (h : Holds role thread holder)
    (hrole : role pc = role (thread t)) : Holds role (update thread t pc) holder := by
  intro u r
  by_cases hu : u=t
  · subst hu
    rw [update_self,hrole,h u r]
  · rw [update_of_ne hu,h u r]

export Schedule (forall_update)

section Count
variable [Fintype τ] {p : π → Bool}

def count (p : π → Bool) (thread : τ → π) : ℕ := (Finset.univ.filter fun t => p (thread t)).card

omit [DecidableEq τ] in
theorem count_pos {t : τ} (h : p (thread t)) : 0 < count p thread :=
  Finset.card_pos.mpr ⟨t,by simp [h]⟩

omit [DecidableEq τ] in
theorem count_eq_zero (h : count p thread=0) (t : τ) : p (thread t)=false := by
  by_contra ht
  exact (count_pos (Bool.eq_true_of_not_eq_false ht)).ne' h

theorem count_enter {t : τ} {pc : π} (hold : p (thread t)=false) (hnew : p pc) :
    count p (update thread t pc) = count p thread+1 := by
  have hset : (Finset.univ.filter fun u => p (update thread t pc u)) =
      insert t (Finset.univ.filter fun u => p (thread u)) := by
    ext u
    by_cases hu : u=t
    · subst hu
      simp [hnew]
    · simp [hu]
  rw [count,hset,Finset.card_insert_of_notMem (by simp [hold]),count]

theorem count_keep {t : τ} {pc : π} (h : p pc = p (thread t)) :
    count p (update thread t pc) = count p thread := by
  rw [count,count]
  congr 1
  ext u
  by_cases hu : u=t
  · subst hu
    simp [h]
  · simp [update_of_ne hu]

theorem count_leave {t : τ} {pc : π} (hold : p (thread t)) (hnew : p pc=false) :
    count p (update thread t pc)+1 = count p thread := by
  have hback : p (update thread t pc t)=false := by simpa using hnew
  have henter := count_enter hback hold
  rwa [update_idem,update_eq_self,eq_comm] at henter

omit [DecidableEq τ] in
theorem count_lt_card {t : τ} (h : p (thread t)=false) : count p thread < Fintype.card τ := by
  refine Finset.card_lt_card ⟨Finset.filter_subset _ _,fun hsub => ?_⟩
  have := hsub (Finset.mem_univ t)
  simp [h] at this

end Count

section Census
variable [Fintype τ] [DecidableEq ρ] {role : π → ρ}

def census (role : π → ρ) (thread : τ → π) (r : ρ) : ℕ := count (fun pc => role pc=r) thread

variable {r : ρ}

omit [DecidableEq τ] in
theorem census_pos {t : τ} (h : role (thread t)=r) : 0 < census role thread r :=
  count_pos (by simpa using h)

omit [DecidableEq τ] in
theorem exists_of_census_pos (h : 0 < census role thread r) : ∃ t, role (thread t)=r := by
  by_contra hnone
  rw [census,count,Finset.card_pos] at h
  obtain ⟨t,ht⟩ := h
  exact hnone ⟨t,by simpa using ht⟩

omit [DecidableEq τ] in
theorem census_eq_zero (h : ∀ t, role (thread t)≠r) : census role thread r=0 := by
  by_contra hne
  obtain ⟨t,ht⟩ := exists_of_census_pos (Nat.pos_of_ne_zero hne)
  exact h t ht

theorem census_keep {t : τ} {pc : π} (h : role pc = role (thread t)) :
    census role (update thread t pc) = census role thread := by
  funext r
  exact count_keep (by simp [h])

theorem census_move (thread : τ → π) {t : τ} {pc : π} {a b : ρ} (ha : role (thread t)=a)
    (hb : role pc=b) (hab : a≠b) :
    census role (update thread t pc) a+1 = census role thread a ∧
      census role (update thread t pc) b = census role thread b+1 ∧
      ∀ r, r≠a → r≠b → census role (update thread t pc) r = census role thread r := by
  refine ⟨?_,?_,?_⟩
  · exact count_leave (by simpa using ha) (by simpa [hb] using hab.symm)
  · exact count_enter (by simpa [ha] using hab) (by simpa using hb)
  · intro r hra hrb
    refine count_keep ?_
    rw [ha,hb,decide_eq_false hra.symm,decide_eq_false hrb.symm]

omit [DecidableEq τ] in
theorem sum_census [Fintype ρ] (role : π → ρ) (thread : τ → π) :
    ∑ r, census role thread r = Fintype.card τ := by
  rw [← Finset.card_univ,Finset.card_eq_sum_card_fiberwise (t := Finset.univ)
    (f := fun u => role (thread u)) (fun _ _ => by simp)]
  simp [census,count]

omit [DecidableEq τ] in
/-- Two threads of one role are counted twice. -/
theorem eq_of_census_le_one (h : census role thread r ≤ 1) {t u : τ} (ht : role (thread t)=r)
    (hu : role (thread u)=r) : t=u := by
  rw [census,count,Finset.card_le_one] at h
  exact h t (by simpa using ht) u (by simpa using hu)

end Census

end PS3Native.Interleaving
