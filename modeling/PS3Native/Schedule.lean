import Mathlib.Logic.Function.Basic
import Mathlib.Logic.Relation

/-!
# Schedules and logs of threads

A schedule is a list of choices, each of which takes a state to the next one or does not
apply. A log records entries with the threads that made them.
-/
namespace PS3Native.Schedule

section Run

variable {σ κ : Type*} {take : σ → κ → Option σ} {R : σ → σ → Prop} {s s' : σ}

def run (take : σ → κ → Option σ) (s : σ) : List κ → Option σ
  | [] => some s
  | c::cs => (take s c).bind fun s => run take s cs

theorem reaches_of_run (hstep : ∀ s c s', take s c = some s' → R s s') {cs : List κ}
    (hrun : run take s cs = some s') : Relation.ReflTransGen R s s' := by
  induction cs generalizing s with
  | nil =>
    cases hrun
    exact .refl
  | cons c cs ih =>
    obtain ⟨s₁,htake,hrun⟩ := Option.bind_eq_some_iff.1 hrun
    exact (Relation.ReflTransGen.single (hstep s c s₁ htake)).trans (ih hrun)

def guarded (allowed : σ → κ → Bool) (take : σ → κ → Option σ) (s : σ) (c : κ) : Option σ :=
  if allowed s c then take s c else none

theorem guarded_eq_some {allowed : σ → κ → Bool} {c : κ} (h : guarded allowed take s c = some s') :
    allowed s c ∧ take s c = some s' := by
  rw [guarded] at h
  split at h
  · next hallowed => exact ⟨hallowed,h⟩
  · cases h

/-- A property of the end of a schedule, found by running it, is one of a reached state. -/
theorem exists_of_run {α : Type*} {observe : σ → α} {a : α} {cs : List κ}
    (hstep : ∀ s c s', take s c = some s' → R s s') (hrun : (run take s cs).map observe = some a) :
    ∃ s', Relation.ReflTransGen R s s' ∧ observe s'=a := by
  obtain ⟨s',hs',hobserve⟩ := Option.map_eq_some_iff.1 hrun
  exact ⟨s',reaches_of_run hstep hs',hobserve⟩

end Run

section Log

variable {τ α : Type*} [DecidableEq τ] {t u : τ}

def entriesOf (t : τ) (log : List (τ × α)) : List α := (log.filter (·.1=t)).map Prod.snd

theorem entriesOf_append (t : τ) (l r : List (τ × α)) :
    entriesOf t (l++r) = entriesOf t l++entriesOf t r := by
  simp [entriesOf]

theorem entriesOf_self (t : τ) (a : α) : entriesOf t [(t,a)] = [a] := by
  simp [entriesOf]

theorem entriesOf_of_ne (h : u≠t) (a : α) : entriesOf u [(t,a)]=[] := by
  simp [entriesOf,h.symm]

end Log

section Threads

variable {τ π : Type*} [DecidableEq τ] {P : π → Prop} {f : τ → π} {t u : τ} {l l' : π}

theorem forall_update (h : ∀ u, P (f u)) (hl : P l) (u : τ) : P (Function.update f t l u) :=
  (Function.forall_update_iff f fun _ => P).mpr ⟨hl,fun u _ => h u⟩ u

/-- A thread that stands where `t` has not moved to is another one, and has not moved. -/
theorem of_update (hne : l≠l') (h : Function.update f t l u=l') : u≠t ∧ f u=l' := by
  by_cases hut : u=t
  · subst hut
    rw [Function.update_self] at h
    exact absurd h hne
  · rw [Function.update_of_ne hut] at h
    exact ⟨hut,h⟩

end Threads

end PS3Native.Schedule
