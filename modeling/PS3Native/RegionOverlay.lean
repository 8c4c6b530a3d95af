import Mathlib.Data.List.Basic
import Mathlib.Data.Set.Basic

/-!
# Region updates laid over a map

A patch assigns one value to a decidable region. A list of patches is laid over a
map oldest first, so at every point the last patch whose region holds the point
decides.
-/
namespace PS3Native.RegionOverlay

universe u v

structure Patch (α : Type u) (β : Type v) where
  region : α → Bool
  value : β

variable {α : Type u} {β : Type v}

def Patch.apply (p : Patch α β) (f : α → β) : α → β :=
  fun a => if p.region a then p.value else f a

def overlay (f : α → β) (ps : List (Patch α β)) : α → β :=
  ps.foldl (fun f p => p.apply f) f

@[simp] theorem overlay_nil (f : α → β) : overlay f []=f := rfl

@[simp] theorem overlay_cons (f : α → β) (p : Patch α β) (ps : List (Patch α β)) :
    overlay f (p::ps) = overlay (p.apply f) ps := rfl

theorem overlay_append (f : α → β) (ps qs : List (Patch α β)) :
    overlay f (ps++qs) = overlay (overlay f ps) qs := List.foldl_append

theorem overlay_concat (f : α → β) (ps : List (Patch α β)) (p : Patch α β) :
    overlay f (ps++[p]) = p.apply (overlay f ps) := by
  rw [overlay_append]
  rfl

variable {a : α}

theorem Patch.apply_of_mem {p : Patch α β} (h : p.region a) (f : α → β) :
    p.apply f a=p.value := by
  simp [Patch.apply,h]

theorem Patch.apply_of_notMem {p : Patch α β} (h : p.region a=false) (f : α → β) :
    p.apply f a = f a := by
  simp [Patch.apply,h]

theorem overlay_congr {f g : α → β} (h : f a = g a) (ps : List (Patch α β)) :
    overlay f ps a = overlay g ps a := by
  induction ps generalizing f g with
  | nil => exact h
  | cons p ps ih =>
    apply ih
    simp only [Patch.apply,h]

/-- Patches whose regions miss the point change nothing there. -/
theorem overlay_of_forall_notMem {f : α → β} {ps : List (Patch α β)}
    (h : ∀ p∈ps, p.region a=false) : overlay f ps a = f a := by
  induction ps generalizing f with
  | nil => rfl
  | cons p ps ih =>
    rw [overlay_cons,ih (fun q hq => h q (List.mem_cons_of_mem _ hq)),
      Patch.apply_of_notMem (h p List.mem_cons_self)]

end PS3Native.RegionOverlay
