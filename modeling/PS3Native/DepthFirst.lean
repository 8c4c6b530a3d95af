import Mathlib.Data.List.Basic

/-!
# Depth-first walks

A walk visits a node, which is rejected or has a list of children, and then walks each child in
order. It stops at the first rejected node. The tree below a node may be infinite, so the depth of
the walk is bounded by fuel, and the walk ends if some fuel is enough.
-/
namespace PS3Native.DepthFirst
open List

universe u

variable {α : Type u}

inductive Tree (α : Type u)
  | node (a : α) (children : List (Tree α))

/-- The walk over the children: nothing if it does not end, and no trees if a node is rejected. -/
def walkAll (walk : α → Option (Option (Tree α))) : List α → Option (Option (List (Tree α)))
  | [] => some (some [])
  | a::rest =>
    match walk a with
    | none => none
    | some none => some none
    | some (some t) => (walkAll walk rest).map fun trees => trees.map (t::·)

def walk (visit : α → Option (List α)) : ℕ → α → Option (Option (Tree α))
  | 0, _ => none
  | fuel+1, a =>
    match visit a with
    | none => some none
    | some children => (walkAll (walk visit fuel) children).map fun trees => trees.map (.node a)

variable {visit : α → Option (List α)}

theorem walkAll_ne_none {f : α → Option (Option (Tree α))} {l : List α} (h : ∀ a∈l, f a≠none) :
    walkAll f l≠none := by
  induction l with
  | nil => exact Option.some_ne_none _
  | cons a rest ih =>
    rw [walkAll]
    split
    next ha => exact absurd ha (h a mem_cons_self)
    next => exact Option.some_ne_none _
    next => exact mt Option.map_eq_none_iff.1 (ih fun b hb => h b (mem_cons_of_mem a hb))

/-- A walk ends if a rank drops from a node to its children, as far as the invariant holds. -/
theorem walk_ne_none {P : α → Prop} (rank : α → ℕ) (hvisit : ∀ a children, P a →
      visit a = some children → ∀ b∈children, P b ∧ rank b < rank a)
    {fuel : ℕ} {a : α} (ha : P a) (hfuel : rank a < fuel) : walk visit fuel a≠none := by
  induction fuel generalizing a with
  | zero => omega
  | succ fuel ih =>
    rw [walk]
    split
    next => exact Option.some_ne_none _
    next children hchildren =>
      refine mt Option.map_eq_none_iff.1 (walkAll_ne_none fun b hb => ?_)
      obtain ⟨hb,hlt⟩ := hvisit a children ha hchildren b hb
      exact ih hb (by omega)

/-- A walk does not end below a node with an endless chain of only children. -/
theorem walk_eq_none {chain : ℕ → α} (h : ∀ k, visit (chain k) = some [chain (k+1)]) (fuel k : ℕ) :
    walk visit fuel (chain k)=none := by
  induction fuel generalizing k with
  | zero => rfl
  | succ fuel ih => simp [walk,h k,walkAll,ih (k+1)]

end PS3Native.DepthFirst
