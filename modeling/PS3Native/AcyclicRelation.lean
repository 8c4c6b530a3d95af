import Mathlib.Data.Finset.Card

/-!
# Ranks in an acyclic relation

In a finite acyclic relation, the number of nodes that a node reaches drops along every edge, which
bounds the depth of a recursion along the edges.
-/
namespace PS3Native.AcyclicRelation

open Relation

variable {α : Type} {r : α → α → Prop} {nodes : Finset α} {a b : α}

def Acyclic (r : α → α → Prop) : Prop := ∀ a, ¬ TransGen r a a

theorem acyclic_of_lt [Preorder α] (h : ∀ a b, r a b → b < a) : Acyclic r := by
  have hlt : ∀ {a b}, TransGen r a b → b < a := by
    intro a b hpath
    induction hpath with
    | single hab => exact h _ _ hab
    | tail _ hbc ih => exact (h _ _ hbc).trans ih
  exact fun a hcycle => lt_irrefl a (hlt hcycle)

open Classical in
noncomputable def rank (r : α → α → Prop) (nodes : Finset α) (a : α) : ℕ :=
  (nodes.filter (TransGen r a)).card

theorem rank_lt_rank (h : Acyclic r) (hb : b∈nodes) (hab : r a b) :
    rank r nodes b < rank r nodes a := by
  classical
  refine Finset.card_lt_card (Finset.ssubset_iff_of_subset ?_ |>.mpr ⟨b,?_,?_⟩)
  · intro c hc
    obtain ⟨hmem,hreach⟩ := Finset.mem_filter.mp hc
    exact Finset.mem_filter.mpr ⟨hmem,.head hab hreach⟩
  · exact Finset.mem_filter.mpr ⟨hb,.single hab⟩
  · exact fun hmem => h b (Finset.mem_filter.mp hmem).2

theorem rank_lt_card (h : Acyclic r) (ha : a∈nodes) : rank r nodes a < nodes.card := by
  classical
  refine Finset.card_lt_card (Finset.ssubset_iff_of_subset (Finset.filter_subset _ _) |>.mpr
    ⟨a,ha,fun hmem => h a (Finset.mem_filter.mp hmem).2⟩)

end PS3Native.AcyclicRelation
