import PS3Native.FragmentWiring

/-!
# Segments of a wired program

A segment is a piece of structured code that alone accounts for the edges out of its blocks and
for the instructions in them. The parts of a segment are segments, so that a statement about paths
in the whole flow graph can be proved by induction on the code.
-/
namespace PS3Native.FragmentProgram

open StructuredCode

section Paths

variable (E : List FlowEdge) (P : List (ℕ × ℕ))

def Linking (b b' : ℕ) : Prop := ∃ type, (⟨type,b,b'⟩ : FlowEdge)∈E

/-- A path of edges whose inner blocks hold no instruction. -/
inductive Through : ℕ → ℕ → Prop
  | edge {b b'} : Linking E b b' → Through b b'
  | step {b m b'} : Linking E b m → (∀ x, (m,x)∉P) → Through m b' → Through b b'

def Goes (b y : ℕ) : Prop := ∃ b', (b',y)∈P ∧ Through E P b b'

/-- The block holds the instruction, or it is empty and leads to it. -/
def Leads (b y : ℕ) : Prop := (b,y)∈P ∨ ((∀ x, (b,x)∉P) ∧ Goes E P b y)

def Blocked (b : ℕ) : Prop := (∃ x, (b,x)∈P) ∨ ∀ b', ¬ Linking E b b'

/-- The code at `a` and nothing else accounts for the edges out of its blocks and for the
instructions in them. -/
structure Segment (a : ℕ) (c : Code) (cur : ℕ) (exit : Option EdgeType) (landing : ℕ)
    (last : Bool) : Prop where
  cur_le : cur ≤ a
  filled : c.Filled
  exit_merge : exit.all EdgeType.isMerge
  wire_sub : ∀ e∈wire a c cur exit landing last, e∈E
  wire_only : ∀ e∈E, (e.source=cur ∨ (a < e.source ∧ e.source < a+c.size)) →
    e∈wire a c cur exit landing last
  place_sub : ∀ p∈place a c cur, p∈P
  place_only : ∀ b x, (b,x)∈P → ((b=cur ∧ a ≤ x) ∨ (a < b ∧ b < a+c.size)) →
    (b,x)∈place a c cur

/-- Every instruction is at or after the start of its block, and in one block only. -/
structure Placed : Prop where
  le : ∀ b x, (b,x)∈P → b ≤ x
  unique : ∀ b b' x, (b,x)∈P → (b',x)∈P → b=b'

end Paths

variable {E : List FlowEdge} {P : List (ℕ × ℕ)}

namespace Segment

variable {a cur landing : ℕ} {exit : Option EdgeType} {last : Bool} {c rest : Code}

theorem stays {literals : ℕ} (h : Segment E P a c cur exit landing last)
    (hc : Stays c literals rest) : Segment E P (a+1+literals) rest cur exit landing last where
  cur_le := by have := h.cur_le; omega
  filled := hc.filled h.filled
  exit_merge := h.exit_merge
  wire_sub := hc.wire_eq (a := a) ▸ h.wire_sub
  wire_only e he hsource := by
    have := hc.size_eq
    exact hc.wire_eq (a := a) ▸ h.wire_only e he (by omega)
  place_sub p hp := h.place_sub p (hc.place_subset hp)
  place_only b x hx hb := by
    have := hc.size_eq
    have := h.cur_le
    rcases hc.mem_place (h.place_only b x hx (by omega)) with hmem | hmem
    · cases hmem
      omega
    · exact hmem

theorem part {a' landing' : ℕ} {c' : Code} {exit' : Option EdgeType} {last' : Bool}
    (h : Segment E P a c cur exit landing last) (hfilled : c'.Filled)
    (hexit : exit'.all EdgeType.isMerge) (hc' : c'≠.done) (ha : a < a')
    (hsize : a'+c'.size ≤ a+c.size)
    (hwire : ∀ e∈wire a' c' a' exit' landing' last', e∈wire a c cur exit landing last)
    (hwire' : ∀ e∈wire a c cur exit landing last, a' ≤ e.source → e.source < a'+c'.size →
      e∈wire a' c' a' exit' landing' last') (hplace : ∀ p∈place a' c' a', p∈place a c cur)
    (hplace' : ∀ b x, (b,x)∈place a c cur → a' ≤ b → b < a'+c'.size → (b,x)∈place a' c' a') :
    Segment E P a' c' a' exit' landing' last' where
  cur_le := le_rfl
  filled := hfilled
  exit_merge := hexit
  wire_sub e he := h.wire_sub e (hwire e he)
  wire_only e he hsource := by
    have hpos := Code.size_pos hc'
    exact hwire' e (h.wire_only e he (by omega)) (by omega) (by omega)
  place_sub p hp := h.place_sub p (hplace p hp)
  place_only b x hx hb := by
    have hpos := Code.size_pos hc'
    exact hplace' b x (h.place_only b x hx (by omega)) (by omega) (by omega)

variable {yes no : Code} {enter leave : EdgeType}

section

variable (h : Segment E P a c cur exit landing last) (hc : Fork c enter leave yes no rest)

include h hc

theorem forkYes (hyes : yes≠.done) : Segment E P (a+1) yes (a+1) (some leave)
      (mergeBlock rest (a+1+yes.size+no.size) landing)
      ((last && rest = .done) && no = .done) := by
  have hcur := h.cur_le
  refine h.part (hc.filled h.filled).2.1 hc.isMerge hyes (by omega) (by rw [hc.size_eq]; omega)
    (fun e he => hc.mem_wire.mpr (.inr (.inl ⟨hyes,he⟩))) (fun e he hlo hhi => ?_)
    (fun p hp => hc.mem_place.mpr (.inr (.inl hp))) fun b x hmem hlo hhi => ?_
  · rcases hc.mem_wire.mp he with he | ⟨-,he⟩ | ⟨-,he⟩ | ⟨-,he⟩
    · have := forkEdges_source he
      omega
    · exact he
    all_goals
      have := wire_source he
      omega
  · rcases hc.mem_place.mp hmem with hmem | hmem | hmem | hmem
    · omega
    · exact hmem
    all_goals
      have := place_range hmem
      omega

theorem forkNo (hno : no≠.done) :
    Segment E P (a+1+yes.size) no (a+1+yes.size) (some leave)
      (mergeBlock rest (a+1+yes.size+no.size) landing) (last && rest = .done) := by
  have hcur := h.cur_le
  refine h.part (hc.filled h.filled).2.2.1 hc.isMerge hno (by omega) (by rw [hc.size_eq]; omega)
    (fun e he => hc.mem_wire.mpr (.inr (.inr (.inl ⟨hno,he⟩)))) (fun e he hlo hhi => ?_)
    (fun p hp => hc.mem_place.mpr (.inr (.inr (.inl hp)))) fun b x hmem hlo hhi => ?_
  · rcases hc.mem_wire.mp he with he | ⟨hyes,he⟩ | ⟨-,he⟩ | ⟨-,he⟩
    · have := forkEdges_source he
      omega
    · have := wire_source he
      have := Code.size_pos hyes
      omega
    · exact he
    · have := wire_source he
      omega
  · rcases hc.mem_place.mp hmem with hmem | hmem | hmem | hmem
    · omega
    · have := place_range hmem
      omega
    · exact hmem
    · have := place_range hmem
      omega

theorem forkRest (hrest : rest≠.done) :
    Segment E P (a+1+yes.size+no.size) rest (a+1+yes.size+no.size) none landing
      last := by
  have hcur := h.cur_le
  obtain ⟨hpos,-,-,hfilled⟩ := hc.filled h.filled
  refine h.part hfilled rfl hrest (by omega) (by rw [hc.size_eq]; omega)
    (fun e he => hc.mem_wire.mpr (.inr (.inr (.inr ⟨hrest,he⟩)))) (fun e he hlo hhi => ?_)
    (fun p hp => hc.mem_place.mpr (.inr (.inr (.inr hp)))) fun b x hmem hlo hhi => ?_
  · rcases hc.mem_wire.mp he with he | ⟨hyes,he⟩ | ⟨hno,he⟩ | ⟨-,he⟩
    · have := forkEdges_source he
      omega
    · have := wire_source he
      omega
    · have := wire_source he
      have := Code.size_pos hno
      omega
    · exact he
  · rcases hc.mem_place.mp hmem with hmem | hmem | hmem | hmem
    · omega
    · have := place_range hmem
      omega
    · have := place_range hmem
      omega
    · exact hmem

theorem forkOnly {c' : Code} (hc' : Fork c' enter leave yes no .done) (hrest : rest≠.done) :
    Segment E P a c' cur exit (a+1+yes.size+no.size) false := by
  have hcur := h.cur_le
  have hsize := hc.size_eq
  have hsize' := hc'.size_eq
  obtain ⟨hpos,hyes,hno,-⟩ := hc.filled h.filled
  simp only [Code.size,Nat.add_zero] at hsize'
  refine ⟨hcur,?_,h.exit_merge,fun e he => h.wire_sub e (hc.mem_wire.mpr ?_),
    fun e he hsource => hc'.mem_wire.mpr ?_,fun p hp => h.place_sub p (hc.mem_place.mpr ?_),
    fun b x hx hb => hc'.mem_place.mpr ?_⟩
  · cases hc'
    · exact ⟨hpos,hyes,hno,trivial⟩
    · exact ⟨hpos,hyes,trivial⟩
  · simpa [mergeBlock,hrest,or_assoc] using (hc'.mem_wire.mp he).imp_right
      (Or.imp_right (Or.imp_right fun h => absurd rfl h.1))
  · rcases hc.mem_wire.mp (h.wire_only e he (by omega)) with hmem | hmem | hmem | hmem
    · exact .inl (by simpa [mergeBlock,hrest] using hmem)
    · exact .inr (.inl (by simpa [mergeBlock,hrest] using hmem))
    · exact .inr (.inr (.inl (by simpa [mergeBlock,hrest] using hmem)))
    · have := wire_source hmem.2
      omega
  · exact (hc'.mem_place.mp hp).imp_right (Or.imp_right (Or.imp_right (absurd · List.not_mem_nil)))
  · have hmem := hc.mem_place.mp (h.place_only b x hx (by omega))
    refine hmem.imp_right (Or.imp_right (Or.imp_right fun hmem => ?_))
    have := place_range hmem
    omega

end

end Segment

end PS3Native.FragmentProgram
