import Mathlib.Order.CompletePartialOrder
import Mathlib.Order.Interval.Set.Disjoint

/-!
# Windows of a ring

Spans of the cells `0, …, top` are handed out by moving a position `put` forward
or back to `0`. A mark records a cell just behind `put` and how many spans were
handed out before it. The oldest mark in use bounds the moves of `put`, and marks
replace it in the order in which they were made.
-/
namespace PS3Native.RingWindow
open List

structure Span where
  lo : ℕ
  hi : ℕ
  deriving DecidableEq, Repr

def Span.cells (s : Span) : Set ℕ := Set.Ico s.lo s.hi

variable {s : Span} {get put put' top : ℕ}

theorem Span.disjoint_of_le {t : Span} (h : s.hi ≤ t.lo) : Disjoint s.cells t.cells :=
  Set.disjoint_left.mpr fun _ hs ht => absurd (hs.2.trans_le h) (not_lt_of_ge ht.1)

/-- The moves of `put` that hand out a span and do not run past the mark `get`. -/
inductive Move (top get put : ℕ) : Span → ℕ → Prop
  | advance {lo hi : ℕ} : put ≤ lo → lo ≤ hi → hi ≤ top → (get < put ∨ hi ≤ get) →
      Move top get put ⟨lo,hi⟩ hi
  | wrap {hi : ℕ} : get < put → hi ≤ get → Move top get put ⟨0,hi⟩ hi

/-- Where a span lies that was handed out after `put` stood just behind `mark`. -/
def Since (mark put : ℕ) (s : Span) : Prop :=
  if mark < put then mark < s.lo ∧ s.hi ≤ put else s.hi ≤ put ∨ mark < s.lo

/-- Going backwards round the ring from `put`, the mark `newer` is not behind `older`. -/
def Precedes (put older newer : ℕ) : Prop :=
  if older < put then older ≤ newer ∧ newer < put else older ≤ newer ∨ newer < put

structure Mark where
  pos : ℕ
  taken : ℕ

structure Ring where
  top : ℕ
  put : ℕ
  spans : List Span
  get : Mark
  pending : List Mark

def Ring.live (r : Ring) : List Span := r.spans.drop r.get.taken

inductive Ring.Step : Ring → Ring → Prop
  | take (r : Ring) {s : Span} {put : ℕ} : Move r.top r.get.pos r.put s put →
      Step r {r with put := put, spans := r.spans++[s]}
  | mark (r : Ring) {pos : ℕ} : (pos+1=r.put ∨ (r.put=0 ∧ pos=r.top)) →
      Step r {r with pending := r.pending++[⟨pos,r.spans.length⟩]}
  | install (r : Ring) {older newer : List Mark} {m : Mark} : r.pending = older++m::newer →
      Step r {r with get := m, pending := newer}

structure Ring.Invariant (r : Ring) : Prop where
  put_le : r.put ≤ r.top
  mark_le : ∀ m∈r.get::r.pending, m.pos ≤ r.top
  since : ∀ m∈r.get::r.pending, ∀ s∈r.spans.drop m.taken, Since m.pos r.put s
  order : (r.get::r.pending).Pairwise fun a b => Precedes r.put a.pos b.pos

variable {r : Ring}

theorem Ring.Invariant.precedes_get (h : r.Invariant) {m : Mark} (hm : m∈r.get::r.pending) :
    m=r.get ∨ Precedes r.put r.get.pos m.pos := by
  rcases mem_cons.mp hm with rfl | hm
  · exact .inl rfl
  · exact .inr ((pairwise_cons.mp h.order).1 m hm)

theorem Move.put_le (h : Move top get put s put') (hget : get ≤ top) :
    put' ≤ top ∧ s.hi=put' := by
  cases h with
  | advance _ _ htop _ => exact ⟨htop,rfl⟩
  | wrap _ hget' => exact ⟨hget'.trans hget,rfl⟩

theorem Move.since_new {mark : ℕ} (h : Move top get put s put')
    (hm : mark=get ∨ Precedes put get mark) : Since mark put' s := by
  cases h with
  | advance hlo hhi _ hget | wrap hget hhi =>
    simp only [Since,Precedes] at *
    split_ifs at * <;> omega

/-- The earlier spans since such a mark stay so. -/
theorem Move.since_old {mark : ℕ} {t : Span} (h : Move top get put s put')
    (hm : mark=get ∨ Precedes put get mark) (ht : Since mark put t) : Since mark put' t := by
  simp only [Since,Precedes] at *
  cases h with
  | advance hlo hhi _ hget | wrap hget hhi => split_ifs at * <;> omega

theorem Move.precedes {a b : ℕ} (h : Move top get put s put') (ha : a=get ∨ Precedes put get a)
    (hb : b=get ∨ Precedes put get b) (hab : Precedes put a b) : Precedes put' a b := by
  simp only [Precedes] at *
  cases h with
  | advance hlo hhi _ hget => split_ifs at * <;> omega
  | wrap hget hhi => split_ifs at * <;> omega

/-- The span of a move stays in the ring and misses every span since the mark in use. -/
theorem Move.fresh (h : r.Invariant) (hmove : Move r.top r.get.pos r.put s put) :
    s.hi ≤ r.top ∧ ∀ t∈r.live, Disjoint s.cells t.cells := by
  obtain ⟨htop,hhi⟩ := hmove.put_le (h.mark_le _ mem_cons_self)
  refine ⟨hhi.trans_le htop,fun t ht => ?_⟩
  have hs := h.since r.get mem_cons_self t ht
  rw [Since] at hs
  cases hmove with
  | advance hlo _ _ hget =>
    split_ifs at hs with hput
    · exact (Span.disjoint_of_le (hs.2.trans hlo)).symm
    · rcases hs with hs | hs
      · exact (Span.disjoint_of_le (hs.trans hlo)).symm
      · refine Span.disjoint_of_le ?_
        omega
  | wrap hput hle =>
    rw [if_pos hput] at hs
    refine Span.disjoint_of_le ?_
    omega

theorem Ring.Step.invariant {r' : Ring} (hstep : r.Step r') (h : r.Invariant) : r'.Invariant := by
  cases hstep with
  | @take s put hmove =>
    refine ⟨(hmove.put_le (h.mark_le _ mem_cons_self)).1,h.mark_le,?_,?_⟩
    · intro m hm t ht
      have hget := (h.precedes_get hm).imp_left (congrArg Mark.pos)
      rw [drop_append] at ht
      rcases mem_append.mp ht with ht | ht
      · exact hmove.since_old hget (h.since m hm t ht)
      · rw [mem_singleton.mp (mem_of_mem_drop ht)]
        exact hmove.since_new hget
    · refine h.order.imp_of_mem fun ha hb hab => ?_
      exact hmove.precedes ((h.precedes_get ha).imp_left (congrArg Mark.pos))
        ((h.precedes_get hb).imp_left (congrArg Mark.pos)) hab
  | @mark pos hpos =>
    have hle : pos ≤ r.top := by
      have := h.put_le
      omega
    refine ⟨h.put_le,?_,?_,?_⟩
    · intro m hm
      rcases mem_append.mp (show m∈(r.get::r.pending)++[_] from hm) with hm | hm
      · exact h.mark_le m hm
      · rwa [mem_singleton.mp hm]
    · intro m hm t ht
      rcases mem_append.mp (show m∈(r.get::r.pending)++[_] from hm) with hm | hm
      · exact h.since m hm t ht
      · rw [mem_singleton.mp hm,drop_length] at ht
        cases ht
    · refine pairwise_append.mpr ⟨h.order,pairwise_singleton _ _,fun a ha b hb => ?_⟩
      have hal := h.mark_le a ha
      rw [mem_singleton.mp hb,Precedes]
      split_ifs <;> dsimp only <;> omega
  | @install older newer m hpending =>
    have hsub : (m::newer).Sublist (r.get::r.pending) := by
      rw [hpending]
      exact (sublist_append_right older _).trans (sublist_cons_self _ _)
    exact ⟨h.put_le,fun a ha => h.mark_le a (hsub.subset ha),
      fun a ha => h.since a (hsub.subset ha),h.order.sublist hsub⟩

theorem Ring.steps_invariant {r' : Ring} (hsteps : Relation.ReflTransGen Ring.Step r r')
    (h : r.Invariant) : r'.Invariant := by
  induction hsteps with
  | refl => exact h
  | tail _ hlast ih => exact hlast.invariant ih

end PS3Native.RingWindow
