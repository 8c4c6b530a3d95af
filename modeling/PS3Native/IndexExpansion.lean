import Mathlib.Data.List.Basic
import Mathlib.Data.List.Induction

/-!
# Expansion of indexed primitives

Triangle fans and quads of an index stream are written out as triangles. Restart indices split the
stream into runs.
-/
namespace PS3Native.IndexExpansion
open List

abbrev indexLimit (w : ℕ) : BitVec w := BitVec.allOnes w

variable {w : ℕ}

/-- `min_max` on the minimum and the maximum so far. -/
def minMax (range : BitVec w × BitVec w) (value : BitVec w) : BitVec w × BitVec w :=
  (if value < range.1 then value else range.1,if value > range.2 then value else range.2)

/-- `range` holds the least and the greatest of the indices, `index_limit` and 0 where there is
none. -/
def IsRange (indices : List (BitVec w)) (range : BitVec w × BitVec w) : Prop :=
  (∀ i∈indices, range.1 ≤ i ∧ i ≤ range.2) ∧
    if indices=[] then range = (indexLimit w,0) else range.1∈indices ∧ range.2∈indices

/-- The variables of `expand_indexed_triangle_fan`; `dst` has what is written so far. -/
structure Fan (w : ℕ) where
  range : BitVec w × BitVec w
  dst : List (BitVec w)
  needsAnchor : Bool
  anchor : BitVec w
  lastIndex : BitVec w

/-- The test for a restart index. -/
def isRestart (enabled : Bool) (restartIndex : BitVec 32) (index : BitVec w) : Bool :=
  enabled && index.toNat == restartIndex.toNat

section
variable (restart : BitVec w → Bool)

def fanStep (s : Fan w) (index : BitVec w) : Fan w :=
  if s.needsAnchor then
    if restart index then s
    else {s with range := minMax s.range index, anchor := index, needsAnchor := false}
  else if restart index then
    {s with needsAnchor := true, lastIndex := indexLimit w}
  else if s.lastIndex = indexLimit w then
    {s with range := minMax s.range index, lastIndex := index}
  else
    { s with
      range := minMax s.range index
      dst := s.dst++[s.anchor,s.lastIndex,index]
      lastIndex := index }

/-- The range and what is written, none where the `ensure` of the sizes fails. With fewer than two
indices the size in it wraps, and no destination is large enough. -/
def expandIndexedTriangleFan (src : List (BitVec w)) (dstSize : ℕ) :
    Option ((BitVec w × BitVec w) × List (BitVec w)) :=
  if 2 ≤ src.length ∧ dstSize ≥ 3*(src.length-2) then
    let s := src.foldl (fanStep restart)
      ⟨(indexLimit w,0),[],true,indexLimit w,indexLimit w⟩
    some (s.range,s.dst)
  else none

/-- The variables of `expand_indexed_quads`; `tmpIndices` has the indices of the current set. -/
structure Quads (w : ℕ) where
  range : BitVec w × BitVec w
  dst : List (BitVec w)
  tmpIndices : List (BitVec w)

def quadsStep (s : Quads w) (index : BitVec w) : Quads w :=
  if restart index then {s with tmpIndices := []}
  else
    let range := minMax s.range index
    match s.tmpIndices with
    | [a,b,c] => ⟨range,s.dst++[a,b,c,c,index,a],[]⟩
    | tmpIndices => ⟨range,s.dst,tmpIndices++[index]⟩

def expandIndexedQuads (src : List (BitVec w)) (dstSize : ℕ) :
    Option ((BitVec w × BitVec w) × List (BitVec w)) :=
  if 4*dstSize ≥ 6*src.length then
    let s := src.foldl (quadsStep restart) ⟨(indexLimit w,0),[],[]⟩
    some (s.range,s.dst)
  else none

/-- The runs of a stream between the restart indices. -/
def runs (src : List (BitVec w)) : List (List (BitVec w)) := src.splitOnP restart

end

abbrev Triangle (w : ℕ) := BitVec w × BitVec w × BitVec w

/-- The triangles `(first, i - 1, i)` of a run. -/
def fanTriangles : List (BitVec w) → List (Triangle w)
  | first::outer => (outer.zip outer.tail).map fun p => (first,p.1,p.2)
  | [] => []

/-- The two triangles of each complete group of four. -/
def quadTriangles : List (BitVec w) → List (Triangle w)
  | a::b::c::d::run => (a,b,c)::(c,d,a)::quadTriangles run
  | _ => []

def vertices (l : List (Triangle w)) : List (BitVec w) := l.flatMap fun t => [t.1,t.2.1,t.2.2]

theorem minMax_first (i : BitVec w) : minMax (indexLimit w,0) i = (i,i) := by
  have := i.isLt
  simp only [minMax,BitVec.lt_def,BitVec.toNat_allOnes,gt_iff_lt,Prod.mk.injEq]
  constructor
  all_goals
    split_ifs
    · rfl
    · apply BitVec.eq_of_toNat_eq
      simp at *
      omega

theorem isRange_foldl (l : List (BitVec w)) : IsRange l (l.foldl minMax (indexLimit w,0)) := by
  induction l using reverseRecOn with
  | nil => simp [IsRange]
  | append_singleton l i ih =>
    rw [foldl_concat]
    generalize l.foldl minMax (indexLimit w,0) = r at *
    obtain ⟨hall,hends⟩ := ih
    by_cases hl : l=[]
    · rw [if_pos hl] at hends
      rw [hl,hends,minMax_first]
      simp [IsRange]
    · rw [if_neg hl] at hends
      have hle : (minMax r i).1 ≤ r.1 ∧ (minMax r i).1 ≤ i ∧ r.2 ≤ (minMax r i).2 ∧
          i ≤ (minMax r i).2 := by
        simp only [minMax,BitVec.le_def,BitVec.lt_def,gt_iff_lt]
        split_ifs <;> omega
      refine ⟨fun j hj => ?_,?_⟩
      · simp only [BitVec.le_def] at *
        grind
      · rw [if_neg (by simp),minMax]
        split_ifs <;> simp [hends]

section
variable (restart : BitVec w → Bool)

theorem runs_cons (index : BitVec w) (src : List (BitVec w)) :
    runs restart (index::src) = if restart index
      then []::runs restart src
      else (runs restart src).modifyHead (index::·) :=
  splitOnP_cons_eq_if_modifyHead index src

/-- The triangles that the code writes: those behind the limit value are lost. -/
def writtenTriangles (run : List (BitVec w)) : List (Triangle w) :=
  (fanTriangles run).filter (·.2.1≠indexLimit w)

theorem writtenTriangles_cons (a b c : BitVec w) (run : List (BitVec w)) :
    writtenTriangles (a::b::c::run) = (if b = indexLimit w then [] else [(a,b,c)]) ++
      writtenTriangles (a::c::run) := by
  simp only [writtenTriangles,fanTriangles,tail_cons,zip_cons_cons,map_cons,filter_cons]
  split_ifs <;> simp_all

theorem foldl_fanStep_dst (src : List (BitVec w)) :
    (∀ s : Fan w, s.needsAnchor → s.lastIndex = indexLimit w → (src.foldl (fanStep restart) s).dst =
        s.dst++vertices ((runs restart src).flatMap writtenTriangles)) ∧
    (∀ s : Fan w, ¬s.needsAnchor → (src.foldl (fanStep restart) s).dst =
        s.dst++vertices (((runs restart src).modifyHead
          (s.anchor::s.lastIndex::·)).flatMap writtenTriangles)) := by
  induction src with
  | nil =>
    refine ⟨fun s _ _ => ?_,fun s _ => ?_⟩ <;>
      simp [runs,writtenTriangles,fanTriangles,vertices]
  | cons index src ih =>
    obtain ⟨hstart,hrun⟩ := ih
    rw [runs_cons]
    by_cases hr : restart index
    · refine ⟨fun s hs hl => ?_,fun s hs => ?_⟩
      · rw [foldl_cons,fanStep,if_pos hs,if_pos hr,hstart s hs hl,if_pos hr]
        simp [writtenTriangles,fanTriangles]
      · rw [foldl_cons,fanStep,if_neg hs,if_pos hr,hstart _ rfl rfl,if_pos hr]
        simp [writtenTriangles,fanTriangles]
    · obtain ⟨run,rest,hruns⟩ : ∃ run rest, runs restart src = run::rest :=
        exists_cons_of_ne_nil (splitOnP_ne_nil _ _)
      refine ⟨fun s hs hl => ?_,fun s hs => ?_⟩
      · rw [foldl_cons,fanStep,if_pos hs,if_neg hr,hrun _ (by simp),if_neg hr,hruns]
        cases run <;> simp [hl,writtenTriangles,fanTriangles]
      · rw [foldl_cons,fanStep,if_neg hs,if_neg hr,if_neg hr,hruns]
        split_ifs with hl
        all_goals
          rw [hrun _ (by simpa using hs),hruns]
          simp [writtenTriangles_cons,hl,vertices]

theorem foldl_fanStep_range (src : List (BitVec w)) (s : Fan w) :
    (src.foldl (fanStep restart) s).range =
      (src.filter (!restart ·)).foldl minMax s.range := by
  induction src generalizing s with
  | nil => rfl
  | cons index src ih =>
    rw [foldl_cons,ih,fanStep,filter_cons]
    split_ifs <;> simp_all

/-- The first two indices of a run write nothing. -/
theorem length_foldl_fanStep (src : List (BitVec w)) (s : Fan w) :
    (src.foldl (fanStep restart) s).dst.length ≤ s.dst.length+3*(src.length -
      if s.needsAnchor then (if s.lastIndex = indexLimit w then 2 else 0)
      else if s.lastIndex = indexLimit w then 1 else 0) := by
  induction src generalizing s with
  | nil => simp
  | cons index src ih =>
    rw [foldl_cons]
    refine Nat.le_trans (ih _) ?_
    rw [fanStep]
    split_ifs <;> simp_all <;> omega

theorem quadTriangles_eq_nil {run : List (BitVec w)} (h : run.length < 4) :
    quadTriangles run=[] := by
  rcases run with _ | ⟨a,_ | ⟨b,_ | ⟨c,_ | ⟨d,run⟩⟩⟩⟩
  · rfl
  · rfl
  · rfl
  · rfl
  · simp only [length_cons] at h
    omega

theorem foldl_quadsStep_dst (src : List (BitVec w)) (s : Quads w) (hs : s.tmpIndices.length < 4) :
    (src.foldl (quadsStep restart) s).dst = s.dst++vertices
      (((runs restart src).modifyHead (s.tmpIndices++·)).flatMap quadTriangles) := by
  induction src generalizing s with
  | nil => simp [runs,quadTriangles_eq_nil hs,vertices]
  | cons index src ih =>
    obtain ⟨range,dst,tmp⟩ := s
    obtain ⟨run,rest,hruns⟩ : ∃ run rest, runs restart src = run::rest :=
      exists_cons_of_ne_nil (splitOnP_ne_nil _ _)
    rw [foldl_cons,runs_cons,hruns,quadsStep]
    rw [hruns] at ih
    split_ifs
    · rw [ih _ (by simp)]
      simp [quadTriangles_eq_nil hs]
    · rcases tmp with _ | ⟨a,_ | ⟨b,_ | ⟨c,_ | ⟨d,tmp⟩⟩⟩⟩
      case cons.cons.cons.cons =>
        simp only [length_cons] at hs
        omega
      all_goals
        rw [ih _ (by simp)]
        simp [quadTriangles,vertices]

theorem foldl_quadsStep_range (src : List (BitVec w)) (s : Quads w) :
    (src.foldl (quadsStep restart) s).range =
      (src.filter (!restart ·)).foldl minMax s.range := by
  induction src generalizing s with
  | nil => rfl
  | cons index src ih =>
    rw [foldl_cons,ih,quadsStep,filter_cons]
    split_ifs <;> simp_all
    split <;> rfl

theorem length_foldl_quadsStep (src : List (BitVec w)) (s : Quads w) :
    4*(src.foldl (quadsStep restart) s).dst.length ≤
      4*s.dst.length+6*(src.length+s.tmpIndices.length) := by
  induction src generalizing s with
  | nil => simp
  | cons index src ih =>
    rw [foldl_cons]
    refine Nat.le_trans (ih _) ?_
    rw [quadsStep,length_cons]
    split_ifs
    · simp only [length_nil]
      omega
    · split <;> simp_all only [length_append,length_cons,length_nil] <;> omega

end

theorem length_vertices (l : List (Triangle w)) : (vertices l).length = 3*l.length := by
  simp [vertices,Nat.mul_comm]

section
variable (src : List (BitVec w)) (restart : BitVec w → Bool) (dstSize : ℕ)

/-- `expand` writes the triangles that `triangles` gives for the runs, within the destination, and
returns the range of the indices that are no restart. -/
def Expands (result : Option ((BitVec w × BitVec w) × List (BitVec w)))
    (triangles : List (BitVec w) → List (Triangle w)) : Prop :=
  ∃ range, result =
      some (range,vertices ((runs restart src).flatMap triangles)) ∧
    (vertices ((runs restart src).flatMap triangles)).length ≤ dstSize ∧
    IsRange (src.filter (!restart ·)) range

theorem expandIndexedQuads_expands (hdst : 6*src.length ≤ 4*dstSize) :
    Expands src restart dstSize
      (expandIndexedQuads restart src dstSize) quadTriangles := by
  have hwrite := foldl_quadsStep_dst restart src ⟨(indexLimit w,0),[],[]⟩ (by simp)
  have hlen := length_foldl_quadsStep restart src ⟨(indexLimit w,0),[],[]⟩
  have hid : (runs restart src).modifyHead ([]++·) = runs restart src := by
    cases runs restart src <;> rfl
  rw [hid,nil_append] at hwrite
  refine ⟨_,by rw [expandIndexedQuads,if_pos hdst,← hwrite],?_,?_⟩
  · rw [← hwrite]
    simp only [length_nil] at hlen
    omega
  · rw [foldl_quadsStep_range]
    exact isRange_foldl _

/-- A fan loses the triangles behind a limit value. -/
theorem expandIndexedTriangleFan_expands_iff (hsrc : 2 ≤ src.length)
    (hdst : 3*(src.length-2) ≤ dstSize) :
    Expands src restart dstSize
        (expandIndexedTriangleFan restart src dstSize) fanTriangles ↔
      ∀ t∈(runs restart src).flatMap fanTriangles, t.2.1≠indexLimit w := by
  let start : Fan w := ⟨(indexLimit w,0),[],true,indexLimit w,indexLimit w⟩
  have hwrite := (foldl_fanStep_dst restart src).1 start rfl rfl
  have hlen := length_foldl_fanStep restart src start
  have hfilter : (runs restart src).flatMap writtenTriangles =
      ((runs restart src).flatMap fanTriangles).filter (·.2.1≠indexLimit w) :=
    filter_flatMap.symm
  have hresult : expandIndexedTriangleFan restart src dstSize =
      some ((src.foldl (fanStep restart) start).range,
        (src.foldl (fanStep restart) start).dst) := if_pos ⟨hsrc,hdst⟩
  rw [hfilter,nil_append] at hwrite
  constructor
  · rintro ⟨range,heq,-,-⟩
    rw [hresult,hwrite] at heq
    have hvertices := congrArg length (Prod.mk.inj (Option.some.inj heq)).2
    rw [length_vertices,length_vertices] at hvertices
    have hall := length_filter_eq_length_iff.1 (Nat.eq_of_mul_eq_mul_left (by omega) hvertices)
    exact fun t ht => of_decide_eq_true (hall t ht)
  · intro hall
    rw [filter_eq_self.2 fun t ht => decide_eq_true (hall t ht)] at hwrite
    rw [hwrite] at hresult hlen
    refine ⟨_,hresult,Nat.le_trans hlen ?_,?_⟩
    · simpa [start] using hdst
    · rw [foldl_fanStep_range]
      exact isRange_foldl _

end

/-- The expansions of a stream are right, for every destination that the checks accept, if and only
if no triangle of a fan has the limit value for its second vertex. -/
theorem expandIndexed_iff (src : List (BitVec w)) (enabled : Bool) (restartIndex : BitVec 32)
    (hsrc : 2 ≤ src.length) :
    let restart := isRestart enabled restartIndex
    ((∀ dstSize ≥ 3*(src.length-2), Expands src restart dstSize
        (expandIndexedTriangleFan restart src dstSize) fanTriangles) ∧
      ∀ dstSize, 6*src.length ≤ 4*dstSize → Expands src restart dstSize
        (expandIndexedQuads restart src dstSize) quadTriangles) ↔
    ∀ t∈(runs restart src).flatMap fanTriangles, t.2.1≠indexLimit w := by
  intro restart
  constructor
  · intro h
    exact (expandIndexedTriangleFan_expands_iff src restart _ hsrc (Nat.le_refl _)).1
      (h.1 _ (Nat.le_refl _))
  · intro h
    refine ⟨fun dstSize hdst => ?_,fun dstSize hdst => ?_⟩
    · exact (expandIndexedTriangleFan_expands_iff src restart _ hsrc hdst).2 h
    · exact expandIndexedQuads_expands src restart _ hdst

theorem expandIndexed_iff_quad : 2 ≤ ([7,8,9,10] : List (BitVec 16)).length ∧
    Expands [7,8,9,10] (isRestart true 0xffff) 6
      (expandIndexedQuads (isRestart true 0xffff) ([7,8,9,10] : List (BitVec 16)) 6)
      quadTriangles :=
  ⟨by decide,((expandIndexed_iff [7,8,9,10] true 0xffff (by decide)).2
    (@of_decide_eq_true _ (List.decidableBAll _ _) rfl)).2 6 (by decide)⟩

/-- Without restarts, the limit value is an index like any other. -/
theorem expandIndexedTriangleFan_limit :
    let restart := isRestart (w := 16) false 0
    expandIndexedTriangleFan restart [0,1,0xffff,2] 6 = some ((0,0xffff),[0,1,0xffff]) ∧
      vertices ((runs restart [0,1,0xffff,2]).flatMap fanTriangles) =
        [0,1,0xffff,0,0xffff,2] ∧
      ¬Expands [0,1,0xffff,2] restart 6
        (expandIndexedTriangleFan restart [0,1,0xffff,2] 6) fanTriangles := by
  refine ⟨by decide,by decide,?_⟩
  rw [expandIndexedTriangleFan_expands_iff _ _ _ (by decide) (by decide)]
  exact fun hall => hall (0,0xffff,2) (by decide) rfl

end PS3Native.IndexExpansion
