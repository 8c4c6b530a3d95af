import Mathlib.Algebra.Notation.Defs
import Mathlib.Data.List.Basic

/-!
# Removal of primitive restarts

`remove_restart_index` joins the strips between restart indices into one strip with degenerate
triangles.
-/
namespace PS3Native.RestartIndex
open List

variable {T : Type*}

/-- What `remove_restart_index` has written, the last index, and whether it is behind a restart. -/
structure Cursor (T : Type*) where
  dst : List T
  lastIndex : T
  skipping : Bool

/-- The last index once more, and again where that is needed to fix the face winding. -/
def duplicateLast (dst : List T) (lastIndex : T) : List T :=
  let dst := dst++[lastIndex]
  if dst.length%2=0 then dst++[lastIndex] else dst

theorem duplicateLast_odd (dst : List T) (last : T) : (duplicateLast dst last).length%2=1 := by
  rw [duplicateLast]
  split_ifs with h
  · rw [length_append,length_singleton]
    omega
  · omega

def triangles : Bool → List T → List (Bool × T × T × T)
  | odd, a::b::c::strip => (odd,a,b,c)::triangles (!odd) (b::c::strip)
  | _, _ => []

def NonDegenerate (t : Bool × T × T × T) : Prop :=
  t.2.1≠t.2.2.1 ∧ t.2.2.1≠t.2.2.2 ∧ t.2.1≠t.2.2.2

/-- The current strip `cur` stands behind a part with an even number of entries that ends with the
first vertex of `cur` as well. -/
def Follows (base cur : List T) : Prop :=
  base=[] ∨ ∃ front c rest, base = front++[c] ∧ cur = c::rest ∧ front.length%2=1

theorem Follows.append {base cur : List T} (h : Follows base cur) (index : T) :
    Follows base (cur++[index]) := by
  rcases h with rfl | ⟨front,c,rest,rfl,rfl,hodd⟩
  · exact .inl rfl
  · exact .inr ⟨front,c,rest++[index],rfl,rfl,hodd⟩

variable [DecidableEq T] (restartIndex : T)

/-- The index behind a restart is written twice, the second time by the next iteration. -/
def step (c : Cursor T) (index : T) : Cursor T :=
  if index=restartIndex then {c with skipping := true}
  else if c.skipping then
    ⟨duplicateLast c.dst c.lastIndex++[index]++[index],index,false⟩
  else ⟨c.dst++[index],index,false⟩

def removeRestartIndex [Zero T] (src : List T) : List T :=
  (src.foldl (step restartIndex) ⟨[],0,false⟩).dst

instance (t : Bool × T × T × T) : Decidable (NonDegenerate t) :=
  inferInstanceAs (Decidable (_ ∧ _ ∧ _))

def drawn (odd : Bool) (strip : List T) : List (Bool × T × T × T) :=
  (triangles odd strip).filter (NonDegenerate ·)

theorem drawn_cons (odd : Bool) (a b c : T) (strip : List T) :
    drawn odd (a::b::c::strip) =
      (if NonDegenerate (odd,a,b,c) then [(odd,a,b,c)] else []) ++
        drawn (!odd) (b::c::strip) := by
  rw [drawn,triangles,filter_cons]
  split_ifs <;> simp_all [drawn]

/-- Behind a repeated vertex the strip goes on as one of its own. -/
theorem drawn_join (front strip : List T) (c : T) (odd : Bool) :
    drawn odd (front++c::c::strip) =
      drawn odd (front++[c])++drawn (odd ^^ decide (front.length%2=0)) (c::strip) := by
  induction front generalizing odd with
  | nil =>
    rcases strip with _ | ⟨d,strip⟩
    · rfl
    · simp [NonDegenerate,drawn,triangles]
  | cons a front ih =>
    have hodd : (odd ^^ decide ((a::front).length%2=0)) =
        (!odd ^^ decide (front.length%2=0)) := by
      rcases Nat.mod_two_eq_zero_or_one front.length with h | h <;> simp [h,Nat.add_mod]
    rw [hodd]
    have hnext := ih (!odd)
    rcases front with _ | ⟨b,_ | ⟨d,front⟩⟩
    · rw [nil_append] at hnext
      rw [singleton_append,drawn_cons,hnext]
      simp [NonDegenerate,drawn,triangles]
    · simp only [cons_append,nil_append] at hnext ⊢
      rw [drawn_cons,drawn_cons odd a b c [],hnext,append_assoc]
    · simp only [cons_append] at hnext ⊢
      rw [drawn_cons,drawn_cons odd a b d,hnext,append_assoc]

theorem Follows.drawn {base cur : List T} (h : Follows base cur) :
    drawn false (base++cur) = drawn false base++drawn false cur := by
  rcases h with rfl | ⟨front,c,rest,rfl,rfl,hodd⟩
  · rfl
  · rw [append_assoc,singleton_append,drawn_join,hodd]
    rfl

theorem drawn_duplicateLast {dst : List T} {last : T} (h : dst≠[] → dst.getLast? = some last)
    (index : T) : drawn false (duplicateLast dst last++[index]) = drawn false dst := by
  rcases eq_nil_or_concat dst with rfl | ⟨front,c,rfl⟩
  · rfl
  · obtain rfl : c=last := by simpa using h
    rw [duplicateLast]
    split_ifs
    all_goals
      simp only [concat_eq_append,append_assoc,cons_append,nil_append]
      rw [drawn_join]
      simp [drawn,triangles,NonDegenerate]

theorem splitOn_cons (index : T) (src : List T) : (index::src).splitOn restartIndex =
    if index=restartIndex then []::src.splitOn restartIndex
    else (src.splitOn restartIndex).modifyHead (index::·) := by
  simp [splitOn,splitOnP_cons_eq_if_modifyHead]

theorem drawn_foldl_step (src : List T) :
    (∀ base cur last, Follows base cur → (base++cur≠[] → (base++cur).getLast? = some last) →
      drawn false (src.foldl (step restartIndex) ⟨base++cur,last,false⟩).dst = drawn false base ++
          ((src.splitOn restartIndex).modifyHead (cur++·)).flatMap (drawn false)) ∧
    (∀ dst last, (dst≠[] → dst.getLast? = some last) →
      drawn false (src.foldl (step restartIndex) ⟨dst,last,true⟩).dst =
        drawn false dst++(src.splitOn restartIndex).flatMap (drawn false)) := by
  induction src with
  | nil =>
    refine ⟨fun base cur last h _ => ?_,fun dst last _ => ?_⟩
    · simpa using h.drawn
    · simp [drawn,triangles]
  | cons index src ih =>
    obtain ⟨hdraw,hskip⟩ := ih
    by_cases hindex : index=restartIndex
    all_goals
      simp only [splitOn_cons,hindex,if_true,if_false,foldl_cons,step]
      refine ⟨fun base cur last h hlast => ?_,fun dst last hlast => ?_⟩
    · rw [hskip _ _ hlast,h.drawn]
      simp
    · rw [hskip _ _ hlast]
      simp [drawn,triangles]
    · have := hdraw base (cur++[index]) index (h.append index) (by simp)
      simpa [modifyHead_modifyHead,Function.comp_def] using this
    · have := hdraw _ [index] index (.inr ⟨_,index,[],rfl,rfl,duplicateLast_odd dst last⟩)
        (by simp)
      simpa [drawn_duplicateLast hlast] using this

theorem length_foldl_step (src : List T) (c : Cursor T) :
    (src.foldl (step restartIndex) c).dst.length ≤
      c.dst.length+2*src.length+if c.skipping then 2 else 0 := by
  induction src generalizing c with
  | nil => simp
  | cons index src ih =>
    rw [foldl_cons]
    refine Nat.le_trans (ih _) ?_
    rw [step,duplicateLast]
    split_ifs <;> simp_all <;> omega

/-- The joined strip draws the triangles of the strips with their winding, and fits in twice the
size of the source. -/
theorem removeRestartIndex_triangles [Zero T] (src : List T) :
    drawn false (removeRestartIndex restartIndex src) =
        (src.splitOn restartIndex).flatMap (drawn false) ∧
      (removeRestartIndex restartIndex src).length ≤ 2*src.length := by
  have hdrawn := (drawn_foldl_step restartIndex src).1 [] [] 0 (.inl rfl) (by simp)
  have hid : (src.splitOn restartIndex).modifyHead ([]++·) = src.splitOn restartIndex := by
    cases src.splitOn restartIndex <;> rfl
  have hlength := length_foldl_step restartIndex src ⟨[],0,false⟩
  constructor
  · rw [hid] at hdrawn
    exact hdrawn
  · simpa [removeRestartIndex] using hlength

end PS3Native.RestartIndex
