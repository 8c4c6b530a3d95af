import PS3Native.SysFsPath

/-!
# The parent directory of a path

`fs::get_parent_dir_view` scans a path from its end and counts the components still to drop, where
`.` and `..` add to the count.
-/
namespace PS3Native.ParentDir

open PathComponents List
open SysFsPath (Bytes slash dot dotdot)

def trimmed (result : Bytes) : Bytes :=
  let sz := after (findLastNotOf result slash)
  if sz=0 then [slash] else result.take sz

def raised (elem : Bytes) (toRemove : ℕ) : ℕ :=
  let toRemove := if elem=dot then toRemove+1 else toRemove
  if elem=dotdot then toRemove+2 else toRemove

/-- The loop of `fs::get_parent_dir_view`; nothing if the rounds run out. -/
def parentLoop : ℕ → ℕ → Bytes → Option Bytes
  | 0, _, _ => none
  | _+1, 0, result => some (trimmed result)
  | rounds+1, toRemove+1, result =>
    let sz := after (findLastNotOf result slash)
    if sz=0 then some [slash]
    else
      let result := result.take sz
      let elem := result.drop (after (findLastOf result slash))
      if elem=[] ∨ elem.length=result.length then some (trimmed result)
      else parentLoop rounds (raised elem toRemove) (result.take (result.length-elem.length))

def getParentDirView (path : Bytes) (parentLevel : ℕ) : Option Bytes :=
  parentLoop (path.length+1) parentLevel path

def cutBack : ℕ → List Bytes → List Bytes
  | 0, cs => cs
  | _+1, [] => []
  | toRemove+1, c::cs => cutBack (raised c toRemove) cs

variable {path result : Bytes} {rounds toRemove : ℕ}

theorem after_findLastNotOf_eq_zero (result : Bytes) :
    after (findLastNotOf result slash)=0 ↔ result.rdropWhile (· == slash)=[] := by
  rw [← take_after_findLastNotOf,take_eq_nil_iff]
  refine ⟨.inl,?_⟩
  rintro (hzero | rfl)
  · exact hzero
  · rfl

/-- Trimming keeps the components, and the slash in front. -/
theorem components_trimmed (h : result≠[]) : (trimmed result).head? = result.head? ∧
      components slash (trimmed result) = components slash result := by
  have hcomponents : components slash (result.rdropWhile (· == slash)) = components slash result :=
    components_rdropWhile result
  simp only [trimmed,after_findLastNotOf_eq_zero,take_after_findLastNotOf]
  split
  next hnil =>
    rw [hnil] at hcomponents
    refine ⟨?_,hcomponents⟩
    obtain ⟨a,rest,rfl⟩ := exists_cons_of_ne_nil h
    have ha : a=slash := by
      simpa using rdropWhile_eq_nil_iff.1 hnil a mem_cons_self
    rw [ha]
    rfl
  next hne =>
    refine ⟨?_,hcomponents⟩
    obtain ⟨rest,hrest⟩ := rdropWhile_prefix (· == slash) result
    obtain ⟨a,t,ht⟩ := exists_cons_of_ne_nil hne
    rw [ht] at hrest ⊢
    rw [← hrest]
    rfl

theorem parentLoop_drop {u c : Bytes} (hc : IsComponent slash c)
    (hu : result.rdropWhile (· == slash) = u++slash::c) :
    parentLoop (rounds+1) (toRemove+1) result =
      parentLoop rounds (raised c toRemove) (u++[slash]) := by
  have hne : result.rdropWhile (· == slash)≠[] := by
    rw [hu]
    simp
  have hlast : (u++slash::c).drop (u.length+1)=c := by
    rw [append_cons]
    exact drop_left' (by simp)
  have hlength : (u++slash::c).length = (u++[slash]).length+c.length := by
    rw [append_cons,length_append]
  have hcut : (u++slash::c).take ((u++slash::c).length-c.length) = u++[slash] := by
    rw [hlength,Nat.add_sub_cancel,append_cons u slash c,take_left]
  have hproper : ¬(c=[] ∨ c.length = (u++slash::c).length) := by
    rw [hlength,length_append]
    rintro (hEq | hEq)
    · exact hc.1 hEq
    · simp at hEq
  simp only [parentLoop,after_findLastNotOf_eq_zero,take_after_findLastNotOf]
  rw [if_neg hne,hu,after_findLastOf hc.2,hlast,hcut,if_neg hproper]

theorem length_of_drop {u c : Bytes} (hc : IsComponent slash c)
    (hu : result.rdropWhile (· == slash) = u++slash::c) : (u++[slash]).length < result.length := by
  have hstart := rdropWhile_prefix (· == slash) result
  have hle := hstart.length_le
  have hpos := length_pos_iff.2 hc.1
  rw [hu] at hle
  simp at hle ⊢
  omega

/-- On an absolute path the scan is the one over the components. -/
theorem parentLoop_absolute (hrounds : result.length < rounds) (habs : result.head? = some slash) :
    ∃ parent, parentLoop rounds toRemove result = some parent ∧ parent.head? = some slash ∧
      components slash parent = (cutBack toRemove (components slash result).reverse).reverse := by
  have hne : result≠[] := by
    rintro rfl
    cases habs
  induction rounds generalizing toRemove result with
  | zero => omega
  | succ rounds ih =>
    cases toRemove with
    | zero =>
      obtain ⟨hhead,hcomponents⟩ := components_trimmed hne
      exact ⟨_,rfl,hhead.trans habs,by rw [hcomponents,cutBack,reverse_reverse]⟩
    | succ toRemove =>
      by_cases hnil : result.rdropWhile (· == slash)=[]
      · have hempty : components slash result=[] := by
          rw [← components_rdropWhile,hnil,components_nil]
        refine ⟨[slash],?_,rfl,by rw [hempty]; rfl⟩
        simp only [parentLoop,after_findLastNotOf_eq_zero,if_pos hnil]
      · rcases last_component hnil with ⟨-,hrel,-⟩ | ⟨u,c,hu,hc,hhead,hcomponents⟩
        · exact absurd habs hrel
        · have hshort := length_of_drop hc hu
          obtain ⟨parent,hparent,habs',hcut⟩ := @ih (u++[slash]) (raised c toRemove) (by omega)
            (hhead.trans habs) (by simp)
          refine ⟨parent,(parentLoop_drop hc hu).trans hparent,habs',?_⟩
          rw [hcut,hcomponents,reverse_append,reverse_singleton, singleton_append,cutBack]

/-- On a relative path the first component stays. -/
theorem parentLoop_relative (hrounds : result.length < rounds) (hne : result≠[])
    (hrel : result.head?≠some slash) :
    ∃ parent first rest, parentLoop rounds toRemove result = some parent ∧
      components slash result = first::rest ∧ parent.head?≠some slash ∧ parent≠[] ∧
      components slash parent = first::(cutBack toRemove rest.reverse).reverse := by
  induction rounds generalizing toRemove result with
  | zero => omega
  | succ rounds ih =>
    have hnil : result.rdropWhile (· == slash)≠[] := by
      intro hnil
      obtain ⟨a,t,rfl⟩ := exists_cons_of_ne_nil hne
      refine hrel ?_
      have ha : a=slash := by
        simpa using rdropWhile_eq_nil_iff.1 hnil a mem_cons_self
      rw [ha]
      rfl
    obtain ⟨hhead,hkeep⟩ := components_trimmed hne
    have htrimmed : trimmed result≠[] := by
      intro hEq
      rw [hEq] at hhead
      cases result with
      | nil => exact hne rfl
      | cons a t => cases hhead
    cases toRemove with
    | zero =>
      obtain ⟨first,rest,hfirst⟩ : ∃ first rest, components slash result = first::rest := by
        rcases last_component hnil with ⟨-,-,hone⟩ | ⟨u,c,-,-,-,hmany⟩
        · exact ⟨_,_,hone⟩
        · refine exists_cons_of_ne_nil ?_
          rw [hmany]
          simp
      refine ⟨_,first,rest,rfl,hfirst,hhead ▸ hrel,htrimmed,?_⟩
      rw [hkeep,hfirst,cutBack,reverse_reverse]
    | succ toRemove =>
      rcases last_component hnil with ⟨hword,-,hone⟩ | ⟨u,c,hu,hc,hhead',hcomponents⟩
      · obtain ⟨hhead',hkeep'⟩ := components_trimmed hword.1
        refine ⟨trimmed (result.rdropWhile (· == slash)),_,[],?_,hone,?_,?_,?_⟩
        · simp only [parentLoop,after_findLastNotOf_eq_zero,take_after_findLastNotOf]
          rw [if_neg hnil,after_findLastOf_of_not_mem hword.2,drop_zero,if_pos (.inr rfl)]
        · rw [hhead']
          exact fun hsep => hword.2 (mem_of_mem_head? hsep)
        · intro hEq
          rw [hEq,components_of_isComponent hword] at hkeep'
          cases hkeep'
        · rw [hkeep',components_of_isComponent hword]
          rfl
      · have hshort := length_of_drop hc hu
        obtain ⟨parent,first,rest,hparent,hfirst,hrel',hne',hcut⟩ :=
          @ih (u++[slash]) (raised c toRemove) (by omega) (by simp) (hhead' ▸ hrel)
        refine ⟨parent,first,rest++[c],(parentLoop_drop hc hu).trans hparent,?_,hrel',hne',?_⟩
        · rw [hcomponents,hfirst]
          rfl
        · rw [hcut,reverse_append,reverse_singleton,singleton_append,cutBack]

theorem getParentDirView_absolute (habs : path.head? = some slash) (n : ℕ) :
    ∃ parent, getParentDirView path n = some parent ∧ parent.head? = some slash ∧
      components slash parent = (cutBack n (components slash path).reverse).reverse :=
  parentLoop_absolute (Nat.lt_succ_self _) habs

theorem getParentDirView_relative (hne : path≠[]) (hrel : path.head?≠some slash) (n : ℕ) :
    ∃ parent first rest, getParentDirView path n = some parent ∧
      components slash path = first::rest ∧ parent.head?≠some slash ∧ parent≠[] ∧
      components slash parent = first::(cutBack n rest.reverse).reverse :=
  parentLoop_relative (Nat.lt_succ_self _) hne hrel

end PS3Native.ParentDir
