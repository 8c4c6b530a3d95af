import Mathlib.Data.List.DropRight

/-!
# Separated strings and their components

Searching a string for a separator from a position on, as the string classes of a
systems language do it, and the non-empty components that the separators leave. A
missing position is `none`; the language's `npos + 1` is zero.
-/
namespace PS3Native.PathComponents
open List

def ascii (s : String) : List UInt8 := s.toList.map fun c => c.toNat.toUInt8

variable {α : Type*} [DecidableEq α]

section Search

def findFirstNotOf (s : List α) (c : α) (pos : ℕ) : Option ℕ :=
  ((s.drop pos).findIdx? (· != c)).map (pos+·)

def findFirstOf (s : List α) (c : α) (pos : ℕ) : Option ℕ :=
  ((s.drop pos).findIdx? (· == c)).map (pos+·)

def findLastOf (s : List α) (c : α) : Option ℕ :=
  (s.reverse.findIdx? (· == c)).map (s.length-1-·)

def findLastNotOf (s : List α) (c : α) : Option ℕ :=
  (s.reverse.findIdx? (· != c)).map (s.length-1-·)

def after : Option ℕ → ℕ
  | none => 0
  | some i => i+1

/-- The part of the string from a position, where no count means up to the end. -/
def substr (s : List α) (pos : ℕ) : Option ℕ → List α
  | none => s.drop pos
  | some count => (s.drop pos).take count

def suffix (s : List α) : Option ℕ → List α
  | none => []
  | some pos => s.drop pos

omit [DecidableEq α] in
theorem drop_findIdx? (p : α → Bool) (l : List α) :
    (l.findIdx? p).elim [] l.drop = l.dropWhile fun a => !p a := by
  simp only [dropWhile_eq_drop_findIdx_not,Bool.not_not,findIdx_eq_getD_findIdx?]
  cases l.findIdx? p <;> simp

omit [DecidableEq α] in
theorem take_findIdx? (p : α → Bool) (l : List α) :
    (l.findIdx? p).elim l l.take = l.takeWhile fun a => !p a := by
  simp only [takeWhile_eq_take_findIdx_not,Bool.not_not,findIdx_eq_getD_findIdx?]
  cases l.findIdx? p <;> simp

omit [DecidableEq α] in
theorem drop_length_takeWhile (p : α → Bool) (l : List α) :
    l.drop (l.takeWhile p).length = l.dropWhile p := by
  rw [dropWhile_eq_drop_findIdx_not,takeWhile_eq_take_findIdx_not,length_take,
    Nat.min_eq_left findIdx_le_length]

theorem suffix_findFirstOf (s : List α) (c : α) (pos : ℕ) :
    suffix s (findFirstOf s c pos) = (s.drop pos).dropWhile (· != c) := by
  have h := drop_findIdx? (· == c) (s.drop pos)
  rw [findFirstOf]
  cases hi : (s.drop pos).findIdx? (· == c) with
  | none => simpa [hi,suffix,bne] using h
  | some i => simpa [hi,suffix,bne] using h

theorem substr_findFirstOf (s : List α) (c : α) (pos : ℕ) :
    substr s pos ((findFirstOf s c pos).map (·-pos)) = (s.drop pos).takeWhile (· != c) := by
  have h := take_findIdx? (· == c) (s.drop pos)
  rw [findFirstOf]
  cases hi : (s.drop pos).findIdx? (· == c) with
  | none => simpa [hi,substr,bne] using h
  | some i => simpa [hi,substr,bne] using h

theorem suffix_findFirstNotOf (s : List α) (c : α) (pos : ℕ) :
    suffix s (findFirstNotOf s c pos) = (s.drop pos).dropWhile (· == c) := by
  have h := drop_findIdx? (· != c) (s.drop pos)
  rw [findFirstNotOf]
  cases hi : (s.drop pos).findIdx? (· != c) with
  | none => simpa [hi,suffix] using h
  | some i =>
    rw [hi] at h
    simpa only [Option.elim_some,Option.map_some,suffix,drop_drop,bne,Bool.not_not] using h

theorem findFirstNotOf_eq_none {s : List α} {c : α} {pos : ℕ} :
    findFirstNotOf s c pos=none ↔ (s.drop pos).dropWhile (· == c)=[] := by
  rw [findFirstNotOf,Option.map_eq_none_iff,findIdx?_eq_none_iff,dropWhile_eq_nil_iff]
  simp [bne]

/-- The search stays where it is exactly on a character that is not the separator. -/
theorem findFirstNotOf_eq_self {s : List α} {c : α} {pos : ℕ} :
    findFirstNotOf s c pos = some pos ↔ ∃ a∈(s.drop pos).head?, a≠c := by
  rw [findFirstNotOf]
  cases hs : s.drop pos with
  | nil => simp
  | cons a t =>
    by_cases ha : a=c
    · simp [findIdx?_cons,ha]
    · simp [findIdx?_cons,ha]

end Search

section Components

def components (sep : α) (s : List α) : List (List α) := (s.splitOn sep).filter (·≠[])

def IsComponent (sep : α) (c : List α) : Prop := c≠[] ∧ sep∉c

variable {sep : α}

@[simp]
theorem components_nil : components sep []=[] := rfl

@[simp]
theorem components_sep_cons (s : List α) : components sep (sep::s) = components sep s := by
  simp [components,splitOn_cons_eq_if_modifyHead]

variable {c s : List α}

theorem components_of_isComponent (h : IsComponent sep c) : components sep c = [c] := by
  simp [components,splitOn_eq_singleton h.2,h.1]

/-- A word is a component when the string ends after it or goes on with the separator. -/
theorem components_append {rest : List α} (h : IsComponent sep c)
    (hrest : ∀ a∈rest.head?, a=sep) :
    components sep (c++rest) = c::components sep rest := by
  cases rest with
  | nil => rw [append_nil,components_of_isComponent h,components_nil]
  | cons a rest =>
    obtain rfl : a=sep := hrest a rfl
    rw [components_sep_cons]
    simp [components,splitOn_append_cons_self_of_not_mem h.2,h.1]

theorem components_append_sep (s t : List α) :
    components sep (s++sep::t) = components sep s++components sep t := by
  simp [components,splitOn_append_cons_self]

theorem components_concat_sep (s : List α) : components sep (s++[sep]) = components sep s := by
  rw [components_append_sep,components_nil,append_nil]

theorem components_dropWhile (s : List α) :
    components sep (s.dropWhile (· == sep)) = components sep s := by
  induction s with
  | nil => rfl
  | cons a s ih =>
    by_cases ha : a=sep
    · subst ha
      rw [components_sep_cons,← ih,dropWhile_cons,if_pos (by simp)]
    · rw [dropWhile_cons,if_neg (by simpa using ha)]

theorem isComponent_takeWhile {a : α} (ha : a≠sep) (s : List α) :
    IsComponent sep ((a::s).takeWhile (· != sep)) := by
  refine ⟨?_,fun hmem => ?_⟩
  · rw [takeWhile_cons,if_pos (by simpa using ha)]
    exact cons_ne_nil _ _
  · simpa using mem_takeWhile_imp hmem

theorem head?_dropWhile_ne : ∀ a∈(s.dropWhile (· != sep)).head?, a=sep := by
  intro a ha
  have := head?_dropWhile_not (· != sep) s
  rw [ha] at this
  simpa using this

/-- One round of a scan: skip the separators and take the word that follows. -/
theorem components_of_dropWhile_ne_nil (h : s.dropWhile (· == sep)≠[]) :
    IsComponent sep ((s.dropWhile (· == sep)).takeWhile (· != sep)) ∧
      components sep s = (s.dropWhile (· == sep)).takeWhile (· != sep) ::
        components sep ((s.dropWhile (· == sep)).dropWhile (· != sep)) := by
  obtain ⟨a,t,hat⟩ := exists_cons_of_ne_nil h
  have ha : a≠sep := by
    have := head_dropWhile_not (· == sep) h
    simpa [hat] using this
  have hcomp : IsComponent sep ((s.dropWhile (· == sep)).takeWhile (· != sep)) := by
    rw [hat]
    exact isComponent_takeWhile ha t
  refine ⟨hcomp,?_⟩
  calc components sep s = components sep (s.dropWhile (· == sep)) := (components_dropWhile s).symm
    _ = components sep ((s.dropWhile (· == sep)).takeWhile (· != sep) ++
          (s.dropWhile (· == sep)).dropWhile (· != sep)) := by
        rw [takeWhile_append_dropWhile]
    _ = _ := components_append hcomp head?_dropWhile_ne

theorem length_dropWhile_lt (h : s.dropWhile (· == sep)≠[]) :
    ((s.dropWhile (· == sep)).dropWhile (· != sep)).length < s.length := by
  have hword := length_pos_iff.2 (components_of_dropWhile_ne_nil h).1.1
  have hskip := (dropWhile_sublist (l := s) (· == sep)).length_le
  have hsplit := congrArg length
    (takeWhile_append_dropWhile (p := (· != sep)) (l := s.dropWhile (· == sep)))
  rw [length_append] at hsplit
  omega

theorem components_of_dropWhile_eq_nil (h : s.dropWhile (· == sep)=[]) :
    components sep s=[] := by
  rw [← components_dropWhile,h,components_nil]

theorem isComponent_of_mem (h : c∈components sep s) : IsComponent sep c := by
  induction hn : s.length using Nat.strong_induction_on generalizing s with
  | _ n ih =>
    by_cases hskip : s.dropWhile (· == sep)=[]
    · rw [components_of_dropWhile_eq_nil hskip] at h
      exact absurd h not_mem_nil
    · obtain ⟨hword,hcons⟩ := components_of_dropWhile_ne_nil hskip
      rw [hcons] at h
      rcases mem_cons.1 h with rfl | h
      · exact hword
      · exact ih _ (hn ▸ length_dropWhile_lt hskip) h rfl

/-- A fold that ignores the empty word need not see it. -/
theorem foldlM_components {β : Type*} {f : β → List α → Option β} (hf : ∀ b, f b [] = some b)
    (s : List α) (b : β) : (components sep s).foldlM f b = (s.splitOn sep).foldlM f b := by
  unfold components
  induction s.splitOn sep generalizing b with
  | nil => rfl
  | cons c cs ih =>
    by_cases hc : c=[]
    · subst hc
      rw [filter_cons_of_neg (by simp),ih,foldlM_cons,hf]
      rfl
    · rw [filter_cons_of_pos (by simpa using hc),foldlM_cons,foldlM_cons]
      exact congrArg (f b c).bind (funext fun d => ih d)

end Components

section Join

variable {sep : α} {cs : List (List α)}

omit [DecidableEq α] in
theorem intercalate_concat (h : cs≠[]) (c : List α) :
    [sep].intercalate (cs++[c]) = [sep].intercalate cs++sep::c := by
  induction cs with
  | nil => exact absurd rfl h
  | cons d cs ih =>
    cases cs with
    | nil => simp [intercalate_cons_cons]
    | cons e cs =>
      rw [cons_append,cons_append,intercalate_cons_cons,← cons_append,
        ih (cons_ne_nil e cs),intercalate_cons_cons]
      simp

theorem components_intercalate (h : ∀ c∈cs, IsComponent sep c) :
    components sep ([sep].intercalate cs)=cs := by
  by_cases hcs : cs=[]
  · subst hcs
    rfl
  · rw [components,splitOn_intercalate sep (fun c hc => (h c hc).2) hcs,filter_eq_self]
    intro c hc
    simpa using (h c hc).1

omit [DecidableEq α] in
/-- The joined string ends with a character of its last component. -/
theorem intercalate_eq_concat (h : ∀ c∈cs, IsComponent sep c) (hcs : cs≠[]) :
    ∃ u a, [sep].intercalate cs = u++[a] ∧ a≠sep := by
  obtain ⟨ds,c,rfl⟩ := eq_nil_or_concat cs |>.resolve_left hcs
  obtain ⟨hne,hsep⟩ := h c (by simp)
  obtain ⟨v,a,rfl⟩ := eq_nil_or_concat c |>.resolve_left hne
  have ha : a≠sep := fun hEq => hsep (by simp [hEq])
  by_cases hds : ds=[]
  · exact ⟨v,a,by simp [hds],ha⟩
  · exact ⟨[sep].intercalate ds++sep::v,a,by simp [intercalate_concat hds],ha⟩

theorem findIdx?_reverse_of_not_mem {s : List α} (h : sep∉s) :
    s.reverse.findIdx? (· == sep)=none := by
  rw [findIdx?_eq_none_iff]
  intro a ha
  have hne : a≠sep := fun hEq => h (hEq ▸ mem_reverse.1 ha)
  simpa using hne

theorem after_findLastOf_of_not_mem {s : List α} (h : sep∉s) : after (findLastOf s sep)=0 := by
  rw [findLastOf,findIdx?_reverse_of_not_mem h]
  rfl

theorem after_findLastOf {u c : List α} (h : sep∉c) :
    after (findLastOf (u++sep::c) sep) = u.length+1 := by
  have hfound : (u++sep::c).reverse.findIdx? (· == sep) = some c.length := by
    rw [reverse_append,reverse_cons,append_assoc,findIdx?_append, findIdx?_reverse_of_not_mem h]
    simp [findIdx?_cons]
  rw [findLastOf,hfound]
  simp [after]

theorem after_findLastNotOf {u : List α} {a : α} (ha : a≠sep) :
    after (findLastNotOf (u++[a]++[sep]) sep) = (u++[a]).length := by
  have : (u++[a]++[sep]).reverse.findIdx? (· != sep) = some 1 := by
    simp [findIdx?_cons,ha]
  rw [findLastNotOf,this]
  simp [after]

/-- Cutting a joined string after its last separator and then before it drops the last
component. -/
theorem take_intercalate_concat (h : ∀ c∈cs, IsComponent sep c) {c : List α} (hc : sep∉c)
    {cut : List α} (hcut : cut = ([sep].intercalate (cs++[c])).take
      (after (findLastOf ([sep].intercalate (cs++[c])) sep))) :
    cut.take (after (findLastNotOf cut sep)) = [sep].intercalate cs := by
  by_cases hcs : cs=[]
  · subst hcs
    rw [nil_append,intercalate_singleton,after_findLastOf_of_not_mem hc, take_zero] at hcut
    subst hcut
    rfl
  · obtain ⟨u,a,hu,ha⟩ := intercalate_eq_concat h hcs
    rw [intercalate_concat hcs,after_findLastOf hc,append_cons, take_left' (by simp),hu] at hcut
    rw [hcut,after_findLastNotOf ha,take_left,hu]

end Join

section Backwards

variable {sep : α}

/-- Cutting a string behind its last character that is not the separator. -/
theorem take_after_findLastNotOf (s : List α) :
    s.take (after (findLastNotOf s sep)) = s.rdropWhile (· == sep) := by
  induction s using reverseRecOn with
  | nil => rfl
  | append_singleton s a ih =>
    by_cases ha : a=sep
    · rw [rdropWhile_concat_pos _ _ _ (by simpa using ha),← ih]
      simp only [findLastNotOf,reverse_append,reverse_singleton,singleton_append,
        findIdx?_cons,ha,bne_self_eq_false,Bool.false_eq_true,if_false,Option.map_map]
      cases hi : s.reverse.findIdx? (· != sep) with
      | none => rfl
      | some i =>
        have hlt := (findIdx?_eq_some_iff_findIdx_eq.1 hi).1
        rw [length_reverse] at hlt
        have hend : (s++[sep]).length-1-(i+1) = s.length-1-i := by simp; omega
        simp only [Option.map_some,Function.comp_apply,hend,after]
        exact take_append_of_le_length (by omega)
    · rw [rdropWhile_concat_neg _ _ _ (by simpa using ha)]
      have hend : after (findLastNotOf (s++[a]) sep) = (s++[a]).length := by
        simp [findLastNotOf,findIdx?_cons,ha,after]
      rw [hend,take_length]

theorem components_rdropWhile (s : List α) :
    components sep (s.rdropWhile (· == sep)) = components sep s := by
  induction s using reverseRecOn with
  | nil => rfl
  | append_singleton s a ih =>
    by_cases ha : a=sep
    · rw [rdropWhile_concat_pos _ _ _ (by simpa using ha),ih,ha,components_concat_sep]
    · rw [rdropWhile_concat_neg _ _ _ (by simpa using ha)]

/-- One round of a scan from the end: skip the separators and take the word before them, which is
all that is left or has a separator in front. -/
theorem last_component {s : List α} (h : s.rdropWhile (· == sep)≠[]) :
    (IsComponent sep (s.rdropWhile (· == sep)) ∧ s.head?≠some sep ∧
      components sep s = [s.rdropWhile (· == sep)]) ∨
    ∃ u c, s.rdropWhile (· == sep) = u++sep::c ∧ IsComponent sep c ∧
      (u++[sep]).head? = s.head? ∧ components sep s = components sep (u++[sep])++[c] := by
  obtain ⟨rest,hrest⟩ := rdropWhile_prefix (· == sep) s
  have hlast := rdropWhile_last_not (· == sep) s h
  have hcomponents : components sep (s.rdropWhile (· == sep)) = components sep s :=
    components_rdropWhile s
  generalize s.rdropWhile (· == sep) = t at *
  have hhead : t.head? = s.head? := by
    cases t with
    | nil => exact absurd rfl h
    | cons a t =>
      rw [← hrest]
      rfl
  have hsplit : t.rdropWhile (· != sep)++t.rtakeWhile (· != sep)=t := rdropWhile_append_rtakeWhile
  have hc : IsComponent sep (t.rtakeWhile (· != sep)) := by
    refine ⟨fun hnil => ?_,fun hmem => ?_⟩
    · exact absurd hlast (by simpa using rtakeWhile_eq_nil_iff.1 hnil h)
    · simpa using mem_rtakeWhile_imp hmem
  by_cases hnil : t.rdropWhile (· != sep)=[]
  · left
    rw [hnil,nil_append] at hsplit
    rw [hsplit] at hc
    refine ⟨hc,fun hsep => hc.2 (mem_of_mem_head? (hhead.trans hsep)),?_⟩
    rw [← hcomponents,components_of_isComponent hc]
  · right
    have hsep : (t.rdropWhile (· != sep)).getLast hnil=sep := by
      simpa using rdropWhile_last_not (· != sep) t hnil
    have hu := dropLast_append_getLast hnil
    rw [hsep] at hu
    refine ⟨(t.rdropWhile (· != sep)).dropLast,t.rtakeWhile (· != sep),?_,hc,?_,?_⟩
    · rw [append_cons,hu,hsplit]
    · rw [hu,← hhead]
      cases hw : t.rdropWhile (· != sep) with
      | nil => exact absurd hw hnil
      | cons a w =>
        rw [hw] at hsplit
        rw [← hsplit]
        rfl
    · rw [← hcomponents,components_concat_sep,← components_of_isComponent hc,
        ← components_append_sep,append_cons,hu,hsplit]

end Backwards

end PS3Native.PathComponents
