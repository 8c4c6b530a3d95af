import Mathlib.Data.List.Forall2
import PS3Native.SysFsPath
import PS3Native.VfsEscapeSafety

/-!
# The components of an escaped path

`vfs::escape` is also applied to whole paths, whose slashes it keeps. Each character is written as
a text of its own, so that the components of the escaped path are the escaped components, and one
that is made of dots comes from the same dots.
-/
namespace PS3Native.VfsEscape

open PathComponents List
open SysFsPath (slash dot dotdot)

/-- The components that are made of dots only come from the same dots. -/
def DotsFrom (written component : Bytes) : Prop :=
  ∀ k, written = List.replicate k 0x2E → component = List.replicate k 0x2E

theorem splitOn_cons_slash (rest : Bytes) :
    (slash::rest).splitOn slash = []::rest.splitOn slash := by
  simp [splitOn_cons_eq_if_modifyHead]

theorem splitOn_append_of_not_mem {p : Bytes} (h : slash∉p) (rest : Bytes) :
    (p++rest).splitOn slash = (rest.splitOn slash).modifyHead (p++·) := by
  induction p with
  | nil =>
    rw [nil_append]
    cases rest.splitOn slash <;> rfl
  | cons a p ih =>
    have ha : a≠slash := fun hEq => h (hEq ▸ mem_cons_self)
    rw [cons_append,splitOn_cons_eq_if_modifyHead,if_neg (by simpa using ha),
      ih fun hmem => h (mem_cons_of_mem a hmem)]
    cases rest.splitOn slash <;> rfl

/-- What is written for a character: a slash for a slash, and otherwise no slash, and a dot only for
a dot and alone. -/
def IsPiece (c : UInt8) (p : Bytes) : Prop :=
  (c=slash ∧ p = [slash]) ∨
    c≠slash ∧ p≠[] ∧ slash∉p ∧ (0x2E∈p → c=0x2E ∧ p = [0x2E])

theorem escapeChar_isPiece (c : UInt8) (rest : Bytes) : IsPiece c (escapeChar false c rest) := by
  by_cases hslash : c=slash
  · subst hslash
    exact .inl ⟨rfl,rfl⟩
  refine .inr ⟨hslash,escapeChar_ne_nil false c rest,fun hmem => ?_,fun hmem => ?_⟩
  · rcases mem_escapeChar hmem with hhigh | ⟨hEq,-⟩
    · exact absurd hhigh (by decide)
    · exact hslash hEq.symm
  · rcases mem_escapeChar hmem with hhigh | ⟨hEq,-⟩
    · exact absurd hhigh (by decide)
    · refine ⟨hEq.symm,?_⟩
      rw [← hEq] at hmem ⊢
      have hcases : escapeChar false 0x2E rest = if getChar rest 0=0 then wide 0x8E else [0x2E] := rfl
      rw [hcases] at hmem ⊢
      split at hmem
      · exact absurd (mem_wide (by decide) hmem) (by decide)
      · rw [if_neg ‹_›]

theorem hex_isPiece {b : UInt8} (h : ¬b < 0x80) :
    IsPiece b (wide 0x85++[hex (b >>> 4),hex (b &&& 0xF)]) := by
  have hdigit : ∀ d∈hexDigits, d≠slash ∧ d≠0x2E := by decide +kernel
  obtain ⟨hhigh,hlow⟩ := hex_mem_hexDigits b
  have hmem : ∀ a, a=slash ∨ a=0x2E → a∉wide 0x85++[hex (b >>> 4),hex (b &&& 0xF)] := by
    intro a ha hmem
    rcases mem_append.1 hmem with hmem | hmem
    · have hwide := mem_wide (by decide) hmem
      rcases ha with rfl | rfl
      · exact absurd hwide (by decide)
      · exact absurd hwide (by decide)
    · have hdigits : a∈hexDigits := by
        rcases mem_cons.1 hmem with rfl | hmem
        · exact hhigh
        · rw [mem_singleton.1 hmem]
          exact hlow
      exact ha.elim (hdigit a hdigits).1 (hdigit a hdigits).2
  refine .inr ⟨?_,by simp,hmem slash (.inl rfl),fun hdot => absurd hdot (hmem 0x2E (.inr rfl))⟩
  rintro rfl
  exact h (by decide)

theorem dotsFrom_piece {c : UInt8} {p out rest : Bytes} (hp : IsPiece c p)
    (h : List.Forall₂ DotsFrom (out.splitOn slash) (rest.splitOn slash)) :
    List.Forall₂ DotsFrom ((p++out).splitOn slash) ((c::rest).splitOn slash) := by
  rcases hp with ⟨rfl,rfl⟩ | ⟨hc,hne,hslash,hdot⟩
  · refine .cons (fun k hk => ?_) h
    exact hk
  · rw [splitOn_append_of_not_mem hslash,← singleton_append,
      splitOn_append_of_not_mem (by simpa using hc.symm)]
    generalize out.splitOn slash = written at h
    generalize rest.splitOn slash = components at h
    cases h with
    | nil => exact .nil
    | cons hhead htail =>
      refine .cons (fun k hk => ?_) htail
      obtain ⟨a,t,rfl⟩ := exists_cons_of_ne_nil hne
      cases k with
      | zero => cases hk
      | succ k =>
        have ha : a=0x2E := (cons.inj hk).1
        obtain ⟨rfl,ht⟩ := hdot (ha ▸ mem_cons_self)
        cases ht
        rw [hhead k (cons.inj hk).2]
        rfl

theorem escapeLoop_cons (utf8Left : ℕ) (b : UInt8) (rest : Bytes) : ∃ p left, IsPiece b p ∧
      escapeLoop false utf8Left (b::rest) = p++escapeLoop false left rest := by
  rw [escapeLoop]
  split
  · exact ⟨_,_,escapeChar_isPiece b rest,rfl⟩
  next hhigh =>
    split
    · exact ⟨_,_,escapeChar_isPiece b rest,rfl⟩
    split
    · exact ⟨_,_,escapeChar_isPiece b rest,rfl⟩
    · exact ⟨_,utf8Left,hex_isPiece hhigh,by simp⟩

theorem escapeLoop_dotsFrom (utf8Left : ℕ) (rest : Bytes) :
    List.Forall₂ DotsFrom ((escapeLoop false utf8Left rest).splitOn slash) (rest.splitOn slash) := by
  induction rest generalizing utf8Left with
  | nil => exact .cons (fun k hk => hk) .nil
  | cons b rest ih =>
    obtain ⟨p,left,hp,hloop⟩ := escapeLoop_cons utf8Left b rest
    rw [hloop]
    exact dotsFrom_piece hp (ih left)

/-- The mark in front of the name of a device is no dot. -/
theorem dotsFrom_mark {out rest : Bytes}
    (h : List.Forall₂ DotsFrom (out.splitOn slash) (rest.splitOn slash)) :
    List.Forall₂ DotsFrom ((wide 0x81++out).splitOn slash) (rest.splitOn slash) := by
  rw [splitOn_append_of_not_mem (by decide)]
  generalize out.splitOn slash = written at h
  generalize rest.splitOn slash = components at h
  cases h with
  | nil => exact .nil
  | cons _ htail =>
    refine .cons (fun k hk => ?_) htail
    cases k with
    | zero => cases hk
    | succ k => exact absurd (cons.inj hk).1 (by decide)

theorem escape_dotsFrom (name : Bytes) :
    List.Forall₂ DotsFrom ((escape name false).splitOn slash) (name.splitOn slash) := by
  unfold escape
  split
  · exact forall₂_same.2 fun c _ k hk => hk
  · split
    · exact dotsFrom_mark (escapeLoop_dotsFrom 0 name)
    · exact escapeLoop_dotsFrom 0 name

/-- The components of an escaped path are none of `.` and `..` if those of the path are not. -/
theorem escape_components_ordinary {name : Bytes} (h : ∀ c∈name.splitOn slash, c≠dot ∧ c≠dotdot) :
    SysFsPath.Ordinary (components slash (escape name false)) := by
  intro c hc
  have hmem : c∈(escape name false).splitOn slash := (mem_filter.1 hc).1
  have hfrom : ∃ d∈name.splitOn slash, DotsFrom c d := by
    have hall := escape_dotsFrom name
    generalize (escape name false).splitOn slash = written at hall hmem
    generalize name.splitOn slash = parts at hall
    induction hall with
    | nil => cases hmem
    | @cons a b written parts hab _ ih =>
      rcases mem_cons.1 hmem with rfl | hmem
      · exact ⟨b,mem_cons_self,hab⟩
      · obtain ⟨d,hd,hdots⟩ := ih hmem
        exact ⟨d,mem_cons_of_mem b hd,hdots⟩
  obtain ⟨d,hd,hdots⟩ := hfrom
  refine ⟨isComponent_of_mem hc,fun hEq => ?_,fun hEq => ?_⟩
  · exact (h d hd).1 (hdots 1 hEq)
  · exact (h d hd).2 (hdots 2 hEq)

/-- The escape of a relative path has a first component. -/
theorem components_escape_ne_nil {name : Bytes} (hne : name≠[]) (h : name.head?≠some slash) :
    components slash (escape name false)≠[] := by
  have hfirst : ∃ a t, escape name false = a::t ∧ a≠slash := by
    obtain ⟨b,rest,rfl⟩ := exists_cons_of_ne_nil hne
    have hb : b≠slash := fun hEq => h (by rw [hEq]; rfl)
    unfold escape
    split
    · exact ⟨b,rest,rfl,hb⟩
    · obtain ⟨p,left,hp,hloop⟩ := escapeLoop_cons 0 b rest
      obtain ⟨-,hpne,hslash,-⟩ := hp.resolve_left fun hEq => hb hEq.1
      obtain ⟨a,t,rfl⟩ := exists_cons_of_ne_nil hpne
      split
      · exact ⟨0xEF,_,rfl,by decide⟩
      · exact ⟨a,_,hloop,fun hEq => hslash (hEq ▸ mem_cons_self)⟩
  obtain ⟨a,t,hescape,ha⟩ := hfirst
  have hskip : (a::t).dropWhile (· == slash)≠[] := by
    rw [dropWhile_cons_of_neg (by simpa using ha)]
    exact cons_ne_nil a t
  rw [hescape,(components_of_dropWhile_ne_nil hskip).2]
  exact cons_ne_nil _ _

end PS3Native.VfsEscape
