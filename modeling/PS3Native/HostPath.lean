import PS3Native.ParentDir
import PS3Native.VfsGet

/-!
# Host paths and the directories they are in

A host path is resolved to the names that lead to it from the root, relative ones from the working
directory. Symbolic links are left out, so that a path leads where its normalised names lead.
-/
namespace PS3Native.Vfs

open PathComponents List
open SysFsPath (slash dot dotdot Ordinary)
open ParentDir (cutBack raised getParentDirView getParentDirView_absolute getParentDirView_relative)

def hostNames (cwd : List Bytes) (path : Bytes) : List Bytes :=
  (components slash path).foldl pushName (if path.head? = some slash then [] else cwd)

/-- A callback `resolve_path_may_not_exist` that returns the normalised path. The default one returns
its argument. -/
def Normalises (cwd : List Bytes) (resolve : Bytes → Bytes) : Prop :=
  ∀ path, components slash (resolve path) = hostNames cwd path

/-- `Emulator::IsPathInsideDir` without the check that the paths exist. -/
def isPathInsideDir (resolve : Bytes → Bytes) (path dir : Bytes) : Bool :=
  let dirPath := resolve dir
  let resolvedPath := resolve path
  dirPath≠[] ∧ resolvedPath≠[] ∧
    (if dirPath.getLast? = some slash then dirPath else dirPath++[slash]).isPrefixOf
      (resolvedPath++[slash])

variable {cwd : List Bytes} {path dir : Bytes}

/-- The names go up above where they start. -/
def climbs : ℕ → List Bytes → Bool
  | _, [] => false
  | depth, c::cs =>
    if c=dot then climbs depth cs
    else if c=dotdot then depth=0 || climbs (depth-1) cs
    else climbs (depth+1) cs

theorem prefix_foldl_pushName (base below : List Bytes) {cs : List Bytes}
    (h : climbs below.length cs=false) : base <+: cs.foldl pushName (base++below) := by
  induction cs generalizing below with
  | nil => exact prefix_append _ _
  | cons c cs ih =>
    rw [climbs] at h
    rw [foldl_cons,pushName]
    split_ifs at h ⊢
    · exact ih below h
    · obtain ⟨hne,h⟩ := Bool.or_eq_false_iff.1 h
      have hbelow : below≠[] := fun hnil => by simp [hnil] at hne
      rw [dropLast_append_of_ne_nil hbelow]
      exact ih below.dropLast (by rwa [length_dropLast])
    · rw [append_assoc]
      exact ih (below++[c]) (by rwa [length_append])

theorem hostNames_ordinary (hcwd : Ordinary cwd) (path : Bytes) : Ordinary (hostNames cwd path) := by
  refine foldl_ordinary ?_ fun c hc => isComponent_of_mem hc
  split
  · exact SysFsPath.ordinary_nil
  · exact hcwd

theorem inside_of_isPathInsideDir {resolve : Bytes → Bytes} (hresolve : Normalises cwd resolve)
    (h : isPathInsideDir resolve path dir) : hostNames cwd dir <+: hostNames cwd path := by
  obtain ⟨-,-,hstart⟩ := of_decide_eq_true h
  obtain ⟨rest,hrest⟩ := isPrefixOf_iff_prefix.1 hstart
  have hpath := hresolve path
  have hdir := hresolve dir
  rw [← components_concat_sep,← hrest] at hpath
  refine ⟨components slash rest,?_⟩
  rw [← hpath,← hdir]
  split
  next hlast =>
    obtain ⟨init,hinit⟩ := getLast?_eq_some_iff.1 hlast
    rw [hinit,components_concat_sep,← append_cons,components_append_sep]
  next => rw [← append_cons,components_append_sep]

theorem rdrop_dropLast (names : List Bytes) (n : ℕ) : names.dropLast.rdrop n = names.rdrop (n+1) := by
  rcases eq_nil_or_concat names with rfl | ⟨init,c,rfl⟩
  · simp
  · rw [concat_eq_append,dropLast_concat,rdrop_concat_succ]

/-- The scan over the components drops names from the end of those that they lead to, unless it
reaches the first of them. -/
theorem foldl_cutBack (base cs : List Bytes) (n : ℕ) :
    (cutBack n cs.reverse).reverse.foldl pushName base = (cs.foldl pushName base).rdrop n ∨
      0 < n ∧ (cutBack n cs.reverse).reverse.foldl pushName base=base ∧
        (cs.foldl pushName base).rdrop (n-1) <+: base := by
  induction cs using reverseRecOn generalizing n with
  | nil =>
    cases n with
    | zero => exact .inl (rdrop_zero _).symm
    | succ n => exact .inr ⟨Nat.succ_pos n,rfl, take_prefix _ _⟩
  | append_singleton cs c ih =>
    cases n with
    | zero =>
      left
      rw [cutBack,reverse_reverse,rdrop_zero]
    | succ n =>
      rw [reverse_append,reverse_singleton,singleton_append,cutBack,
        foldl_append,foldl_cons,foldl_nil,pushName,Nat.add_sub_cancel]
      have hrec := ih (raised c n)
      unfold raised at hrec ⊢
      by_cases hdot : c=dot
      · have hdotdot : c≠dotdot := by
          rw [hdot]
          decide
        simp only [if_pos hdot,if_neg hdotdot] at hrec ⊢
        simpa using hrec
      · by_cases hdotdot : c=dotdot
        · simp only [if_neg hdot,if_pos hdotdot] at hrec ⊢
          rw [rdrop_dropLast,rdrop_dropLast]
          simpa using hrec
        · simp only [if_neg hdot,if_neg hdotdot] at hrec ⊢
          rw [rdrop_concat_succ]
          rcases hrec with hrec | ⟨hpos,hcut,hreach⟩
          · exact .inl hrec
          · refine .inr ⟨Nat.succ_pos n,hcut,?_⟩
            obtain ⟨m,rfl⟩ : ∃ m, n = m+1 := ⟨n-1,by omega⟩
            rw [rdrop_concat_succ]
            exact hreach

/-- The parent directory has the names of the path but the last one, or is below the path, which
happens to a relative path that goes up. -/
theorem hostNames_parent (cwd : List Bytes) (hne : path≠[]) :
    ∃ parent, getParentDirView path 1 = some parent ∧
      (hostNames cwd parent = (hostNames cwd path).dropLast ∨
        hostNames cwd path <+: hostNames cwd parent) := by
  have hlast (names : List Bytes) : names.rdrop 1=names.dropLast := by
    rw [← rdrop_dropLast,rdrop_zero]
  by_cases habs : path.head? = some slash
  · obtain ⟨parent,hparent,habs',hcut⟩ := getParentDirView_absolute habs 1
    refine ⟨parent,hparent,?_⟩
    rw [hostNames,hostNames,if_pos habs,if_pos habs',hcut,← hlast]
    rcases foldl_cutBack [] (components slash path) 1 with hdrop | ⟨-,hcut',hreach⟩
    · exact .inl hdrop
    · rw [hcut']
      exact .inr (by simpa using hreach)
  · obtain ⟨parent,first,rest,hparent,hpath,hrel',-,hcut⟩ := getParentDirView_relative hne habs 1
    refine ⟨parent,hparent,?_⟩
    rw [hostNames,hostNames,if_neg habs,if_neg hrel',hcut,hpath,foldl_cons, foldl_cons,← hlast]
    rcases foldl_cutBack (pushName cwd first) rest 1 with hdrop | ⟨-,hcut',hreach⟩
    · exact .inl hdrop
    · rw [hcut']
      exact .inr (by simpa using hreach)

end PS3Native.Vfs
