import PS3Native.ParentDir

/-!
# Write rights of a guest path

`has_fs_write_rights` looks at the parent directory of a path, which is found by a scan from its
end.
-/
namespace PS3Native.SysFsPath

open PathComponents List
open ParentDir (getParentDirView getParentDirView_absolute cutBack raised)

/-- The checks of `has_fs_write_rights` on the parent directory. -/
def parentRights (hasRootPerm : Bool) (devRoot trail : Bytes) : Bool :=
  if devRoot = ascii "dev_hdd0" ∧ (trail=[] ∨ trail = ascii "game") then hasRootPerm
  else if (ascii "dev_flash").isPrefixOf devRoot then hasRootPerm
  else if devRoot = ascii "dev_bdvd" ∨ devRoot = ascii "dev_ps2disc" ∨ devRoot=[] then false
  else true

def hasFsWriteRights (hasRootPerm : Bool) (vpath : Bytes) : Option Bool :=
  (getParentDirView vpath 1).bind fun parentDir =>
    (getPathRootAndTrail parentDir).map fun (devRoot,trail) =>
      parentRights hasRootPerm devRoot trail

variable {path : Bytes} {stack : List Bytes}

/-- What is left to drop once a component is gone. -/
theorem rdrop_pushComponent {before : List Bytes} {c : Bytes} (hc : IsComponent slash c)
    (h : pushComponent before c = some stack) (toRemove : ℕ) :
    before.rdrop (raised c toRemove) = stack.rdrop (toRemove+1) := by
  unfold pushComponent at h
  unfold raised
  split at h
  next hdot =>
    obtain rfl := hdot.resolve_left hc.1
    cases h
    rfl
  next hdot =>
    have hne : c≠dot := fun hEq => hdot (.inr hEq)
    rw [if_neg hne]
    split at h
    next hdotdot =>
      split at h
      next => cases h
      next hstack =>
        cases h
        obtain ⟨init,d,rfl⟩ := eq_nil_or_concat before |>.resolve_left hstack
        rw [if_pos hdotdot,concat_eq_append,rdrop_concat_succ,dropLast_concat]
    next hdotdot =>
      cases h
      rw [if_neg hdotdot,rdrop_concat_succ]

/-- The scan follows the stack: the count of components to drop is a count from the top of the
stack that is left. -/
theorem foldlM_cutBack {cs : List Bytes} (hcs : ∀ c∈cs, IsComponent slash c) {toRemove : ℕ}
    (hstack : cs.foldlM pushComponent [] = some stack) :
    (cutBack toRemove cs.reverse).reverse.foldlM pushComponent [] =
      some (stack.rdrop toRemove) := by
  induction cs using reverseRecOn generalizing toRemove stack with
  | nil =>
    cases hstack
    rw [rdrop_nil]
    cases toRemove <;> rfl
  | append_singleton cs c ih =>
    cases toRemove with
    | zero => rw [cutBack,reverse_reverse,hstack,rdrop_zero]
    | succ toRemove =>
      rw [foldlM_append] at hstack
      obtain ⟨before,hbefore,hlast⟩ := Option.bind_eq_some_iff.1 hstack
      have hpush : pushComponent before c = some stack := by simpa using hlast
      rw [reverse_append,reverse_singleton,singleton_append,cutBack,
        ih (fun d hd => hcs d (mem_append_left _ hd)) hbefore,
        rdrop_pushComponent (hcs c (by simp)) hpush]

/-- The parent directory of an absolute path is the stack without its last components. -/
theorem getParentDirView_eq (habs : path.head? = some slash) (hstack : normalise path = some stack)
    (n : ℕ) : ∃ parent, getParentDirView path n = some parent ∧ parent.head? = some slash ∧
      normalise parent = some (stack.rdrop n) := by
  obtain ⟨parent,hparent,habs',hcut⟩ := getParentDirView_absolute habs n
  refine ⟨parent,hparent,habs',?_⟩
  rw [normalise_eq] at hstack ⊢
  rw [hcut,foldlM_cutBack (fun c hc => isComponent_of_mem hc) hstack]

theorem hasFsWriteRights_eq (hasRootPerm : Bool) (habs : path.head? = some slash)
    (hstack : normalise path = some stack) :
    hasFsWriteRights hasRootPerm path =
      some (parentRights hasRootPerm (rootOf (stack.rdrop 1)) (trailOf (stack.rdrop 1))) := by
  obtain ⟨parent,hparent,habs',hnormal⟩ := getParentDirView_eq habs hstack 1
  rw [hasFsWriteRights,hparent,Option.bind_some,getPathRootAndTrail_eq habs',hnormal]
  rfl

/-- The parent directory of an absolute path is that of its normalisation, at every level. The
write rights therefore are the same for all paths with the same normalisation. -/
theorem write_rights_depend_on_normalisation :
    (∀ (path : Bytes) (stack : List Bytes) (n : ℕ), path.head? = some slash →
      normalise path = some stack →
      ∃ parent, getParentDirView path n = some parent ∧ normalise parent = some (stack.rdrop n)) ∧
    ∀ (hasRootPerm : Bool) (path path' : Bytes) (stack : List Bytes), path.head? = some slash →
      path'.head? = some slash → normalise path = some stack → normalise path' = some stack →
      ∃ rights, hasFsWriteRights hasRootPerm path = some rights ∧
        hasFsWriteRights hasRootPerm path' = some rights := by
  refine ⟨?_,?_⟩
  · intro path stack n habs hstack
    obtain ⟨parent,hparent,-,hnormal⟩ := getParentDirView_eq habs hstack n
    exact ⟨parent,hparent,hnormal⟩
  · intro hasRootPerm path path' stack habs habs' hstack hstack'
    exact ⟨_,hasFsWriteRights_eq hasRootPerm habs hstack,
      hasFsWriteRights_eq hasRootPerm habs' hstack'⟩

theorem write_rights_depend_on_normalisation_game :
    hasFsWriteRights false (ascii "/dev_hdd0//./game/NP1234567/../NP1234568/.") = some false ∧
      normalise (ascii "/dev_hdd0/game/NP1234568") =
        normalise (ascii "/dev_hdd0//./game/NP1234567/../NP1234568/.") := by
  refine ⟨?_,by decide +kernel⟩
  obtain ⟨rights,hplain,hdotted⟩ := write_rights_depend_on_normalisation.2 false
    (ascii "/dev_hdd0/game/NP1234568") (ascii "/dev_hdd0//./game/NP1234567/../NP1234568/.")
    [ascii "dev_hdd0",ascii "game",ascii "NP1234568"] (by decide +kernel) (by decide +kernel)
    (by decide +kernel) (by decide +kernel)
  have hdenied : hasFsWriteRights false (ascii "/dev_hdd0/game/NP1234568") = some false := by
    decide +kernel
  exact hdotted.trans (hplain.symm.trans hdenied)

end PS3Native.SysFsPath
