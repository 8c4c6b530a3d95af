import PS3Native.VfsRetrieve

/-!
# When a retrieved guest path leads back

The guest path that is written for a mount point leads back to the host path if no deeper mount point
is on the way and the names behind the mount point are escaped ones.
-/
namespace PS3Native.Vfs

open PathComponents List
open SysFsPath (slash Ordinary)
open VfsEscape (escape)

inductive VfsDirectory.Named : VfsDirectory → Prop
  | mk {path : Bytes} {dirs : List (Bytes × VfsDirectory)} (hnodup : (dirs.map Prod.fst).Nodup)
      (hnames : Ordinary (dirs.map Prod.fst)) (hdirs : ∀ e∈dirs, Named e.2) : Named (.mk path dirs)

section Search

variable {dir : VfsDirectory} {path : Bytes}

theorem VfsDirectory.Named.nodup (h : dir.Named) : (dir.dirs.map Prod.fst).Nodup := by
  cases h with
  | mk hnodup _ _ => exact hnodup

theorem VfsDirectory.Named.names (h : dir.Named) : Ordinary (dir.dirs.map Prod.fst) := by
  cases h with
  | mk _ hnames _ => exact hnames

theorem VfsDirectory.Named.dirs (h : dir.Named) : ∀ e∈dir.dirs, e.2.Named := by
  cases h with
  | mk _ _ hdirs => exact hdirs

theorem VfsDirectory.Named.find_eq (h : dir.Named) {e : Bytes × VfsDirectory} (he : e∈dir.dirs) :
    dir.find e.1 = some e.2 := by
  obtain ⟨l,r,hsplit⟩ := append_of_mem he
  have hnodup := h.nodup
  rw [hsplit,map_append,map_cons,nodup_append] at hnodup
  refine lookup_eq_some_iff.2 ⟨l,r,hsplit,fun p hp => ?_⟩
  simpa using (hnodup.2.2 p.1 (mem_map_of_mem hp) e.1 mem_cons_self).symm

theorem Settles.at? {branch : List Bytes} {found : VfsDirectory} (h : Settles path dir branch found)
    (hdir : dir.Named) :
    dir.at? branch = some found ∧ Ordinary branch ∧ found.Matches path := by
  induction h with
  | here hmatch _ => exact ⟨rfl,SysFsPath.ordinary_nil,hmatch⟩
  | @sub dir child found name branch before after hsplit _ _ _ _ ih =>
    have he : (name,child)∈dir.dirs := by
      rw [hsplit]
      simp
    obtain ⟨hat,hordinary,hmatch⟩ := ih (hdir.dirs _ he)
    refine ⟨by rw [VfsDirectory.at?,hdir.find_eq he,Option.bind_some,hat],fun c hc => ?_,hmatch⟩
    rcases mem_cons.1 hc with rfl | hc
    · exact hdir.names c (mem_map_of_mem he)
    · exact hordinary c hc

end Search

section Render

variable {names behind : List Bytes}

theorem components_branchText (h : Ordinary names) (rest : Bytes) :
    components slash (branchText names++rest) = names++components slash rest := by
  rw [branchText,cons_append,components_sep_cons]
  induction names with
  | nil => rfl
  | cons c names ih =>
    rw [flatMap_cons,append_assoc,append_assoc,singleton_append,
      components_append_sep,components_of_isComponent (h c mem_cons_self).1,
      ih fun d hd => h d (mem_cons_of_mem c hd)]
    rfl

/-- An escaped name has no zero, so that it is not split. -/
theorem splitDelim_escaped (h : Ordinary behind) :
    splitDelim ([slash].intercalate (behind.map (escape · false))) = behind.map (escape · false) := by
  have hescaped := escape_ordinary h
  have hzero : ∀ c∈behind.map (escape · false), components 0 c = [c] := by
    intro c hc
    refine components_of_isComponent ⟨(hescaped c hc).1.1,fun hmem => ?_⟩
    obtain ⟨d,-,rfl⟩ := mem_map.1 hc
    rcases VfsEscape.mem_escape hmem with hmem | hmem | hmem
    · exact absurd hmem (by decide)
    · exact absurd hmem (by decide)
    · exact absurd hmem.2.1 (by decide)
  rw [splitDelim,components_intercalate hescaped.isComponent]
  generalize behind.map (escape · false) = l at hzero
  induction l with
  | nil => rfl
  | cons c l ih =>
    rw [flatMap_cons,hzero c mem_cons_self, ih fun d hd => hzero d (mem_cons_of_mem c hd)]
    rfl

theorem unescapePath_escaped (h : Ordinary behind) :
    unescapePath ([slash].intercalate (behind.map (escape · false))) = [slash].intercalate behind := by
  rw [unescapePath,splitDelim_escaped h,map_map]
  congr 1
  exact (map_congr_left fun c _ => VfsEscape.unescape_escape c).trans (map_id behind)

theorem normalNames_branchText (h : Ordinary names) (hbehind : Ordinary behind) :
    normalNames (branchText names++[slash].intercalate behind) = names++behind := by
  rw [normalNames,components_branchText h,components_intercalate hbehind.isComponent,
    foldl_of_ordinary,nil_append]
  intro c hc
  rcases mem_append.1 hc with hc | hc
  · exact h c hc
  · exact hbehind c hc

theorem not_endsWithSlash_branchText (hbehind : Ordinary behind) (hne : behind≠[]) :
    ¬EndsWithSlash (branchText names++[slash].intercalate behind) := by
  obtain ⟨u,a,hu,ha⟩ := intercalate_eq_concat hbehind.isComponent hne
  rw [EndsWithSlash,hu,← append_assoc,getLast?_concat]
  exact fun hEq => ha (Option.some.inj hEq)

end Render

theorem discTable_named : discTable.Named := by
  refine .mk (by decide) ?_ fun e he => ?_
  · intro c hc
    rw [mem_singleton.1 hc]
    exact ⟨⟨by decide,by decide⟩,by decide,by decide⟩
  · rw [mem_singleton.1 he]
    exact .mk nodup_nil SysFsPath.ordinary_nil fun f hf => absurd hf not_mem_nil

/-- A directory below another one that is mounted elsewhere, and a disc. -/
def nestedTable : VfsDirectory := .mk []
  [(ascii "app_home",.mk [] [(ascii "x",.mk (ascii "/h/") [])]),
    (ascii "dev_bdvd",.mk (ascii "/h/b/") [])]

end PS3Native.Vfs
