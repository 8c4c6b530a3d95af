import PS3Native.TarExtract

/-!
# Where an archive is extracted to

Without the table of mounted host paths each path is checked against the prefix, by a callback that
may normalise nothing. With it there is no check, and the names of an entry and the mount points on
their way decide.
-/
namespace PS3Native.Tar

open PathComponents List
open SysFsPath (slash Ordinary)
open Vfs
open ParentDir (getParentDirView)

def Inside (cwd : List Bytes) (dir path : Bytes) : Prop := hostNames cwd dir <+: hostNames cwd path

instance (cwd : List Bytes) (dir path : Bytes) : Decidable (Inside cwd dir path) :=
  inferInstanceAs (Decidable (_ <+: _))

/-- The directories of the host before the extraction, each with the ones above it. -/
structure HostDirs where
  dirs : Set (List Bytes)
  above : ∀ {upper lower}, upper <+: lower → lower∈dirs → upper∈dirs

/-- The call changes nothing outside of the directory. `create_path` makes the directories on the
way that do not exist. -/
def Op.Contained (host : HostDirs) (cwd : List Bytes) (dir : Bytes) : Op → Prop
  | .createPath path => ∀ names, names <+: hostNames cwd path →
      names∈host.dirs ∨ hostNames cwd dir <+: names
  | .write path => Inside cwd dir path
  | .utime path => Inside cwd dir path

variable {cwd : List Bytes} {configDir : Bytes} {root : VfsDirectory} {prefixPath dir : Bytes}
  {result : Bytes} {mnt : VfsDirectory} {n : ℕ} {host : HostDirs} {resolve : Bytes → Bytes}

theorem contained_createPath (hdir : hostNames cwd dir∈host.dirs) (h : Inside cwd dir result) :
    (Op.createPath result).Contained host cwd dir := by
  intro names hnames
  rcases prefix_or_prefix_of_prefix hnames h with hupper | hlower
  · exact .inl (host.above hupper hdir)
  · exact .inr hlower

theorem contained_parent {parent : Bytes} (hdir : hostNames cwd dir∈host.dirs) (hne : result≠[])
    (h : Inside cwd dir result) (hparent : getParentDirView result 1 = some parent) :
    (Op.createPath parent).Contained host cwd dir := by
  obtain ⟨parent',hparent',hnames⟩ := hostNames_parent cwd hne
  obtain rfl : parent=parent' := Option.some.inj (hparent.symm.trans hparent')
  rcases hnames with hdrop | hreach
  · intro names hnames
    rw [hdrop] at hnames
    exact contained_createPath hdir h names (hnames.trans <| dropLast_prefix _)
  · exact contained_createPath hdir (h.trans hreach)

theorem contained_times {entry : TarEntry} (h : Inside cwd dir result) :
    ∀ op∈entry.times result, op.Contained host cwd dir := by
  intro op hop
  unfold TarEntry.times at hop
  split at hop
  · rw [mem_singleton.1 hop]
    exact h
  · cases hop

/-- The calls for an entry stay in the directory if its path does. -/
theorem contained_entryOps {entry : TarEntry} (hdir : hostNames cwd dir∈host.dirs) (hne : result≠[])
    (h : Inside cwd dir result) {ops : List Op} (hops : entryOps prefixPath entry result = some ops) :
    ∀ op∈ops, op.Contained host cwd dir := by
  intro op hop
  unfold entryOps at hops
  split at hops
  · cases hops
    rcases mem_append.1 hop with hop | hop
    · split at hop
      · obtain ⟨parent,hparent,rfl⟩ := mem_map.1 hop
        exact contained_parent hdir hne h (Option.mem_toList.1 hparent)
      · cases hop
    · split at hop
      · cases hop
      · rcases mem_cons.1 hop with rfl | hop
        · exact h
        · exact contained_times h op hop
  · split at hops
    · cases hops
      split at hop
      · cases hop
      · rcases mem_cons.1 hop with rfl | hop
        · exact contained_createPath hdir h
        · exact contained_times h op hop
    · cases hops

/-- The name of an entry does not go up above the prefix. -/
def StaysBelow (name : Bytes) : Prop := climbs 0 (components slash name)=false

theorem StaysBelow.inside {name : Bytes} (hne : prefixPath≠[]) (h : StaysBelow name) :
    Inside cwd prefixPath (prefixPath++slash::name) := by
  have hhead : (prefixPath++slash::name).head?=prefixPath.head? := by
    obtain ⟨a,rest,rfl⟩ := exists_cons_of_ne_nil hne
    rfl
  rw [Inside,hostNames,hostNames,hhead,components_append_sep,foldl_append]
  simpa using prefix_foldl_pushName _ [] h

theorem hostNames_of_reaches {vpath : Bytes} (h : Reaches root vpath result n mnt)
    (hmnt : EndsWithSlash mnt.path) :
    hostNames cwd result = hostNames cwd mnt.path ++
      ((normalNames vpath).drop n).map (VfsEscape.escape · false) := by
  have hnames : Ordinary (((normalNames vpath).drop n).map (VfsEscape.escape · false)) :=
    escape_ordinary fun c hc => normalNames_ordinary vpath c (mem_of_mem_drop hc)
  have hcomponents := components_append_names hmnt hnames
    (EndsWithSlash vpath ∧ (normalNames vpath).drop n≠[])
  have hhead : result.head? = mnt.path.head? := by
    obtain ⟨a,rest,hpath⟩ := exists_cons_of_ne_nil h.mounted
    rw [h.host_eq,hpath]
    rfl
  have hhost : components slash result = components slash mnt.path ++
      ((normalNames vpath).drop n).map (VfsEscape.escape · false) := by
    rw [← hcomponents,h.host_eq]
    simp
  rw [hostNames,hhost,hhead,foldl_append,foldl_of_ordinary hnames,hostNames]

/-- No mount point takes the entry elsewhere: none that is passed on the way is mounted on the host
root, and none that is left is below the prefix. -/
structure Direct (root : VfsDirectory) (prefixPath name : Bytes) : Prop where
  avoids : AvoidsHostRoot root [] (components slash (prefixPath++slash::name))
  free : ∀ m, (normalNames prefixPath).length < m →
    m ≤ (normalNames (prefixPath++slash::name)).length →
    ∀ d, root.at? ((normalNames (prefixPath++slash::name)).take m) = some d → d.path=[]

/-- The entry is reached through the mount point of the prefix, since no other one is deeper on its
way. -/
theorem Direct.reaches {name : Bytes} {n' : ℕ} {mnt' : VfsDirectory}
    (hdirect : Direct root prefixPath name) (hmount : Reaches root prefixPath dir n mnt)
    (hnames : normalNames prefixPath <+: normalNames (prefixPath++slash::name))
    (h : Reaches root (prefixPath++slash::name) result n' mnt') :
    Reaches root (prefixPath++slash::name) result n mnt := by
  have htake (m : ℕ) (hm : m ≤ (normalNames prefixPath).length) :
      (normalNames (prefixPath++slash::name)).take m = (normalNames prefixPath).take m := by
    obtain ⟨below,hbelow⟩ := hnames
    rw [← hbelow,take_append_of_le_length hm]
  have hat : root.at? ((normalNames (prefixPath++slash::name)).take n) = some mnt := by
    rw [htake n hmount.le,hmount.at_eq]
  obtain hlt | rfl | hgt := Nat.lt_trichotomy n n'
  · refine absurd ?_ h.mounted
    rcases Nat.lt_or_ge (normalNames prefixPath).length n' with hbelow | hwithin
    · exact hdirect.free n' hbelow h.le mnt' h.at_eq
    · exact hmount.deepest n' hlt hwithin mnt' (by rw [← htake n' hwithin,h.at_eq])
  · obtain rfl : mnt=mnt' := Option.some.inj (hat.symm.trans h.at_eq)
    exact h
  · exact absurd (h.deepest n hgt (hmount.le.trans hnames.length_le) mnt hat) hmount.mounted

theorem Direct.inside {name : Bytes} (habs : prefixPath.head? = some slash)
    (hmount : Reaches root prefixPath dir n mnt) (hmnt : EndsWithSlash mnt.path)
    (hbelow : StaysBelow name) (h : Direct root prefixPath name)
    (hget : get configDir root (prefixPath++slash::name) = some result) (hne : result≠[]) :
    Inside cwd dir result := by
  have hhead : (prefixPath++slash::name).head? = some slash := by
    rw [head?_append,habs]
    rfl
  have hnames : normalNames prefixPath <+: normalNames (prefixPath++slash::name) := by
    rw [normalNames,normalNames,components_append_sep,foldl_append]
    simpa using prefix_foldl_pushName _ [] hbelow
  obtain ⟨n',mnt',hreaches⟩ := (get_eq_some_iff configDir h.avoids hhead hne).1 hget
  have hreaches := h.reaches hmount hnames hreaches
  obtain ⟨below,hbelow⟩ := hnames
  rw [Inside,hostNames_of_reaches hmount hmnt,hostNames_of_reaches hreaches hmnt,← hbelow,
    drop_append_of_le_length hmount.le,map_append,← append_assoc]
  exact prefix_append _ _

def fileHeader (name : Bytes) : Bytes :=
  name++List.replicate (124-name.length) 0++ascii "00000000000" ++ [0x20] ++
    ascii "00000000000" ++ [0x20]++List.replicate 8 0x20++[0x30]++List.replicate 100 0 ++
    ascii "ustar" ++ List.replicate 250 0

def extractTable : VfsDirectory := .mk []
  [(ascii "dev_hdd0",.mk (ascii "/hdd/") []),(ascii "tar_extract",.mk (ascii "/out/") [])]

theorem extractTable_reaches : Reaches extractTable (ascii "/tar_extract") (ascii "/out/") 1
    (.mk (ascii "/out/") []) := by
  refine ⟨by decide,rfl,by decide,fun m hm hle => ?_,by decide⟩
  have hlength : (normalNames (ascii "/tar_extract")).length=1 := by decide
  omega

theorem extractTable_direct : Direct extractTable (ascii "/tar_extract") (ascii "a/b") := by
  have hroot : extractTable.Every (·≠[slash]) := by
    refine .mk (by decide) fun e he => ?_
    rcases he with _ | ⟨_,_ | ⟨_,⟨⟩⟩⟩ <;> exact .mk (by decide) nofun
  refine ⟨hroot.noHostRoot.avoids _ _,fun m hm hle d hd => ?_⟩
  have hfree : ∀ k, extractTable.at? ((normalNames (ascii "/tar_extract/a/b")).take (k+2))=none :=
    fun _ => rfl
  obtain ⟨k,rfl⟩ : ∃ k, m = k+2 := ⟨m-2,by
    have hlength : (normalNames (ascii "/tar_extract")).length=1 := by decide
    omega⟩
  cases (hfree k).symm.trans hd

end PS3Native.Tar
