import PS3Native.HostPath
import PS3Native.VfsEscapeComponents

/-!
# Where a package is installed

The installation path and the paths of the entries are made of names read from the package. A name
with a leading slash or a component `.` or `..` is refused, the others are escaped. Without symbolic
links, to canonicalise a path is to normalise its names.
-/
namespace PS3Native.PkgInstall

open PathComponents List
open SysFsPath (slash dot dotdot Ordinary)
open Vfs (Bytes hostNames pushName)
open VfsEscape (escape)

/-- The loop of `leaves_directory` over the components of a name. -/
def leavesLoop : ℕ → Bytes → Bool
  | 0, _ => false
  | rounds+1, rest =>
    if rest=[] then false
    else
      let sep := findFirstOf rest slash 0
      let component := substr rest 0 sep
      if component=dot ∨ component=dotdot then true
      else leavesLoop rounds (sep.elim [] fun sep => rest.drop (sep+1))

/-- `leaves_directory`: a name that could reach outside of the directory it is joined to. -/
def leavesDirectory (name : Bytes) : Bool :=
  if name.head? = some slash then true else leavesLoop name.length name

/-- Types of content with a directory of their own (`PKG_CONTENT_TYPE_*`). -/
def contentTheme : ℕ := 0x09
def contentWidget : ℕ := 0x0A
def contentLicense : ℕ := 0x0B
def contentVshModule : ℕ := 0x0C
def contentPsnAvatar : ℕ := 0x0D
def contentVmc : ℕ := 0x11

def contentDir (usr : Bytes) (contentType : ℕ) : Bytes :=
  if contentType=contentTheme then ascii "theme/"
  else if contentType=contentWidget then ascii "widget/"
  else if contentType=contentLicense then ascii "home/" ++ usr++ascii "/exdata/"
  else if contentType=contentVshModule then ascii "vsh/modules/"
  else if contentType=contentPsnAvatar then ascii "home/" ++ usr++ascii "/psn_avatar/"
  else if contentType=contentVmc then ascii "tmp/vmc/"
  else ascii "game/"

/-- Types of content that are installed in their directory itself. -/
def isShared (contentType : ℕ) : Prop := contentType=contentTheme ∨ contentType=contentLicense

instance (contentType : ℕ) : Decidable (isShared contentType) :=
  inferInstanceAs (Decidable (_ ∨ _))

/-- What the reader knows of the package: its header was accepted, the type of its content, and the
name of its directory as it comes from the package. -/
structure Package where
  isValid : Bool
  contentType : ℕ
  installDir : Bytes

def setInstallPath (hdd0Dir usr : Bytes) (pkg : Package) : Option Bytes :=
  let dir := hdd0Dir++contentDir usr pkg.contentType
  if pkg.isValid=false then none
  else if isShared pkg.contentType then some dir
  else if pkg.installDir=[] ∨ leavesDirectory pkg.installDir then none
  else some (dir++(escape pkg.installDir false++[slash]))

/-- An entry of the package, with the buffer that its name was decrypted to, if that succeeded. -/
structure PKGEntry where
  nameSize : ℕ
  nameBuf : Option Bytes
  type : ℕ

/-- What the file system answers about the path of an entry. -/
structure Answers where
  isOnDisk : Bool
  isDir : Bool
  createPath : Bool

/-- A path that is created as a directory or recorded for extraction, by its elements. -/
inductive Op where
  | createPath (path : List Bytes)
  | record (path : List Bytes)
  deriving DecidableEq

def Op.path : Op → List Bytes
  | .createPath path => path
  | .record path => path

def location (elements : List Bytes) : List Bytes := (elements.filter (·≠[])).foldl pushName []

/-- `canonicalize` without symbolic links. The empty element that stands for a closing slash is left
out: no other element follows it. -/
def canonicalize (cwd : List Bytes) (path : Bytes) : List Bytes := hostNames cwd path

abbrev Dirs := List (Bytes × List Bytes)

/-- `std::map::emplace`, which keeps what is there. -/
def emplace (dirs : Dirs) (key : Bytes) (value : List Bytes) : Dirs :=
  if (dirs.lookup key).isSome then dirs else (key,value)::dirs

def resolveEntry (cwd : List Bytes) (path : Bytes) (isFolder isOnDisk : Bool) (dirs : Dirs) :
    List Bytes × Dirs :=
  if isFolder ∨ isOnDisk then
    let canonicalPath := canonicalize cwd path
    (canonicalPath,if isFolder then emplace dirs path canonicalPath else dirs)
  else
    -- The closing slash of the installation path is there to be found.
    let slashPos := after (findLastOf path slash)-1
    let dir := path.take slashPos
    let name := path.drop (slashPos+1)
    match dirs.lookup dir with
    | some found => (found++[name],dirs)
    | none => (canonicalize cwd dir++[name],emplace dirs dir (canonicalize cwd dir))

def maxFilenameSize : ℕ := 256

def entryFolder : ℕ := 4

/-- The loop of `fill_data` over the entries, up to the first one that is refused. -/
def fillLoop (cwd : List Bytes) (installPath : Bytes) (installNames : List Bytes) :
    List (PKGEntry × Answers) → Dirs → List Op
  | [], _ => []
  | (entry,answers)::entries, dirs =>
    if entry.nameSize > maxFilenameSize then []
    else
      match entry.nameBuf with
      | none => []
      | some nameBuf =>
        let name := nameBuf.rdropWhile (· == 0)
        if leavesDirectory name then []
        else
          let path := installPath++escape name false
          let entryType := entry.type%256
          let isFolder : Bool := entryType=entryFolder ∨ entryType=0x12
          let resolved := resolveEntry cwd path isFolder answers.isOnDisk dirs
          if installNames.isPrefixOf resolved.1=false then []
          else
            let rest := fillLoop cwd installPath installNames entries resolved.2
            if isFolder then
              if answers.isDir then rest
              else if answers.createPath then .createPath resolved.1::rest
              else rest
            else .record resolved.1::rest

/-- `package_reader::fill_data`: what it creates and records. `created` is whether the installation
path could be created, and `entries` what was read of the package, if that succeeded. -/
def fillData (cwd : List Bytes) (pkg : Package) (installPath : Bytes) (created : Bool)
    (entries : Option (List (PKGEntry × Answers))) : List Op :=
  if pkg.isValid=false ∨ created=false then []
  else
    let installDir := installPath.rdropWhile (· == slash)
    .createPath (canonicalize cwd installPath) ::
      entries.elim [] fun entries =>
        fillLoop cwd installPath (canonicalize cwd installDir) entries []

theorem splitOn_first (rest : Bytes) :
    rest.splitOn slash = substr rest 0 (findFirstOf rest slash 0) ::
      (findFirstOf rest slash 0).elim [] fun sep => (rest.drop (sep+1)).splitOn slash := by
  have hzero : (findFirstOf rest slash 0).map (·-0) = findFirstOf rest slash 0 := by simp
  have hfirst := substr_findFirstOf rest slash 0
  have hrest := suffix_findFirstOf rest slash 0
  rw [hzero,drop_zero] at hfirst
  rw [drop_zero] at hrest
  have hmem : slash∉rest.takeWhile (· != slash) := by
    intro hmem
    simpa using mem_takeWhile_imp hmem
  have hsplit : rest.splitOn slash =
      ((rest.dropWhile (· != slash)).splitOn slash).modifyHead (rest.takeWhile (· != slash)++·) := by
    rw [← VfsEscape.splitOn_append_of_not_mem hmem,takeWhile_append_dropWhile]
  rw [hsplit,hfirst,← hrest]
  cases hfind : findFirstOf rest slash 0 with
  | none => simp [suffix]
  | some sep =>
    have hhead : ∀ a∈(rest.drop sep).head?, a=slash := by
      have hdrop : rest.drop sep = rest.dropWhile (· != slash) := by
        rw [← hrest,hfind]
        rfl
      rw [hdrop]
      exact head?_dropWhile_ne
    have hlt : sep < rest.length := by
      obtain ⟨i,hi,rfl⟩ := Option.map_eq_some_iff.1 hfind
      simpa using (findIdx?_eq_some_iff_findIdx_eq.1 hi).1
    rw [suffix,drop_eq_getElem_cons hlt]
    rw [drop_eq_getElem_cons hlt] at hhead
    rw [hhead _ rfl,VfsEscape.splitOn_cons_slash]
    simp

theorem components_of_leavesLoop {rounds : ℕ} {rest : Bytes} (hlen : rest.length ≤ rounds)
    (h : leavesLoop rounds rest=false) : ∀ c∈rest.splitOn slash, c≠dot ∧ c≠dotdot := by
  induction rounds generalizing rest with
  | zero =>
    obtain rfl : rest=[] := eq_nil_of_length_eq_zero (Nat.le_zero.1 hlen)
    decide
  | succ rounds ih =>
    rw [leavesLoop] at h
    split at h
    next hnil =>
      subst hnil
      decide
    next hne =>
      dsimp only at h
      split at h
      next => cases h
      next hcomp =>
        rw [splitOn_first]
        intro c hc
        rcases mem_cons.1 hc with rfl | hc
        · exact not_or.1 hcomp
        · cases hfind : findFirstOf rest slash 0 with
          | none =>
            rw [hfind] at hc
            cases hc
          | some sep =>
            rw [hfind] at h hc
            refine ih ?_ h c hc
            simp only [Option.elim_some,length_drop]
            omega

variable {name dir : Bytes} {cwd : List Bytes} {dirs : Dirs} {pkg : Package}

theorem components_of_not_leavesDirectory (h : leavesDirectory name=false) :
    name.head?≠some slash ∧ ∀ c∈name.splitOn slash, c≠dot ∧ c≠dotdot := by
  rw [leavesDirectory] at h
  split at h
  next => cases h
  next hhead => exact ⟨hhead,components_of_leavesLoop (Nat.le_refl _) h⟩

/-- What is appended for a name that stays in its directory leads below the directory. -/
theorem hostNames_append_escape (cwd : List Bytes) (dir : Bytes) (h : leavesDirectory name=false) :
    hostNames cwd (dir++[slash]++escape name false) =
      hostNames cwd (dir++[slash])++components slash (escape name false) := by
  have hord := VfsEscape.escape_components_ordinary (components_of_not_leavesDirectory h).2
  have hhead : (dir++[slash]++escape name false).head? = (dir++[slash]).head? := by
    cases dir <;> rfl
  rw [hostNames,hostNames,hhead,← append_cons,components_append_sep,components_concat_sep,
    foldl_append,Vfs.foldl_of_ordinary hord]

def Resolved (cwd : List Bytes) (dirs : Dirs) : Prop :=
  ∀ key value, dirs.lookup key = some value → value = hostNames cwd key

theorem Resolved.emplace (h : Resolved cwd dirs) (key : Bytes) :
    Resolved cwd (emplace dirs key (canonicalize cwd key)) := by
  intro key' value hvalue
  rw [PkgInstall.emplace] at hvalue
  split at hvalue
  · exact h key' value hvalue
  · rw [lookup_cons] at hvalue
    split at hvalue
    next hEq =>
      rw [eq_of_beq hEq]
      exact (Option.some.inj hvalue).symm
    next => exact h key' value hvalue

theorem location_of_ordinary {names : List Bytes} (h : Ordinary names) : location names=names := by
  have hall : names.filter (·≠[])=names := by
    refine filter_eq_self.2 fun c hc => ?_
    simpa using (h.isComponent c hc).1
  rw [location,hall,Vfs.foldl_of_ordinary h,nil_append]

/-- The directory of a path and its last name lead where the path does. -/
theorem location_concat (hcwd : Ordinary cwd) (hdir : dir≠[]) (hname : slash∉name) :
    location (hostNames cwd dir++[name]) = hostNames cwd (dir++slash::name) := by
  have hord := Vfs.hostNames_ordinary hcwd dir
  have hhead : (dir++slash::name).head? = dir.head? := head?_append_of_ne_nil dir hdir
  have hlast : components slash name = [name].filter (·≠[]) := by
    by_cases hnil : name=[]
    · rw [hnil]
      rfl
    · rw [components_of_isComponent ⟨hnil,hname⟩]
      simp [hnil]
  have hloc := location_of_ordinary hord
  rw [location] at hloc ⊢
  rw [filter_append,foldl_append,hloc,← hlast,hostNames,hostNames,hhead,
    components_append_sep,foldl_append]

/-- The last slash of a path below a directory cuts off a name that is not the directory's. -/
theorem path_eq_concat (dir rest : Bytes) :
    ∃ u name, dir++[slash]++rest = u++slash::name ∧ slash∉name ∧ dir <+: u := by
  induction rest using reverseRecOn with
  | nil => exact ⟨dir,[],by simp,by simp,prefix_rfl⟩
  | append_singleton rest b ih =>
    by_cases hb : b=slash
    · refine ⟨dir++[slash]++rest,[],by simp [hb],by simp,?_⟩
      rw [append_assoc]
      exact prefix_append _ _
    · obtain ⟨u,name,heq,hname,hdir⟩ := ih
      refine ⟨u,name++[b],?_,?_,hdir⟩
      · rw [← append_assoc,heq]
        simp
      · simpa [hname] using fun hEq => hb hEq.symm

/-- However the path of an entry is resolved, it leads where the path does. -/
theorem resolveEntry_location (hcwd : Ordinary cwd) (hdir : dir≠[]) (rest : Bytes)
    (isFolder isOnDisk : Bool) (hdirs : Resolved cwd dirs) :
    location (resolveEntry cwd (dir++[slash]++rest) isFolder isOnDisk dirs).1 =
        hostNames cwd (dir++[slash]++rest) ∧
      Resolved cwd (resolveEntry cwd (dir++[slash]++rest) isFolder isOnDisk dirs).2 := by
  rw [resolveEntry]
  split
  · refine ⟨location_of_ordinary (Vfs.hostNames_ordinary hcwd _),?_⟩
    split
    · exact hdirs.emplace _
    · exact hdirs
  · obtain ⟨u,name,hpath,hname,hbelow⟩ := path_eq_concat dir rest
    have hu : u≠[] := fun hnil => hdir (prefix_nil.1 (hnil ▸ hbelow))
    have hcut : after (findLastOf (u++slash::name) slash)-1=u.length := by
      rw [after_findLastOf hname,Nat.add_sub_cancel]
    have hlast : (u++slash::name).drop (u.length+1)=name := by simp
    have hfound : ∀ value, value = hostNames cwd u →
        location (value++[name]) = hostNames cwd (u++slash::name) := by
      rintro value rfl
      exact location_concat hcwd hu hname
    rw [hpath]
    dsimp only
    rw [hcut,hlast,take_left]
    split
    next found hlookup => exact ⟨hfound found (hdirs u found hlookup),hdirs⟩
    next => exact ⟨hfound _ rfl,hdirs.emplace u⟩

/-- Every path that the loop creates or records is the installation path or lies below it. -/
theorem fillLoop_inside (hcwd : Ordinary cwd) (hdir : dir≠[]) (installNames : List Bytes)
    (entries : List (PKGEntry × Answers)) (hdirs : Resolved cwd dirs) :
    ∀ op∈fillLoop cwd (dir++[slash]) installNames entries dirs,
      hostNames cwd (dir++[slash]) <+: location op.path := by
  induction entries generalizing dirs with
  | nil =>
    intro op hop
    cases hop
  | cons entry entries ih =>
    obtain ⟨entry,answers⟩ := entry
    intro op hop
    rw [fillLoop] at hop
    split at hop
    next => cases hop
    next =>
      split at hop
      next => cases hop
      next nameBuf hbuf =>
        dsimp only at hop
        split at hop
        next => cases hop
        next hname =>
          have hleaves := Bool.eq_false_iff.2 hname
          generalize decide (entry.type%256=entryFolder ∨ entry.type%256=0x12) = isFolder at hop
          obtain ⟨hloc,hdirs'⟩ := resolveEntry_location hcwd hdir
            (escape (nameBuf.rdropWhile (· == 0)) false) isFolder answers.isOnDisk hdirs
          have hhere : hostNames cwd (dir++[slash]) <+: location (resolveEntry cwd
              (dir++[slash]++escape (nameBuf.rdropWhile (· == 0)) false) isFolder
              answers.isOnDisk dirs).1 := by
            rw [hloc,hostNames_append_escape cwd dir hleaves]
            exact prefix_append _ _
          have hlater := ih hdirs'
          split at hop
          next => cases hop
          next =>
            split at hop
            next =>
              split at hop
              next => exact hlater op hop
              next =>
                split at hop
                next =>
                  rcases mem_cons.1 hop with rfl | hop
                  · exact hhere
                  · exact hlater op hop
                next => exact hlater op hop
            next =>
              rcases mem_cons.1 hop with rfl | hop
              · exact hhere
              · exact hlater op hop

/-- The directory of each type of content is written with a closing slash. -/
theorem contentDir_eq_concat (usr : Bytes) (contentType : ℕ) :
    ∃ d, d≠[] ∧ contentDir usr contentType = d++[slash] := by
  have hhome (rest : Bytes) : ascii "home/" ++ usr++rest≠[] := by simp [ascii]
  unfold contentDir
  split_ifs
  · exact ⟨ascii "theme",by decide,rfl⟩
  · exact ⟨ascii "widget",by decide,rfl⟩
  · refine ⟨ascii "home/" ++ usr++ascii "/exdata",hhome _,?_⟩
    rw [append_assoc _ _ [slash]]
    rfl
  · exact ⟨ascii "vsh/modules",by decide,rfl⟩
  · refine ⟨ascii "home/" ++ usr++ascii "/psn_avatar",hhome _,?_⟩
    rw [append_assoc _ _ [slash]]
    rfl
  · exact ⟨ascii "tmp/vmc",by decide,rfl⟩
  · exact ⟨ascii "game",by decide,rfl⟩

theorem setInstallPath_cases {hdd0Dir usr installPath : Bytes}
    (h : setInstallPath hdd0Dir usr pkg = some installPath) :
    isShared pkg.contentType ∧ installPath = hdd0Dir++contentDir usr pkg.contentType ∨
      ¬isShared pkg.contentType ∧ pkg.installDir≠[] ∧ leavesDirectory pkg.installDir=false ∧
        installPath = hdd0Dir++contentDir usr pkg.contentType ++
          (escape pkg.installDir false++[slash]) := by
  rw [setInstallPath] at h
  split at h
  next => cases h
  next =>
    split at h
    next hshared => exact .inl ⟨hshared,(Option.some.inj h).symm⟩
    next hown =>
      split at h
      next => cases h
      next hname =>
        obtain ⟨hne,hstays⟩ := not_or.1 hname
        exact .inr ⟨hown,hne,Bool.eq_false_iff.2 hstays,(Option.some.inj h).symm⟩

theorem setInstallPath_eq_concat {hdd0Dir usr installPath : Bytes}
    (h : setInstallPath hdd0Dir usr pkg = some installPath) :
    ∃ dir, dir≠[] ∧ installPath = dir++[slash] := by
  obtain ⟨d,hd,hcontent⟩ := contentDir_eq_concat usr pkg.contentType
  rcases setInstallPath_cases h with ⟨-,rfl⟩ | ⟨-,-,-,rfl⟩
  · refine ⟨hdd0Dir++d,by simp [hd],?_⟩
    rw [hcontent,append_assoc]
  · refine ⟨hdd0Dir++contentDir usr pkg.contentType++escape pkg.installDir false,?_,?_⟩
    · simp [hcontent]
    · rw [append_assoc (hdd0Dir++contentDir usr pkg.contentType)]

/-- A directory of the package's own is strictly below the one for the type of its content. -/
theorem hostNames_installPath (cwd : List Bytes) (hdd0Dir usr : Bytes)
    (h : leavesDirectory pkg.installDir=false) :
    hostNames cwd (hdd0Dir++contentDir usr pkg.contentType ++
        (escape pkg.installDir false++[slash])) =
      hostNames cwd (hdd0Dir++contentDir usr pkg.contentType) ++
        components slash (escape pkg.installDir false) := by
  obtain ⟨d,hd,hcontent⟩ := contentDir_eq_concat usr pkg.contentType
  have hclose (path : Bytes) (hne : path≠[]) :
      hostNames cwd (path++[slash]) = hostNames cwd path := by
    rw [hostNames,hostNames,components_concat_sep,head?_append_of_ne_nil path hne]
  rw [← append_assoc,hclose _ (by simp [hcontent]),hcontent,← append_assoc hdd0Dir,
    hostNames_append_escape cwd (hdd0Dir++d) h]

/-- A game whose package has a directory `USRDIR` and a file in it, and then an entry that would be
written above the installation path. -/
def samplePackage : Package := ⟨true,0x05,ascii "NPUB30001"⟩

def sampleEntries : List (PKGEntry × Answers) :=
  [(⟨6,some (ascii "USRDIR" ++ [0,0]),4⟩,⟨false,false,true⟩),
    (⟨17,some (ascii "USRDIR/EBOOT.BIN." ++ [0]),3⟩,⟨false,false,true⟩),
    (⟨6,some (ascii "../out"),3⟩,⟨false,false,true⟩),(⟨3,some (ascii "out"),3⟩,⟨false,false,true⟩)]

end PS3Native.PkgInstall
