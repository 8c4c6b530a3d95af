import PS3Native.VfsGet

/-!
# Guest paths of host paths

`vfs::retrieve` searches the table of mounted host paths for one that a host path starts with. It
goes depth first and keeps the names of the branch in one list, which each directory extends and
cuts. A directory that returns what it found below does not cut the list, so that the next one is
searched with a name too many.
-/
namespace PS3Native.Vfs

open PathComponents
open SysFsPath (slash)
open VfsEscape (unescape)

/-- `fmt::split_sv` with the two characters of `fs::delim`, a slash and the zero behind it. -/
def splitDelim (path : Bytes) : List Bytes := (components slash path).flatMap (components 0)

/-- The local function `unescape_path`. -/
def unescapePath (path : Bytes) : Bytes := [slash].intercalate ((splitDelim path).map unescape)

/-- Whether the result of a subdirectory replaces the one so far. -/
def isPreferred (name resultDir : Bytes) : Bool :=
  (name != ascii "app_home" && resultDir == ascii "app_home") ||
    (name == ascii "dev_bdvd" && resultDir != ascii "dev_bdvd")

/-- The slash and the names with a slash each, that a guest path starts with. -/
def branchText (mountPath : List Bytes) : Bytes := slash::mountPath.flatMap (·++[slash])

/-- The variables of the loop over the subdirectories, with the list. -/
structure RetrieveLoop where
  mountPath : List Bytes
  result : Bytes
  resultDir : Bytes
  hostRootName : Bytes
deriving DecidableEq, Repr

/-- The body of the loop, with what the call for the subdirectory returned. -/
def RetrieveLoop.next (s : RetrieveLoop) (name : Bytes) (isHostRoot : Bool)
    (res : Bytes × List Bytes) : RetrieveLoop :=
  let s := {s with mountPath := res.2}
  let s := if res.1≠[] ∧ (s.result=[] ∨ isPreferred name s.resultDir) then
    {s with result := res.1, resultDir := name} else s
  if isHostRoot then {s with hostRootName := name} else s

mutual

/-- `vfs::retrieve` of a node: the result and the list behind the call. -/
def retrieveNode (path : Bytes) : VfsDirectory → List Bytes → Bytes × List Bytes
  | .mk nodePath dirs, mountPath =>
    let s := retrieveDirs path dirs ⟨mountPath++[[]],[],[],[]⟩
    if s.result≠[] then (s.result,s.mountPath)
    else
      let mountPath := s.mountPath.dropLast
      if 1 < nodePath.length ∧ nodePath.isPrefixOf path then
        (branchText mountPath++unescapePath (path.drop nodePath.length),mountPath)
      else if s.hostRootName≠[] then
        (branchText mountPath++s.hostRootName++slash::path,mountPath)
      else ([],mountPath)

def retrieveDirs (path : Bytes) : List (Bytes × VfsDirectory) → RetrieveLoop → RetrieveLoop
  | [], s => s
  | (name,dir)::dirs, s =>
    retrieveDirs path dirs (s.next name (dir.path = [slash])
      (retrieveNode path dir (s.mountPath.dropLast++[name])))

end

def retrieve (resolvePathMayNotExist : Bytes → Bytes) (root : VfsDirectory) (path : Bytes) : Bytes :=
  if path.head? = some 0x2E ∨ path=[] then []
  else
    let rpath := resolvePathMayNotExist path
    let res := if rpath≠[] then (retrieveNode rpath root []).1 else []
    if res≠[] then res else (retrieveNode path root []).1

def VfsDirectory.Matches (dir : VfsDirectory) (path : Bytes) : Prop :=
  1 < dir.path.length ∧ dir.path.isPrefixOf path

instance (dir : VfsDirectory) (path : Bytes) : Decidable (dir.Matches path) :=
  inferInstanceAs (Decidable (_ ∧ _))

/-- A host path of the tree is one that the path starts with. -/
inductive VfsDirectory.Holds (path : Bytes) : VfsDirectory → Prop
  | here {dir : VfsDirectory} (hmatch : dir.Matches path) : Holds path dir
  | sub {dir : VfsDirectory} {e : Bytes × VfsDirectory} (he : e∈dir.dirs) (h : Holds path e.2) :
      Holds path dir

/-- The mount point for a host path, and the names that lead to it. None is below it. On each level
the name is preferred to those of the earlier subdirectories with a mount point for the path, and no
later one is preferred to it. No earlier subdirectory has a mount point for the path below itself. -/
inductive Settles (path : Bytes) : VfsDirectory → List Bytes → VfsDirectory → Prop
  | here {dir : VfsDirectory} (hmatch : dir.Matches path) (hbelow : ∀ e∈dir.dirs, ¬e.2.Holds path) :
      Settles path dir [] dir
  | sub {dir child found : VfsDirectory} {name : Bytes} {branch : List Bytes}
      {before after : List (Bytes × VfsDirectory)} (hsplit : dir.dirs = before++(name,child)::after)
      (hshallow : ∀ e∈before, ∀ f∈e.2.dirs, ¬f.2.Holds path)
      (hbefore : ∀ e∈before, e.2.Holds path → isPreferred name e.1)
      (hafter : ∀ e∈after, e.2.Holds path → ¬isPreferred e.1 name)
      (h : Settles path child branch found) : Settles path dir (name::branch) found

variable {path : Bytes} {dir found : VfsDirectory} {branch : List Bytes}

/-- The guest path that is written for a mount point with these names in the list. -/
def written (path : Bytes) (found : VfsDirectory) (mountPath : List Bytes) : Bytes :=
  branchText mountPath++unescapePath (path.drop found.path.length)

theorem retrieveDirs_append (before after : List (Bytes × VfsDirectory)) (s : RetrieveLoop) :
    retrieveDirs path (before++after) s = retrieveDirs path after (retrieveDirs path before s) := by
  induction before generalizing s with
  | nil => simp [retrieveDirs]
  | cons e before ih =>
    rw [List.cons_append,retrieveDirs,retrieveDirs]
    exact ih _

theorem retrieveDirs_induct (path : Bytes) {P : RetrieveLoop → Prop} (dirs : List (Bytes × VfsDirectory))
    (hstep : ∀ e∈dirs, ∀ s, P s → P (s.next e.1 (e.2.path = [slash])
      (retrieveNode path e.2 (s.mountPath.dropLast++[e.1])))) {s : RetrieveLoop} (hs : P s) :
    P (retrieveDirs path dirs s) := by
  induction dirs generalizing s with
  | nil => simpa [retrieveDirs] using hs
  | cons e dirs ih =>
    rw [retrieveDirs]
    exact ih (fun f hf => hstep f (List.mem_cons_of_mem _ hf)) (hstep e List.mem_cons_self s hs)

/-- A directory with no mount point for the path below it leaves the list as it was. -/
theorem retrieveNode_shallow (hdir : dir.Every (·≠[slash])) (h : ∀ e∈dir.dirs, ¬e.2.Holds path)
    (mountPath : List Bytes) : retrieveNode path dir mountPath =
      (if dir.Matches path then written path dir mountPath else [],mountPath) := by
  induction hdir generalizing mountPath with
  | @mk nodePath dirs hpath hdirs ih =>
    have hloop := retrieveDirs_induct path (P := fun s => s.mountPath.dropLast=mountPath ∧
      s.result=[] ∧ s.hostRootName=[]) dirs ?_ (s := ⟨mountPath++[[]],[],[],[]⟩) (by simp)
    · obtain ⟨hlist,hresult,hhost⟩ := hloop
      rw [retrieveNode]
      simp only [hlist,hresult,hhost,ne_eq,not_true_eq_false,if_false]
      by_cases hmatch : (VfsDirectory.mk nodePath dirs).Matches path
      · rw [if_pos hmatch,if_pos (show 1 < nodePath.length ∧ nodePath.isPrefixOf path from hmatch)]
        rfl
      · rw [if_neg hmatch,if_neg (show ¬(1 < nodePath.length ∧ nodePath.isPrefixOf path) from hmatch)]
    · rintro e he s ⟨hlist,hresult,hhost⟩
      have hnone := h e he
      rw [ih e he (fun f hf hholds => hnone (.sub hf hholds)),if_neg fun hmatch => hnone (.here hmatch),
        decide_eq_false (hdirs e he).path]
      simp [RetrieveLoop.next,hlist,hresult,hhost]

/-- The search writes the guest path of the mount point that it settles on. -/
theorem retrieveNode_of_settles (h : Settles path dir branch found) (hdir : dir.Every (·≠[slash]))
    (mountPath : List Bytes) :
    (retrieveNode path dir mountPath).1 = written path found (mountPath++branch) := by
  induction h generalizing mountPath with
  | here hmatch hbelow => rw [retrieveNode_shallow hdir hbelow,if_pos hmatch,List.append_nil]
  | @sub dir child found name branch before after hsplit hshallow hbefore hafter h ih =>
    obtain ⟨nodePath,dirs⟩ := dir
    obtain rfl : dirs = before++(name,child)::after := hsplit
    have hevery := hdir.dirs
    have hstart := retrieveDirs_induct path (P := fun s => s.mountPath.dropLast=mountPath ∧
      s.hostRootName=[] ∧ (s.result=[] ∨ isPreferred name s.resultDir)) before ?_
      (s := ⟨mountPath++[[]],[],[],[]⟩) (by simp)
    · obtain ⟨hlist,-,hresult⟩ := hstart
      have hchild := ih (hevery (name,child) (by simp [VfsDirectory.dirs])) (mountPath++[name])
      have hne : written path found (mountPath++[name]++branch)≠[] := List.cons_ne_nil _ _
      have hend := retrieveDirs_induct path (P := fun s =>
        s.result = written path found (mountPath++[name]++branch) ∧ s.resultDir=name) after ?_
        (s := (retrieveDirs path before ⟨mountPath++[[]],[],[],[]⟩).next name (child.path = [slash])
          (retrieveNode path child (mountPath++[name]))) ?_
      · rw [retrieveNode,retrieveDirs_append,retrieveDirs,hlist]
        simp only [hend.1,if_pos hne]
        simp
      · rintro e he s ⟨hres,hname⟩
        have hkeep : ¬((retrieveNode path e.2 (s.mountPath.dropLast++[e.1])).1≠[] ∧
            (s.result=[] ∨ isPreferred e.1 s.resultDir)) := by
          rintro ⟨hfound,hempty | hpref⟩
          · exact hne (hres.symm.trans hempty)
          · have hnone : ¬e.2.Holds path := fun hholds => hafter e he hholds (hname ▸ hpref)
            rw [retrieveNode_shallow (hevery e (by simp [VfsDirectory.dirs,he])) fun f hf hholds =>
              hnone (.sub hf hholds),if_neg fun hmatch => hnone (.here hmatch)] at hfound
            exact hfound rfl
        simp only [RetrieveLoop.next,if_neg hkeep]
        split <;> exact ⟨hres,hname⟩
      · simp only [RetrieveLoop.next,hchild,if_pos (And.intro hne hresult)]
        split <;> exact ⟨rfl,rfl⟩
    · rintro e he s ⟨hlist,hhost,hresult⟩
      rw [retrieveNode_shallow (hevery e (by simp [VfsDirectory.dirs,he])) (hshallow e he),
        decide_eq_false (hevery e (by simp [VfsDirectory.dirs,he])).path]
      by_cases hmatch : e.2.Matches path
      · have hpref := hbefore e he (.here hmatch)
        simp only [RetrieveLoop.next,if_pos hmatch,Bool.false_eq_true,if_false]
        split <;> simp [hlist,hhost,hpref,hresult]
      · simpa [RetrieveLoop.next,hmatch,hlist,hhost] using hresult

theorem retrieve_of_settles {root : VfsDirectory} (h : Settles path root branch found)
    (hroot : root.Every (·≠[slash])) (hresult : retrieve id root path≠[]) :
    retrieve id root path = written path found branch := by
  have hnode := retrieveNode_of_settles h hroot []
  rw [List.nil_append] at hnode
  rw [retrieve] at hresult ⊢
  split at hresult
  · exact absurd rfl hresult
  next hpath =>
    simp only [id_eq,if_neg hpath,if_pos (not_or.1 hpath).2,hnode]
    exact if_pos (List.cons_ne_nil _ _)

end PS3Native.Vfs
