import Mathlib.Data.List.Sort
import PS3Native.SysFsPath
import PS3Native.VfsEscape

/-!
# The table of mounted host paths

The table is a tree of directories with a host path at the mount points. `vfs::mount` and
`vfs::get` cut a guest path into fragments in the same way and walk through the tree with
a stack of directories; `get` goes on with a null pointer where the tree ends.
-/
namespace PS3Native.Vfs

open PathComponents List
open SysFsPath (slash dot dotdot)
open VfsEscape (escape)

abbrev Bytes := List UInt8

inductive VfsDirectory
  | mk (path : Bytes) (dirs : List (Bytes × VfsDirectory))

namespace VfsDirectory

def path : VfsDirectory → Bytes
  | mk path _ => path

def dirs : VfsDirectory → List (Bytes × VfsDirectory)
  | mk _ dirs => dirs

def find (dir : VfsDirectory) (name : Bytes) : Option VfsDirectory := dir.dirs.lookup name

def at? (dir : VfsDirectory) : List Bytes → Option VfsDirectory
  | [] => some dir
  | name::names => (dir.find name).bind fun child => child.at? names

def update (f : VfsDirectory → VfsDirectory) : List Bytes → VfsDirectory → VfsDirectory
  | [], dir => f dir
  | name::names, dir =>
    mk dir.path (dir.dirs.map fun e => if e.1=name then (e.1,update f names e.2) else e)

def setPath (path : Bytes) (dir : VfsDirectory) : VfsDirectory := mk path dir.dirs

/-- The map of a directory is in the order of the names. -/
def addEntry (name : Bytes) (dir : VfsDirectory) : VfsDirectory :=
  if (dir.find name).isSome then dir
  else mk dir.path (dir.dirs.orderedInsert (fun e f => e.1 < f.1) (name,mk [] []))

/-- All directories of a tree have a host path with this property. -/
inductive Every (p : Bytes → Prop) : VfsDirectory → Prop
  | mk {path : Bytes} {dirs : List (Bytes × VfsDirectory)} (hpath : p path)
      (hdirs : ∀ e∈dirs, Every p e.2) : Every p (.mk path dirs)

variable {p : Bytes → Prop} {dir : VfsDirectory}

theorem Every.path (h : Every p dir) : p dir.path := by
  cases h with
  | mk hpath _ => exact hpath

theorem Every.dirs (h : Every p dir) : ∀ e∈dir.dirs, Every p e.2 := by
  cases h with
  | mk _ hdirs => exact hdirs

theorem Every.at? {found : VfsDirectory} {names : List Bytes} (h : Every p dir)
    (hfound : dir.at? names = some found) : Every p found := by
  induction names generalizing dir with
  | nil =>
    cases hfound
    exact h
  | cons name names ih =>
    obtain ⟨child,hchild,hrest⟩ := Option.bind_eq_some_iff.1 hfound
    obtain ⟨l,r,hsplit,-⟩ := lookup_eq_some_iff.1 hchild
    exact ih (h.dirs (name,child) (by rw [hsplit]; simp)) hrest

end VfsDirectory

inductive Fragment
  | relative
  | finished
  | name (name rest : Bytes)
  deriving DecidableEq, Repr

/-- Skip the slashes and take the name that follows. -/
def nextFragment (vpath : Bytes) : Fragment :=
  match findFirstNotOf vpath slash 0 with
  | none => .finished
  | some pos =>
    if pos=0 then .relative
    else
      let name := substr vpath pos ((findFirstOf vpath slash pos).map (·-pos))
      .name name (vpath.drop (name.length+pos))

variable (resolvePath : Bytes → Bytes)

def hostPath (path : Bytes) (isDir : Bool) : Bytes :=
  let resolved := if resolvePath path=[] then path else resolvePath path
  if path = [slash] then [slash]
  else if isDir ∧ resolved.getLast?≠some slash then resolved++[slash]
  else resolved

def mountLoop (host : Bytes) : ℕ → VfsDirectory → List Bytes → Bytes → Option (VfsDirectory × Bool)
  | 0, _, _, _ => none
  | rounds+1, root, names, vpath =>
    match nextFragment vpath with
    | .relative => some (root,false)
    | .finished => some (root.update (.setPath host) names,true)
    | .name name vpath =>
      if name=dot then mountLoop host rounds root names vpath
      else if name=dotdot then mountLoop host rounds root names.dropLast vpath
      else mountLoop host rounds (root.update (.addEntry name) names) (names++[name]) vpath

def mount (root : VfsDirectory) (vpath path : Bytes) (isDir : Bool) : Option (VfsDirectory × Bool) :=
  if vpath=[] then some (root,false)
  else mountLoop (hostPath resolvePath path isDir) (vpath.length+1) root [] vpath

/-- The search for the latest directory with a host path, from the back of `list`, with the
number of fragments in front of it. -/
def latestMount (single : Bool) : List (Option VfsDirectory) → Option (VfsDirectory × ℕ)
  | [] => none
  | none::list => latestMount single list
  | some dir::list =>
    if dir.path≠[] ∨ single then some (dir,list.length) else latestMount single list

/-- The end of `get` for an absolute path, with what is left of it. -/
def finalize (list : List (Option VfsDirectory)) (result : List Bytes) (vpath : Bytes) : Bytes :=
  match latestMount (list.length=1) list.reverse with
  | none => []
  | some (dir,count) =>
    let result := result.drop count++if vpath≠[] then [[]] else []
    if dir.path=[] then []
    else dir.path++[slash].intercalate (result.map (escape · false))

def nowhere (configDir : Bytes) : Bytes := configDir++ascii "delete_this_dir.../delete_this..."

def getLoop (configDir : Bytes) :
    ℕ → List (Option VfsDirectory) → List Bytes → Bytes → Option Bytes
  | 0, _, _, _ => none
  | rounds+1, list, result, vpath =>
    match nextFragment vpath with
    | .relative => some (nowhere configDir)
    | .finished => some (finalize list result vpath)
    | .name name vpath =>
      if name=dot then getLoop configDir rounds list result vpath
      else if name=dotdot then
        if list.length=1 then getLoop configDir rounds list result vpath
        else getLoop configDir rounds list.dropLast result.dropLast vpath
      else
        match list.getLast?.join.bind (·.find name) with
        | none => getLoop configDir rounds (list++[none]) (result++[name]) vpath
        | some dir =>
          if dir.path = [slash] then
            if vpath.length ≤ 1 then some (nowhere configDir) else some (vpath.drop 1)
          else getLoop configDir rounds (list++[some dir]) (result++[name]) vpath

def get (configDir : Bytes) (root : VfsDirectory) (vpath : Bytes) : Option Bytes :=
  let vpath := if vpath=[] then dot else vpath
  getLoop configDir (vpath.length+1) [some root] [] vpath

end PS3Native.Vfs
