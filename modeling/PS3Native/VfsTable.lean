import PS3Native.VfsRetrieveInverse

/-!
# The table as a map

The tree stands for a map from names to host paths. `vfs::mount` normalises the guest path and sets
one place of the map. `vfs::unmount` takes the names as they stand and clears all places below.
-/
namespace PS3Native.Vfs

open PathComponents List
open SysFsPath (slash Ordinary)

namespace VfsDirectory

/-- `unmount_children` -/
def unmountChildren : List Bytes → VfsDirectory → VfsDirectory
  | [], dir => dir
  | [name], dir => mk dir.path (dir.dirs.filter (·.1 != name))
  | name::names, dir => dir.update (unmountChildren names) [name]

/-- The host path that is mounted at a place of the tree. -/
def mounted (root : VfsDirectory) (names : List Bytes) : Bytes := (root.at? names).elim [] path

variable {f : VfsDirectory → VfsDirectory} {dir : VfsDirectory} (name c : Bytes)
  (names more : List Bytes)

theorem Named.update (hf : ∀ d, d.Named → (f d).Named) (h : dir.Named) :
    (dir.update f names).Named := by
  induction names generalizing dir with
  | nil => exact hf dir h
  | cons name names ih =>
    have hkeys : (dir.update f (name::names)).dirs.map Prod.fst = dir.dirs.map Prod.fst := by
      refine (map_map ..).trans (map_congr_left fun e _ => ?_)
      rw [Function.comp_apply]
      split <;> rfl
    refine .mk (hkeys ▸ h.nodup) (hkeys ▸ h.names) fun e he => ?_
    obtain ⟨d,hd,rfl⟩ := mem_map.1 he
    split
    · exact ih (h.dirs d hd)
    · exact h.dirs d hd

theorem named_nil : (mk [] []).Named :=
  .mk nodup_nil SysFsPath.ordinary_nil fun _ he => absurd he not_mem_nil

theorem Named.addEntry (h : dir.Named) {name : Bytes} (hname : Ordinary [name]) :
    (dir.addEntry name).Named := by
  unfold VfsDirectory.addEntry
  split
  · exact h
  next hfind =>
    rw [find,Option.isSome_iff_ne_none,not_not,lookup_eq_none_iff] at hfind
    have hnew : ∀ e∈dir.dirs, e.1≠name := fun e he heq => by simpa [heq] using hfind e he
    have hperm := perm_orderedInsert (fun e f : Bytes × VfsDirectory => e.1 < f.1)
      (name,VfsDirectory.mk [] []) dir.dirs
    refine .mk ((hperm.map _).nodup_iff.2 ?_) (fun c hc => ?_) fun e he => ?_
    · simpa [h.nodup] using fun d hd => hnew (name,d) hd rfl
    · rcases mem_cons.1 ((hperm.map Prod.fst).mem_iff.1 hc) with rfl | hc
      · exact hname c (mem_singleton.2 rfl)
      · exact h.names c hc
    · rcases mem_cons.1 (hperm.mem_iff.1 he) with rfl | he
      · exact named_nil
      · exact h.dirs e he

theorem Named.unmountChildren (h : dir.Named) : (dir.unmountChildren names).Named := by
  induction names generalizing dir with
  | nil => exact h
  | cons name names ih =>
    cases names with
    | nil =>
      have hsub : (dir.dirs.filter (·.1 != name)).map Prod.fst <+ dir.dirs.map Prod.fst :=
        filter_sublist.map _
      exact .mk (h.nodup.sublist hsub) (fun c hc => h.names c (hsub.subset hc))
        fun e he => h.dirs e (mem_of_mem_filter he)
    | cons next names => exact h.update [name] fun d hd => ih hd

theorem find_update : (dir.update f (name::names)).find c =
    (dir.find c).map fun child => if c=name then child.update f names else child := by
  obtain ⟨path,dirs⟩ := dir
  change lookup c (dirs.map _) = (lookup c dirs).map _
  induction dirs with
  | nil => rfl
  | cons e dirs ih => by_cases h : c=e.1 <;> grind

theorem lookup_orderedInsert {dirs : List (Bytes × VfsDirectory)} (h : dirs.lookup name=none) :
    (dirs.orderedInsert (fun e f => e.1 < f.1) (name,mk [] [])).lookup c =
      (dirs.lookup c).or (if c=name then some (mk [] []) else none) := by
  have hcons : ∀ e (l : List (Bytes × VfsDirectory)),
      (e::l).lookup c = if c=e.1 then some e.2 else l.lookup c := by
    intro e l
    by_cases hc : c=e.1
    · rw [if_pos hc,hc,lookup_cons_self]
    · rw [if_neg hc,lookup_cons,beq_false_of_ne hc]
  induction dirs with
  | nil => exact hcons _ _
  | cons e dirs ih =>
    have hne : name≠e.1 := by
      rintro rfl
      simp at h
    have hrest : dirs.lookup name=none := by rwa [lookup_cons,beq_false_of_ne hne] at h
    rw [orderedInsert_cons]
    split_ifs with hlt <;> by_cases hc : c=name <;> by_cases he : c=e.1 <;>
      simp_all [-lookup_eq_none_iff]

theorem find_addEntry : (dir.addEntry name).find c =
    (dir.find c).or (if c=name then some (mk [] []) else none) := by
  unfold addEntry
  split_ifs with hfind hc hc
  · rw [hc,Option.or_of_isSome hfind]
  · exact Option.or_none.symm
  all_goals
    rw [Option.not_isSome_iff_eq_none] at hfind
    exact (lookup_orderedInsert name c hfind).trans (by simp [hc,find])

theorem mounted_cons : dir.mounted (c::more) = (dir.find c).elim [] (·.mounted more) := by
  rw [mounted,at?]
  cases dir.find c <;> rfl

theorem mounted_update_cons : (dir.update f (name::names)).mounted (c::more) =
    if c=name then (dir.find c).elim [] fun child => (child.update f names).mounted more
    else dir.mounted (c::more) := by
  rw [mounted_cons,mounted_cons,find_update]
  cases dir.find c <;> split_ifs <;> rfl

theorem mounted_addEntry : (dir.update (.addEntry name) names).mounted = dir.mounted := by
  funext more
  induction names generalizing dir more with
  | nil =>
    cases more with
    | nil =>
      unfold update addEntry
      split_ifs <;> rfl
    | cons c more =>
      rw [update,mounted_cons,mounted_cons,find_addEntry]
      cases dir.find c with
      | some child => rfl
      | none => split_ifs <;> cases more <;> rfl
  | cons c names ih =>
    cases more with
    | nil => rfl
    | cons d more => simp only [mounted_update_cons,ih,← mounted_cons,ite_self]

theorem mounted_setPath (h : (dir.at? names).isSome) (host : Bytes) :
    (dir.update (.setPath host) names).mounted = Function.update dir.mounted names host := by
  funext more
  rw [Function.update_apply]
  induction names generalizing dir more with
  | nil => cases more <;> rfl
  | cons c names ih =>
    cases more with
    | nil => rfl
    | cons d more =>
      rw [mounted_update_cons,mounted_cons]
      by_cases hdc : d=c
      · subst hdc
        rw [at?] at h
        cases hchild : dir.find d with
        | none => rw [hchild] at h; cases h
        | some child =>
          rw [hchild] at h
          simp [ih h]
      · simp [hdc]

theorem at?_addEntry (h : (dir.at? names).isSome) :
    ((dir.update (.addEntry name) names).at? (names++[name])).isSome := by
  induction names generalizing dir with
  | nil =>
    rw [update,nil_append,at?,find_addEntry,if_pos rfl]
    cases dir.find name <;> rfl
  | cons c names ih =>
    rw [at?] at h
    rw [cons_append,at?,find_update]
    cases hchild : dir.find c with
    | none => rw [hchild] at h; cases h
    | some child =>
      rw [hchild] at h
      simpa using ih h

theorem mounted_unmountChildren : (dir.unmountChildren (name::names)).mounted more =
    if name::names <+: more then [] else dir.mounted more := by
  induction names generalizing name dir more with
  | nil =>
    cases more with
    | nil => simp; rfl
    | cons c more =>
      have hfind : (dir.unmountChildren [name]).find c = if c=name then none else dir.find c := by
        obtain ⟨path,dirs⟩ := dir
        change lookup c (dirs.filter _) = if _ then _ else lookup c dirs
        induction dirs with
        | nil => simp
        | cons e dirs ih => grind
      rw [mounted_cons,mounted_cons,hfind]
      by_cases hc : c=name
      · simp [hc]
      · simp [hc,Ne.symm hc]
  | cons next names ih =>
    cases more with
    | nil => simp; rfl
    | cons c more =>
      change (dir.update (unmountChildren (next::names)) [name]).mounted (c::more) = _
      rw [mounted_update_cons,mounted_cons]
      simp only [update,ih]
      by_cases hc : c=name
      · cases dir.find c <;> simp [hc,cons_prefix_cons]
      · simp [hc,Ne.symm hc,cons_prefix_cons]

end VfsDirectory

open VfsDirectory

def unmount (root : VfsDirectory) (vpath : Bytes) : VfsDirectory × Bool :=
  if vpath=[] ∨ components slash vpath=[] then (root,false)
  else (root.unmountChildren (components slash vpath),true)

inductive Call
  | mount (vpath path : Bytes) (isDir : Bool)
  | unmount (vpath : Bytes)

variable (resolvePath : Bytes → Bytes)

def call (root : VfsDirectory) : Call → Option VfsDirectory
  | .mount vpath path isDir => (mount resolvePath root vpath path isDir).map Prod.fst
  | .unmount vpath => some (unmount root vpath).1

/-- What a call does to the map. -/
def effect (table : List Bytes → Bytes) : Call → List Bytes → Bytes
  | .mount vpath path isDir =>
    if vpath.head? = some slash then
      Function.update table (normalNames vpath) (hostPath resolvePath path isDir)
    else table
  | .unmount vpath => fun names =>
    if components slash vpath≠[] ∧ components slash vpath <+: names then [] else table names

variable {root : VfsDirectory}

theorem mountLoop_eq (host : Bytes) (rounds : ℕ) (names : List Bytes) (vpath : Bytes)
    (hroot : root.Named) (hat : (root.at? names).isSome) (habs : ∀ a∈vpath.head?, a=slash)
    (hrounds : vpath.length < rounds) :
    ∃ root', mountLoop host rounds root names vpath = some (root',true) ∧ root'.Named ∧
      root'.mounted =
        Function.update root.mounted ((components slash vpath).foldl pushName names) host := by
  induction rounds generalizing root names vpath with
  | zero => omega
  | succ rounds ih =>
    rw [mountLoop]
    by_cases hskip : vpath.dropWhile (· == slash)=[]
    · rw [nextFragment_finished hskip,components_of_dropWhile_eq_nil hskip]
      exact ⟨_,rfl,hroot.update names fun d hd => .mk hd.nodup hd.names hd.dirs,
        mounted_setPath names hat host⟩
    · have hlt := length_dropWhile_lt hskip
      obtain ⟨hname,hcomponents⟩ := components_of_dropWhile_ne_nil hskip
      rw [hcomponents,foldl_cons,nextFragment_name habs hskip,pushName]
      simp only
      split_ifs with hdot hdotdot
      · exact ih _ _ hroot hat head?_dropWhile_ne (by omega)
      · refine ih _ _ hroot ?_ head?_dropWhile_ne (by omega)
        rcases eq_nil_or_concat' names with rfl | ⟨init,c,rfl⟩
        · exact hat
        · rw [at?_concat] at hat
          rw [dropLast_concat]
          exact Option.isSome_of_isSome_bind hat
      · rw [← mounted_addEntry _ names]
        refine ih _ _ (hroot.update names fun d hd => hd.addEntry ?_) (at?_addEntry _ names hat)
          head?_dropWhile_ne (by omega)
        intro c hc
        rw [mem_singleton.1 hc]
        exact ⟨hname,hdot,hdotdot⟩

theorem call_eq (hroot : root.Named) (c : Call) : ∃ root', call resolvePath root c = some root' ∧
    root'.Named ∧ root'.mounted = effect resolvePath root.mounted c := by
  cases c with
  | mount vpath path isDir =>
    rw [call,mount,effect]
    cases vpath with
    | nil => exact ⟨root,rfl,hroot,rfl⟩
    | cons a vpath =>
      rw [if_neg (cons_ne_nil a vpath),head?_cons]
      by_cases ha : a=slash
      · obtain ⟨root',hloop,h⟩ := mountLoop_eq (hostPath resolvePath path isDir) _ [] (a::vpath) hroot
          rfl (by simp [ha]) (Nat.lt_succ_self _)
        rw [hloop,if_pos (congrArg some ha)]
        exact ⟨root',rfl,h⟩
      · have hpos : findFirstNotOf (a::vpath) slash 0 = some 0 :=
          findFirstNotOf_eq_self.2 ⟨a,rfl,ha⟩
        rw [mountLoop,nextFragment,hpos,if_neg fun h => ha (Option.some.inj h)]
        exact ⟨root,rfl,hroot,rfl⟩
  | unmount vpath =>
    refine ⟨_,rfl,?_⟩
    rw [unmount,effect]
    cases hnames : components slash vpath with
    | nil => simp [hroot]
    | cons name names =>
      have hne : vpath≠[] := by rintro rfl; cases hnames
      simp [hne,hroot.unmountChildren _,funext (mounted_unmountChildren name names)]

theorem calls_eq (hroot : root.Named) (calls : List Call) :
    ∃ root', calls.foldlM (call resolvePath) root = some root' ∧ root'.Named ∧
      root'.mounted = calls.foldl (effect resolvePath) root.mounted := by
  induction calls generalizing root with
  | nil => exact ⟨root,rfl,hroot,rfl⟩
  | cons c calls ih =>
    obtain ⟨next,hcall,hnamed,hnext⟩ := call_eq resolvePath hroot c
    rw [foldlM_cons,hcall,foldl_cons,← hnext]
    exact ih hnamed

/-- Any sequence of calls on the empty table ends, leaves ordinary and distinct names, and stands
for the map with the effects of the calls, in order. -/
theorem calls_refine_map (calls : List Call) :
    ∃ root, calls.foldlM (call resolvePath) (.mk [] []) = some root ∧ root.Named ∧
      root.mounted = calls.foldl (effect resolvePath) (VfsDirectory.mk [] []).mounted :=
  calls_eq resolvePath named_nil calls

end PS3Native.Vfs
