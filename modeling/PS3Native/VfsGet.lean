import PS3Native.VfsEscapeSafety
import PS3Native.VfsMount

/-!
# Host paths of guest paths

`vfs::get` yields the host path of the deepest mount point on the way to the normalised
guest path, with the escaped names of the rest. No escaped name goes up, so the host path
stays in the directory of the mount point.
-/
namespace PS3Native.Vfs

open PathComponents List
open SysFsPath (slash dot dotdot Ordinary)
open VfsEscape (escape)

section Fragments

def EndsWithSlash (s : Bytes) : Prop := s.getLast? = some slash

instance (s : Bytes) : Decidable (EndsWithSlash s) :=
  inferInstanceAs (Decidable (s.getLast? = some slash))

variable {vpath : Bytes}

theorem nextFragment_finished (h : vpath.dropWhile (· == slash)=[]) :
    nextFragment vpath = .finished := by
  have hnone : findFirstNotOf vpath slash 0=none := findFirstNotOf_eq_none.2 h
  rw [nextFragment,hnone]

theorem nextFragment_name (habs : ∀ a∈vpath.head?, a=slash)
    (h : vpath.dropWhile (· == slash)≠[]) :
    nextFragment vpath = .name ((vpath.dropWhile (· == slash)).takeWhile (· != slash))
      ((vpath.dropWhile (· == slash)).dropWhile (· != slash)) := by
  have hskip := suffix_findFirstNotOf vpath slash 0
  have hself : findFirstNotOf vpath slash 0≠some 0 := by
    rw [Ne,findFirstNotOf_eq_self]
    rintro ⟨a,ha,hne⟩
    exact hne (habs a ha)
  cases hpos : findFirstNotOf vpath slash 0 with
  | none => exact absurd (findFirstNotOf_eq_none.1 hpos) h
  | some pos =>
    have hdrop : vpath.drop pos = vpath.dropWhile (· == slash) := by
      rw [hpos] at hskip
      exact hskip
    have hne : pos≠0 := by
      rintro rfl
      exact hself hpos
    simp only [nextFragment,hpos,if_neg hne,substr_findFirstOf,hdrop,Nat.add_comm _ pos,
      ← drop_drop,drop_length_takeWhile]

theorem endsWithSlash_append {word : Bytes} (h : slash∉word) (rest : Bytes) :
    EndsWithSlash (word++rest) ↔ EndsWithSlash rest := by
  by_cases hrest : rest=[]
  · subst hrest
    rw [append_nil]
    constructor
    · intro hlast
      exact absurd (mem_of_getLast? hlast) h
    · intro hlast
      cases hlast
  · rw [EndsWithSlash,getLast?_append_of_ne_nil word hrest,EndsWithSlash]

theorem endsWithSlash_rest (h : vpath.dropWhile (· == slash)≠[]) :
    EndsWithSlash ((vpath.dropWhile (· == slash)).dropWhile (· != slash)) ↔ EndsWithSlash vpath := by
  have hword := (components_of_dropWhile_ne_nil h).1.2
  have hlast : vpath.getLast? = (vpath.dropWhile (· == slash)).getLast? := by
    rw [← getLast?_append_of_ne_nil _ h,takeWhile_append_dropWhile]
  have happend := endsWithSlash_append hword ((vpath.dropWhile (· == slash)).dropWhile (· != slash))
  rw [takeWhile_append_dropWhile] at happend
  rw [← happend,EndsWithSlash,EndsWithSlash,hlast]

theorem endsWithSlash_of_finished (h : vpath.dropWhile (· == slash)=[]) :
    EndsWithSlash vpath ↔ vpath≠[] := by
  have hall : ∀ a∈vpath, a=slash := by
    intro a ha
    simpa using dropWhile_eq_nil_iff.1 h a ha
  constructor
  · rintro hlast rfl
    cases hlast
  · intro hne
    obtain ⟨a,ha⟩ := Option.ne_none_iff_exists'.1 (mt getLast?_eq_none_iff.1 hne)
    rw [EndsWithSlash,ha,hall a (mem_of_getLast? ha)]

end Fragments

section Names

/-- A name meets the names so far: `.` is ignored and `..` pops, if there is something. -/
def pushName (names : List Bytes) (name : Bytes) : List Bytes :=
  if name=dot then names else if name=dotdot then names.dropLast else names++[name]

def normalNames (vpath : Bytes) : List Bytes := (components slash vpath).foldl pushName []

variable {names : List Bytes}

theorem pushName_ordinary (h : Ordinary names) {name : Bytes} (hname : IsComponent slash name) :
    Ordinary (pushName names name) := by
  rw [pushName]
  split
  · exact h
  split
  · exact fun c hc => h c ((dropLast_sublist names).subset hc)
  · intro c hc
    rcases mem_append.1 hc with hc | hc
    · exact h c hc
    · rw [mem_singleton.1 hc]
      exact ⟨hname,‹_›,‹_›⟩

theorem foldl_ordinary {components : List Bytes} (h : Ordinary names)
    (hc : ∀ c∈components, IsComponent slash c) : Ordinary (components.foldl pushName names) := by
  induction components generalizing names with
  | nil => exact h
  | cons c cs ih =>
    exact ih (pushName_ordinary h (hc c mem_cons_self)) fun d hd => hc d (mem_cons_of_mem c hd)

theorem normalNames_ordinary (vpath : Bytes) : Ordinary (normalNames vpath) :=
  foldl_ordinary SysFsPath.ordinary_nil fun _ hc => isComponent_of_mem hc

theorem foldl_of_ordinary (h : Ordinary names) (base : List Bytes) :
    names.foldl pushName base = base++names := by
  induction names generalizing base with
  | nil => simp
  | cons c cs ih =>
    obtain ⟨-,hdot,hdotdot⟩ := h c mem_cons_self
    rw [foldl_cons,pushName,if_neg hdot,if_neg hdotdot, ih fun d hd => h d (mem_cons_of_mem c hd)]
    simp

/-- The escape of a name is a name, and has no character that a host splits a path at. -/
theorem escape_ordinary (h : Ordinary names) : Ordinary (names.map (escape · false)) := by
  intro e he
  obtain ⟨c,hc,rfl⟩ := mem_map.1 he
  obtain ⟨⟨hne,hslash⟩,hdot,hdotdot⟩ := h c hc
  have hinj : ∀ d, escape d false=d → escape c false=d → c=d := by
    intro d hd hEq
    calc c = VfsEscape.unescape (escape c false) := (VfsEscape.unescape_escape c).symm
      _ = VfsEscape.unescape (escape d false) := by rw [hEq,hd]
      _=d := VfsEscape.unescape_escape d
  refine ⟨⟨fun hEq => hne (hinj [] rfl hEq),fun hmem => ?_⟩,fun hEq => hdot (hinj dot rfl hEq),
    fun hEq => hdotdot (hinj dotdot rfl hEq)⟩
  rcases VfsEscape.mem_escape hmem with hmem | hmem | hmem
  · exact absurd hmem (by decide)
  · exact absurd hmem (by decide)
  · exact hslash hmem.1

end Names

section Ancestors

/-- The directories on the way down `names`, null pointers where the tree ends. -/
def ancestors (dir : Option VfsDirectory) : List Bytes → List (Option VfsDirectory)
  | [] => [dir]
  | name::names => dir::ancestors (dir.bind (·.find name)) names

@[simp]
theorem length_ancestors (dir : Option VfsDirectory) (names : List Bytes) :
    (ancestors dir names).length = names.length+1 := by
  induction names generalizing dir with
  | nil => rfl
  | cons name names ih => rw [ancestors,length_cons,ih,length_cons]

theorem ancestors_ne_nil (dir : Option VfsDirectory) (names : List Bytes) :
    ancestors dir names≠[] := by
  cases names <;> exact cons_ne_nil _ _

theorem getElem?_ancestors (dir : Option VfsDirectory) (names : List Bytes) {n : ℕ}
    (h : n ≤ names.length) : (ancestors dir names)[n]? = some (dir.bind (·.at? (names.take n))) := by
  induction names generalizing dir n with
  | nil =>
    obtain rfl : n=0 := Nat.le_zero.1 h
    cases dir <;> rfl
  | cons name names ih =>
    cases n with
    | zero => cases dir <;> rfl
    | succ n =>
      rw [ancestors,getElem?_cons_succ,ih _ (Nat.le_of_succ_le_succ h)]
      cases dir <;> rfl

theorem ancestors_concat (dir : Option VfsDirectory) (names : List Bytes) (name : Bytes) :
    ancestors dir (names++[name]) =
      ancestors dir names++[(ancestors dir names).getLast?.join.bind (·.find name)] := by
  induction names generalizing dir with
  | nil => rfl
  | cons c names ih =>
    rw [cons_append,ancestors,ih,ancestors,cons_append,
      getLast?_cons_of_ne_nil (ancestors_ne_nil _ names)]

theorem dropLast_ancestors (dir : Option VfsDirectory) {names : List Bytes} (h : names≠[]) :
    (ancestors dir names).dropLast = ancestors dir names.dropLast := by
  obtain ⟨init,c,rfl⟩ : ∃ init c, names = init++[c] :=
    ⟨names.dropLast,names.getLast h,(dropLast_concat_getLast h).symm⟩
  rw [ancestors_concat,dropLast_concat,dropLast_concat]

theorem latestMount_spec {single : Bool} {list : List (Option VfsDirectory)} {dir : VfsDirectory}
    {count : ℕ} (h : latestMount single list = some (dir,count)) :
    ∃ front rest, list = front++some dir::rest ∧ rest.length=count ∧
      ∀ d, some d∈front → d.path=[] := by
  induction list with
  | nil => cases h
  | cons head list ih =>
    have hkeep : (∀ d, head = some d → d.path=[]) → latestMount single list = some (dir,count) →
        ∃ front rest, head::list = front++some dir::rest ∧ rest.length=count ∧
          ∀ d, some d∈front → d.path=[] := by
      intro hhead hlist
      obtain ⟨front,rest,hsplit,hlength,hfront⟩ := ih hlist
      refine ⟨head::front,rest,by rw [hsplit]; rfl,hlength,fun d hd => ?_⟩
      rcases mem_cons.1 hd with hd | hd
      · exact hhead d hd.symm
      · exact hfront d hd
    cases head with
    | none => exact hkeep (fun d hd => by cases hd) h
    | some d =>
      rw [latestMount] at h
      split at h
      · cases h
        exact ⟨[],list,rfl,rfl,fun e he => absurd he not_mem_nil⟩
      · rename_i hpath
        refine hkeep (fun e he => ?_) h
        cases he
        exact not_not.1 (not_or.1 hpath).1

/-- The mount point that `latestMount` finds on the way down `names`. -/
theorem latestMount_ancestors {root : VfsDirectory} {names : List Bytes} {dir : VfsDirectory}
    {single : Bool} {count : ℕ}
    (h : latestMount single (ancestors (some root) names).reverse = some (dir,count)) :
    count ≤ names.length ∧ root.at? (names.take count) = some dir ∧
      ∀ n, count < n → n ≤ names.length → ∀ d, root.at? (names.take n) = some d → d.path=[] := by
  obtain ⟨front,rest,hsplit,hlength,hfront⟩ := latestMount_spec h
  have hlist : ancestors (some root) names = rest.reverse++some dir::front.reverse := by
    rw [← reverse_reverse (ancestors (some root) names),hsplit]
    simp
  have hcount : rest.reverse.length=count := by rw [length_reverse,hlength]
  have hle : count ≤ names.length := by
    have := congrArg length hlist
    simp only [length_ancestors,length_append,length_cons] at this
    omega
  refine ⟨hle,?_,fun n hn hnle d hd => ?_⟩
  · have hget := getElem?_ancestors (some root) names hle
    rw [hlist,← hcount,getElem?_append_right (Nat.le_refl _),Nat.sub_self] at hget
    rw [← hcount]
    exact (Option.some.inj hget).symm
  · have hget := getElem?_ancestors (some root) names hnle
    rw [hlist,getElem?_append_right (by omega),hcount] at hget
    obtain ⟨k,hk⟩ : ∃ k, n-count = k+1 := ⟨n-count-1,by omega⟩
    rw [hk,getElem?_cons_succ] at hget
    refine hfront d (mem_reverse.1 (mem_of_getElem? (i := k) ?_))
    rw [hget]
    exact congrArg some hd

end Ancestors

section Loop

def NoHostRoot (root : VfsDirectory) : Prop :=
  ∀ names dir, root.at? names = some dir → dir.path≠[slash]

theorem ancestors_last (root : VfsDirectory) (names : List Bytes) :
    (ancestors (some root) names).getLast?.join = root.at? names := by
  have hget := getElem?_ancestors (some root) names (Nat.le_refl names.length)
  rw [take_length] at hget
  rw [getLast?_eq_getElem?,length_ancestors,Nat.add_sub_cancel,hget]
  rfl

theorem at?_concat (root : VfsDirectory) (names : List Bytes) (name : Bytes) :
    root.at? (names++[name]) = (root.at? names).bind (·.find name) := by
  induction names generalizing root with
  | nil => cases h : root.find name <;> simp [VfsDirectory.at?,h]
  | cons c names ih =>
    rw [cons_append,VfsDirectory.at?,VfsDirectory.at?]
    cases h : root.find c with
    | none => rfl
    | some child => exact ih child

/-- No directory that is passed on the way along the components is mounted on the host root. -/
def AvoidsHostRoot (root : VfsDirectory) (names components : List Bytes) : Prop :=
  ∀ k dir, root.at? ((components.take k).foldl pushName names) = some dir → dir.path≠[slash]

theorem NoHostRoot.avoids {root : VfsDirectory} (hroot : NoHostRoot root)
    (names components : List Bytes) : AvoidsHostRoot root names components := fun _ _ => hroot _ _

theorem getLoop_name {root : VfsDirectory} (configDir : Bytes) (rounds : ℕ) (names : List Bytes)
    {vpath name rest : Bytes} (h : nextFragment vpath = .name name rest)
    (hroot : ∀ dir, root.at? (pushName names name) = some dir → dir.path≠[slash]) :
    getLoop configDir (rounds+1) (ancestors (some root) names) names vpath =
      getLoop configDir rounds (ancestors (some root) (pushName names name))
        (pushName names name) rest := by
  rw [getLoop,h]
  rw [pushName] at hroot ⊢
  simp only [length_ancestors]
  split
  · rfl
  split
  · by_cases hnames : names=[]
    · subst hnames
      rfl
    · have hlength : names.length+1≠1 := by
        simpa using hnames
      rw [if_neg hlength,dropLast_ancestors _ hnames]
  next hdot hdotdot =>
    have hlast := at?_concat root names name
    rw [ancestors_concat,ancestors_last,← hlast]
    rw [if_neg hdot,if_neg hdotdot] at hroot
    cases hdir : root.at? (names++[name]) with
    | none => rfl
    | some dir => exact if_neg (hroot dir hdir)

/-- The loop descends to the normalised path and leaves a slash there if the path has one. -/
theorem getLoop_eq {root : VfsDirectory} (configDir : Bytes) (rounds : ℕ) (names : List Bytes)
    {vpath : Bytes} (hroot : AvoidsHostRoot root names (components slash vpath))
    (habs : ∀ a∈vpath.head?, a=slash) (hrounds : vpath.length < rounds) :
    ∃ rest : Bytes, (rest≠[] ↔ EndsWithSlash vpath) ∧
      getLoop configDir rounds (ancestors (some root) names) names vpath =
        some (finalize (ancestors (some root) ((components slash vpath).foldl pushName names))
          ((components slash vpath).foldl pushName names) rest) := by
  induction rounds generalizing names vpath with
  | zero => omega
  | succ rounds ih =>
    by_cases hskip : vpath.dropWhile (· == slash)=[]
    · refine ⟨vpath,(endsWithSlash_of_finished hskip).symm,?_⟩
      rw [getLoop,nextFragment_finished hskip,components_of_dropWhile_eq_nil hskip]
      rfl
    · have hlt := length_dropWhile_lt hskip
      rw [(components_of_dropWhile_ne_nil hskip).2] at hroot ⊢
      rw [foldl_cons,← endsWithSlash_rest hskip,
        getLoop_name configDir rounds names (nextFragment_name habs hskip) (hroot 1)]
      exact ih _ (fun k => hroot (k+1)) head?_dropWhile_ne (by omega)

end Loop

section Result

variable {names : List Bytes}

theorem intercalate_final {rest : Bytes} :
    [slash].intercalate ((names++if rest≠[] then [[]] else []).map (escape · false)) =
      [slash].intercalate (names.map (escape · false)) ++
        if rest≠[] ∧ names≠[] then [slash] else [] := by
  have hempty : escape [] false=[] := rfl
  by_cases hrest : rest=[]
  · simp [hrest]
  by_cases hnames : names=[]
  · simp [hrest,hnames,hempty]
  · rw [if_pos hrest,if_pos ⟨hrest,hnames⟩,map_append]
    exact intercalate_concat (by simpa using hnames) _

theorem finalize_ne_nil {list : List (Option VfsDirectory)} {result : List Bytes} {rest : Bytes}
    (h : finalize list result rest≠[]) :
    ∃ dir count, latestMount (list.length=1) list.reverse = some (dir,count) ∧ dir.path≠[] ∧
      finalize list result rest =
        dir.path++[slash].intercalate ((result.drop count).map (escape · false)) ++
          if rest≠[] ∧ result.drop count≠[] then [slash] else [] := by
  unfold finalize at h ⊢
  cases hlatest : latestMount (list.length=1) list.reverse with
  | none =>
    rw [hlatest] at h
    exact absurd rfl h
  | some found =>
    obtain ⟨dir,count⟩ := found
    simp only [hlatest] at h ⊢
    split at h
    · exact absurd rfl h
    · rename_i hpath
      refine ⟨dir,count,rfl,hpath,?_⟩
      rw [if_neg hpath,intercalate_final,append_assoc]

theorem components_append_names {base : Bytes} (hbase : EndsWithSlash base) (h : Ordinary names)
    (final : Bool) :
    components slash (base++[slash].intercalate names++if final then [slash] else []) =
      components slash base++names := by
  obtain ⟨init,rfl⟩ := getLast?_eq_some_iff.1 hbase
  cases final with
  | true =>
    rw [if_pos rfl,components_concat_sep,← append_cons,components_append_sep,
      components_intercalate h.isComponent,components_concat_sep]
  | false =>
    rw [if_neg Bool.false_ne_true,append_nil,← append_cons,components_append_sep,
      components_intercalate h.isComponent,components_concat_sep]

/-- The names of a host path behind a directory. -/
theorem normalNames_append {base : Bytes} (hbase : EndsWithSlash base) (h : Ordinary names)
    (final : Bool) :
    normalNames (base++[slash].intercalate names++if final then [slash] else []) =
      normalNames base++names := by
  rw [normalNames,components_append_names hbase h,foldl_append,foldl_of_ordinary h, normalNames]

end Result

variable {root : VfsDirectory}

theorem get_eq (configDir : Bytes) {vpath : Bytes}
    (hroot : AvoidsHostRoot root [] (components slash vpath)) (habs : vpath.head? = some slash) :
    ∃ rest : Bytes, (rest≠[] ↔ EndsWithSlash vpath) ∧ get configDir root vpath =
      some (finalize (ancestors (some root) (normalNames vpath)) (normalNames vpath) rest) := by
  have hne : vpath≠[] := by
    rintro rfl
    cases habs
  have hhead : ∀ a∈vpath.head?, a=slash := fun a ha => Option.some.inj (ha.symm.trans habs)
  obtain ⟨rest,hrest,heq⟩ :=
    getLoop_eq configDir (vpath.length+1) [] hroot hhead (Nat.lt_succ_self _)
  refine ⟨rest,hrest,?_⟩
  rw [get,if_neg hne]
  exact heq

/-- The guest path leads to the host path through the mount point at its first `n` names, the
deepest one on the way. -/
structure Reaches (root : VfsDirectory) (vpath host : Bytes) (n : ℕ) (dir : VfsDirectory) : Prop where
  le : n ≤ (normalNames vpath).length
  at_eq : root.at? ((normalNames vpath).take n) = some dir
  mounted : dir.path≠[]
  deepest : ∀ m, n < m → m ≤ (normalNames vpath).length →
    ∀ d, root.at? ((normalNames vpath).take m) = some d → d.path=[]
  host_eq : host = dir.path ++
    [slash].intercalate (((normalNames vpath).drop n).map (escape · false)) ++
      (if EndsWithSlash vpath ∧ (normalNames vpath).drop n≠[] then [slash] else [])

theorem latestMount_append {single : Bool} {front rest : List (Option VfsDirectory)}
    {dir : VfsDirectory} (hfront : ∀ d, some d∈front → d.path=[]) (hdir : dir.path≠[])
    (hsingle : front≠[] → single=false) :
    latestMount single (front++some dir::rest) = some (dir,rest.length) := by
  induction front with
  | nil => rw [nil_append,latestMount,if_pos (.inl hdir)]
  | cons head front ih =>
    have hfalse := hsingle (cons_ne_nil head front)
    have hrest := ih (fun d hd => hfront d (mem_cons_of_mem head hd)) fun _ => hfalse
    cases head with
    | none => exact hrest
    | some d =>
      have hempty := hfront d mem_cons_self
      rw [cons_append,latestMount,if_neg,hrest]
      simp [hempty,hfalse]

theorem latestMount_eq {dir : VfsDirectory} {names : List Bytes} {n : ℕ} (hn : n ≤ names.length)
    (hdir : root.at? (names.take n) = some dir) (hpath : dir.path≠[])
    (hdeepest : ∀ m, n < m → m ≤ names.length → ∀ d, root.at? (names.take m) = some d → d.path=[]) :
    latestMount ((ancestors (some root) names).length=1) (ancestors (some root) names).reverse =
      some (dir,n) := by
  have hget := getElem?_ancestors (some root) names hn
  obtain ⟨hlt,hat⟩ := List.getElem?_eq_some_iff.1 hget
  have hsplit : (ancestors (some root) names).reverse =
      ((ancestors (some root) names).drop (n+1)).reverse ++
        some dir::((ancestors (some root) names).take n).reverse := by
    have hcut := take_append_drop n (ancestors (some root) names)
    rw [drop_eq_getElem_cons hlt,hat,Option.bind_some,hdir] at hcut
    conv_lhs => rw [← hcut]
    simp
  have hlength : ((ancestors (some root) names).take n).reverse.length=n := by
    rw [length_reverse,length_take,length_ancestors]
    omega
  rw [hsplit,latestMount_append _ hpath,hlength]
  · intro hne
    rw [length_ancestors,decide_eq_false_iff_not]
    intro hone
    refine hne ?_
    rw [drop_eq_nil_of_le (by rw [length_ancestors]; omega),reverse_nil]
  · intro d hd
    obtain ⟨i,hi⟩ := getElem?_of_mem (mem_reverse.1 hd)
    rw [getElem?_drop] at hi
    have hle : n+1+i ≤ names.length := by
      have := (List.getElem?_eq_some_iff.1 hi).1
      rw [length_ancestors] at this
      omega
    rw [getElem?_ancestors _ _ hle] at hi
    exact hdeepest (n+1+i) (by omega) hle d (Option.some.inj hi)

theorem get_eq_some_iff (configDir : Bytes) {vpath host : Bytes}
    (hroot : AvoidsHostRoot root [] (components slash vpath)) (habs : vpath.head? = some slash)
    (hhost : host≠[]) :
    get configDir root vpath = some host ↔ ∃ n dir, Reaches root vpath host n dir := by
  obtain ⟨rest,hrest,hget⟩ := get_eq configDir hroot habs
  rw [hget,Option.some_inj]
  constructor
  · intro heq
    obtain ⟨dir,n,hlatest,hpath,hfinal⟩ := finalize_ne_nil (heq.symm ▸ hhost)
    obtain ⟨hn,hdir,hdeepest⟩ := latestMount_ancestors hlatest
    simp only [hrest] at hfinal
    exact ⟨n,dir,hn,hdir,hpath,hdeepest,heq.symm.trans hfinal⟩
  · rintro ⟨n,dir,h⟩
    have hhost_eq := h.host_eq
    simp only [← hrest] at hhost_eq
    rw [finalize,latestMount_eq h.le h.at_eq h.mounted h.deepest]
    simp only [if_neg h.mounted]
    rw [intercalate_final,hhost_eq,append_assoc]

/-- Every absolute guest path has an answer, and one that is not empty is the host path of
the deepest mount point on the way to the normalised guest path with the escaped names of
the rest behind it. Below the host directory of a mount the escaped names stay below it. -/
theorem get_stays_in_mount {root : VfsDirectory} (hroot : NoHostRoot root) (configDir : Bytes)
    {vpath : Bytes} (habs : vpath.head? = some slash) :
    ∃ host, get configDir root vpath = some host ∧ (host≠[] →
      ∃ n dir, n ≤ (normalNames vpath).length ∧
        root.at? ((normalNames vpath).take n) = some dir ∧ dir.path≠[] ∧
        (∀ m, n < m → m ≤ (normalNames vpath).length →
          ∀ d, root.at? ((normalNames vpath).take m) = some d → d.path=[]) ∧
        host = dir.path++[slash].intercalate (((normalNames vpath).drop n).map (escape · false)) ++
          (if EndsWithSlash vpath ∧ (normalNames vpath).drop n≠[] then [slash] else []) ∧
        (∀ c∈((normalNames vpath).drop n).map (escape · false),
          c≠dot ∧ c≠dotdot ∧ slash∉c ∧ 0x5C∉c ∧ 0x3A∉c) ∧
        (EndsWithSlash dir.path → normalNames host = normalNames dir.path ++
            ((normalNames vpath).drop n).map (escape · false))) := by
  obtain ⟨rest,-,hget⟩ := get_eq configDir (hroot.avoids _ _) habs
  refine ⟨_,hget,fun hhost => ?_⟩
  obtain ⟨n,dir,hreaches⟩ := (get_eq_some_iff configDir (hroot.avoids _ _) habs hhost).1 hget
  have hnames : Ordinary (((normalNames vpath).drop n).map (escape · false)) :=
    escape_ordinary fun c hc => normalNames_ordinary vpath c (mem_of_mem_drop hc)
  refine ⟨n,dir,hreaches.le,hreaches.at_eq,hreaches.mounted,hreaches.deepest,
    hreaches.host_eq,fun c hc => ?_,fun hbase => ?_⟩
  · obtain ⟨⟨-,hslash⟩,hdot,hdotdot⟩ := hnames c hc
    obtain ⟨d,-,rfl⟩ := mem_map.1 hc
    refine ⟨hdot,hdotdot,hslash,fun hmem => ?_,fun hmem => ?_⟩
    · exact absurd (by decide) (VfsEscape.escape_not_reserved hmem)
    · exact absurd (by decide) (VfsEscape.escape_not_reserved hmem)
  · rw [hreaches.host_eq]
    have := normalNames_append hbase hnames (EndsWithSlash vpath ∧ (normalNames vpath).drop n≠[])
    simpa using this

theorem VfsDirectory.Every.noHostRoot (h : root.Every (·≠[slash])) :
    NoHostRoot root := fun _ _ hdir => (h.at? hdir).path

def discTable : VfsDirectory := .mk [] [(ascii "disc",.mk (ascii "/iso/") [])]

theorem discTable_every : discTable.Every (·≠[slash]) := by
  refine .mk (by decide) fun e he => ?_
  rw [mem_singleton.1 he]
  exact .mk (by decide) nofun

theorem get_stays_in_mount_disc : get [] discTable (ascii "/disc/x/../a") = some (ascii "/iso/a") ∧
    ∃ n dir, discTable.at? ((normalNames (ascii "/disc/x/../a")).take n) = some dir ∧
      ascii "/iso/a" = dir.path ++
        [slash].intercalate (((normalNames (ascii "/disc/x/../a")).drop n).map (escape · false)) ++
          (if EndsWithSlash (ascii "/disc/x/../a") ∧
            (normalNames (ascii "/disc/x/../a")).drop n≠[] then [slash] else []) := by
  have hget : get [] discTable (ascii "/disc/x/../a") = some (ascii "/iso/a") := by decide
  obtain ⟨host,hhost,hspec⟩ := get_stays_in_mount discTable_every.noHostRoot []
    (show (ascii "/disc/x/../a").head? = some slash from rfl)
  obtain rfl : ascii "/iso/a" = host := Option.some.inj (hget.symm.trans hhost)
  obtain ⟨n,dir,-,hdir,-,-,hEq,-⟩ := hspec (by decide)
  exact ⟨hget,n,dir,hdir,hEq⟩

/-- A final slash of the guest path is not added where no name is left of it, and a name
below a file that is mounted is glued to the name of the file. -/
theorem get_final_slash_and_file_mount :
    ((mount id (.mk [] []) (ascii "/disc") (ascii "/iso") true).bind fun table =>
      get [] table.1 (ascii "/disc/")) = some (ascii "/iso/") ∧
    ((mount id (.mk [] []) (ascii "/song") (ascii "/music/a") false).bind fun table =>
      get [] table.1 (ascii "/song/b")) = some (ascii "/music/ab") := by decide

end PS3Native.Vfs
