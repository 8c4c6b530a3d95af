import PS3Native.PathComponents

/-!
# Resolution of a guest path

`lv2_fs_object::get_path_root_and_trail` walks over a path with positions and keeps the
first component, the rest joined by slashes and the depth. It computes what a stack of
components would.
-/
namespace PS3Native.SysFsPath

open PathComponents List

abbrev Bytes := List UInt8

def slash : UInt8 := 0x2F

def dot : Bytes := [0x2E]

def dotdot : Bytes := [0x2E,0x2E]

/-- The pair that makes the callers answer `CELL_ENOENT`. -/
def enoent : Bytes × Bytes := ([],ascii "ENOENT")

structure Walk where
  root : Bytes
  trail : Bytes
  level : ℕ
  deriving DecidableEq, Repr

inductive Visit
  | next (w : Walk)
  | enoent
  | ensureFails
  deriving DecidableEq, Repr

def resizeTrail (trail : Bytes) : Bytes :=
  let trail := trail.take (after (findLastOf trail slash))
  trail.take (after (findLastNotOf trail slash))

def visit (w : Walk) (component : Bytes) : Visit :=
  if component=dot then .next w
  else if component=dotdot then
    if 1 < w.level then
      if w.trail=[] then .ensureFails
      else .next {w with trail := resizeTrail w.trail, level := w.level-1}
    else if w.level=1 then .next {w with root := [], level := w.level-1}
    else .enoent
  else if w.level=0 then .next {w with root := component, level := w.level+1}
  else if w.trail=[] then .next {w with trail := component, level := w.level+1}
  else .next {w with trail := w.trail++slash::component, level := w.level+1}

/-- The loop over the positions of `filename`. It yields `none` when an `ensure` fails or
the rounds run out. -/
def pathLoop (filename : Bytes) : ℕ → Walk → Option ℕ → Option (Bytes × Bytes)
  | 0, _, _ => none
  | _+1, w, none => some (w.root,w.trail)
  | rounds+1, w, some pos =>
    let ndlPos := findFirstNotOf filename slash pos
    if ndlPos = some pos then some enoent
    else
      match ndlPos with
      | none => some (w.root,w.trail)
      | some ndlPos =>
        let dlPos := findFirstOf filename slash ndlPos
        match visit w (substr filename ndlPos (dlPos.map (·-ndlPos))) with
        | .next w => pathLoop filename rounds w dlPos
        | .enoent => some enoent
        | .ensureFails => none

def getPathRootAndTrail (filename : Bytes) : Option (Bytes × Bytes) :=
  if filename=[] then some enoent
  else pathLoop filename (filename.length+1) ⟨[],[],0⟩ (some 0)

section Stack

/-- A component meets the stack: empty ones and `.` are ignored and `..` pops. -/
def pushComponent (stack : List Bytes) (component : Bytes) : Option (List Bytes) :=
  if component=[] ∨ component=dot then some stack
  else if component=dotdot then
    if stack=[] then none else some stack.dropLast
  else some (stack++[component])

/-- The stack that the components of a path leave, if no `..` finds it empty. -/
def normalise (path : Bytes) : Option (List Bytes) := (path.splitOn slash).foldlM pushComponent []

def rootOf (stack : List Bytes) : Bytes := stack.headD []

def trailOf (stack : List Bytes) : Bytes := [slash].intercalate stack.tail

def normalisedPath (pair : Bytes × Bytes) : Bytes :=
  if pair.2=[] then slash::pair.1 else slash::pair.1++slash::pair.2

def Walk.ofStack (stack : List Bytes) : Walk := ⟨rootOf stack,trailOf stack,stack.length⟩

@[simp]
theorem Walk.ofStack_root (stack : List Bytes) : (Walk.ofStack stack).root = rootOf stack := rfl

@[simp]
theorem Walk.ofStack_trail (stack : List Bytes) : (Walk.ofStack stack).trail = trailOf stack := rfl

@[simp]
theorem Walk.ofStack_level (stack : List Bytes) : (Walk.ofStack stack).level=stack.length := rfl

def answer : Option (List Bytes) → Bytes × Bytes
  | none => enoent
  | some stack => (rootOf stack,trailOf stack)

/-- The components of a stack: they name something. -/
def Ordinary (stack : List Bytes) : Prop :=
  ∀ c∈stack, IsComponent slash c ∧ c≠dot ∧ c≠dotdot

variable {stack : List Bytes} {c : Bytes}

theorem Ordinary.isComponent (h : Ordinary stack) :
    ∀ c∈stack, IsComponent slash c := fun c hc => (h c hc).1

theorem Ordinary.pushComponent {st : List Bytes} (h : Ordinary stack) (hc : IsComponent slash c)
    (hst : pushComponent stack c = some st) : Ordinary st := by
  unfold SysFsPath.pushComponent at hst
  split at hst
  · cases hst
    exact h
  · rename_i hdot
    split at hst
    · split at hst
      · cases hst
      · cases hst
        exact fun d hd => h d ((dropLast_sublist stack).subset hd)
    · rename_i hdotdot
      cases hst
      intro d hd
      rcases mem_append.1 hd with hd | hd
      · exact h d hd
      · rw [mem_singleton.1 hd]
        exact ⟨hc,fun hEq => hdot (.inr hEq),hdotdot⟩

theorem trailOf_eq_nil (h : Ordinary stack) : trailOf stack=[] ↔ stack.length ≤ 1 := by
  rcases stack with _ | ⟨c,_ | ⟨d,rest⟩⟩
  · simp [trailOf]
  · simp [trailOf]
  · have hd : d≠[] := (h d (by simp)).1.1
    cases rest <;> simp [trailOf,intercalate_cons_cons,hd]

theorem resizeTrail_trailOf (h : Ordinary stack) (hlevel : 1 < stack.length) :
    resizeTrail (trailOf stack) = trailOf stack.dropLast := by
  obtain ⟨init,c,rfl⟩ : ∃ init c, stack = init++[c] := by
    obtain ⟨init,c,hEq⟩ := eq_nil_or_concat stack |>.resolve_left (by
      rintro rfl
      simp at hlevel)
    exact ⟨init,c,by rw [hEq,concat_eq_append]⟩
  cases init with
  | nil => simp at hlevel
  | cons d init =>
    have hc : slash∉c := (h c (by simp)).1.2
    have hinit : ∀ e∈init, IsComponent slash e := fun e he => (h e (by simp [he])).1
    have htrail : trailOf (d::init++[c]) = [slash].intercalate (init++[c]) := rfl
    rw [resizeTrail,htrail,dropLast_concat]
    exact take_intercalate_concat hinit hc rfl

theorem trailOf_concat (h : 1 < stack.length) (c : Bytes) :
    trailOf (stack++[c]) = trailOf stack++slash::c := by
  rcases stack with _ | ⟨d,_ | ⟨e,rest⟩⟩
  · simp at h
  · simp at h
  · exact intercalate_concat (cons_ne_nil e rest) c

theorem rootOf_concat (h : stack≠[]) (c : Bytes) : rootOf (stack++[c]) = rootOf stack := by
  cases stack with
  | nil => exact absurd rfl h
  | cons d stack => rfl

theorem rootOf_dropLast (h : 1 < stack.length) : rootOf stack.dropLast = rootOf stack := by
  rcases stack with _ | ⟨d,_ | ⟨e,rest⟩⟩
  · simp at h
  · simp at h
  · rfl

theorem visit_push (h : Ordinary stack) (hdot : c≠dot) (hdotdot : c≠dotdot) :
    visit (Walk.ofStack stack) c = .next (Walk.ofStack (stack++[c])) := by
  have htrail := trailOf_eq_nil h
  simp only [visit,if_neg hdot,if_neg hdotdot,Walk.ofStack_level,Walk.ofStack_trail,htrail]
  rcases Nat.lt_trichotomy stack.length 1 with hlevel | hlevel | hlevel
  · obtain rfl : stack=[] := length_eq_zero_iff.1 (by omega)
    rfl
  · obtain ⟨d,rfl⟩ := length_eq_one_iff.1 hlevel
    simp [Walk.ofStack,rootOf,trailOf]
  · have hne : stack≠[] := fun hEq => by simp [hEq] at hlevel
    rw [if_neg (by omega),if_neg (by omega)]
    simp [Walk.ofStack,trailOf_concat hlevel,rootOf_concat hne]

theorem visit_pop (h : Ordinary stack) (hne : stack≠[]) :
    visit (Walk.ofStack stack) dotdot = .next (Walk.ofStack stack.dropLast) := by
  have htrail := trailOf_eq_nil h
  have hpos := length_pos_iff.2 hne
  have hdot : dotdot≠dot := by decide
  simp only [visit,if_neg hdot,if_true,Walk.ofStack_level,Walk.ofStack_trail,htrail]
  rcases Nat.lt_or_ge 1 stack.length with hlevel | hlevel
  · rw [if_pos hlevel,if_neg (by omega)]
    simp [Walk.ofStack,resizeTrail_trailOf h hlevel,rootOf_dropLast hlevel]
  · obtain ⟨d,rfl⟩ := length_eq_one_iff.1 (show stack.length = 1 by omega)
    rfl

theorem visit_ofStack (h : Ordinary stack) (hc : IsComponent slash c) :
    visit (Walk.ofStack stack) c =
      (pushComponent stack c).elim .enoent fun st => .next (Walk.ofStack st) := by
  by_cases hdot : c=dot
  · rw [visit,if_pos hdot,pushComponent,if_pos (.inr hdot)]
    rfl
  rw [pushComponent,if_neg (not_or.2 ⟨hc.1,hdot⟩)]
  by_cases hdotdot : c=dotdot
  · subst hdotdot
    by_cases hne : stack=[]
    · subst hne
      rfl
    · rw [visit_pop h hne,if_neg hne]
      rfl
  · rw [visit_push h hdot hdotdot,if_neg hdotdot]
    rfl

/-- The loop computes the stack of the components that are left. -/
theorem pathLoop_eq (filename : Bytes) (rounds : ℕ) {pos : Option ℕ} (h : Ordinary stack)
    (hpos : ∀ a∈(suffix filename pos).head?, a=slash)
    (hrounds : (suffix filename pos).length < rounds) :
    pathLoop filename rounds (Walk.ofStack stack) pos =
      some (answer ((components slash (suffix filename pos)).foldlM pushComponent stack)) := by
  induction rounds generalizing stack pos with
  | zero => omega
  | succ rounds ih =>
    cases pos with
    | none => rfl
    | some pos =>
      have hself : findFirstNotOf filename slash pos≠some pos := by
        rw [Ne,findFirstNotOf_eq_self]
        rintro ⟨a,ha,hne⟩
        exact hne (hpos a ha)
      have hskip := suffix_findFirstNotOf filename slash pos
      rw [pathLoop,if_neg hself]
      cases hndl : findFirstNotOf filename slash pos with
      | none =>
        have hnil := findFirstNotOf_eq_none.1 hndl
        rw [suffix,components_of_dropWhile_eq_nil hnil]
        rfl
      | some ndlPos =>
        have hne : (filename.drop pos).dropWhile (· == slash)≠[] := by
          rw [Ne,← findFirstNotOf_eq_none,hndl]
          exact Option.some_ne_none ndlPos
        obtain ⟨hc,hcomponents⟩ := components_of_dropWhile_ne_nil hne
        have hdrop : filename.drop ndlPos = (filename.drop pos).dropWhile (· == slash) := by
          rw [← hskip,hndl]
          rfl
        have hrest := suffix_findFirstOf filename slash ndlPos
        rw [← hdrop] at hc hcomponents
        rw [← hrest] at hcomponents
        simp only [substr_findFirstOf,visit_ofStack h hc]
        rw [suffix,hcomponents,foldlM_cons]
        cases hpush : pushComponent stack ((filename.drop ndlPos).takeWhile (· != slash)) with
        | none => rfl
        | some st =>
          refine ih (h.pushComponent hc hpush) ?_ ?_
          · rw [hrest]
            exact head?_dropWhile_ne
          · have hlt := length_dropWhile_lt hne
            rw [← hdrop,← hrest] at hlt
            exact Nat.lt_of_lt_of_le hlt (Nat.le_of_lt_succ hrounds)

theorem foldlM_ordinary {components st : List Bytes} (hc : ∀ c∈components, IsComponent slash c)
    (h : Ordinary stack) (hst : components.foldlM pushComponent stack = some st) : Ordinary st := by
  induction components generalizing stack with
  | nil =>
    cases hst
    exact h
  | cons c cs ih =>
    obtain ⟨mid,hpush,hrest⟩ := Option.bind_eq_some_iff.1 hst
    exact ih (fun d hd => hc d (mem_cons_of_mem c hd))
      (h.pushComponent (hc c mem_cons_self) hpush) hrest

theorem foldlM_of_ordinary (h : Ordinary stack) (base : List Bytes) :
    stack.foldlM pushComponent base = some (base++stack) := by
  induction stack generalizing base with
  | nil => simp
  | cons c cs ih =>
    obtain ⟨hc,hdot,hdotdot⟩ := h c mem_cons_self
    have hpush : pushComponent base c = some (base++[c]) := by
      rw [pushComponent,if_neg (not_or.2 ⟨hc.1,hdot⟩),if_neg hdotdot]
    rw [foldlM_cons,hpush]
    simpa using ih (fun d hd => h d (mem_cons_of_mem c hd)) (base++[c])

theorem ordinary_nil : Ordinary [] := fun _ hc => absurd hc not_mem_nil

theorem normalise_eq (path : Bytes) :
    normalise path = (components slash path).foldlM pushComponent [] :=
  (foldlM_components (fun stack => by rw [pushComponent,if_pos (.inl rfl)]) path []).symm

theorem normalise_ordinary {path : Bytes} (h : normalise path = some stack) : Ordinary stack := by
  rw [normalise_eq] at h
  exact foldlM_ordinary (fun c hc => isComponent_of_mem hc) ordinary_nil h

theorem getPathRootAndTrail_eq {filename : Bytes} (h : filename.head? = some slash) :
    getPathRootAndTrail filename = some (answer (normalise filename)) := by
  have hne : filename≠[] := fun hEq => by simp [hEq] at h
  have hpos : ∀ a∈(suffix filename (some 0)).head?, a=slash := by
    intro a ha
    rw [suffix,drop_zero,h] at ha
    exact (Option.some.inj ha).symm
  rw [getPathRootAndTrail,if_neg hne,normalise_eq]
  exact pathLoop_eq filename (filename.length+1) ordinary_nil hpos (Nat.lt_succ_self _)

theorem getPathRootAndTrail_relative {filename : Bytes} (h : filename.head?≠some slash) :
    getPathRootAndTrail filename = some enoent := by
  cases filename with
  | nil => rfl
  | cons a rest =>
    have hself : findFirstNotOf (a::rest) slash 0 = some 0 :=
      findFirstNotOf_eq_self.2 ⟨a,rfl,fun hEq => h (by rw [hEq]; rfl)⟩
    rw [getPathRootAndTrail,if_neg (cons_ne_nil a rest),pathLoop,if_pos hself]

theorem answer_ne_enoent (h : Ordinary stack) : answer (some stack)≠enoent := by
  intro hEq
  cases stack with
  | nil => exact absurd hEq (by decide)
  | cons c rest => exact (h c mem_cons_self).1.1 (congrArg Prod.fst hEq)

theorem normalisedPath_eq (h : Ordinary stack) :
    normalisedPath (rootOf stack,trailOf stack) = slash::[slash].intercalate stack := by
  simp only [normalisedPath,trailOf_eq_nil h]
  rcases stack with _ | ⟨c,_ | ⟨d,rest⟩⟩
  · rfl
  · simp [rootOf]
  · simp [rootOf,trailOf]

theorem normalise_normalisedPath (h : Ordinary stack) :
    normalise (normalisedPath (rootOf stack,trailOf stack)) = some stack := by
  rw [normalise_eq,normalisedPath_eq h,components_sep_cons,components_intercalate h.isComponent,
    foldlM_of_ordinary h,nil_append]

end Stack

/-- The walk over the positions is the stack of components: it answers `ENOENT` exactly for
a path that is not absolute or pops an empty stack, otherwise it returns the first
component and the rest of the stack, never fails, and returns the same for the path that
the result spells. -/
theorem get_path_root_and_trail_normalises (filename : Bytes) :
    (getPathRootAndTrail filename = some enoent ↔
      filename=[] ∨ filename.head?≠some slash ∨ normalise filename=none) ∧
    (getPathRootAndTrail filename = some enoent ∨ ∃ stack, normalise filename = some stack ∧
      getPathRootAndTrail filename = some (rootOf stack,trailOf stack) ∧
      getPathRootAndTrail (normalisedPath (rootOf stack,trailOf stack)) =
        some (rootOf stack,trailOf stack)) := by
  by_cases habs : filename.head? = some slash
  · have hne : filename≠[] := fun hEq => by simp [hEq] at habs
    have heq := getPathRootAndTrail_eq habs
    cases hst : normalise filename with
    | none =>
      rw [hst] at heq
      exact ⟨⟨fun _ => .inr (.inr rfl),fun _ => heq⟩,.inl heq⟩
    | some stack =>
      have hord := normalise_ordinary hst
      rw [hst] at heq
      refine ⟨⟨fun h => ?_,fun h => ?_⟩,.inr ⟨stack,rfl,heq,?_⟩⟩
      · exact absurd (Option.some.inj (heq.symm.trans h)) (answer_ne_enoent hord)
      · rcases h with h | h | h
        · exact absurd h hne
        · exact absurd habs h
        · exact absurd h (Option.some_ne_none stack)
      · have hhead : (normalisedPath (rootOf stack,trailOf stack)).head? = some slash := by
          rw [normalisedPath_eq hord]
          rfl
        rw [getPathRootAndTrail_eq hhead,normalise_normalisedPath hord]
        rfl
  · have heq := getPathRootAndTrail_relative habs
    exact ⟨⟨fun _ => .inr (.inl habs),fun _ => heq⟩,.inl heq⟩

example : getPathRootAndTrail (ascii "/dev_hdd0/game/NP1234567/../../NP1234568/.") =
    some (ascii "dev_hdd0",ascii "NP1234568") := by decide

end PS3Native.SysFsPath
