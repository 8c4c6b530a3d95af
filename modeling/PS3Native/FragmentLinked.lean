import PS3Native.FragmentSegment

/-!
# Paths of linked code

A block that is only entered through merge edges gets no edge when the enclosing body ends. In
`Linked` code this goes unnoticed: a path of edges through empty blocks joins any two instructions
that a run executes consecutively.
-/
namespace PS3Native.FragmentProgram

open StructuredCode List

def hasFork : Code → Bool
  | .done => false
  | .nop _ rest | .plain _ rest | .brk rest => hasFork rest
  | .branch _ _ _ | .loop _ _ => true

/-- The first branch or loop of the code, if it has one, is the last thing in it. -/
def endsWithFork : Code → Bool
  | .done => true
  | .nop _ rest | .plain _ rest | .brk rest => endsWithFork rest
  | .branch _ _ rest | .loop _ rest => rest = .done

/-- A branch or loop inside a body that something runs after is followed, up to the end of that
body, by nothing or by another branch or loop. A break out of a loop leads where its own body
leads, with no branch or loop in between. -/
def Linked (a : ℕ) (c : Code) (next exit : Option ℕ) : Prop :=
  match c with
  | .done => True
  | .nop literals rest => Linked (a+1+literals) rest next exit
  | .plain literals rest => Linked (a+1+literals) rest next exit
  | .brk rest =>
    (exit=none ∨ (next=exit ∧ endsWithFork rest)) ∧ Linked (a+1) rest next exit
  | .branch yes no rest =>
    let after := (rest.first (a+1+yes.size+no.size)).or next
    (rest=.done ∨ hasFork rest ∨ next=none) ∧ Linked (a+1) yes after exit ∧
      Linked (a+1+yes.size) no after exit ∧ Linked (a+1+yes.size+no.size) rest next exit
  | .loop body rest =>
    let after := (rest.first (a+1+body.size)).or next
    (rest=.done ∨ hasFork rest ∨ next=none) ∧ Linked (a+1) body after after ∧
      Linked (a+1+body.size) rest next exit

variable {E : List FlowEdge} {P : List (ℕ × ℕ)}
  {y a cur landing literals : ℕ} {c yes no rest : Code} {enter leave : EdgeType}
  {exit : Option EdgeType} {last : Bool} {next brk : Option ℕ}

section

variable (h : Stays c literals rest)

include h

theorem Stays.hasFork_eq : hasFork c = hasFork rest := by
  cases h <;> rfl

theorem Stays.endsWithFork_eq : endsWithFork c = endsWithFork rest := by
  cases h <;> rfl

theorem Stays.linked (hlinked : Linked a c next brk) : Linked (a+1+literals) rest next brk := by
  cases h
  · exact hlinked
  · exact hlinked
  · exact hlinked.2

theorem Stays.mem_flow {x : ℕ} (cur : ℕ) (hxy : (x,y)∈flow a c next brk) :
    (x,y)∈flow (a+1+literals) rest next brk ∨
      ((cur,a)∈place a c cur ∧ x=a ∧ ((rest.first (a+1+literals)).or next = some y ∨
        (c = .brk rest ∧ brk = some y))) := by
  cases h <;> simp only [flow,mem_append,mem_link] at hxy
  · exact .inl hxy
  · exact hxy.symm.imp_right fun h => ⟨mem_cons_self,h.1,.inl h.2⟩
  · rcases hxy with (h | h) | h
    · exact .inr ⟨mem_cons_self,h.1,.inl h.2⟩
    · exact .inr ⟨mem_cons_self,h.1,.inr ⟨rfl,h.2⟩⟩
    · exact .inl h

theorem Stays.flow_subset : flow (a+1+literals) rest next brk ⊆ flow a c next brk := by
  cases h
  · exact List.Subset.refl _
  · exact subset_append_right _ _
  · exact subset_append_right _ _

end

theorem Fork.endsWithFork_eq (h : Fork c enter leave yes no rest) :
    endsWithFork c = decide (rest=.done) := by
  cases h <;> rfl

/-- Where a break in the first part of a fork leads: out of a loop, to what runs after it. -/
def innerBreak (enter : EdgeType) (after brk : Option ℕ) : Option ℕ :=
  if enter=.loop then after else brk

theorem Fork.mem_flow {x : ℕ} {after : Option ℕ} (h : Fork c enter leave yes no rest)
    (hafter : (rest.first (a+1+yes.size+no.size)).or next=after) :
    (x,y)∈flow a c next brk ↔ (x=a ∧ (yes.first (a+1)).or after = some y) ∨
      (x=a ∧ (no.first (a+1+yes.size)).or after = some y) ∨
      (x,y)∈flow (a+1) yes after (innerBreak enter after brk) ∨
      (x,y)∈flow (a+1+yes.size) no after brk ∨
      (x,y)∈flow (a+1+yes.size+no.size) rest next brk := by
  subst hafter
  cases h <;> simp [flow,innerBreak,Code.size,Code.first]

theorem Fork.linked_iff (h : Fork c enter leave yes no rest) {after : Option ℕ}
    (hafter : (rest.first (a+1+yes.size+no.size)).or next=after) :
    Linked a c next brk ↔ (rest=.done ∨ hasFork rest ∨ next=none) ∧
      Linked (a+1) yes after (innerBreak enter after brk) ∧
      Linked (a+1+yes.size) no after brk ∧
      Linked (a+1+yes.size+no.size) rest next brk := by
  subst hafter
  cases h <;> simp [Linked,innerBreak,Code.size]

theorem Linking.goes {b m : ℕ} (h : Linking E b m) (hm : Leads E P m y) : Goes E P b y := by
  rcases hm with hm | ⟨hempty,b',hb',hpath⟩
  · exact ⟨m,hm,.edge h⟩
  · exact ⟨b',hb',.step h hempty hpath⟩

/-- Code without an instruction and without a fork is skipped. -/
theorem hasFork_of_first_none (h : c.first a=none) : hasFork c=false := by
  induction c generalizing a with
  | done => rfl
  | nop literals rest ih => exact ih h
  | _ => cases h

theorem endsWithFork_of_not_hasFork (h : hasFork c=false) : endsWithFork c := by
  induction c with
  | done => rfl
  | nop literals rest ih | plain literals rest ih | brk rest ih => exact ih h
  | _ => cases h

theorem place_of_first_none (h : c.first a=none) : place a c cur=[] := by
  induction c generalizing a with
  | done => rfl
  | nop literals rest ih => exact ih h
  | _ => cases h

theorem wire_of_not_hasFork (h : hasFork c=false) :
    wire a c cur exit landing last = wire a .done cur exit landing last := by
  induction c generalizing a with
  | done => rfl
  | nop literals rest ih | plain literals rest ih | brk rest ih => exact ih h
  | _ => cases h

theorem Segment.linking {m : ℕ} {type : EdgeType} (h : Segment E P a c cur exit landing last)
    (hc : Fork c enter leave yes no rest) (he : ⟨type,cur,m⟩∈forkEdges enter leave a cur yes no
      (mergeBlock rest (a+1+yes.size+no.size) landing)) : Linking E cur m :=
  ⟨type,h.wire_sub _ (hc.mem_wire.mpr (.inl he))⟩

/-- The current block leads on to whatever runs after code that ends with its first fork. -/
theorem Segment.goes_next (h : Segment E P a c cur exit landing false) (hends : endsWithFork c)
    (hexit : exit=none → hasFork c) (hy : Leads E P landing y) : Goes E P cur y := by
  induction c using code_induction generalizing a with
  | done =>
    cases exit with
    | none => cases hexit rfl
    | some type => exact Linking.goes ⟨type,h.wire_sub _ (by simp [wire])⟩ hy
  | stays hc ih => exact ih (h.stays hc) (hc.endsWithFork_eq ▸ hends) (hc.hasFork_eq ▸ hexit)
  | fork hc =>
    rw [hc.endsWithFork_eq,decide_eq_true_eq] at hends
    have hmerge := h.linking hc (mem_forkEdges.mpr (.inr (.inr rfl)))
    rw [mergeBlock,if_pos hends] at hmerge
    exact hmerge.goes hy

def Follows (E : List FlowEdge) (P : List (ℕ × ℕ)) (next : Option ℕ) (landing : ℕ) (last : Bool) :
    Prop :=
  ∀ y, next = some y → last=false ∧ Leads E P landing y

/-- The current block holds the next instruction to run or leads to it. -/
theorem Segment.stays_or_goes (h : Segment E P a c cur exit landing last)
    (hnext : Follows E P next landing last) (hexit : exit=none → hasFork c ∨ next=none)
    (hy : (c.first a).or next = some y) : (cur,y)∈P ∨ Goes E P cur y := by
  cases hfirst : c.first a with
  | some x =>
    rw [hfirst,Option.some_or] at hy
    cases hy
    exact .inl (h.place_sub _ (mem_place_of_first hfirst))
  | none =>
    rw [hfirst,Option.none_or] at hy
    obtain ⟨rfl,hleads⟩ := hnext y hy
    have hfork := hasFork_of_first_none hfirst
    refine .inr (h.goes_next (endsWithFork_of_not_hasFork hfork) (fun hnone => ?_) hleads)
    exact (hexit hnone).resolve_right (by simp [hy])

/-- A block started by code leads to the first instruction that runs there. -/
theorem Segment.leads_first (h : Segment E P a c a exit landing last) (hP : Placed P)
    (hnext : Follows E P next landing last) (hexit : exit=none → hasFork c ∨ next=none)
    (hy : (c.first a).or next = some y) : Leads E P a y := by
  cases hfirst : c.first a with
  | some x =>
    rw [hfirst,Option.some_or] at hy
    cases hy
    exact .inl (h.place_sub _ (mem_place_of_first hfirst))
  | none =>
    have hempty : ∀ x, (a,x)∉P := by
      intro x hx
      have hmem := h.place_only a x hx (.inl ⟨rfl,hP.le a x hx⟩)
      rw [place_of_first_none hfirst] at hmem
      cases hmem
    exact .inr ⟨hempty,(h.stays_or_goes hnext hexit hy).resolve_left (hempty y)⟩

theorem follows_none : Follows E P none landing last := nofun

theorem Follows.and (h : Follows E P next landing last) (p : Bool) :
    Follows E P next landing (last && p) := by
  intro y hy
  obtain ⟨rfl,hleads⟩ := h y hy
  exact ⟨rfl,hleads⟩

theorem Follows.after {stop : ℕ} (hnext : Follows E P next landing last)
    (hP : Placed P) (hrest : rest≠.done → Segment E P stop rest stop none landing last)
    (hlinked : rest=.done ∨ hasFork rest ∨ next=none) :
    Follows E P ((rest.first stop).or next) (mergeBlock rest stop landing)
      (last && rest = .done) := by
  intro y hy
  by_cases hdone : rest=.done
  · subst hdone
    simpa [mergeBlock] using hnext y hy
  · refine ⟨by simp [hdone],?_⟩
    rw [mergeBlock,if_neg hdone]
    exact (hrest hdone).leads_first hP hnext (fun _ => hlinked.resolve_left hdone) hy

/-- The head of a branch or loop leads into a body, or past it if the body is empty. -/
theorem goes_body {merge : ℕ} {body : Code} {after : Option ℕ} (hP : Placed P)
    (hafter : Follows E P after merge last) (hmerge : Linking E cur merge)
    (henter : body≠.done → Linking E cur a)
    (hbody : body≠.done → Segment E P a body a (some leave) merge last)
    (hy : (body.first a).or after = some y) : Goes E P cur y := by
  by_cases hdone : body=.done
  · rw [hdone,Code.first,Option.none_or] at hy
    exact hmerge.goes (hafter y hy).2
  · exact (henter hdone).goes ((hbody hdone).leads_first hP hafter nofun hy)

/-- Consecutively executed instructions of linked code are in one block or joined by a path. -/
theorem Segment.joined_of_linked {b x : ℕ} (h : Segment E P a c cur exit landing last)
    (hP : Placed P) (hnext : Follows E P next landing last) (hlinked : Linked a c next brk)
    (hexit : exit=none → c=.done ∨ hasFork c ∨ next=none) (hxy : (x,y)∈flow a c next brk)
    (hb : (b,x)∈P) : (b,y)∈P ∨ Goes E P b y := by
  induction c using code_induction generalizing a cur exit landing last next brk with
  | done => cases hxy
  | stays hc ih =>
    have hexit' := fun he => (hexit he).resolve_left (by rintro rfl; cases hc)
    rw [hc.hasFork_eq] at hexit'
    rcases hc.mem_flow cur hxy with hxy | ⟨hplace,rfl,hy | ⟨rfl,hy⟩⟩
    · exact ih (h.stays hc) hnext (hc.linked hlinked) (fun he => .inr (hexit' he)) hxy
    · rw [hP.unique b cur x hb (h.place_sub _ hplace)]
      exact (h.stays hc).stays_or_goes hnext hexit' hy
    · rw [hP.unique b cur x hb (h.place_sub _ hplace)]
      obtain ⟨hsame,hends⟩ := hlinked.1.resolve_left (by simp [hy])
      rw [hy] at hsame
      obtain ⟨rfl,hleads⟩ := hnext y hsame
      exact .inr ((h.stays .brk).goes_next hends
        (fun he => (hexit' he).resolve_right (by simp [hsame])) hleads)
  | @fork c enter leave yes no rest hc ihyes ihno ihrest =>
    obtain ⟨hend,hyes,hno,hrest⟩ := (hc.linked_iff rfl).mp hlinked
    have hafter := hnext.after hP (h.forkRest hc) hend
    have hmerge := h.linking hc (mem_forkEdges.mpr (.inr (.inr rfl)))
    have henter := h.linking hc (mem_forkEdges.mpr (.inl rfl))
    have helse : no≠.done → Linking E cur (a+1+yes.size) := by
      intro hne
      by_cases hdone : yes=.done
      · simpa [hdone,Code.size] using henter
      · exact h.linking hc (mem_forkEdges.mpr (.inr (.inl ⟨hdone,hne,rfl⟩)))
    have hself : x=a → b=cur := by
      rintro rfl
      exact hP.unique b cur x hb (h.place_sub _ (hc.mem_place.mpr (.inl ⟨rfl,rfl⟩)))
    rcases (hc.mem_flow rfl).mp hxy with ⟨hx,hy⟩ | ⟨hx,hy⟩ | hxy | hxy | hxy
    · rw [hself hx]
      exact .inr (goes_body hP (hafter.and _) hmerge (fun _ => henter) (h.forkYes hc) hy)
    · rw [hself hx]
      exact .inr (goes_body hP hafter hmerge helse (h.forkNo hc) hy)
    · by_cases hdone : yes=.done
      · subst hdone
        cases hxy
      · exact ihyes (h.forkYes hc hdone) (hafter.and _) hyes (by rintro ⟨⟩) hxy
    · by_cases hdone : no=.done
      · subst hdone
        cases hxy
      · exact ihno (h.forkNo hc hdone) hafter hno (by rintro ⟨⟩) hxy
    · by_cases hdone : rest=.done
      · subst hdone
        cases hxy
      · exact ihrest (h.forkRest hc hdone) hnext hrest (fun _ => .inr (hend.resolve_left hdone)) hxy

end PS3Native.FragmentProgram
