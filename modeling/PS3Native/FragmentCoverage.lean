import PS3Native.FragmentLinked

/-!
# Which programs the flow graph covers

Code that is not linked has two consecutively executed instructions that no path joins: the paths
from a fork stop at the block after it, and that block has no edge to what follows the enclosing
body.
-/
namespace PS3Native.FragmentProgram

open StructuredCode List

variable {E : List FlowEdge} {P : List (ℕ × ℕ)}
  {b b' a cur landing stop : ℕ} {c yes no rest : Code} {enter leave : EdgeType}
  {exit : Option EdgeType} {last : Bool} {next brk : Option ℕ}

theorem Through.linking (h : Through E P b b') : ∃ m, Linking E b m := by
  cases h with
  | edge h => exact ⟨_,h⟩
  | step h => exact ⟨_,h⟩

/-- A path cannot leave the blocks of a segment except to a landing block it stops at. -/
theorem Segment.confined (h : Segment E P a c cur exit landing last) (hland : Blocked E P landing)
    (hpath : Through E P b b') (hb : b=cur ∨ (a < b ∧ b < a+c.size)) :
    (a < b' ∧ b' < a+c.size) ∨ b'=landing := by
  have htarget : ∀ {b m : ℕ}, Linking E b m → (b=cur ∨ (a < b ∧ b < a+c.size)) →
      (a < m ∧ m < a+c.size) ∨ m=landing := by
    rintro b m ⟨type,he⟩ hb
    exact (wire_target (h.wire_only _ he hb) h.exit_merge h.filled).imp_right And.left
  induction hpath with
  | edge he => exact htarget he hb
  | step he hempty hpath ih =>
    rcases htarget he hb with hm | rfl
    · exact ih (.inr hm)
    · obtain ⟨m,hm⟩ := hpath.linking
      rcases hland with ⟨x,hx⟩ | hnone
      · exact absurd hx (hempty x)
      · exact absurd hm (hnone m)

/-- The block after a branch or loop stops every path: it holds an instruction or has no edge. -/
theorem Segment.blocked (h : Segment E P a c a none landing last) : Blocked E P a := by
  cases hfirst : c.first a with
  | some x => exact .inl ⟨x,h.place_sub _ (mem_place_of_first hfirst)⟩
  | none =>
    refine .inr fun b' ⟨type,he⟩ => ?_
    have hmem := h.wire_only _ he (.inl rfl)
    rw [wire_of_not_hasFork (hasFork_of_first_none hfirst),wire_done_none] at hmem
    cases hmem

theorem blocked_mergeBlock (hland : Blocked E P landing)
    (hrest : rest≠.done → Segment E P stop rest stop none landing last) :
    Blocked E P (mergeBlock rest stop landing) := by
  by_cases hdone : rest=.done
  · rwa [mergeBlock,if_pos hdone]
  · rw [mergeBlock,if_neg hdone]
    exact (hrest hdone).blocked

/-- If code runs any instruction, some run of it ends and goes on to what follows. -/
theorem exists_flow_next (a cur : ℕ) (c : Code) (brk : Option ℕ) (y : ℕ) (hfirst : c.first a≠none) :
    ∃ b x, (b,x)∈place a c cur ∧ (x,y)∈flow a c (some y) brk := by
  induction c using code_induction generalizing a cur brk with
  | done => exact absurd rfl hfirst
  | @stays c literals rest hc ih =>
    by_cases hrest : rest.first (a+1+literals)=none
    · cases hc with
      | nop => exact absurd hrest hfirst
      | plain => exact ⟨cur,a,mem_cons_self,by simp [flow,hrest]⟩
      | brk =>
        exact ⟨cur,a,mem_cons_self,by simp [flow,hrest]⟩
    · obtain ⟨b,x,hx,hxy⟩ := ih _ cur brk hrest
      exact ⟨b,x,hc.place_subset hx,hc.flow_subset hxy⟩
  | @fork c enter leave yes no rest hc ihyes _ ihrest =>
    by_cases hrest : rest.first (a+1+yes.size+no.size)=none
    · have hafter : (rest.first (a+1+yes.size+no.size)).or (some y) = some y := by
        rw [hrest,Option.none_or]
      by_cases hyes : yes.first (a+1)=none
      · exact ⟨cur,a,hc.mem_place.mpr (.inl ⟨rfl,rfl⟩),
          (hc.mem_flow hafter).mpr (.inl ⟨rfl,by simp [hyes]⟩)⟩
      · obtain ⟨b,x,hx,hxy⟩ := ihyes _ (a+1) _ hyes
        exact ⟨b,x,hc.mem_place.mpr (.inr (.inl hx)),
          (hc.mem_flow hafter).mpr (.inr (.inr (.inl hxy)))⟩
    · obtain ⟨b,x,hx,hxy⟩ := ihrest _ (a+1+yes.size+no.size) brk hrest
      exact ⟨b,x,hc.mem_place.mpr (.inr (.inr (.inr hx))),
        (hc.mem_flow rfl).mpr (.inr (.inr (.inr (.inr hxy))))⟩

theorem place_of_not_hasFork {x : ℕ} (h : hasFork c=false) (hx : (b,x)∈place a c cur) :
    b=cur := by
  induction c using code_induction generalizing a with
  | done => cases hx
  | stays hc ih =>
    rcases hc.mem_place hx with hx | hx
    · exact (Prod.mk.inj hx).1
    · exact ih (hc.hasFork_eq ▸ h) hx
  | fork hc => cases hc <;> cases h

theorem Fork.only (h : Fork c enter leave yes no rest) : ∃ c', Fork c' enter leave yes no .done := by
  cases h
  · exact ⟨_,.branch⟩
  · exact ⟨_,.loop⟩

/-- From a block whose code goes on after its first fork, no path leaves the segment. -/
theorem Segment.through_lt (h : Segment E P a c cur exit landing last)
    (hends : endsWithFork c=false) (hpath : Through E P cur b') : b' < a+c.size := by
  induction c using code_induction generalizing a with
  | done => cases hends
  | stays hc ih =>
    have := ih (h.stays hc) (hc.endsWithFork_eq ▸ hends)
    rw [hc.size_eq]
    omega
  | fork hc =>
    rw [hc.endsWithFork_eq,decide_eq_false_iff_not] at hends
    have hpos := Code.size_pos hends
    obtain ⟨c',hc'⟩ := hc.only
    have := (h.forkOnly hc hc' hends).confined (h.forkRest hc hends).blocked hpath (.inl rfl)
    rw [hc'.size_eq,Code.size] at this
    rw [hc.size_eq]
    omega

def Beyond (P : List (ℕ × ℕ)) (s : ℕ) (next : Option ℕ) : Prop :=
  ∀ y, next = some y → ∃ b, (b,y)∈P ∧ s ≤ b

theorem Beyond.mono {s s' : ℕ} (h : Beyond P s next) (hle : s' ≤ s) :
    Beyond P s' next := fun y hy =>
  let ⟨b,hb,hs⟩ := h y hy
  ⟨b,hb,hle.trans hs⟩

theorem Beyond.after (hnext : Beyond P (stop+rest.size) next)
    (hrest : rest≠.done → Segment E P stop rest stop none landing last) :
    Beyond P stop ((rest.first stop).or next) := by
  intro y hy
  cases hfirst : rest.first stop with
  | some z =>
    rw [hfirst,Option.some_or] at hy
    cases hy
    have hne : rest≠.done := fun hdone => by simp [hdone,Code.first] at hfirst
    exact ⟨stop,(hrest hne).place_sub _ (mem_place_of_first hfirst),le_rfl⟩
  | none =>
    rw [hfirst,Option.none_or] at hy
    obtain ⟨b,hb,hle⟩ := hnext y hy
    exact ⟨b,hb,by omega⟩

def Joined (E : List FlowEdge) (P : List (ℕ × ℕ)) (p : ℕ × ℕ) : Prop :=
  ∀ b b', (b,p.1)∈P → (b',p.2)∈P → b≠b' → Through E P b b'

/-- Straight-line code after a fork has no edge to what follows it. -/
theorem Segment.not_joined_next {y : ℕ} (h : Segment E P a c a none landing last) (brk : Option ℕ)
    (hfork : hasFork c=false) (hne : c≠.done) (hnext : Beyond P (a+c.size) (some y))
    (hfirst : c.first a≠none) : ∃ p∈flow a c (some y) brk, ¬ Joined E P p := by
  obtain ⟨b',hb',hle⟩ := hnext y rfl
  obtain ⟨b,x,hx,hxy⟩ := exists_flow_next a a c brk y hfirst
  obtain rfl := place_of_not_hasFork hfork hx
  refine ⟨(x,y),hxy,fun hjoined => ?_⟩
  have hpos := Code.size_pos hne
  obtain ⟨m,type,he⟩ := (hjoined b b' (h.place_sub _ hx) hb' (by omega)).linking
  have hmem := h.wire_only _ he (.inl rfl)
  rw [wire_of_not_hasFork hfork,wire_done_none] at hmem
  cases hmem

/-- A fork by itself has no path past a block that stops every path. -/
theorem Segment.not_joined_past {s y : ℕ} (h : Segment E P a c cur exit stop last) (brk : Option ℕ)
    (hstop : Blocked E P stop) (hsize : a+c.size ≤ s) (hlt : stop < s) (hnext : Beyond P s (some y))
    (hfirst : c.first a≠none) : ∃ p∈flow a c (some y) brk, ¬ Joined E P p := by
  obtain ⟨b',hb',hle⟩ := hnext y rfl
  obtain ⟨b,x,hx,hxy⟩ := exists_flow_next a cur c brk y hfirst
  refine ⟨(x,y),hxy,fun hjoined => ?_⟩
  have hrange := place_range hx
  have hcur := h.cur_le
  have hconf := h.confined hstop (hjoined b b' (h.place_sub _ hx) hb' (by omega)) (by omega)
  omega

theorem Segment.fork_end (h : Segment E P a c cur exit landing last)
    (hc : Fork c enter leave yes no rest) (hnext : Beyond P (a+c.size) next)
    (hjoined : ∀ p∈flow a c next brk, Joined E P p) :
    rest=.done ∨ hasFork rest ∨ next=none := by
  by_contra hcon
  simp only [not_or,Bool.not_eq_true] at hcon
  obtain ⟨hrest,hfork,hsome⟩ := hcon
  obtain ⟨y,rfl⟩ := Option.ne_none_iff_exists'.mp hsome
  have hpos := Code.size_pos hrest
  have hsize : a+c.size = a+1+yes.size+no.size+rest.size := by
    rw [hc.size_eq]
    omega
  rw [hsize] at hnext
  by_cases hfirst : rest.first (a+1+yes.size+no.size)=none
  · obtain ⟨c',hc'⟩ := hc.only
    obtain ⟨⟨x,z⟩,hp,hnot⟩ := (h.forkOnly hc hc' hrest).not_joined_past brk
      (h.forkRest hc hrest).blocked (by rw [hc'.size_eq,Code.size]; omega) (by omega) hnext
      (by cases hc' <;> rintro ⟨⟩)
    refine hnot (hjoined _ ((hc.mem_flow (by rw [hfirst,Option.none_or])).mpr ?_))
    exact ((hc'.mem_flow rfl).mp hp).imp_right (Or.imp_right (Or.imp_right (Or.imp_right
      (absurd · not_mem_nil))))
  · obtain ⟨p,hp,hnot⟩ := (h.forkRest hc hrest).not_joined_next brk hfork hrest hnext hfirst
    exact hnot (hjoined p ((hc.mem_flow rfl).mpr (.inr (.inr (.inr (.inr hp))))))

/-- Where a break leads: a block at or after `s`, past the code, to which the code itself leads
only if it is followed by the same instruction. -/
def BreaksBeyond (P : List (ℕ × ℕ)) (stop landing : ℕ) (next brk : Option ℕ) : Prop :=
  brk=none ∨ ∃ s, stop ≤ s ∧ Beyond P s brk ∧ (next=brk ∨ landing < s)

theorem BreaksBeyond.mono {stop' : ℕ} (h : BreaksBeyond P stop landing next brk)
    (hle : stop' ≤ stop) : BreaksBeyond P stop' landing next brk :=
  h.imp_right fun ⟨s,hs,hrest⟩ => ⟨s,hle.trans hs,hrest⟩

theorem BreaksBeyond.after (h : BreaksBeyond P (stop+rest.size) landing next brk) :
    BreaksBeyond P stop (mergeBlock rest stop landing) ((rest.first stop).or next) brk := by
  refine h.imp_right fun ⟨s,hs,hbeyond,hlead⟩ => ⟨s,by omega,hbeyond,?_⟩
  by_cases hdone : rest=.done
  · simpa [mergeBlock,hdone,Code.first] using hlead
  · have := Code.size_pos hdone
    rw [mergeBlock,if_neg hdone]
    exact .inr (by omega)

/-- Code whose consecutively executed instructions are all joined is linked. -/
theorem Segment.linked_of_joined (h : Segment E P a c cur exit landing last)
    (hland : Blocked E P landing) (hnext : Beyond P (a+c.size) next)
    (hbrk : BreaksBeyond P (a+c.size) landing next brk)
    (hjoined : ∀ p∈flow a c next brk, Joined E P p) : Linked a c next brk := by
  induction c using code_induction generalizing a cur exit landing last next brk with
  | done => trivial
  | @stays c literals rest hc ih =>
    have hsize : a+c.size = a+1+literals+rest.size := by
      rw [hc.size_eq]
      omega
    rw [hsize] at hnext hbrk
    have hrest := ih (h.stays hc) hland hnext hbrk fun p hp => hjoined p (hc.flow_subset hp)
    cases hc with
    | nop | plain => exact hrest
    | brk =>
      refine ⟨?_,hrest⟩
      rcases hbrk with hnone | ⟨s,hs,hbeyond,hlead⟩
      · exact .inl hnone
      · cases brk with
        | none => exact .inl rfl
        | some y =>
          obtain ⟨b',hb',hle⟩ := hbeyond y rfl
          have hcur := h.cur_le
          have hpath : Through E P cur b' :=
            hjoined (a,y) (by simp [flow]) cur b' (h.place_sub _ mem_cons_self) hb' (by omega)
          refine .inr ⟨?_,?_⟩
          · refine hlead.resolve_right fun hlt => ?_
            have := h.confined hland hpath (.inl rfl)
            omega
          · rw [← Bool.not_eq_false]
            intro hends
            have := (h.stays .brk).through_lt hends hpath
            omega
  | @fork c enter leave yes no rest hc ihyes ihno ihrest =>
    have hsize : a+c.size = a+1+yes.size+no.size+rest.size := by
      rw [hc.size_eq]
      omega
    have hend := h.fork_end hc hnext hjoined
    rw [hsize] at hnext hbrk
    have hafter := hnext.after (h.forkRest hc)
    have hmerge := blocked_mergeBlock hland (h.forkRest hc)
    have hbreak := hbrk.after
    refine (hc.linked_iff rfl).mpr ⟨hend,?_,?_,?_⟩
    · by_cases hdone : yes=.done
      · rw [hdone]
        trivial
      · refine ihyes (h.forkYes hc hdone) hmerge (hafter.mono (by omega)) ?_ fun p hp =>
          hjoined p ((hc.mem_flow rfl).mpr (.inr (.inr (.inl hp))))
        cases hc with
        | branch => exact hbreak.mono (by omega)
        | loop => exact .inr ⟨_,le_rfl,hafter,.inl rfl⟩
    · by_cases hdone : no=.done
      · rw [hdone]
        trivial
      · exact ihno (h.forkNo hc hdone) hmerge hafter hbreak fun p hp =>
          hjoined p ((hc.mem_flow rfl).mpr (.inr (.inr (.inr (.inl hp)))))
    · by_cases hdone : rest=.done
      · rw [hdone]
        trivial
      · exact ihrest (h.forkRest hc hdone) hland hnext hbrk fun p hp =>
          hjoined p ((hc.mem_flow rfl).mpr (.inr (.inr (.inr (.inr hp)))))

theorem placed_place (c : Code) : Placed (place 0 c 0) where
  le b x hx := by
    have := place_range hx
    omega
  unique _ _ _ := place_unique

theorem segment_program (hc : c.Filled) :
    Segment (wire 0 c 0 none c.size true) (place 0 c 0) 0 c 0 none c.size true where
  cur_le := le_rfl
  filled := hc
  exit_merge := rfl
  wire_sub _ he := he
  wire_only _ he _ := he
  place_sub _ hp := hp
  place_only _ _ hx _ := hx

theorem blocked_end (c : Code) : Blocked (wire 0 c 0 none c.size true) (place 0 c 0) c.size := by
  refine .inr fun b' ⟨type,he⟩ => ?_
  have hsource : c.size=0 ∨ (0 < c.size ∧ c.size < 0+c.size) := wire_source he
  have hdone : c=.done := Code.size_eq_zero.mp (by omega)
  subst hdone
  cases he

/-- Consecutively executed instructions of a program are in one block or joined by a path through
empty blocks, exactly if the program is linked. -/
theorem covers_iff_linked (hc : c.Filled) :
    (∀ p∈flow 0 c none none, Joined (wire 0 c 0 none c.size true) (place 0 c 0) p) ↔
      Linked 0 c none none := by
  have hP := placed_place c
  constructor
  · exact (segment_program hc).linked_of_joined (blocked_end c) (fun _ h => nomatch h) (.inl rfl)
  · rintro hlinked ⟨x,y⟩ hxy b b' hb hb' hne
    rcases (segment_program hc).joined_of_linked hP follows_none hlinked
      (fun _ => .inr (.inr rfl)) hxy hb with hy | ⟨b'',hb'',hpath⟩
    · exact absurd (hP.unique b b' y hy hb') hne
    · rwa [hP.unique b' b'' y hb' hb'']

end PS3Native.FragmentProgram
