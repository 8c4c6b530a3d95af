import PS3Native.FragmentBytecode
import PS3Native.StructuredCode

/-!
# The flow graph of structured code

The blocks, edges and placed instructions that the walk adds for structured code. `cur` is the
current block; `exit` is the type of the edge out of it at the end of the enclosing body, `none`
where the source inserts none; `landing` is where that edge goes; `last` tells that the body ends
the program.
-/
namespace PS3Native.FragmentProgram

open StructuredCode List

def forkEdges (enter leave : EdgeType) (a cur : ℕ) (yes no : Code) (merge : ℕ) : List FlowEdge :=
  ⟨enter,cur,a+1⟩ ::
    (if yes=.done ∨ no=.done then [] else [⟨.elseBranch,cur,a+1+yes.size⟩]) ++
    [⟨leave,cur,merge⟩]

def wire (a : ℕ) (c : Code) (cur : ℕ) (exit : Option EdgeType) (landing : ℕ) (last : Bool) :
    List FlowEdge :=
  match c with
  | .done => if last then [] else exit.toList.map (⟨·,cur,landing⟩)
  | .nop literals rest => wire (a+1+literals) rest cur exit landing last
  | .plain literals rest => wire (a+1+literals) rest cur exit landing last
  | .brk rest => wire (a+1) rest cur exit landing last
  | .branch yes no rest =>
    let stop := a+1+yes.size+no.size
    let merge := if rest=.done then landing else stop
    let last' := last && rest = .done
    forkEdges .ifBranch .endIf a cur yes no merge ++
      (if yes=.done then [] else
        wire (a+1) yes (a+1) (some .endIf) merge (last' && no = .done)) ++
      (if no=.done then [] else
        wire (a+1+yes.size) no (a+1+yes.size) (some .endIf) merge last') ++
      wire stop rest stop none landing last
  | .loop body rest =>
    let stop := a+1+body.size
    let merge := if rest=.done then landing else stop
    let last' := last && rest = .done
    forkEdges .loop .endLoop a cur body .done merge ++
      (if body=.done then [] else wire (a+1) body (a+1) (some .endLoop) merge last') ++
      wire stop rest stop none landing last

def place (a : ℕ) (c : Code) (cur : ℕ) : List (ℕ × ℕ) :=
  match c with
  | .done => []
  | .nop literals rest => place (a+1+literals) rest cur
  | .plain literals rest => (cur,a)::place (a+1+literals) rest cur
  | .brk rest => (cur,a)::place (a+1) rest cur
  | .branch yes no rest =>
    (cur,a)::place (a+1) yes (a+1)++place (a+1+yes.size) no (a+1+yes.size) ++
      place (a+1+yes.size+no.size) rest (a+1+yes.size+no.size)
  | .loop body rest =>
    (cur,a)::place (a+1) body (a+1)++place (a+1+body.size) rest (a+1+body.size)

/-- The ids of the blocks that the code starts. The block after a branch or loop exists already
when the enclosing body ends there. -/
def startedBlocks (a : ℕ) (c : Code) (enclosed : Bool) : List ℕ :=
  match c with
  | .done => []
  | .nop literals rest => startedBlocks (a+1+literals) rest enclosed
  | .plain literals rest => startedBlocks (a+1+literals) rest enclosed
  | .brk rest => startedBlocks (a+1) rest enclosed
  | .branch yes no rest =>
    (a+1)::(if yes=.done ∨ no=.done then [] else [a+1+yes.size]) ++
      (if rest=.done ∧ enclosed then [] else [a+1+yes.size+no.size]) ++
      startedBlocks (a+1) yes true++startedBlocks (a+1+yes.size) no true ++
      startedBlocks (a+1+yes.size+no.size) rest enclosed
  | .loop body rest =>
    (a+1)::(if rest=.done ∧ enclosed then [] else [a+1+body.size]) ++
      startedBlocks (a+1) body true++startedBlocks (a+1+body.size) rest enclosed

def EdgeType.isMerge (type : EdgeType) : Bool := type = .endIf ∨ type=.endLoop

/-- A `nop` or an instruction after which the walk stays in its block, with its words of data. -/
inductive Stays : Code → ℕ → Code → Prop
  | nop {literals rest} : Stays (.nop literals rest) literals rest
  | plain {literals rest} : Stays (.plain literals rest) literals rest
  | brk {rest} : Stays (.brk rest) 0 rest

/-- A branch, or a loop as a branch without a second part, and the types of its edges. -/
inductive Fork : Code → EdgeType → EdgeType → Code → Code → Code → Prop
  | branch {yes no rest} : Fork (.branch yes no rest) .ifBranch .endIf yes no rest
  | loop {body rest} : Fork (.loop body rest) .loop .endLoop body .done rest

theorem code_induction {motive : Code → Prop} (done : motive .done)
    (stays : ∀ {c literals rest}, Stays c literals rest → motive rest → motive c)
    (fork : ∀ {c enter leave yes no rest}, Fork c enter leave yes no rest → motive yes →
      motive no → motive rest → motive c) (c : Code) : motive c := by
  induction c with
  | done => exact done
  | nop _ _ ih => exact stays .nop ih
  | plain _ _ ih => exact stays .plain ih
  | brk _ ih => exact stays .brk ih
  | branch _ _ _ ihyes ihno ihrest => exact fork .branch ihyes ihno ihrest
  | loop _ _ ihbody ihrest => exact fork .loop ihbody done ihrest

def mergeBlock (rest : Code) (stop landing : ℕ) : ℕ := if rest=.done then landing else stop

variable {a cur merge landing i b x literals : ℕ} {e : FlowEdge} {enter leave : EdgeType}
  {no yes rest c : Code} {exit : Option EdgeType} {last enclosed : Bool}

namespace Stays

section

variable (h : Stays c literals rest)

include h

theorem size_eq : c.size = 1+literals+rest.size := by
  cases h <;> simp [Code.size]

theorem filled (hc : c.Filled) : rest.Filled := by
  cases h <;> exact hc

theorem wire_eq :
    wire a c cur exit landing last = wire (a+1+literals) rest cur exit landing last := by
  cases h <;> rfl

theorem startedBlocks_eq :
    startedBlocks a c enclosed = startedBlocks (a+1+literals) rest enclosed := by
  cases h <;> rfl

theorem place_eq (a cur : ℕ) : place a c cur = place (a+1+literals) rest cur ∨
      place a c cur = (cur,a)::place (a+1+literals) rest cur := by
  cases h
  · exact .inl rfl
  · exact .inr rfl
  · exact .inr rfl

theorem mem_place {p : ℕ × ℕ} (hp : p∈place a c cur) :
    p = (cur,a) ∨ p∈place (a+1+literals) rest cur := by
  rcases h.place_eq a cur with heq | heq <;> rw [heq] at hp
  · exact .inr hp
  · exact mem_cons.mp hp

theorem place_subset : place (a+1+literals) rest cur ⊆ place a c cur := by
  rcases h.place_eq a cur with heq | heq <;> rw [heq]
  · exact List.Subset.refl _
  · exact subset_cons_self _ _

end

end Stays

theorem mem_forkEdges : e∈forkEdges enter leave a cur yes no merge ↔ e = ⟨enter,cur,a+1⟩ ∨
      (yes≠.done ∧ no≠.done ∧ e = ⟨.elseBranch,cur,a+1+yes.size⟩) ∨
      e = ⟨leave,cur,merge⟩ := by
  unfold forkEdges
  by_cases hyes : yes=.done <;> by_cases hno : no=.done <;> simp [hyes,hno]

theorem wire_done_none (a cur landing : ℕ) (last : Bool) :
    wire a .done cur none landing last=[] := by
  cases last <;> rfl

namespace Fork

section

variable (h : Fork c enter leave yes no rest)

include h

theorem size_eq : c.size = 1+yes.size+no.size+rest.size := by
  cases h <;> rfl

theorem filled (hc : c.Filled) : 0 < yes.size+no.size ∧ yes.Filled ∧ no.Filled ∧ rest.Filled := by
  cases h with
  | branch => exact hc
  | loop => exact ⟨hc.1,hc.2.1,trivial,hc.2.2⟩

theorem isMerge : leave.isMerge := by
  cases h <;> rfl

theorem mem_wire : e∈wire a c cur exit landing last ↔ e∈forkEdges enter leave a cur yes no
        (mergeBlock rest (a+1+yes.size+no.size) landing) ∨
      (yes≠.done ∧ e∈wire (a+1) yes (a+1) (some leave)
        (mergeBlock rest (a+1+yes.size+no.size) landing) ((last && rest = .done) && no = .done)) ∨
      (no≠.done ∧ e∈wire (a+1+yes.size) no (a+1+yes.size) (some leave)
        (mergeBlock rest (a+1+yes.size+no.size) landing) (last && rest = .done)) ∨
      (rest≠.done ∧ e∈wire (a+1+yes.size+no.size) rest (a+1+yes.size+no.size)
        none landing last) := by
  by_cases hrest : rest=.done <;> cases h
  all_goals by_cases hyes : yes=.done
  all_goals simp [wire,mergeBlock,hyes,hrest,wire_done_none,Code.size]

theorem place_eq (a cur : ℕ) : place a c cur = (cur,a)::(place (a+1) yes (a+1) ++
      (place (a+1+yes.size) no (a+1+yes.size) ++
        place (a+1+yes.size+no.size) rest (a+1+yes.size+no.size))) := by
  cases h <;> simp [place,Code.size]

theorem mem_place : (b,x)∈place a c cur ↔ (b=cur ∧ x=a) ∨
      (b,x)∈place (a+1) yes (a+1) ∨
      (b,x)∈place (a+1+yes.size) no (a+1+yes.size) ∨
      (b,x)∈place (a+1+yes.size+no.size) rest (a+1+yes.size+no.size) := by
  simp [h.place_eq]

theorem mem_startedBlocks (hi : i∈startedBlocks a c enclosed) : i = a+1 ∨
      i = a+1+yes.size ∨ i = a+1+yes.size+no.size ∨
      i∈startedBlocks (a+1) yes true ∨ i∈startedBlocks (a+1+yes.size) no true ∨
      i∈startedBlocks (a+1+yes.size+no.size) rest enclosed := by
  have hite : ∀ {p : Prop} [Decidable p] {j : ℕ}, i∈(if p then [] else [j]) → i=j := by
    intro p _ j hi
    split at hi
    · cases hi
    · exact mem_singleton.mp hi
  cases h <;> simp only [startedBlocks,cons_append,mem_cons,mem_append,or_assoc] at hi
  · exact hi.imp_right (Or.imp hite (Or.imp_left hite))
  · rcases hi with hi | hi | hi
    · exact .inl hi
    · exact .inr (.inr (.inl (hite hi)))
    · exact .inr (.inr (.inr (hi.imp_right .inr)))

end

end Fork

theorem forkEdges_source (he : e∈forkEdges enter leave a cur yes no merge) : e.source=cur := by
  rcases mem_forkEdges.mp he with rfl | ⟨-,-,rfl⟩ | rfl <;> rfl

theorem wire_source (he : e∈wire a c cur exit landing last) :
    e.source=cur ∨ (a < e.source ∧ e.source < a+c.size) := by
  induction c using code_induction generalizing a cur exit landing last with
  | done =>
    cases last <;> cases exit <;> simp [wire] at he
    exact .inl (by rw [he])
  | stays hc ih =>
    rw [hc.wire_eq] at he
    have := ih he
    rw [hc.size_eq]
    omega
  | fork hc ihyes ihno ihrest =>
    rw [hc.size_eq]
    rcases hc.mem_wire.mp he with he | ⟨h,he⟩ | ⟨h,he⟩ | ⟨h,he⟩
    · exact .inl (forkEdges_source he)
    · have := ihyes he
      have := Code.size_pos h
      omega
    · have := ihno he
      have := Code.size_pos h
      omega
    · have := ihrest he
      have := Code.size_pos h
      omega

theorem eq_mergeBlock {stop target lo hi : ℕ} {p : Prop}
    (h : target = mergeBlock rest stop landing ∧ p) (hlo : lo < stop) (hhi : hi = stop+rest.size) :
    (lo < target ∧ target < hi) ∨ (target=landing ∧ p) := by
  obtain ⟨rfl,hp⟩ := h
  by_cases hrest : rest=.done
  · exact .inr ⟨by simp [mergeBlock,hrest],hp⟩
  · have := Code.size_pos hrest
    simp only [mergeBlock,if_neg hrest]
    omega

theorem forkEdges_target (he : e∈forkEdges enter leave a cur yes no merge)
    (hleave : leave.isMerge) :
    e.target = a+1 ∨ (no≠.done ∧ e.target = a+1+yes.size) ∨
      (e.target=merge ∧ e.type.isMerge) := by
  rcases mem_forkEdges.mp he with rfl | ⟨-,h,rfl⟩ | rfl
  · exact .inl rfl
  · exact .inr (.inl ⟨h,rfl⟩)
  · exact .inr (.inr ⟨rfl,hleave⟩)

theorem wire_target (he : e∈wire a c cur exit landing last) (hexit : exit.all EdgeType.isMerge)
    (hc : c.Filled) :
    (a < e.target ∧ e.target < a+c.size) ∨ (e.target=landing ∧ e.type.isMerge) := by
  induction c using code_induction generalizing a cur exit landing last with
  | done =>
    cases last <;> cases exit <;> simp [wire] at he
    rw [he]
    exact .inr ⟨rfl,hexit⟩
  | stays h ih =>
    rw [h.wire_eq] at he
    refine (ih he hexit (h.filled hc)).imp_left fun h' => ?_
    rw [h.size_eq]
    omega
  | fork h ihyes ihno ihrest =>
    obtain ⟨hfilled,hyes,hno,hrest⟩ := h.filled hc
    rw [h.size_eq]
    rcases h.mem_wire.mp he with he | ⟨-,he⟩ | ⟨-,he⟩ | ⟨-,he⟩
    · rcases forkEdges_target he h.isMerge with h | ⟨h,h'⟩ | h
      · omega
      · have := Code.size_pos h
        omega
      · exact eq_mergeBlock h (by omega) (by omega)
    · rcases ihyes he h.isMerge hyes with h | h
      · omega
      · exact eq_mergeBlock h (by omega) (by omega)
    · rcases ihno he h.isMerge hno with h | h
      · omega
      · exact eq_mergeBlock h (by omega) (by omega)
    · refine (ihrest he rfl hrest).imp_left fun h => ?_
      omega

theorem startedBlocks_range (h : i∈startedBlocks a c enclosed) : a < i ∧ i ≤ a+c.size := by
  induction c using code_induction generalizing a enclosed with
  | done => cases h
  | stays hc ih =>
    rw [hc.startedBlocks_eq] at h
    have := ih h
    rw [hc.size_eq]
    omega
  | fork hc ihyes ihno ihrest =>
    rw [hc.size_eq]
    rcases hc.mem_startedBlocks h with rfl | rfl | rfl | h | h | h
    · omega
    · omega
    · omega
    · have := ihyes h
      omega
    · have := ihno h
      omega
    · have := ihrest h
      omega

theorem place_range (h : (b,x)∈place a c cur) :
    (b=cur ∨ (a < b ∧ b ≤ x)) ∧ a ≤ x ∧ x < a+c.size := by
  induction c using code_induction generalizing a cur with
  | done => cases h
  | stays hc ih =>
    rw [hc.size_eq]
    rcases hc.mem_place h with h | h
    · cases h
      omega
    · have := ih h
      omega
  | fork hc ihyes ihno ihrest =>
    rw [hc.size_eq]
    rcases hc.mem_place.mp h with h | h | h | h
    · omega
    · have := ihyes h
      omega
    · have := ihno h
      omega
    · have := ihrest h
      omega

theorem place_address_range (h : x∈(place a c cur).map (·.2)) : a ≤ x ∧ x < a+c.size := by
  obtain ⟨⟨b,y⟩,hplace,rfl⟩ := mem_map.mp h
  exact (place_range hplace).2

theorem place_sorted (a : ℕ) (c : Code) (cur : ℕ) :
    ((place a c cur).map (·.2)).Pairwise (· < ·) := by
  induction c using code_induction generalizing a cur with
  | done => exact List.Pairwise.nil
  | stays hc ih =>
    rcases hc.place_eq a cur with heq | heq <;> rw [heq]
    · exact ih _ _
    · simp only [map_cons,pairwise_cons]
      refine ⟨fun x hx => ?_,ih _ _⟩
      have := place_address_range hx
      omega
  | fork hc ihyes ihno ihrest =>
    simp only [hc.place_eq,map_cons,map_append,pairwise_cons,pairwise_append,mem_append]
    refine ⟨fun x hx => ?_,ihyes _ _,⟨ihno _ _,ihrest _ _,fun x hx y hy => ?_⟩,
      fun x hx y hy => ?_⟩
    · rcases hx with hx | hx | hx
      all_goals
        have := place_address_range hx
        omega
    · have := place_address_range hx
      have := place_address_range hy
      omega
    · have := place_address_range hx
      rcases hy with hy | hy
      all_goals
        have := place_address_range hy
        omega

theorem place_unique {b' : ℕ} (h : (b,x)∈place a c cur) (h' : (b',x)∈place a c cur) : b=b' := by
  have hnodup : ((place a c cur).map (·.2)).Nodup := (place_sorted a c cur).imp fun hlt => hlt.ne
  exact (Prod.mk.inj (inj_on_of_nodup_map hnodup h h' rfl)).1

theorem mem_place_of_first (h : c.first a = some x) : (cur,x)∈place a c cur := by
  induction c generalizing a with
  | done => cases h
  | nop literals rest ih => exact ih h
  | _ =>
    cases h
    exact mem_cons_self

theorem place_addresses (a : ℕ) (c : Code) (cur : ℕ) :
    (place a c cur).map (·.2) = c.addresses a := by
  induction c generalizing a cur with
  | done => rfl
  | nop literals rest ih => exact ih _ _
  | plain literals rest ih | brk rest ih => simp [place,Code.addresses,ih]
  | branch yes no rest ihyes ihno ihrest =>
    simp [place,Code.addresses,ihyes,ihno,ihrest]
  | loop body rest ihbody ihrest => simp [place,Code.addresses,ihbody,ihrest]

theorem place_greatest (hx : (b,x)∈place a c cur) (hi : i∈startedBlocks a c enclosed)
    (hle : i ≤ x) : i ≤ b := by
  induction c using code_induction generalizing a cur enclosed with
  | done => cases hx
  | stays hc ih =>
    rw [hc.startedBlocks_eq] at hi
    rcases hc.mem_place hx with hx | hx
    · have := startedBlocks_range hi
      have := (Prod.mk.inj hx).2
      omega
    · exact ih hx hi
  | fork hc ihyes ihno ihrest =>
    have hrange := startedBlocks_range hi
    have hi := hc.mem_startedBlocks hi
    rcases hc.mem_place.mp hx with hx | hx | hx | hx
    · omega
    all_goals have hxr := place_range hx
    · rcases hi with rfl | rfl | rfl | hi | hi | hi
      · omega
      · omega
      · omega
      · exact ihyes hx hi
      all_goals
        have := startedBlocks_range hi
        omega
    · rcases hi with rfl | rfl | rfl | hi | hi | hi
      · omega
      · omega
      · omega
      · have := startedBlocks_range hi
        omega
      · exact ihno hx hi
      · have := startedBlocks_range hi
        omega
    · rcases hi with rfl | rfl | rfl | hi | hi | hi
      · omega
      · omega
      · omega
      · have := startedBlocks_range hi
        omega
      · have := startedBlocks_range hi
        omega
      · exact ihrest hx hi

end PS3Native.FragmentProgram
