import PS3Native.DeconstructSimulation
import PS3Native.FragmentCoverage

/-!
# The flow graph covers control flow

The flow graph of a structured fragment program holds every instruction once, in the last block
that starts at or before it; its blocks are in order and its edges are recorded at both ends.
-/
namespace PS3Native.FragmentProgram

open StructuredCode DeconstructState List

namespace FlowGraph

def Holds (g : FlowGraph) (id x : ℕ) : Prop :=
  ∃ b∈g.blocks, b.id=id ∧ ∃ i∈b.instructions, i.addr = x*16

instance (g : FlowGraph) (id x : ℕ) : Decidable (g.Holds id x) :=
  inferInstanceAs (Decidable (∃ b∈g.blocks, b.id=id ∧ ∃ i∈b.instructions, i.addr = x*16))

def HasSucc (g : FlowGraph) (id id' : ℕ) : Prop :=
  ∃ b∈g.blocks, b.id=id ∧ ∃ e∈b.succ, e.target=id'

def IsEmpty (g : FlowGraph) (id : ℕ) : Prop :=
  ∀ b∈g.blocks, b.id=id → b.instructions=[]

inductive EmptyPath (g : FlowGraph) : ℕ → ℕ → Prop
  | edge {id id'} : g.HasSucc id id' → EmptyPath g id id'
  | step {id mid id'} : g.HasSucc id mid → g.IsEmpty mid → EmptyPath g mid id' →
      EmptyPath g id id'

end FlowGraph

structure CoversControlFlow (data : List Quad) (c : Code) (g : FlowGraph) : Prop where
  placed : ∀ x∈c.addresses 0, ∃ b∈g.blocks,
    (∃ i inst, b.instructions.filter (·.addr = x*16) = [i] ∧ inst∈instructionAt data x ∧
      i.opcode=inst.opcode) ∧
    (∀ id, g.Holds id x → id=b.id) ∧ b.id ≤ x ∧ ∀ id∈g.ids, id ≤ x → id ≤ b.id
  sorted : g.ids.Pairwise (· < ·)
  succ_closed : ∀ b∈g.blocks, ∀ e∈b.succ, e.source=b.id ∧ e.target∈g.ids
  pred_closed : ∀ b∈g.blocks, ∀ e∈b.pred, e.target=b.id ∧ e.source∈g.ids
  converse : ∀ b∈g.blocks, ∀ b'∈g.blocks, ∀ type,
    b.succ.count ⟨type,b.id,b'.id⟩ = b'.pred.count ⟨type,b.id,b'.id⟩
  joined : ∀ t o, Runs false 0 c t o → ∀ x y, Consecutive t x y → ∀ id id', g.Holds id x →
    g.Holds id' y → id≠id' → g.EmptyPath id id'

theorem Arrives.initial : Arrives {} {} := .inr ⟨rfl,rfl,rfl⟩

theorem represents_initial : Represents ({} : DeconstructState).graph ⟨[0],[],[]⟩ := by
  refine ⟨rfl,by simp,nofun,nofun,?_,?_,?_⟩ <;>
    · intro b hb
      rw [mem_singleton.mp hb]
      rfl

/-- The loop ends on a program that spells out code, with the wired net. -/
theorem ProgramOf.deconstructs {data : List Quad} {c : Code} (h : ProgramOf data c) :
    ∃ g n, deconstructFragmentProgram data = .ok g.sorted ∧ Represents g n ∧
      n.ids = 0::startedBlocks 0 c false ∧ n.edges = wire 0 c 0 none c.size true ∧
      List.Forall₂ (Emits data) n.emitted (place 0 c 0) := by
  have hpos := Code.size_pos h.ne_done
  have hstands : Stands {} ⟨[0],[],[]⟩ 0 c 0 none c.size false := by
    refine ⟨represents_initial,rfl,rfl,rfl,by simp,le_rfl,by simp,?_,nofun,?_,by simp,nofun⟩
    · rintro i (hi | hi) <;> cases hi
    · refine .inr ⟨rfl,?_,by simp⟩
      simp only [Nat.zero_add,mem_singleton]
      omega
  have hwalks : Walks data 0 c 0 none c.size false true :=
    h.encodes.walks (by omega) (by simp) nofun
  obtain ⟨s,n,hran,hended,-⟩ := hwalks _ _ h.ne_done hstands
  obtain ⟨k,hk,hreach⟩ := hran.reaches
  obtain ⟨new,hnew,hplaces⟩ := hran.emitted
  refine ⟨s.graph,n,?_,hran.represents,by simpa using hran.ids,by simpa using hran.edges,
    by simpa [hnew] using hplaces⟩
  have hloop : deconstructLoop data (data.length+1) {} = .ok s := by
    rw [Arrives.initial.loop]
    have hfuel : data.length = (data.length-k)+k := by
      have := h.size_le
      omega
    rw [hfuel,hreach,resumeLoop,hended]
    rfl
  rw [deconstructFragmentProgram,hloop]
  rfl

theorem forall₂_left {α β : Type} {R : α → β → Prop} {l : List α} {l' : List β}
    (h : List.Forall₂ R l l') {x : α} (hx : x∈l) : ∃ y∈l', R x y := by
  obtain ⟨i,hi,rfl⟩ := getElem_of_mem hx
  exact ⟨_,getElem_mem _,h.get hi (h.length_eq ▸ hi)⟩

section Wired

variable {data : List Quad} {c : Code} {g : FlowGraph} {n : Net} {P : List (ℕ × ℕ)} {id : ℕ}

theorem Represents.mem_sorted_blocks (h : Represents g n) (hid : id∈n.ids) :
    ∃ b∈g.sorted.blocks, b.id=id := by
  rw [← h.ids,← FlowGraph.mem_ids_sorted] at hid
  obtain ⟨b,hb,rfl⟩ := mem_map.mp hid
  exact ⟨b,hb,rfl⟩

theorem Represents.hasSucc_iff (h : Represents g n) {id' : ℕ} :
    g.sorted.HasSucc id id' ↔ Linking n.edges id id' := by
  constructor
  · rintro ⟨b,hb,rfl,e,he,rfl⟩
    obtain ⟨hmem,hsource⟩ := (h.mem_sorted_succ hb).mp he
    exact ⟨e.type,by rwa [← hsource]⟩
  · rintro ⟨type,he⟩
    obtain ⟨b,hb,hid⟩ := h.mem_sorted_blocks (h.closed _ he).1
    exact ⟨b,hb,hid,_,(h.mem_sorted_succ hb).mpr ⟨he,hid.symm⟩,rfl⟩

section

variable (h : Represents g n) (hP : List.Forall₂ (Emits data) n.emitted P)

include h hP

theorem Represents.holds_iff {x : ℕ} : g.sorted.Holds id x ↔ (id,x)∈P := by
  constructor
  · rintro ⟨b,hb,rfl,i,hi,haddr⟩
    rw [h.sorted_instructions hb,Net.instructions] at hi
    obtain ⟨p,hp,rfl⟩ := mem_map.mp hi
    obtain ⟨hmem,hid⟩ := mem_filter.mp hp
    obtain ⟨⟨id,y⟩,hq,hemit,inst,-,hinst⟩ := forall₂_left hP hmem
    have hxy : y=x := by
      have := hinst.addr
      omega
    rw [← of_decide_eq_true hid,← hxy]
    exact hemit ▸ hq
  · intro hmem
    obtain ⟨p,hp,hemit,inst,-,hinst⟩ := forall₂_left hP.flip hmem
    obtain ⟨b,hb,hid⟩ := h.mem_sorted_blocks (h.placed p hp)
    refine ⟨b,hb,hid.trans hemit,p.2,?_,hinst.addr⟩
    rw [h.sorted_instructions hb,Net.instructions]
    exact mem_map.mpr ⟨p,mem_filter.mpr ⟨hp,by simp [hid]⟩,rfl⟩

theorem Represents.isEmpty_iff : g.sorted.IsEmpty id ↔ ∀ x, (id,x)∉P := by
  constructor
  · intro hempty x hx
    obtain ⟨b,hb,hid,i,hi,-⟩ := (h.holds_iff hP).mpr hx
    rw [hempty b hb hid] at hi
    cases hi
  · rintro hnone b hb rfl
    refine eq_nil_iff_forall_not_mem.mpr fun i hi => ?_
    rw [h.sorted_instructions hb,Net.instructions] at hi
    obtain ⟨p,hp,rfl⟩ := mem_map.mp hi
    obtain ⟨hmem,hid⟩ := mem_filter.mp hp
    obtain ⟨⟨id,y⟩,hq,hemit,-⟩ := forall₂_left hP hmem
    have hid' : id=b.id := hemit.symm.trans (of_decide_eq_true hid)
    exact hnone y (hid' ▸ hq)

theorem Represents.emptyPath_iff {id' : ℕ} :
    g.sorted.EmptyPath id id' ↔ Through n.edges P id id' := by
  constructor
  · intro hpath
    induction hpath with
    | edge he => exact .edge (h.hasSucc_iff.mp he)
    | step he hempty _ ih => exact .step (h.hasSucc_iff.mp he) ((h.isEmpty_iff hP).mp hempty) ih
  · intro hpath
    induction hpath with
    | edge he => exact .edge (h.hasSucc_iff.mpr he)
    | step he hempty _ ih => exact .step (h.hasSucc_iff.mpr he) ((h.isEmpty_iff hP).mpr hempty) ih

end

theorem filter_addr_eq_singleton {l : List Instruction} (h : (l.map (·.addr)).Nodup)
    {i : Instruction} (hi : i∈l) : l.filter (·.addr=i.addr) = [i] := by
  induction l with
  | nil => cases hi
  | cons j l ih =>
    obtain ⟨hj,hl⟩ := nodup_cons.mp h
    rcases mem_cons.mp hi with rfl | hi
    · have hnil : l.filter (·.addr=i.addr)=[] := filter_eq_nil_iff.mpr fun k hk haddr =>
          hj (mem_map.mpr ⟨k,hk,of_decide_eq_true haddr⟩)
      rw [filter_cons_of_pos (by simp),hnil]
    · have hne : j.addr≠i.addr := fun haddr => hj (mem_map.mpr ⟨i,hi,haddr.symm⟩)
      rw [filter_cons_of_neg (by simpa using hne)]
      exact ih hl hi

theorem emitted_addr {l : List (ℕ × Instruction)} (hP : List.Forall₂ (Emits data) l P) :
    l.map (·.2.addr) = P.map (·.2*16) := by
  induction hP with
  | nil => rfl
  | cons hemit _ ih =>
    obtain ⟨-,inst,-,hinst⟩ := hemit
    rw [map_cons,map_cons,ih,hinst.addr]

theorem nodup_instructions (hP : List.Forall₂ (Emits data) n.emitted (place 0 c 0)) (id : ℕ) :
    ((n.instructions id).map (·.addr)).Nodup := by
  have hsorted : (n.emitted.map (·.2.addr)).Nodup := by
    rw [emitted_addr hP]
    refine ((pairwise_map.mp (place_sorted 0 c 0)).map _ fun p q hlt => ?_)
    omega
  rw [Net.instructions,map_map]
  exact hsorted.sublist (filter_sublist.map _)

/-- Every instruction is in one block, once, and no other block starts in between. -/
theorem Represents.placed_once (h : Represents g n)
    (hP : List.Forall₂ (Emits data) n.emitted (place 0 c 0))
    (hids : n.ids = 0::startedBlocks 0 c false) {x : ℕ} (hx : x∈c.addresses 0) :
    ∃ b∈g.sorted.blocks,
      (∃ i inst, b.instructions.filter (·.addr = x*16) = [i] ∧ inst∈instructionAt data x ∧
        i.opcode=inst.opcode) ∧
      (∀ id, g.sorted.Holds id x → id=b.id) ∧ b.id ≤ x ∧
      ∀ id∈g.sorted.ids, id ≤ x → id ≤ b.id := by
  rw [← place_addresses 0 c 0] at hx
  obtain ⟨⟨id,x⟩,hmem,rfl⟩ := mem_map.mp hx
  obtain ⟨p,hp,hemit,inst,hfetch,hinst⟩ := forall₂_left hP.flip hmem
  obtain ⟨b,hb,hid⟩ := h.mem_sorted_blocks (h.placed p hp)
  obtain rfl : b.id=id := hid.trans hemit
  have hi : p.2∈n.instructions b.id := mem_map.mpr ⟨p,mem_filter.mpr ⟨hp,by simp [hid]⟩,rfl⟩
  refine ⟨b,hb,⟨p.2,inst,?_,hfetch,hinst.opcode⟩,fun id hholds => ?_,?_,fun id hmem' hle => ?_⟩
  · rw [h.sorted_instructions hb,← hinst.addr]
    exact filter_addr_eq_singleton (nodup_instructions hP b.id) hi
  · exact place_unique ((h.holds_iff hP).mp hholds) hmem
  · exact (placed_place c).le _ _ hmem
  · rw [FlowGraph.mem_ids_sorted,h.ids,hids] at hmem'
    rcases mem_cons.mp hmem' with rfl | hmem'
    · exact Nat.zero_le _
    · exact place_greatest hmem hmem' hle

end Wired

/-- The flow graph of a program covers its control flow exactly if the program is linked. -/
theorem covers_control_flow_iff {data : List Quad} {c : Code} (h : ProgramOf data c) :
    ∃ g, deconstructFragmentProgram data = .ok g ∧
      (CoversControlFlow data c g ↔ Linked 0 c none none) := by
  obtain ⟨g,n,hdeconstruct,hrep,hids,hedges,hP⟩ := h.deconstructs
  refine ⟨g.sorted,hdeconstruct,?_⟩
  have hjoined : (∀ t o, Runs false 0 c t o → ∀ x y, Consecutive t x y → ∀ id id',
      g.sorted.Holds id x → g.sorted.Holds id' y → id≠id' → g.sorted.EmptyPath id id') ↔
      Linked 0 c none none := by
    rw [← covers_iff_linked h.encodes.filled,← hedges]
    simp only [hrep.holds_iff hP,hrep.emptyPath_iff hP]
    constructor
    · rintro hruns ⟨x,y⟩ hxy id id' hid hid' hne
      obtain ⟨t,o,hrun,hcons⟩ := consecutive_iff_mem_flow.mpr hxy
      exact hruns t o hrun x y hcons id id' hid hid' hne
    · intro hflow t o hrun x y hcons id id' hid hid' hne
      exact hflow (x,y) (consecutive_iff_mem_flow.mp ⟨t,o,hrun,hcons⟩) id id' hid hid' hne
  refine ⟨fun hcovers => hjoined.mp hcovers.joined,fun hlinked =>
    ⟨fun x hx => hrep.placed_once hP hids hx,FlowGraph.sorted_ids (hrep.ids ▸ hrep.nodup),?_,?_,
      fun b hb b' hb' type => hrep.count_sorted hb hb' type,hjoined.mpr hlinked⟩⟩
  · intro b hb e he
    obtain ⟨hmem,hsource⟩ := (hrep.mem_sorted_succ hb).mp he
    exact ⟨hsource,FlowGraph.mem_ids_sorted.mpr (hrep.ids ▸ (hrep.closed e hmem).2)⟩
  · intro b hb e he
    obtain ⟨hmem,htarget⟩ := (hrep.mem_sorted_pred hb).mp he
    exact ⟨htarget,FlowGraph.mem_ids_sorted.mpr (hrep.ids ▸ (hrep.closed e hmem).1)⟩

/-- `IF { IF { ADD } } ELSE { ADD } ADD`. -/
def ifElseProgram : List Quad :=
  [⟨0x00020000,0,0x00800c00,0x00001000⟩,⟨0x00020000,0,0x00800c00,0x00000c00⟩,
    ⟨0x00030000,0,0,0⟩,⟨0x00030000,0,0,0⟩,⟨0x00030100,0,0,0⟩]

def ifElseCode : Code :=
  .branch (.branch (.plain 0 .done) .done .done) (.plain 0 .done) (.plain 0 .done)

theorem covers_control_flow_if_else :
    ProgramOf ifElseProgram ifElseCode ∧ ∃ g, deconstructFragmentProgram ifElseProgram = .ok g ∧
      CoversControlFlow ifElseProgram ifElseCode g := by
  have h : ProgramOf ifElseProgram ifElseCode := by
    refine ⟨by decide,by decide,⟨_,rfl,by decide⟩,⟨⟨_,rfl,by decide⟩,?_,trivial,trivial⟩, ?_,?_⟩ <;>
      exact ⟨⟨_,rfl,⟨by decide,rfl⟩,by decide⟩,trivial⟩
  obtain ⟨g,hg,hiff⟩ := covers_control_flow_iff h
  refine ⟨h,g,hg,hiff.mpr ?_⟩
  simp [ifElseCode,Linked]

/-- `IF { IF { ADD } ADD } ADD`. -/
def nestedIfProgram : List Quad :=
  [⟨0x00020000,0,0x00801000,0x00001000⟩,⟨0x00020000,0,0x00800c00,0x00000c00⟩,
    ⟨0x00030000,0,0,0⟩,⟨0x00030000,0,0,0⟩,⟨0x00030100,0,0,0⟩]

def nestedIfCode : Code :=
  .branch (.branch (.plain 0 .done) .done (.plain 0 .done)) .done (.plain 0 .done)

/-- The block of the second `ADD`, at word 3, has no successor, and the run through both bodies
goes on from it to word 4. -/
theorem not_covers_control_flow_nested_if : ProgramOf nestedIfProgram nestedIfCode ∧
      ∃ g, deconstructFragmentProgram nestedIfProgram = .ok g ∧
        ¬ CoversControlFlow nestedIfProgram nestedIfCode g := by
  have h : ProgramOf nestedIfProgram nestedIfCode := by
    refine ⟨by decide,by decide,⟨_,rfl,by decide⟩,⟨⟨_,rfl,by decide⟩,?_,trivial,?_⟩, trivial,?_⟩ <;>
      exact ⟨⟨_,rfl,⟨by decide,rfl⟩,by decide⟩,trivial⟩
  have hgraph : ((deconstructFragmentProgram nestedIfProgram).toOption.any fun g =>
      g.Holds 3 3 ∧ g.Holds 4 4 ∧ ∀ b∈g.blocks, b.id=3 → b.succ=[]) := by decide
  have hrun : ∃ t, Runs false 0 nestedIfCode t .finished ∧ Consecutive t 3 4 :=
    ⟨_,.yesFinished (.yesFinished (.plain .done) (.plain .done)) (.plain .done),
      [.instr 0,.instr 1,.instr 2],[],rfl⟩
  cases hg : deconstructFragmentProgram nestedIfProgram with
  | error e => simp [hg,Except.toOption] at hgraph
  | ok g =>
    obtain ⟨hthree,hfour,hsucc⟩ : g.Holds 3 3 ∧ g.Holds 4 4 ∧
        ∀ b∈g.blocks, b.id=3 → b.succ=[] := by
      rw [hg] at hgraph
      exact of_decide_eq_true hgraph
    refine ⟨h,g,rfl,fun hcovers => ?_⟩
    obtain ⟨t,hruns,hcons⟩ := hrun
    have hnone : ∀ id, ¬ g.HasSucc 3 id := by
      rintro id ⟨b,hb,hid,e,he,-⟩
      rw [hsucc b hb hid] at he
      cases he
    cases hcovers.joined t _ hruns 3 4 hcons 3 4 hthree hfour (by decide) with
    | edge hsucc => exact hnone _ hsucc
    | step hsucc _ _ => exact hnone _ hsucc

end PS3Native.FragmentProgram
