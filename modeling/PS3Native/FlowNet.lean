import PS3Native.FragmentBytecode

/-!
# Flow graphs as nets

A graph under construction only ever gains blocks, edges and instructions. A `Net` is the history of
these additions; a graph represents a net when its blocks list what the net says about them.
-/
namespace PS3Native.FragmentProgram
open List

structure Net where
  ids : List ℕ
  edges : List FlowEdge
  emitted : List (ℕ × Instruction)

namespace Net

def addEdge (n : Net) (e : FlowEdge) : Net := {n with edges := n.edges++[e]}

def addBlock (n : Net) (id : ℕ) : Net := {n with ids := n.ids++[id]}

def emit (n : Net) (bb : ℕ) (i : Instruction) : Net := {n with emitted := n.emitted++[(bb,i)]}

def succ (n : Net) (id : ℕ) : List FlowEdge := n.edges.filter (·.source=id)

def pred (n : Net) (id : ℕ) : List FlowEdge := n.edges.filter (·.target=id)

def instructions (n : Net) (id : ℕ) : List Instruction :=
  (n.emitted.filter (·.1=id)).map (·.2)

end Net

structure Represents (g : FlowGraph) (n : Net) : Prop where
  ids : g.ids=n.ids
  nodup : n.ids.Nodup
  closed : ∀ e∈n.edges, e.source∈n.ids ∧ e.target∈n.ids
  placed : ∀ p∈n.emitted, p.1∈n.ids
  succ : ∀ b∈g.blocks, b.succ = n.succ b.id
  pred : ∀ b∈g.blocks, b.pred = n.pred b.id
  instructions : ∀ b∈g.blocks, b.instructions = n.instructions b.id

namespace FlowGraph

variable {f : BasicBlock → BasicBlock}

theorem ids_modify (g : FlowGraph) (id : ℕ) (hf : ∀ b, (f b).id=b.id) :
    (g.modify id f).ids=g.ids := by
  simp only [ids,modify,map_map]
  refine map_congr_left fun b _ => ?_
  by_cases h : b.id=id <;> simp [h,hf]

theorem mem_modify {g : FlowGraph} {id : ℕ} {b : BasicBlock} (h : b∈(g.modify id f).blocks) :
    ∃ b₀∈g.blocks, b = if b₀.id=id then f b₀ else b₀ := by
  obtain ⟨b₀,hb₀,rfl⟩ := mem_map.mp h
  exact ⟨b₀,hb₀,rfl⟩

theorem modify_modify_cancel (g : FlowGraph) (id : ℕ) {h : BasicBlock → BasicBlock}
    (hid : ∀ b, (f b).id=b.id) (hf : ∀ b, h (f b)=b) : (g.modify id f).modify id h=g := by
  cases g with
  | mk blocks =>
    simp only [modify,map_map,FlowGraph.mk.injEq]
    refine (map_congr_left fun b _ => ?_).trans (map_id blocks)
    by_cases hb : b.id=id <;> simp [hb,hid,hf]

end FlowGraph

namespace Represents

variable {g : FlowGraph} {n : Net} {id : ℕ}

section

variable (h : Represents g n)

include h

theorem find_some (hid : id∈n.ids) : ∃ b∈g.blocks, b.id=id ∧ g.find id = some b :=
  FlowGraph.exists_find (h.ids ▸ hid)

theorem find_none (hid : id∉n.ids) : g.find id=none := by
  rw [← h.ids] at hid
  refine find?_eq_none.mpr fun b hb hbid => hid ?_
  exact mem_map.mpr ⟨b,hb,by simpa using hbid⟩

theorem succ_eq_nil (hid : id∉n.ids) : n.succ id=[] := by
  refine filter_eq_nil_iff.mpr fun e he hsource => hid ?_
  rw [← of_decide_eq_true hsource]
  exact (h.closed e he).1

theorem pred_eq_nil (hid : id∉n.ids) : n.pred id=[] := by
  refine filter_eq_nil_iff.mpr fun e he htarget => hid ?_
  rw [← of_decide_eq_true htarget]
  exact (h.closed e he).2

theorem instructions_eq_nil (hid : id∉n.ids) : n.instructions id=[] := by
  refine map_eq_nil_iff.mpr (filter_eq_nil_iff.mpr fun p hp hpid => hid ?_)
  rw [← of_decide_eq_true hpid]
  exact h.placed p hp

theorem graph_succ (id : ℕ) : g.succ id = n.succ id := by
  by_cases hid : id∈n.ids
  · obtain ⟨b,hb,rfl,hfind⟩ := h.find_some hid
    rw [FlowGraph.succ,hfind]
    exact h.succ b hb
  · rw [FlowGraph.succ,h.find_none hid,h.succ_eq_nil hid]
    rfl

theorem graph_pred (id : ℕ) : g.pred id = n.pred id := by
  by_cases hid : id∈n.ids
  · obtain ⟨b,hb,rfl,hfind⟩ := h.find_some hid
    rw [FlowGraph.pred,hfind]
    exact h.pred b hb
  · rw [FlowGraph.pred,h.find_none hid,h.pred_eq_nil hid]
    rfl

theorem insertEdge {parent child : ℕ} (type : EdgeType) (hparent : parent∈n.ids)
    (hchild : child∈n.ids) :
    Represents (g.insertEdge parent child type) (n.addEdge ⟨type,parent,child⟩) := by
  have hblock : ∀ b∈(g.insertEdge parent child type).blocks, ∃ b₀∈g.blocks, b.id=b₀.id ∧
      b.succ = b₀.succ++(if b₀.id=parent then [⟨type,parent,child⟩] else []) ∧
      b.pred = b₀.pred++(if b₀.id=child then [⟨type,parent,child⟩] else []) ∧
      b.instructions=b₀.instructions := by
    intro b hb
    obtain ⟨b₁,hb₁,rfl⟩ := FlowGraph.mem_modify hb
    obtain ⟨b₀,hb₀,rfl⟩ := FlowGraph.mem_modify hb₁
    refine ⟨b₀,hb₀,?_⟩
    by_cases hp : b₀.id=parent <;> by_cases hc : b₀.id=child <;>
      simp_all [BasicBlock.insertSucc,BasicBlock.insertPred]
  refine ⟨?_,h.nodup,?_,h.placed,?_,?_,?_⟩
  · rw [FlowGraph.insertEdge,FlowGraph.ids_modify,FlowGraph.ids_modify]
    · exact h.ids
    all_goals exact fun b => rfl
  · intro e he
    rcases mem_append.mp he with he | he
    · exact h.closed e he
    · rw [mem_singleton.mp he]
      exact ⟨hparent,hchild⟩
  · intro b hb
    obtain ⟨b₀,hb₀,hid,hsucc,-,-⟩ := hblock b hb
    rw [hsucc,hid,h.succ b₀ hb₀,Net.succ,Net.succ,Net.addEdge,filter_append]
    simp [filter_singleton,eq_comm]
  · intro b hb
    obtain ⟨b₀,hb₀,hid,-,hpred,-⟩ := hblock b hb
    rw [hpred,hid,h.pred b₀ hb₀,Net.pred,Net.pred,Net.addEdge,filter_append]
    simp [filter_singleton,eq_comm]
  · intro b hb
    obtain ⟨b₀,hb₀,hid,-,-,hinst⟩ := hblock b hb
    rw [hinst,hid]
    exact h.instructions b₀ hb₀

theorem addBlock (hid : id∉n.ids) : Represents ⟨g.blocks++[{id := id}]⟩ (n.addBlock id) := by
  have hsplit : ∀ b∈g.blocks++[{id := id}], b∈g.blocks ∨ b = {id := id} := by
    simp
  refine ⟨?_,?_,fun e he => ?_,fun p hp => ?_,fun b hb => ?_,fun b hb => ?_,fun b hb => ?_⟩
  · simp [FlowGraph.ids,Net.addBlock,← h.ids]
  · exact List.Nodup.append h.nodup (nodup_singleton id) (by simpa using hid)
  · exact (h.closed e he).imp (mem_append_left _) (mem_append_left _)
  · exact mem_append_left _ (h.placed p hp)
  · rcases hsplit b hb with hb | rfl
    · exact h.succ b hb
    · exact (h.succ_eq_nil hid).symm
  · rcases hsplit b hb with hb | rfl
    · exact h.pred b hb
    · exact (h.pred_eq_nil hid).symm
  · rcases hsplit b hb with hb | rfl
    · exact h.instructions b hb
    · exact (h.instructions_eq_nil hid).symm

theorem push {parent : ℕ} (type : EdgeType) (hparent : parent∈n.ids) (hid : id∉n.ids) :
    Represents (g.push parent id type) ((n.addBlock id).addEdge ⟨type,parent,id⟩) :=
  (h.addBlock hid).insertEdge type (by simp [Net.addBlock,hparent]) (by simp [Net.addBlock])

theorem modify_instructions {bb : ℕ} {f : BasicBlock → BasicBlock}
    {emitted : List (ℕ × Instruction)}
    (hf : ∀ b, f b = {b with instructions := (f b).instructions})
    (hplaced : ∀ p∈emitted, p.1∈n.ids) (hbb : ∀ b∈g.blocks, b.id=bb →
      (f b).instructions = {n with emitted := emitted}.instructions bb)
    (hother : ∀ id≠bb, n.instructions id = {n with emitted := emitted}.instructions id) :
    Represents (g.modify bb f) {n with emitted := emitted} := by
  have hid : ∀ b, (f b).id=b.id := fun b => by rw [hf]
  refine ⟨(g.ids_modify bb hid).trans h.ids,h.nodup,h.closed,hplaced,fun b hb => ?_,
    fun b hb => ?_,fun b hb => ?_⟩
  all_goals
    obtain ⟨b₀,hb₀,rfl⟩ := FlowGraph.mem_modify hb
    by_cases hb₀id : b₀.id=bb
    all_goals simp only [hb₀id,if_true,if_false]
  · rw [hf]
    exact h.succ b₀ hb₀
  · exact h.succ b₀ hb₀
  · rw [hf]
    exact h.pred b₀ hb₀
  · exact h.pred b₀ hb₀
  · rw [hid,hb₀id]
    exact hbb b₀ hb₀ hb₀id
  · rw [h.instructions b₀ hb₀]
    exact hother b₀.id hb₀id

end

end Represents

namespace FlowGraph

theorem mem_sorted {g : FlowGraph} {b : BasicBlock} :
    b∈g.sorted.blocks ↔ ∃ b₀∈g.blocks, b = { b₀ with
      pred := b₀.pred.insertionSort fun x y => y.source ≤ x.source
      succ := b₀.succ.insertionSort fun x y => x.target ≤ y.target } := by
  simp only [sorted,mem_insertionSort,mem_map,eq_comm]

theorem mem_ids_sorted {g : FlowGraph} {id : ℕ} : id∈g.sorted.ids ↔ id∈g.ids := by
  simp only [ids,mem_map,mem_sorted]
  constructor
  · rintro ⟨_,⟨b₀,hb₀,rfl⟩,rfl⟩
    exact ⟨b₀,hb₀,rfl⟩
  · rintro ⟨b₀,hb₀,rfl⟩
    exact ⟨_,⟨b₀,hb₀,rfl⟩,rfl⟩

theorem sorted_ids {g : FlowGraph} (h : g.ids.Nodup) : g.sorted.ids.Pairwise (· < ·) := by
  have hperm : g.sorted.ids.Perm g.ids := by
    refine ((perm_insertionSort _ _).map _).trans ?_
    rw [map_map]
    exact List.Perm.refl _
  have hle : g.sorted.ids.Pairwise (· ≤ ·) := by
    refine pairwise_map.mpr ?_
    exact pairwise_insertionSort _ _
  exact (hle.and (hperm.nodup_iff.mpr h)).imp fun ⟨hle,hne⟩ => lt_of_le_of_ne hle hne

end FlowGraph

namespace Represents

variable {g : FlowGraph} {n : Net} {b : BasicBlock}

section

variable (h : Represents g n) (hb : b∈g.sorted.blocks)

include h hb

theorem mem_sorted_succ {e : FlowEdge} : e∈b.succ ↔ e∈n.edges ∧ e.source=b.id := by
  obtain ⟨b₀,hb₀,rfl⟩ := FlowGraph.mem_sorted.mp hb
  simp [h.succ b₀ hb₀,Net.succ]

theorem mem_sorted_pred {e : FlowEdge} : e∈b.pred ↔ e∈n.edges ∧ e.target=b.id := by
  obtain ⟨b₀,hb₀,rfl⟩ := FlowGraph.mem_sorted.mp hb
  simp [h.pred b₀ hb₀,Net.pred]

theorem sorted_instructions : b.instructions = n.instructions b.id := by
  obtain ⟨b₀,hb₀,rfl⟩ := FlowGraph.mem_sorted.mp hb
  exact h.instructions b₀ hb₀

theorem count_sorted {b' : BasicBlock} (hb' : b'∈g.sorted.blocks) (type : EdgeType) :
    b.succ.count ⟨type,b.id,b'.id⟩ = b'.pred.count ⟨type,b.id,b'.id⟩ := by
  obtain ⟨b₀,hb₀,rfl⟩ := FlowGraph.mem_sorted.mp hb
  obtain ⟨b₁,hb₁,rfl⟩ := FlowGraph.mem_sorted.mp hb'
  rw [(perm_insertionSort _ _).count_eq,(perm_insertionSort _ _).count_eq,
    h.succ b₀ hb₀,h.pred b₁ hb₁,Net.succ,Net.pred,count_filter (by simp),count_filter (by simp)]

end

end Represents

end PS3Native.FragmentProgram
