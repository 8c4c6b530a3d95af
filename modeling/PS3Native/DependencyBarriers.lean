import PS3Native.ResolveDependencies

/-!
# Barriers inside a block

`insert_dependency_barriers` goes through the instructions of a block and keeps, for each byte
lane, the width it was last written with. A read with the other width makes the lane dual and puts
a barrier before the instruction.
-/
namespace PS3Native.FragmentProgram
open List

structure BarrierState where
  file : RegisterFile
  barrier16 : List ℕ := []
  barrier32 : List ℕ := []

def BarrierState.read (s : BarrierState) (access : Bool × ℕ) : BarrierState :=
  let (f16,index) := access
  if s.file index = .unknown then s
  else if s.file index = expectedType f16 ∨ s.file index = .dual then s
  else
    let file := s.file.setLanes [index] .dual
    if f16 then {s with file := file, barrier16 := index::s.barrier16}
    else {s with file := file, barrier32 := index::s.barrier32}

def Instruction.reads (inst : Instruction) : List (Bool × ℕ) :=
  inst.srcs.flatMap fun src => (getRegisterFileRange src).map (src.reg.f16,·)

def readSources (file : RegisterFile) (inst : Instruction) : BarrierState :=
  inst.reads.foldl BarrierState.read {file := file}

def writeDestination (file : RegisterFile) (dst : RegisterRef) : RegisterFile :=
  file.setLanes (getRegisterFileRange dst) (expectedType dst.reg.f16)

def stepFile (file : RegisterFile) (inst : Instruction) : RegisterFile :=
  inst.dsts.foldl writeDestination (readSources file inst).file

def barriersBefore (file : RegisterFile) (inst : Instruction) : List Instruction :=
  let s := readSources file inst
  resolveDependencies s.barrier16 true++resolveDependencies s.barrier32 false

def execRegisterFile (file : RegisterFile) (insts : List Instruction) : RegisterFile :=
  insts.foldl stepFile file

def insertDependencyBarriers (file : RegisterFile) : List Instruction → List Instruction
  | [] => []
  | inst::rest =>
    barriersBefore file inst++inst::insertDependencyBarriers (stepFile file inst) rest

theorem insertDependencyBarriers_append (file : RegisterFile) (l l' : List Instruction) :
    insertDependencyBarriers file (l++l') = insertDependencyBarriers file l ++
      insertDependencyBarriers (execRegisterFile file l) l' := by
  induction l generalizing file with
  | nil => rfl
  | cons inst l ih => simp [insertDependencyBarriers,ih,execRegisterFile]

theorem setLanes_apply (file : RegisterFile) (lanes : List ℕ) (content : Content) (index : ℕ) :
    file.setLanes lanes content index = if index∈lanes then content else file index := rfl

section Reads

variable {file : RegisterFile} {l : List (Bool × ℕ)} {index : ℕ}

/-- A lane that was last written with one width is read with the other one. -/
def Collides (file : RegisterFile) (reads : List (Bool × ℕ)) (index : ℕ) : Prop :=
  ∃ f16, (f16,index)∈reads ∧ file index = expectedType (!f16)

/-- The lanes that collide become dual, and each gets a barrier of the width it is read with. -/
structure ReadsLanes (file : RegisterFile) (reads : List (Bool × ℕ)) (s : BarrierState) : Prop where
  dual : ∀ index, Collides file reads index → s.file index = .dual
  same : ∀ index, ¬ Collides file reads index → s.file index = file index
  barrier16 : ∀ index, index∈s.barrier16 ↔ Collides file reads index ∧ file index = .float32
  barrier32 : ∀ index, index∈s.barrier32 ↔ Collides file reads index ∧ file index = .float16

theorem collides_append {access : Bool × ℕ} : Collides file (l++[access]) index ↔
    Collides file l index ∨ (index=access.2 ∧ file index = expectedType (!access.1)) := by
  obtain ⟨f16,i⟩ := access
  simp only [Collides,mem_append,mem_singleton,Prod.mk.injEq]
  constructor
  · rintro ⟨f16',hmem | ⟨rfl,rfl⟩,hfile⟩
    · exact .inl ⟨f16',hmem,hfile⟩
    · exact .inr ⟨rfl,hfile⟩
  · rintro (⟨f16',hmem,hfile⟩ | ⟨rfl,hfile⟩)
    · exact ⟨f16',.inl hmem,hfile⟩
    · exact ⟨f16,.inr ⟨rfl,rfl⟩,hfile⟩

variable {s : BarrierState}

theorem ReadsLanes.congr {l' : List (Bool × ℕ)} (h : ReadsLanes file l s)
    (hl : ∀ index, Collides file l' index ↔ Collides file l index) : ReadsLanes file l' s :=
  ⟨fun index hc => h.dual index ((hl index).mp hc),
    fun index hc => h.same index fun hc' => hc ((hl index).mpr hc'),
    fun index => (h.barrier16 index).trans (and_congr_left' (hl index).symm),
    fun index => (h.barrier32 index).trans (and_congr_left' (hl index).symm)⟩

theorem ReadsLanes.read (h : ReadsLanes file l s) (access : Bool × ℕ) :
    ReadsLanes file (l++[access]) (s.read access) := by
  obtain ⟨f16,i⟩ := access
  by_cases hnew : ¬ Collides file l i ∧ file i = expectedType (!f16)
  · obtain ⟨hfresh,hfile⟩ := hnew
    have hread : s.read (f16,i) = if f16 then ⟨s.file.setLanes [i] .dual,i::s.barrier16,s.barrier32⟩
        else ⟨s.file.setLanes [i] .dual,s.barrier16,i::s.barrier32⟩ := by
      rw [BarrierState.read,h.same i hfresh,hfile]
      cases f16 <;> rfl
    have hcollides : ∀ index, Collides file (l++[(f16,i)]) index ↔
        index=i ∨ Collides file l index := fun index => by
      rw [collides_append,or_comm]
      exact or_congr_left (and_iff_left_of_imp fun heq => heq ▸ hfile)
    have hdual : ∀ index, Collides file (l++[(f16,i)]) index →
        (s.file.setLanes [i] .dual) index = .dual := by
      intro index hc
      simp only [setLanes_apply,mem_singleton]
      split_ifs with heq
      · rfl
      · exact h.dual index (((hcollides index).mp hc).resolve_left heq)
    have hsame : ∀ index, ¬ Collides file (l++[(f16,i)]) index →
        (s.file.setLanes [i] .dual) index = file index := by
      intro index hc
      rw [hcollides,not_or] at hc
      simpa only [setLanes_apply,mem_singleton,if_neg hc.1] using h.same index hc.2
    rw [hread]
    cases f16 with
    | false =>
      refine ⟨hdual,hsame,fun index => ?_,fun index => ?_⟩
      · rw [hcollides,if_neg Bool.false_ne_true]
        refine (h.barrier16 index).trans (and_congr_left fun hreal => (or_iff_right ?_).symm)
        rintro rfl
        exact absurd (hfile.symm.trans hreal) (by decide)
      · rw [hcollides,if_neg Bool.false_ne_true,mem_cons,h.barrier32,or_and_right]
        exact or_congr_left (and_iff_left_of_imp fun heq => heq ▸ hfile).symm
    | true =>
      refine ⟨hdual,hsame,fun index => ?_,fun index => ?_⟩
      · rw [hcollides,if_pos rfl,mem_cons,h.barrier16,or_and_right]
        exact or_congr_left (and_iff_left_of_imp fun heq => heq ▸ hfile).symm
      · rw [hcollides,if_pos rfl]
        refine (h.barrier32 index).trans (and_congr_left fun hhalf => (or_iff_right ?_).symm)
        rintro rfl
        exact absurd (hfile.symm.trans hhalf) (by decide)
  · have hcollides : ∀ index, Collides file (l++[(f16,i)]) index ↔ Collides file l index := by
      intro index
      rw [collides_append,or_iff_left_of_imp]
      rintro ⟨rfl,hfile⟩
      by_contra hfresh
      exact hnew ⟨hfresh,hfile⟩
    have hread : s.read (f16,i)=s := by
      by_cases hc : Collides file l i
      · simp [BarrierState.read,h.dual i hc]
      · have hfile : file i≠expectedType (!f16) := fun hfile => hnew ⟨hc,hfile⟩
        rw [BarrierState.read,h.same i hc]
        revert hfile
        generalize file i=content
        cases content <;> cases f16 <;> simp [expectedType]
    rw [hread]
    exact h.congr hcollides

theorem ReadsLanes.mem_barriers (h : ReadsLanes file l s) (hc : Collides file l index) :
    index∈s.barrier16 ∨ index∈s.barrier32 := by
  have ⟨f16,_,hfile⟩ := hc
  cases f16 with
  | false => exact .inr ((h.barrier32 index).mpr ⟨hc,hfile⟩)
  | true => exact .inl ((h.barrier16 index).mpr ⟨hc,hfile⟩)

theorem readSources_readsLanes (file : RegisterFile) (inst : Instruction) :
    ReadsLanes file inst.reads (readSources file inst) := by
  rw [readSources]
  induction inst.reads using reverseRecOn with
  | nil =>
    have hnone : ∀ index, ¬ Collides file [] index := fun index ⟨_,hmem,_⟩ => nomatch hmem
    exact ⟨fun index hc => absurd hc (hnone index),fun index _ => rfl,
      fun index => by simp [hnone],fun index => by simp [hnone]⟩
  | append_singleton l access ih =>
    rw [foldl_append]
    exact ih.read access

end Reads

def HalfBounded (file : RegisterFile) : Prop :=
  ∀ index, file index = .float16 → index < 384

theorem mem_reads {inst : Instruction} {f16 : Bool} {index : ℕ} : (f16,index)∈inst.reads ↔
      ∃ src∈inst.srcs, index∈getRegisterFileRange src ∧ src.reg.f16=f16 := by
  simp [Instruction.reads]

theorem lt_of_mem_reads {inst : Instruction} {index : ℕ} (h : (true,index)∈inst.reads) :
    index < 384 := by
  obtain ⟨src,-,hmem,hf16⟩ := mem_reads.mp h
  simpa [hf16] using lt_of_mem_getRegisterFileRange hmem

section Bounded

variable {file : RegisterFile} (h : HalfBounded file) (inst : Instruction)
include h

theorem HalfBounded.writeDestination (dst : RegisterRef) :
    HalfBounded (writeDestination file dst) := by
  intro index hhalf
  rw [FragmentProgram.writeDestination,setLanes_apply] at hhalf
  split_ifs at hhalf with hmem
  · have hf16 : dst.reg.f16 := by
      by_contra hf16
      simp [expectedType,hf16] at hhalf
    simpa [hf16] using lt_of_mem_getRegisterFileRange hmem
  · exact h index hhalf

theorem HalfBounded.readSources : HalfBounded (readSources file inst).file := by
  intro index hhalf
  have hreads := readSources_readsLanes file inst
  by_cases hc : Collides file inst.reads index
  · rw [hreads.dual index hc] at hhalf
    cases hhalf
  · rw [hreads.same index hc] at hhalf
    exact h index hhalf

theorem HalfBounded.stepFile : HalfBounded (stepFile file inst) := by
  rw [FragmentProgram.stepFile]
  have hread := h.readSources inst
  generalize (FragmentProgram.readSources file inst).file = file' at hread
  induction inst.dsts generalizing file' with
  | nil => exact hread
  | cons dst dsts ih => exact ih _ (hread.writeDestination dst)

theorem HalfBounded.barrier16_resolves : Resolves
    (resolveDependencies (FragmentProgram.readSources file inst).barrier16 true) true
      fun w => 2*w∈(FragmentProgram.readSources file inst).barrier16 := by
  refine resolveDependencies_resolves (fun lane hlane => ?_) true
  obtain ⟨⟨f16,hmem,hother⟩,hreal⟩ := ((readSources_readsLanes file inst).barrier16 lane).mp hlane
  cases f16 with
  | false => exact h lane hother
  | true => exact lt_of_mem_reads hmem

theorem HalfBounded.barrier32_resolves : Resolves
    (resolveDependencies (FragmentProgram.readSources file inst).barrier32 false) false
      fun w => 2*w∈(FragmentProgram.readSources file inst).barrier32 := by
  refine resolveDependencies_resolves (fun lane hlane => ?_) false
  exact h lane (((readSources_readsLanes file inst).barrier32 lane).mp hlane).2

end Bounded

end PS3Native.FragmentProgram
