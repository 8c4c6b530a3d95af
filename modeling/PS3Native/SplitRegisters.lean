import PS3Native.DependencyBarriers
import Mathlib.Algebra.BigOperators.Group.List.Basic

/-! # Split registers simulate aliased ones -/
namespace PS3Native.FragmentProgram

open SplitStore List

def registerWords (ref : RegisterRef) : List ℕ :=
  ((getRegisterFileRange ref).filter (·%2=0)).map (·/2)

theorem mem_registerWords {ref : RegisterRef} {w : ℕ} :
    w∈registerWords ref ↔ 2*w∈getRegisterFileRange ref := by
  simp only [registerWords,mem_map,mem_filter,decide_eq_true_eq]
  constructor
  · rintro ⟨index,⟨hmem,heven⟩,rfl⟩
    rwa [Nat.mul_div_cancel' (Nat.dvd_of_mod_eq_zero heven)]
  · intro hmem
    exact ⟨2*w,⟨hmem,Nat.mul_mod_right 2 w⟩,by omega⟩

section Semantics

variable {α : Type}

/-- What each instruction does, with copy `false` for the `R` and `true` for the `H` registers. -/
abbrev Semantics (α : Type) := Instruction → Effect ℕ α

def ExactMoves (sem : Semantics α) : Prop :=
  ∀ inst s ws, inst.bytecode.move s = some ws → sem inst s=ws

/-- The instruction reads nothing but its sources and writes all of its destinations, in order. -/
structure IsAnnotated (sem : Semantics α) (inst : Instruction) : Prop where
  reads : (sem inst).ReadsOnly
    {p | ∃ src∈inst.srcs, p.2∈registerWords src ∧ src.reg.f16 = p.1}
  writes : ∀ s, (sem inst s).map (fun w => (w.copy,w.index)) =
    inst.dsts.flatMap fun dst => (registerWords dst).map (dst.reg.f16,·)

def runSplit (sem : Semantics α) (s : Copies ℕ α) (insts : List Instruction) : Copies ℕ α :=
  insts.foldl (fun s inst => s.exec (sem inst)) s

def runAliased (sem : Semantics α) (m : ℕ → α) (insts : List Instruction) : ℕ → α :=
  insts.foldl (fun m inst => exec m (sem inst)) m

variable {sem : Semantics α}

theorem runSplit_append (s : Copies ℕ α) (l l' : List Instruction) :
    runSplit sem s (l++l') = runSplit sem (runSplit sem s l) l' :=
  foldl_append

theorem Resolves.runSplit {bs : List Instruction} {f16 : Bool} {words : ℕ → Prop}
    [DecidablePred words] (h : Resolves bs f16 words) (hmoves : ExactMoves sem) (s : Copies ℕ α) :
    runSplit sem s bs = s.sync f16 words := by
  obtain ⟨parts,hparts,hmem⟩ := h
  rw [← sync_congr s f16 hmem]
  clear hmem
  induction hparts generalizing s with
  | nil => funext c w; simp [FragmentProgram.runSplit,Copies.sync]
  | @cons b part bs parts hb _ ih =>
    obtain ⟨ws,hmove,hsync⟩ := hb α s
    have hexec : s.exec (sem b) = s.sync f16 (·∈part) := by
      rw [Copies.exec,hmoves b s ws hmove,hsync]
    rw [FragmentProgram.runSplit,foldl_cons,hexec]
    refine (ih _).trans ?_
    rw [sync_sync]
    exact sync_congr s f16 fun w => by simp

/-- The width with which a word was last written, if the other one is out of date. -/
def latest (file : RegisterFile) (w : ℕ) : Option Bool :=
  match file (2*w) with
  | .float16 => some true
  | .float32 => some false
  | .unknown | .dual => none

theorem latest_eq_some {file : RegisterFile} {w : ℕ} {f16 : Bool} :
    latest file w = some f16 ↔ file (2*w) = expectedType f16 := by
  unfold latest
  cases file (2*w) <;> cases f16 <;> simp [expectedType]

theorem latest_writeDestination (file : RegisterFile) (dst : RegisterRef) :
    ((registerWords dst).map (dst.reg.f16,·)).foldl (fun l p => mark l p.1 p.2) (latest file) =
      latest (writeDestination file dst) := by
  rw [foldl_map,foldl_mark]
  funext w
  simp only [mem_registerWords]
  split_ifs with hmem
  · exact (latest_eq_some.mpr (if_pos hmem)).symm
  · simp only [latest,writeDestination,setLanes_apply,if_neg hmem]

theorem latest_writeDestinations (file : RegisterFile) (dsts : List RegisterRef) :
    (dsts.flatMap fun dst => (registerWords dst).map (dst.reg.f16,·)).foldl
      (fun l p => mark l p.1 p.2) (latest file) = latest (dsts.foldl writeDestination file) := by
  induction dsts generalizing file with
  | nil => rfl
  | cons dst dsts ih =>
    rw [flatMap_cons,foldl_append,latest_writeDestination,ih]
    rfl

variable {file : RegisterFile} {s : Copies ℕ α} {m : ℕ → α} {inst : Instruction}

/-- Every source of the instruction is up to date after the barriers. -/
theorem latest_readSources {src : RegisterRef} (hsrc : src∈inst.srcs) {w : ℕ}
    (hw : w∈registerWords src) : latest (readSources file inst).file w≠some (!src.reg.f16) := by
  rw [ne_eq,latest_eq_some]
  have hreads := readSources_readsLanes file inst
  have hmem : (src.reg.f16,2*w)∈inst.reads := mem_reads.mpr ⟨src,hsrc,mem_registerWords.mp hw,rfl⟩
  by_cases hc : Collides file inst.reads (2*w)
  · rw [hreads.dual _ hc]
    cases src.reg.f16 <;> simp [expectedType]
  · rw [hreads.same _ hc]
    exact fun hfile => hc ⟨_,hmem,hfile⟩

section

variable (hfile : HalfBounded file) (h : Coherent (latest file) s m) (hmoves : ExactMoves sem)

include hfile h hmoves

/-- The barriers before an instruction bring every word it collides on up to date. -/
theorem coherent_barriersBefore (inst : Instruction) :
    Coherent (latest (readSources file inst).file) (runSplit sem s (barriersBefore file inst)) m := by
  have hreads := readSources_readsLanes file inst
  rw [barriersBefore,runSplit_append,(hfile.barrier16_resolves inst).runSplit hmoves,
    (hfile.barrier32_resolves inst).runSplit hmoves]
  have h16 := h.sync true (fun w => 2*w∈(readSources file inst).barrier16) fun w hw =>
    latest_eq_some.mpr ((hreads.barrier16 _).mp hw).2
  have h32 := h16.sync false (fun w => 2*w∈(readSources file inst).barrier32) fun w hw => by
    have hhalf := ((hreads.barrier32 _).mp hw).2
    rw [if_neg,latest_eq_some]
    · exact hhalf
    · intro hw'
      cases hhalf.symm.trans ((hreads.barrier16 _).mp hw').2
  convert h32 using 1
  funext w
  by_cases hc : Collides file inst.reads (2*w)
  · rw [latest,hreads.dual _ hc]
    rcases hreads.mem_barriers hc with hmem | hmem <;> simp [hmem]
  · rw [if_neg fun hmem => hc ((hreads.barrier32 _).mp hmem).1,
      if_neg fun hmem => hc ((hreads.barrier16 _).mp hmem).1,latest,hreads.same _ hc]
    rfl

theorem coherent_step (hinst : IsAnnotated sem inst) : Coherent (latest (stepFile file inst))
      (runSplit sem s (barriersBefore file inst++[inst])) (exec m (sem inst)) := by
  have hbarriers := coherent_barriersBefore hfile h hmoves inst
  have hexec := hbarriers.exec hinst.reads fun copy w ⟨src,hsrc,hw,(hcopy : _=copy)⟩ =>
    hcopy ▸ latest_readSources hsrc hw
  rw [runSplit_append,stepFile,← latest_writeDestinations,← hinst.writes fun _ => m, foldl_map]
  exact hexec

theorem coherent_run {insts : List Instruction} (hinsts : ∀ inst∈insts, IsAnnotated sem inst) :
    HalfBounded (execRegisterFile file insts) ∧ Coherent (latest (execRegisterFile file insts))
        (runSplit sem s (insertDependencyBarriers file insts)) (runAliased sem m insts) := by
  induction insts generalizing file s m with
  | nil => exact ⟨hfile,h⟩
  | cons inst insts ih =>
    have hstep := coherent_step hfile h hmoves (hinsts inst mem_cons_self)
    rw [insertDependencyBarriers,append_cons,runSplit_append]
    exact ih (hfile.stepFile inst) hstep fun i hi => hinsts i (mem_cons_of_mem _ hi)

end

end Semantics

/-- Every source operand of every original instruction reads the same words from the separate
registers, right after its barriers, as it does from the aliased register file. -/
theorem split_reads_aliased {α : Type} {sem : Semantics α} (hmoves : ExactMoves sem)
    {insts : List Instruction} (hinsts : ∀ inst∈insts, IsAnnotated sem inst) {m : ℕ → α}
    {s : Copies ℕ α} (hs : ∀ f16 w, s f16 w = m w) :
    ∀ before inst after, insts = before++inst::after →
      ∃ barriers rest, insertDependencyBarriers unknownFile insts =
          insertDependencyBarriers unknownFile before++barriers++inst::rest ∧
        ∀ src∈inst.srcs, ∀ w∈registerWords src,
          runSplit sem s (insertDependencyBarriers unknownFile before++barriers)
            src.reg.f16 w = runAliased sem m before w := by
  rintro before inst after rfl
  have hbounded : HalfBounded unknownFile := fun _ hhalf => nomatch hhalf
  have hinitial : Coherent (latest unknownFile) s m := fun f16 w _ => hs f16 w
  obtain ⟨hfile,hcoherent⟩ := coherent_run hbounded hinitial hmoves
    fun i hi => hinsts i (mem_append_left _ hi)
  set file := execRegisterFile unknownFile before
  refine ⟨barriersBefore file inst,insertDependencyBarriers (stepFile file inst) after,?_,?_⟩
  · rw [insertDependencyBarriers_append,insertDependencyBarriers,append_assoc]
  · intro src hsrc w hw
    rw [runSplit_append]
    exact coherent_barriersBefore hfile hcoherent hmoves inst _ _ (latest_readSources hsrc hw)

/-- Moves words exactly; every other instruction writes one more than the sum of what it reads. -/
def sumSemantics : Semantics ℕ := fun inst s =>
  (inst.bytecode.move s).getD <| inst.dsts.flatMap fun dst => (registerWords dst).map fun w =>
    ⟨dst.reg.f16,w,(inst.srcs.flatMap fun src => (registerWords src).map (s src.reg.f16)).sum+1⟩

theorem sumSemantics_exactMoves : ExactMoves sumSemantics := by
  intro inst s ws hmove
  rw [sumSemantics,hmove,Option.getD_some]

theorem sumSemantics_isAnnotated {inst : Instruction} (h : inst.bytecode = ⟨0,0,0,0⟩) :
    IsAnnotated sumSemantics inst := by
  have hmove : ∀ s : Copies ℕ ℕ, inst.bytecode.move s=none := fun s => by
    rw [h,Quad.move,if_pos (by decide)]
  constructor
  · intro s t hst
    have hsum : ∀ src∈inst.srcs, (registerWords src).map (s src.reg.f16) =
        (registerWords src).map (t src.reg.f16) := fun src hsrc =>
      map_congr_left fun w hw => hst _ _ ⟨src,hsrc,hw,rfl⟩
    simp only [sumSemantics,hmove,flatMap_def,map_congr_left hsum]
  · intro s
    simp only [sumSemantics,hmove,Option.getD_none,map_flatMap,map_map, Function.comp_def]

/-- Writes `R0.x`, reads `H0.x` while writing `H0.y`, and reads `R0.x`. -/
def mixedBlock : List Instruction :=
  [{dsts := [⟨⟨0,false⟩,1⟩]},{srcs := [⟨⟨0,true⟩,1⟩], dsts := [⟨⟨0,true⟩,2⟩]},
    {srcs := [⟨⟨0,false⟩,1⟩]}]

theorem split_reads_aliased_mixed : (∀ inst∈mixedBlock, inst.bytecode = ⟨0,0,0,0⟩) ∧
      ∀ before inst after, mixedBlock = before++inst::after →
        ∃ barriers rest, insertDependencyBarriers unknownFile mixedBlock =
            insertDependencyBarriers unknownFile before++barriers++inst::rest ∧
          ∀ src∈inst.srcs, ∀ w∈registerWords src, runSplit sumSemantics (fun _ w => w)
              (insertDependencyBarriers unknownFile before++barriers) src.reg.f16 w =
              runAliased sumSemantics (fun w => w) before w := by
  have hbytecode : ∀ inst∈mixedBlock, inst.bytecode = ⟨0,0,0,0⟩ := by decide
  exact ⟨hbytecode,split_reads_aliased sumSemantics_exactMoves
    (fun inst hinst => sumSemantics_isAnnotated (hbytecode inst hinst)) fun _ _ => rfl⟩

end PS3Native.FragmentProgram
