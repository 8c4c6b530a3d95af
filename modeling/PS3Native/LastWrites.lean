import PS3Native.DependencyBarriers

/-!
# What a block reads and writes

At the end of a block a lane has the width of its last write, unless a barrier after it has made the
lane dual. `annotate_block_io` lists the registers that a block reads before it writes them, and
those it writes; the annotation of single instructions is taken as given.
-/
namespace PS3Native.FragmentProgram
open List

def lastWrite (insts : List Instruction) (lane : ℕ) : Option Bool :=
  ((insts.flatMap (·.dsts)).filter fun dst => lane∈getRegisterFileRange dst).getLast?.map
    (·.reg.f16)

/-- The instruction is a barrier that brings the word of a lane up to date. -/
def Covers (b : Instruction) (f16 : Bool) (lane : ℕ) : Prop :=
  ∃ words, IsBarrier b f16 words ∧ lane/2∈words

/-- Among the instructions `out` that `insts` has become, a barrier of the given width for the lane
comes after the last of `insts` that writes the lane. -/
def RepairedInside (insts out : List Instruction) (f16 : Bool) (lane : ℕ) : Prop :=
  ∃ before after, insts = before++after ∧ lastWrite after lane=none ∧
    ∃ l b l', out = insertDependencyBarriers unknownFile before++l++b::l' ∧ Covers b f16 lane

def Paired (file : RegisterFile) : Prop := ∀ lane, file (2*(lane/2)) = file lane

variable {file : RegisterFile} {lane : ℕ}

theorem lastWrite_append (l l' : List Instruction) (lane : ℕ) :
    lastWrite (l++l') lane = (lastWrite l' lane).or (lastWrite l lane) := by
  rw [lastWrite,flatMap_append,filter_append,getLast?_append,Option.map_or]
  rfl

theorem writeDestinations_apply (dsts : List RegisterRef) : dsts.foldl writeDestination file lane =
      ((dsts.filter fun dst => lane∈getRegisterFileRange dst).getLast?.map
        fun dst => expectedType dst.reg.f16).getD (file lane) := by
  induction dsts using reverseRecOn with
  | nil => rfl
  | append_singleton dsts dst ih =>
    rw [foldl_append,filter_append,foldl_cons,foldl_nil,writeDestination, setLanes_apply]
    split_ifs with hmem
    · simp [hmem]
    · simp [hmem,ih]

theorem stepFile_apply (inst : Instruction) :
    stepFile file inst lane = match lastWrite [inst] lane with
      | some f16 => expectedType f16
      | none => (readSources file inst).file lane := by
  rw [stepFile,writeDestinations_apply,lastWrite,flatMap_cons,flatMap_nil, append_nil]
  cases (inst.dsts.filter fun dst => lane∈getRegisterFileRange dst).getLast? <;> rfl

section Paired

variable (h : Paired file)
include h

theorem Paired.setLanes {lanes : List ℕ} (hlanes : ∀ lane, 2*(lane/2)∈lanes ↔ lane∈lanes)
    (content : Content) : Paired (file.setLanes lanes content) := fun lane => by
  simp only [setLanes_apply,hlanes,h lane]

theorem Paired.collides {inst : Instruction} :
    Collides file inst.reads (2*(lane/2)) ↔ Collides file inst.reads lane := by
  simp only [Collides,mem_reads,even_mem_getRegisterFileRange,h lane]

theorem Paired.stepFile (inst : Instruction) : Paired (stepFile file inst) := by
  have hread : Paired (readSources file inst).file := by
    intro lane
    have hreads := readSources_readsLanes file inst
    by_cases hc : Collides file inst.reads lane
    · rw [hreads.dual lane hc,hreads.dual _ (h.collides.mpr hc)]
    · rw [hreads.same lane hc,hreads.same _ (mt h.collides.mp hc),h lane]
  rw [FragmentProgram.stepFile]
  generalize (readSources file inst).file = file' at hread
  induction inst.dsts generalizing file' with
  | nil => exact hread
  | cons dst dsts ih =>
    exact ih _ (hread.setLanes (fun _ => even_mem_getRegisterFileRange) _)

end Paired

theorem execRegisterFile_append (l : List Instruction) (inst : Instruction) :
    execRegisterFile file (l++[inst]) = stepFile (execRegisterFile file l) inst :=
  foldl_append

theorem execRegisterFile_paired (insts : List Instruction) :
    Paired (execRegisterFile unknownFile insts) := by
  induction insts using reverseRecOn with
  | nil => exact fun _ => rfl
  | append_singleton l inst ih => exact execRegisterFile_append l inst ▸ ih.stepFile inst

theorem execRegisterFile_halfBounded (insts : List Instruction) :
    HalfBounded (execRegisterFile unknownFile insts) := by
  induction insts using reverseRecOn with
  | nil => exact fun _ hhalf => nomatch hhalf
  | append_singleton l inst ih => exact execRegisterFile_append l inst ▸ ih.stepFile inst

variable {f16 : Bool}

theorem Resolves.covers {bs : List Instruction} {lanes : List ℕ}
    (h : Resolves bs f16 fun w => 2*w∈lanes) (hlane : 2*(lane/2)∈lanes) :
    ∃ b∈bs, Covers b f16 lane := by
  obtain ⟨b,hb,words,hbarrier,hmem⟩ := h.exists_barrier hlane
  exact ⟨b,hb,words,hbarrier,hmem⟩

theorem covers_barriersBefore (hpaired : Paired file) (hbounded : HalfBounded file)
    {inst : Instruction} (hc : Collides file inst.reads lane)
    (hfile : file lane = expectedType (!f16)) :
    ∃ b∈barriersBefore file inst, Covers b f16 lane := by
  have hreads := readSources_readsLanes file inst
  have heven : Collides file inst.reads (2*(lane/2)) := hpaired.collides.mpr hc
  rw [← hpaired lane] at hfile
  cases f16 with
  | false =>
    obtain ⟨b,hb,hcovers⟩ := (hbounded.barrier32_resolves inst).covers
      ((hreads.barrier32 _).mpr ⟨heven,hfile⟩)
    exact ⟨b,mem_append_right _ hb,hcovers⟩
  | true =>
    obtain ⟨b,hb,hcovers⟩ := (hbounded.barrier16_resolves inst).covers
      ((hreads.barrier16 _).mpr ⟨heven,hfile⟩)
    exact ⟨b,mem_append_left _ hb,hcovers⟩

theorem RepairedInside.append {insts out : List Instruction} (h : RepairedInside insts out f16 lane)
    {inst : Instruction} (hinst : lastWrite [inst] lane=none) (rest : List Instruction) :
    RepairedInside (insts++[inst]) (out++rest) f16 lane := by
  obtain ⟨before,after,rfl,hafter,l,b,l',rfl,hcovers⟩ := h
  refine ⟨before,after++[inst],by rw [append_assoc],
    by rw [lastWrite_append,hinst,hafter]; rfl,l,b,l'++rest,?_,hcovers⟩
  rw [append_assoc,cons_append]

theorem not_collides {reads : List (Bool × ℕ)}
    (h : file lane = .unknown ∨ file lane = .dual) : ¬ Collides file reads lane := by
  rintro ⟨f16,-,hfile⟩
  rw [hfile] at h
  cases f16 <;> simp [expectedType] at h

theorem execRegisterFile_spec (insts : List Instruction) :
    (lastWrite insts lane=none → execRegisterFile unknownFile insts lane = .unknown) ∧
      ∀ f16, lastWrite insts lane = some f16 →
        execRegisterFile unknownFile insts lane = expectedType f16 ∨
        (execRegisterFile unknownFile insts lane = .dual ∧
          RepairedInside insts (insertDependencyBarriers unknownFile insts) (!f16) lane) := by
  induction insts using reverseRecOn with
  | nil => exact ⟨fun _ => rfl,nofun⟩
  | append_singleton l inst ih =>
    obtain ⟨hnone,hsome⟩ := ih
    set file := execRegisterFile unknownFile l with hfile
    have hreads := readSources_readsLanes file inst
    rw [lastWrite_append,execRegisterFile_append,stepFile_apply,← hfile]
    cases hinst : lastWrite [inst] lane with
    | some f16' => exact ⟨nofun,fun f16 heq => .inl (by rw [Option.some.inj heq])⟩
    | none =>
      refine ⟨fun hl => ?_,fun f16 hl => ?_⟩
      · exact (hreads.same lane (not_collides (.inl (hnone hl)))).trans (hnone hl)
      · rcases hsome f16 hl with hwidth | ⟨hdual,hrepaired⟩
        · by_cases hc : Collides file inst.reads lane
          · obtain ⟨b,hb,hcovers⟩ := covers_barriersBefore (execRegisterFile_paired l)
              (execRegisterFile_halfBounded l) hc (by rwa [Bool.not_not] : _ = expectedType (! !f16))
            obtain ⟨l₁,l₂,hsplit⟩ := append_of_mem hb
            refine .inr ⟨hreads.dual lane hc,l,[inst],rfl,hinst,l₁,b,l₂++[inst],?_,hcovers⟩
            rw [insertDependencyBarriers_append,insertDependencyBarriers,← hfile,hsplit]
            simp [insertDependencyBarriers]
          · exact .inl ((hreads.same lane hc).trans hwidth)
        · refine .inr ⟨(hreads.same lane (not_collides (.inr hdual))).trans hdual,?_⟩
          rw [insertDependencyBarriers_append]
          exact hrepaired.append hinst _

structure BlockIo where
  output : RegisterFile := unknownFile
  input : RegisterFile := unknownFile

/-- The input tag of a lane that is read with the given width. -/
def Content.tagInput (content : Content) (f16 : Bool) : Content :=
  if content = expectedType f16 then content
  else if content=.unknown then expectedType f16
  else .dual

def BlockIo.read (io : BlockIo) (access : Bool × ℕ) : BlockIo :=
  if io.output access.2≠.unknown then io
  else { io with
    input := io.input.setLanes [access.2] ((io.input access.2).tagInput access.1) }

/-- The sources of an instruction are read before its first destination is written. -/
def BlockIo.step (io : BlockIo) (inst : Instruction) : BlockIo :=
  let io := inst.reads.foldl BlockIo.read io
  match inst.dsts.head? with
  | none => io
  | some dst => {io with output := writeDestination io.output dst}

def Content.Holds (content : Content) (f16 : Bool) : Prop :=
  content=.dual ∨ content = expectedType f16

instance (content : Content) (f16 : Bool) : Decidable (content.Holds f16) :=
  inferInstanceAs (Decidable (_ ∨ _))

def registerRef? (id : ℕ) (f16 : Bool) (mask : BitVec 4) : Option RegisterRef :=
  if mask=0 then none else some {reg := {id := id, f16 := f16}, mask := mask}

/-- The registers with a lane in use. The early rejection of registers all of whose lanes are
unknown is left out; such a register has an empty mask. -/
def compileRegisterFile (file : RegisterFile) : List RegisterRef :=
  ((List.range 48).filterMap fun reg16 => registerRef? reg16 true <| channelMask fun ch =>
    decide ((file (reg16*8+2*ch)).Holds true)) ++
  (List.range 24).filterMap fun reg32 => registerRef? reg32 false <| channelMask fun ch =>
    (List.range 4).any fun byte => decide ((file (reg32*16+4*ch+byte)).Holds false)

def annotateBlockIo (b : BasicBlock) : BasicBlock :=
  let io := b.instructions.foldl BlockIo.step {}
  {b with clobberList := compileRegisterFile io.output, inputList := compileRegisterFile io.input}

def annotateBlocks (g : FlowGraph) : FlowGraph := ⟨g.blocks.map annotateBlockIo⟩

section Input

variable {io : BlockIo} {f16 : Bool} {index : ℕ}

theorem mem_registerRef? {f : Bool} {i id ch : ℕ} {mask : BitVec 4} (hid : id < 48)
    (hmask : mask.getLsbD ch) (hindex : i/(if f then 2 else 4) = id*4+ch) :
    ∃ ref, registerRef? id f mask = some ref ∧ ref.reg.f16=f ∧ i∈getRegisterFileRange ref := by
  have hne : mask≠0 := by
    rintro rfl
    simp at hmask
  refine ⟨{reg := {id := id, f16 := f}, mask := mask},if_neg hne,rfl,?_⟩
  exact mem_getRegisterFileRange.mpr ⟨hid,ch,BitVec.lt_of_getLsbD hmask,hmask,hindex⟩

/-- A lane in use is listed, if both kinds of registers have it. -/
theorem mem_compileRegisterFile {file : RegisterFile} (hlane : index < 384)
    (h : (file (2*(index/2))).Holds f16) :
    ∃ ref∈compileRegisterFile file, ref.reg.f16=f16 ∧ index∈getRegisterFileRange ref := by
  cases f16 with
  | true =>
    have hbit : (channelMask fun ch => decide ((file (index/8*8+2*ch)).Holds true)).getLsbD
        (index/2%4) := by
      have heven : index/8*8+2*(index/2%4) = 2*(index/2) := by omega
      rw [getLsbD_channelMask,heven]
      simpa [Nat.mod_lt] using h
    obtain ⟨ref,href,hf16,hmem⟩ :=
      mem_registerRef? (f := true) (i := index) (by omega : index/8 < 48) hbit
        (by simp only [if_pos]; omega)
    refine ⟨ref,mem_append_left _ (mem_filterMap.mpr ⟨index/8,?_,href⟩),hf16,hmem⟩
    exact mem_range.mpr (by omega)
  | false =>
    have hbit : (channelMask fun ch => (range 4).any fun byte =>
        decide ((file (index/16*16+4*ch+byte)).Holds false)).getLsbD
        (index/4%4) := by
      have heven : index/16*16+4*(index/4%4)+2*(index/2%2) = 2*(index/2) := by
        omega
      rw [getLsbD_channelMask]
      simp only [Bool.and_eq_true,decide_eq_true_eq,any_eq_true,mem_range]
      exact ⟨by omega,2*(index/2%2),by omega,heven ▸ h⟩
    obtain ⟨ref,href,hf16,hmem⟩ :=
      mem_registerRef? (f := false) (i := index) (by omega : index/16 < 48) hbit
        (by simp only [if_neg Bool.false_ne_true]; omega)
    refine ⟨ref,mem_append_right _ (mem_filterMap.mpr ⟨index/16,?_,href⟩),hf16,hmem⟩
    exact mem_range.mpr (by omega)

theorem output_read (access : Bool × ℕ) : (io.read access).output=io.output := by
  unfold BlockIo.read
  split <;> rfl

theorem output_reads (l : List (Bool × ℕ)) : (l.foldl BlockIo.read io).output=io.output := by
  induction l generalizing io with
  | nil => rfl
  | cons access l ih => rw [foldl_cons,ih,output_read]

theorem tagInput_self (content : Content) (f16 : Bool) : (content.tagInput f16).Holds f16 := by
  cases content <;> cases f16 <;> decide

theorem Content.Holds.tagInput {content : Content} (h : content.Holds f16) (f16' : Bool) :
    (content.tagInput f16').Holds f16 := by
  revert h
  cases content <;> cases f16 <;> cases f16' <;> decide

theorem holds_read (access : Bool × ℕ) (h : (io.input index).Holds f16) :
    ((io.read access).input index).Holds f16 := by
  unfold BlockIo.read
  split
  · exact h
  · simp only [setLanes_apply,mem_singleton]
    split_ifs with hindex
    · exact hindex ▸ h.tagInput access.1
    · exact h

theorem holds_reads (l : List (Bool × ℕ)) (h : (io.input index).Holds f16) :
    ((l.foldl BlockIo.read io).input index).Holds f16 := by
  induction l generalizing io with
  | nil => exact h
  | cons access l ih => exact ih (holds_read access h)

theorem holds_of_mem_reads {l : List (Bool × ℕ)} (hmem : (f16,index)∈l)
    (houtput : io.output index = .unknown) : ((l.foldl BlockIo.read io).input index).Holds f16 := by
  induction l generalizing io with
  | nil => cases hmem
  | cons access l ih =>
    rcases mem_cons.mp hmem with rfl | hmem
    · refine holds_reads l ?_
      simp only [BlockIo.read,houtput,setLanes_apply,ne_eq,not_true_eq_false,if_false,
        mem_singleton,if_true]
      exact tagInput_self _ f16
    · exact ih hmem (by rw [output_read,houtput])

theorem input_step (inst : Instruction) :
    (io.step inst).input = (inst.reads.foldl BlockIo.read io).input := by
  unfold BlockIo.step
  cases inst.dsts.head? <;> rfl

theorem holds_steps (insts : List Instruction) (h : (io.input index).Holds f16) :
    ((insts.foldl BlockIo.step io).input index).Holds f16 := by
  induction insts generalizing io with
  | nil => exact h
  | cons inst insts ih => exact ih (by rw [input_step]; exact holds_reads _ h)

/-- An instruction does not write a lane that its first destination does not have. -/
theorem output_step {inst : Instruction} (houtput : io.output index = .unknown)
    (h : ∀ dst∈inst.dsts.head?, index∉getRegisterFileRange dst) :
    (io.step inst).output index = .unknown := by
  unfold BlockIo.step
  cases hdst : inst.dsts.head? with
  | none => simpa only [output_reads] using houtput
  | some dst =>
    simpa only [writeDestination,setLanes_apply,if_neg (h dst hdst),output_reads] using houtput

theorem output_steps {insts : List Instruction} (houtput : io.output index = .unknown)
    (h : ∀ inst∈insts, ∀ dst∈inst.dsts.head?, index∉getRegisterFileRange dst) :
    (insts.foldl BlockIo.step io).output index = .unknown := by
  induction insts generalizing io with
  | nil => exact houtput
  | cons inst insts ih =>
    exact ih (output_step houtput (h inst mem_cons_self)) fun i hi =>
      h i (mem_cons_of_mem _ hi)

end Input

theorem mem_inputList {b : BasicBlock} {before after : List Instruction} {inst : Instruction}
    (hb : b.instructions = before++inst::after) {f16 : Bool} {lane : ℕ}
    (hread : (f16,lane)∈inst.reads) (hlane : lane < 384)
    (hbefore : ∀ i∈before, ∀ dst∈i.dsts.head?, lane∉getRegisterFileRange dst) :
    ∃ ref∈(annotateBlockIo b).inputList, ref.reg.f16=f16 ∧ lane∈getRegisterFileRange ref := by
  refine mem_compileRegisterFile hlane ?_
  obtain ⟨src,hsrc,hmem,hf16⟩ := mem_reads.mp hread
  have heven : (f16,2*(lane/2))∈inst.reads :=
    mem_reads.mpr ⟨src,hsrc,even_mem_getRegisterFileRange.mpr hmem,hf16⟩
  have houtput : (before.foldl BlockIo.step {}).output (2*(lane/2)) = .unknown :=
    output_steps rfl fun i hi dst hdst hmem =>
      hbefore i hi dst hdst (even_mem_getRegisterFileRange.mp hmem)
  rw [hb,foldl_append,foldl_cons]
  refine holds_steps after ?_
  rw [input_step]
  exact holds_of_mem_reads heven houtput

end PS3Native.FragmentProgram
