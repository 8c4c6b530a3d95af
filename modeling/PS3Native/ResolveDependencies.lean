import PS3Native.RegisterMoves

/-! # Barriers for a set of lanes -/
namespace PS3Native.FragmentProgram

open SplitStore List

/-- The instructions are barriers that together bring the words of `words` up to date. -/
def Resolves (bs : List Instruction) (f16 : Bool) (words : ℕ → Prop) : Prop :=
  ∃ parts : List (List ℕ), List.Forall₂ (fun b part => IsBarrier b f16 part) bs parts ∧
    ∀ w, w∈parts.flatten ↔ words w

section Resolves

variable {bs bs' : List Instruction} {f16 : Bool} {words words' : ℕ → Prop}

theorem Resolves.congr (h : Resolves bs f16 words) (hwords : ∀ w, words w ↔ words' w) :
    Resolves bs f16 words' := by
  obtain ⟨parts,hparts,hmem⟩ := h
  exact ⟨parts,hparts,fun w => (hmem w).trans (hwords w)⟩

theorem Resolves.nil (hwords : ∀ w, ¬ words w) : Resolves [] f16 words :=
  ⟨[],.nil,fun w => by simp [hwords w]⟩

theorem Resolves.cons {b : Instruction} {part : List ℕ} (hb : IsBarrier b f16 part)
    (h : Resolves bs f16 words) : Resolves (b::bs) f16 fun w => w∈part ∨ words w := by
  obtain ⟨parts,hparts,hmem⟩ := h
  exact ⟨part::parts,.cons hb hparts,fun w => by simp [← hmem w]⟩

theorem Resolves.append (h : Resolves bs f16 words) (h' : Resolves bs' f16 words') :
    Resolves (bs++bs') f16 fun w => words w ∨ words' w := by
  obtain ⟨parts,hparts,hmem⟩ := h
  obtain ⟨parts',hparts',hmem'⟩ := h'
  refine ⟨parts++parts',rel_append hparts hparts',fun w => ?_⟩
  rw [flatten_append,mem_append,hmem,hmem']

theorem Resolves.flatMap {β : Type} {l : List β} {build : β → List Instruction}
    {words : β → ℕ → Prop} (h : ∀ x∈l, Resolves (build x) f16 (words x)) :
    Resolves (l.flatMap build) f16 fun w => ∃ x∈l, words x w := by
  induction l with
  | nil => exact .nil (by simp)
  | cons x l ih =>
    rw [flatMap_cons]
    refine ((h x mem_cons_self).append
      (ih fun y hy => h y (mem_cons_of_mem _ hy))).congr fun w => ?_
    simp

/-- Each barrier moves words of the set, and each word of the set is moved by a barrier. -/
theorem Resolves.exists_barrier (h : Resolves bs f16 words) {w : ℕ} (hw : words w) :
    ∃ b∈bs, ∃ part, IsBarrier b f16 part ∧ w∈part := by
  obtain ⟨parts,hparts,hmem⟩ := h
  obtain ⟨part,hpart,hin⟩ := mem_flatten.mp ((hmem w).mpr hw)
  clear hmem
  induction hparts with
  | nil => cases hpart
  | cons hb _ ih =>
    rcases mem_cons.mp hpart with rfl | hpart
    · exact ⟨_,mem_cons_self,part,hb,hin⟩
    · obtain ⟨b,hb,hrest⟩ := ih hpart
      exact ⟨b,mem_cons_of_mem _ hb,hrest⟩

end Resolves

theorem getLsbD_oneShift (ch i : ℕ) : (1#4 <<< ch).getLsbD i = decide (i < 4 ∧ i=ch) := by
  rw [BitVec.getLsbD_shiftLeft,BitVec.getLsbD_one]
  grind

theorem getLsbD_channelMask (p : ℕ → Bool) (i : ℕ) :
    (channelMask p).getLsbD i = (decide (i < 4) && p i) := by
  suffices h : ∀ (l : List ℕ) (mask : BitVec 4),
      (l.foldl (fun mask ch => if p ch then mask ||| 1#4 <<< ch else mask) mask).getLsbD i =
        (mask.getLsbD i || (decide (i < 4 ∧ i∈l) && p i)) by
    rw [channelMask,h]
    simp
  intro l
  induction l with
  | nil => simp
  | cons ch l ih =>
    intro mask
    rw [foldl_cons,ih]
    by_cases hp : p ch
    · rw [if_pos hp,BitVec.getLsbD_or,getLsbD_oneShift]
      grind
    · rw [if_neg hp]
      grind

section Barrier16

variable {regId ch : ℕ}

theorem barrier16_resolves {mask : BitVec 4} {bs : List Instruction} {words : ℕ → Prop}
    (hid : regId < 48) (hmask : ∀ c, mask.getLsbD c → c/2 = ch/2)
    (h : Resolves bs true words) : Resolves (barrier16Instruction regId ch mask::bs) true
      fun w => (∃ c, mask.getLsbD c ∧ w = regId*4+c) ∨ words w := by
  refine (h.cons (barrier16_isBarrier hid hmask)).congr fun w => or_congr_left ?_
  simp only [mem_map,mem_filter,mem_range]
  constructor
  · rintro ⟨c,⟨-,hc⟩,rfl⟩
    exact ⟨c,hc,rfl⟩
  · rintro ⟨c,hc,rfl⟩
    exact ⟨c,⟨BitVec.lt_of_getLsbD hc,hc⟩,rfl⟩

theorem buildBarrier16Loop_resolves (hid : regId < 48) {turns : ℕ} {mask : BitVec 4}
    (hmask : ∀ k, mask.getLsbD k → k < turns ∧ ch+k < 4) :
    Resolves (buildBarrier16Loop regId turns mask ch) true
      fun w => ∃ k, mask.getLsbD k ∧ w = regId*4+(ch+k) := by
  induction turns generalizing mask ch with
  | zero => exact .nil fun w ⟨k,hk,_⟩ => absurd (hmask k hk).1 (Nat.not_lt_zero k)
  | succ turns ih =>
    have hshift : ∀ j k, (mask >>> j).getLsbD k = mask.getLsbD (j+k) := fun j k =>
      BitVec.getLsbD_ushiftRight ..
    have hrest : ∀ j, 0 < j → Resolves (buildBarrier16Loop regId turns (mask >>> j) (ch+j)) true
        fun w => ∃ k, mask.getLsbD (j+k) ∧ w = regId*4+(ch+(j+k)) := by
      intro j hj
      refine (ih fun k hk => ?_).congr fun w => ?_
      · have := hmask (j+k) ((hshift j k).symm.trans hk)
        omega
      · simp only [hshift,Nat.add_assoc]
    rw [buildBarrier16Loop]
    split_ifs with hzero hbit hpair
    · exact .nil fun w ⟨k,hk,_⟩ => by simp [hzero] at hk
    · refine (hrest 1 Nat.one_pos).congr fun w => ?_
      constructor
      · rintro ⟨k,hk⟩
        exact ⟨1+k,hk⟩
      · rintro ⟨_ | k,hk,rfl⟩
        · rw [hbit] at hk
          cases hk
        · exact ⟨k,by rwa [Nat.add_comm 1],by omega⟩
    · have hlast := (hmask 1 hpair.2).2
      refine (barrier16_resolves hid (fun c hc => ?_) (hrest 2 Nat.two_pos)).congr fun w => ?_
      · simp only [BitVec.getLsbD_or,getLsbD_oneShift,Bool.or_eq_true,decide_eq_true_eq] at hc
        omega
      · simp only [BitVec.getLsbD_or,getLsbD_oneShift,Bool.or_eq_true,decide_eq_true_eq]
        constructor
        · rintro (⟨c,⟨-,rfl⟩ | ⟨-,rfl⟩,rfl⟩ | ⟨k,hk⟩)
          · exact ⟨0,by simpa using hbit,rfl⟩
          · exact ⟨1,hpair.2,rfl⟩
          · exact ⟨2+k,hk⟩
        · rintro ⟨_ | _ | k,hk,rfl⟩
          · exact .inl ⟨ch,.inl ⟨by omega,rfl⟩,rfl⟩
          · exact .inl ⟨ch+1,.inr ⟨by omega,rfl⟩,rfl⟩
          · exact .inr ⟨k,by rwa [Nat.add_comm 2],by omega⟩
    · have hbit' : mask.getLsbD 0 := by simpa using hbit
      have hlast := (hmask 0 hbit').2
      refine (barrier16_resolves hid (fun c hc => ?_) (hrest 1 Nat.one_pos)).congr fun w => ?_
      · simp only [getLsbD_oneShift,decide_eq_true_eq] at hc
        omega
      · simp only [getLsbD_oneShift,decide_eq_true_eq]
        constructor
        · rintro (⟨c,⟨-,rfl⟩,rfl⟩ | ⟨k,hk⟩)
          · exact ⟨0,hbit',rfl⟩
          · exact ⟨1+k,hk⟩
        · rintro ⟨_ | k,hk,rfl⟩
          · exact .inl ⟨ch,⟨by omega,rfl⟩,rfl⟩
          · exact .inr ⟨k,by rwa [Nat.add_comm 1],by omega⟩

theorem buildBarrier16_resolves {ref : RegisterRef} (hid : ref.reg.id < 48) :
    Resolves (buildBarrier16 ref) true
      fun w => ∃ ch, ref.mask.getLsbD ch ∧ w = ref.reg.id*4+ch := by
  refine (buildBarrier16Loop_resolves hid fun k hk => ?_).congr fun w => by simp
  have := BitVec.lt_of_getLsbD hk
  omega

theorem decodeLanes16_resolves (lanes : List ℕ) :
    Resolves ((decodeLanes16 lanes).flatMap buildBarrier16) true fun w => 2*w∈lanes ∧ w < 192 := by
  have hdecode : ∀ ref∈decodeLanes16 lanes, ref.reg.id < 48 ∧
      ∀ ch, ref.mask.getLsbD ch ↔ ch < 4 ∧ ref.reg.id*8+2*ch∈lanes := by
    intro ref href
    obtain ⟨index,hindex,heq⟩ := mem_filterMap.mp href
    simp only [Option.ite_none_left_eq_some,Option.some.injEq] at heq
    obtain ⟨-,rfl⟩ := heq
    exact ⟨mem_range.mp hindex,fun ch => by simp [getLsbD_channelMask]⟩
  refine (Resolves.flatMap fun ref href => buildBarrier16_resolves (hdecode ref href).1).congr
    fun w => ?_
  constructor
  · rintro ⟨ref,href,ch,hch,rfl⟩
    obtain ⟨hid,hmask⟩ := hdecode ref href
    obtain ⟨hch,hmem⟩ := (hmask ch).mp hch
    refine ⟨?_,by omega⟩
    rwa [Nat.mul_add,← Nat.mul_assoc,Nat.mul_comm 2,Nat.mul_assoc]
  · rintro ⟨hmem,hw⟩
    set mask := channelMask fun ch => decide (w/4*8+2*ch∈lanes) with hmask
    have hbit : mask.getLsbD (w%4) := by
      have hlane : w/4*8+2*(w%4) = 2*w := by omega
      rw [hmask,getLsbD_channelMask,hlane]
      simp [hmem,Nat.mod_lt]
    have hne : mask≠0 := by
      intro hzero
      rw [hzero] at hbit
      simp at hbit
    refine ⟨{reg := {id := w/4, f16 := true}, mask := mask},?_,w%4,hbit,(Nat.div_add_mod' w 4).symm⟩
    refine mem_filterMap.mpr ⟨w/4,mem_range.mpr (by omega),?_⟩
    exact if_neg hne

end Barrier16

section Barrier32

theorem mem_words_ofWords {word0 word1 : Bool} {low w : ℕ} :
    (∃ flags, Register32BarrierFlags.ofWords word0 word1 = some flags ∧ w∈flags.words low) ↔
      (word0 ∧ w=low) ∨ (word1 ∧ w = low+1) := by
  cases word0 <;> cases word1 <;>
    simp [Register32BarrierFlags.ofWords,Register32BarrierFlags.words]

theorem buildBarrier32_resolves {barrier : RegisterBarrier32} (hid : barrier.id < 24) :
    Resolves (buildBarrier32 barrier) false fun w => ∃ ch < 4, ∃ flags,
      barrier.flags ch = some flags ∧ w∈flags.words (barrier.id*8+ch*2) := by
  have hchannel : ∀ ch∈range 4,
      Resolves ((barrier.flags ch).map (barrier32Instruction barrier.id ch)).toList false
        fun w => ∃ flags, barrier.flags ch = some flags ∧ w∈flags.words (barrier.id*8+ch*2) := by
    intro ch hch
    cases barrier.flags ch with
    | none => exact .nil (by simp)
    | some flags =>
      have hnil : Resolves [] false fun _ => False := .nil fun _ => id
      exact (hnil.cons (barrier32_isBarrier hid (mem_range.mp hch) flags)).congr fun w => by simp
  rw [buildBarrier32,filterMap_eq_flatMap_toList]
  exact (Resolves.flatMap hchannel).congr fun w => by simp only [mem_range]

theorem mem_decodeLanes32 {lanes : List ℕ} {barrier : RegisterBarrier32} :
    barrier∈decodeLanes32 lanes ↔ barrier.id < 48 ∧
      (barrier.flags = fun ch => Register32BarrierFlags.ofWords
        (barrier.id*16+4*ch∈lanes) (barrier.id*16+4*ch+2∈lanes)) ∧
      ∃ ch < 4, ∃ flags, barrier.flags ch = some flags := by
  obtain ⟨id,flags⟩ := barrier
  simp only [decodeLanes32,mem_filterMap,mem_range,Option.ite_none_left_eq_some,
    Option.some.injEq,RegisterBarrier32.mk.injEq]
  constructor
  · rintro ⟨index,hindex,hsome,rfl,rfl⟩
    refine ⟨hindex,rfl,?_⟩
    simpa [Option.ne_none_iff_exists'] using hsome
  · rintro ⟨hindex,hflags,hsome⟩
    rw [hflags] at hsome
    refine ⟨id,hindex,?_,rfl,hflags.symm⟩
    simpa [Option.ne_none_iff_exists'] using hsome

/-- The lanes of `R` registers are resolved, as far as they overlap `H` registers. -/
theorem decodeLanes32_resolves {lanes : List ℕ} (hlanes : ∀ lane∈lanes, lane < 384) :
    Resolves ((decodeLanes32 lanes).flatMap buildBarrier32) false fun w => 2*w∈lanes := by
  have hid : ∀ barrier∈decodeLanes32 lanes, barrier.id < 24 := by
    intro barrier hbarrier
    obtain ⟨-,hflags,ch,-,flags,hch⟩ := mem_decodeLanes32.mp hbarrier
    rw [hflags] at hch
    have hlane : barrier.id*16+4*ch∈lanes ∨ barrier.id*16+4*ch+2∈lanes := by
      by_contra hnone
      rw [not_or] at hnone
      simp [hnone,Register32BarrierFlags.ofWords] at hch
    rcases hlane with hlane | hlane <;>
      · have := hlanes _ hlane
        omega
  refine (Resolves.flatMap fun barrier hbarrier =>
    buildBarrier32_resolves (hid barrier hbarrier)).congr fun w => ?_
  constructor
  · rintro ⟨barrier,hbarrier,ch,-,hword⟩
    rw [(mem_decodeLanes32.mp hbarrier).2.1,mem_words_ofWords] at hword
    simp only [decide_eq_true_eq] at hword
    rcases hword with ⟨hlane,rfl⟩ | ⟨hlane,rfl⟩
    · rwa [show 2*(barrier.id*8+ch*2) = barrier.id*16+4*ch by omega]
    · rwa [show 2*(barrier.id*8+ch*2+1) = barrier.id*16+4*ch+2 by omega]
  · intro hmem
    have hw := hlanes _ hmem
    set flags := fun ch => Register32BarrierFlags.ofWords
      (decide (w/8*16+4*ch∈lanes)) (decide (w/8*16+4*ch+2∈lanes)) with hflags
    have hch : w/2%4 < 4 := Nat.mod_lt _ (by decide)
    have hword : ∃ f, flags (w/2%4) = some f ∧ w∈f.words (w/8*8+w/2%4*2) := by
      rw [hflags,mem_words_ofWords]
      simp only [decide_eq_true_eq]
      rcases Nat.mod_two_eq_zero_or_one w with hparity | hparity
      · exact .inl ⟨by rwa [show w/8*16+4*(w/2%4) = 2*w by omega],by omega⟩
      · exact .inr ⟨by rwa [show w/8*16+4*(w/2%4)+2 = 2*w by omega],by omega⟩
    obtain ⟨f,hf,hwf⟩ := hword
    exact ⟨⟨w/8,flags⟩,mem_decodeLanes32.mpr ⟨by show w/8 < 48; omega,hflags,_,hch,f,hf⟩,
      _,hch,f,hf,hwf⟩

end Barrier32

/-- The barriers for a set of lanes that both kinds of registers have resolve its words. -/
theorem resolveDependencies_resolves {lanes : List ℕ} (hlanes : ∀ lane∈lanes, lane < 384)
    (f16 : Bool) : Resolves (resolveDependencies lanes f16) f16 fun w => 2*w∈lanes := by
  cases f16 with
  | false => exact decodeLanes32_resolves hlanes
  | true =>
    refine (decodeLanes16_resolves lanes).congr fun w => and_iff_left_of_imp fun hmem => ?_
    have := hlanes _ hmem
    omega

end PS3Native.FragmentProgram
