import PS3Native.DeferredProtection

/-!
# The merge scan of the deferred queue

`mm_defer_mprotect_internal` walks the queue from the newest block. Unless it
grows a block to the whole address space, the new queue does what the old queue
followed by the new protection does.
-/
namespace PS3Native.DeferredProtection
open RegionOverlay AddressRange List

def Passed (range : Range) (prot : Protection) (block : MMBlock) : Prop :=
  block.range.touches range=true →
    block.prot≠prot ∧ (block.range.inside range=true ∨ block.range.overlaps range=false)

/-- The newest block that stops the merge scan has the same protection, and its
hull with the range is the whole address space. -/
def MergesWholeSpace (range : Range) (prot : Protection) (queue : List MMBlock) : Prop :=
  ∃ older block newer, queue = older++block::newer ∧ (∀ c∈newer, Passed range prot c) ∧
    block.range.touches range=true ∧ block.prot=prot ∧
    (block.merge range).range = ⟨0#64,umax 64⟩

variable {cfg : MMConfig} {prot : Protection} {queue rest blocks : List MMBlock} {range : Range} {block : MMBlock}

theorem not_mergesWholeSpace (h : ∀ b∈queue, (b.merge range).range≠⟨0#64,umax 64⟩) :
    ¬MergesWholeSpace range prot queue := by
  rintro ⟨older,block,newer,rfl,-,-,-,hmerge⟩
  exact h block (by simp) hmerge

theorem merge_range_eq (hb : block.range.valid) (hr : range.valid) :
    (block.merge range).range = block.range.getMinMax range := by
  simp [MMBlock.merge,startEnd,getMinMax,hb,hr]

/-- Two touching ranges whose hull is not the whole address space adjoin. -/
theorem adjoins_of_touches {r : Range} (hr : r.valid) (hrange : range.valid)
    (ht : r.touches range) (hw : r.getMinMax range≠⟨0#64,umax 64⟩) : r.Adjoins range := by
  rcases (touches_iff hr hrange).mp ht with h | h
  · exact h
  · exfalso
    apply hw
    have hs := toNat_getMinMax_start hr hrange
    have hl := toNat_getMinMax_last hr hrange
    generalize r.getMinMax range = hull at hs hl
    cases hull
    simp only [WrapsOnto,← BitVec.toNat_inj,toNat_umax,BitVec.toNat_ofNat,mk.injEq] at h hs hl ⊢
    omega

theorem Proper.wholePages_getMinMax {r : Range} (hr : Proper cfg r) (hrange : Proper cfg range) :
    WholePages cfg (r.getMinMax range).start.toNat ((r.getMinMax range).last.toNat+1) := by
  obtain ⟨hr,-,hstart,hend⟩ := hr
  obtain ⟨hrange,-,hstart',hend'⟩ := hrange
  rw [toNat_getMinMax_start hr hrange,toNat_getMinMax_last hr hrange]
  constructor
  · rcases min_choice r.start.toNat range.start.toNat with h | h <;> rwa [h]
  · rcases max_choice r.last.toNat range.last.toNat with h | h <;> rwa [h]

/-- The merge scan over the newest-first queue `blocks`. A merged scan acts like
the new range on top of the old queue; otherwise only addresses of the new range,
which the pushed block hides, can change. -/
structure ScanSpec (cfg : MMConfig) (range : Range) (prot : Protection) (blocks : List MMBlock)
    (result : List MMBlock × Bool × Bool) : Prop where
  proper : ∀ b∈result.1, b.range.valid=true → Proper cfg b.range
  valid : result.2.1=false → ∀ b∈result.1, b.range.valid=true
  outside : ∀ issued a, a∉range → overlay issued (result.1.reverse.map MMBlock.patch) a =
    overlay issued (blocks.reverse.map MMBlock.patch) a
  within : result.2.2=true → ∀ issued a, a∈range →
    overlay issued (result.1.reverse.map MMBlock.patch) a=prot

theorem overlay_newest (issued : BitVec 64 → Protection) (block : MMBlock) (rest : List MMBlock) :
    overlay issued ((block::rest).reverse.map MMBlock.patch) =
      block.patch.apply (overlay issued (rest.reverse.map MMBlock.patch)) := by
  rw [reverse_cons,map_append,map_singleton,overlay_concat]

theorem ScanSpec.keep {result : List MMBlock × Bool × Bool} (h : ScanSpec cfg range prot rest result)
    (hb : Proper cfg block.range) (hmiss : ∀ a, a∈range → a∉block.range) :
    ScanSpec cfg range prot (block::rest) (block::result.1,result.2) where
  proper b hm hv := by
    rcases mem_cons.mp hm with rfl | hm
    · exact hb
    · exact h.proper b hm hv
  valid hi b hm := by
    rcases mem_cons.mp hm with rfl | hm
    · exact hb.1
    · exact h.valid hi b hm
  outside issued a ha := by
    rw [overlay_newest,overlay_newest,Patch.apply,Patch.apply,h.outside issued a ha]
  within hm issued a ha := by
    rw [overlay_newest,Patch.apply_of_notMem (patch_region_false.mpr (hmiss a ha)),
      h.within hm issued a ha]

theorem ScanSpec.swallow {result : List MMBlock × Bool × Bool} (h : ScanSpec cfg range prot rest result)
    (hin : ∀ a, a∈block.range → a∈range) :
    ScanSpec cfg range prot (block::rest) (block.invalidated::result.1,true,result.2.2) where
  proper b hm hv := by
    rcases mem_cons.mp hm with rfl | hm
    · rw [invalidated_invalid] at hv
      cases hv
    · exact h.proper b hm hv
  valid hi := by cases hi
  outside issued a ha := by
    have hgone := notMem_of_invalid (invalidated_invalid block) a
    rw [overlay_newest,overlay_newest,Patch.apply_of_notMem (patch_region_false.mpr hgone),
      Patch.apply_of_notMem (patch_region_false.mpr (fun hb => ha (hin a hb))),
      h.outside issued a ha]
  within hm issued a ha := by
    have hgone := notMem_of_invalid (invalidated_invalid block) a
    rw [overlay_newest,Patch.apply_of_notMem (patch_region_false.mpr hgone),h.within hm issued a ha]

theorem ScanSpec.stop (range : Range) (prot : Protection) (h : ∀ b∈blocks, Proper cfg b.range) :
    ScanSpec cfg range prot blocks (blocks,false,false) where
  proper b hb _ := h b hb
  valid _ b hb := (h b hb).1
  outside _ _ _ := rfl
  within hm := by cases hm

theorem ScanSpec.grow (h : ∀ b∈block::rest, Proper cfg b.range) (hproper : Proper cfg range)
    (hadj : block.range.Adjoins range) (hw : (block.merge range).range≠⟨0#64,umax 64⟩) :
    ScanSpec cfg range block.prot (block::rest) (block.merge range::rest,false,true) := by
  have hb := h block mem_cons_self
  have hrange := hproper.1
  have hrest := fun b hb => h b (mem_cons_of_mem _ hb)
  have heq := merge_range_eq hb.1 hrange
  have hv : (block.merge range).range.valid := by
    rw [heq]
    exact getMinMax_valid hb.1 hrange
  have hmem : ∀ a, a∈(block.merge range).range ↔ a∈block.range ∨ a∈range := by
    intro a
    rw [heq]
    exact mem_getMinMax hb.1 hrange hadj
  refine ⟨fun b hm _ => ?_,fun _ b hm => ?_,fun issued a ha => ?_,fun _ issued a ha => ?_⟩
  · rcases mem_cons.mp hm with rfl | hm
    · refine ⟨hv,hw,?_⟩
      rw [heq]
      exact hb.wholePages_getMinMax hproper
    · exact hrest b hm
  · rcases mem_cons.mp hm with rfl | hm
    · exact hv
    · exact (hrest b hm).1
  · have hiff : (block.merge range).patch.region a = block.patch.region a := by
      rw [Bool.eq_iff_iff,patch_region,patch_region,hmem]
      simp [ha]
    rw [overlay_newest,overlay_newest,Patch.apply,Patch.apply,hiff]
    rfl
  · rw [overlay_newest,Patch.apply_of_mem (patch_region.mpr ((hmem a).mpr (.inr ha)))]
    rfl

theorem deferScan_spec (hproper : Proper cfg range) (h : ∀ b∈blocks, Proper cfg b.range)
    (hsafe : ¬MergesWholeSpace range prot blocks.reverse) :
    ScanSpec cfg range prot blocks (deferScan range prot blocks) := by
  have hrange := hproper.1
  induction blocks with
  | nil => exact ScanSpec.stop range prot (by simp)
  | cons block rest ih =>
    have hb := h block mem_cons_self
    have hrest : ∀ b∈rest, Proper cfg b.range := fun b hb => h b (mem_cons_of_mem _ hb)
    have ih' : Passed range prot block → ScanSpec cfg range prot rest (deferScan range prot rest) := by
      refine fun hpass => ih hrest fun hw => hsafe ?_
      obtain ⟨older,c,newer,he,hnew,hc⟩ := hw
      refine ⟨older,c,newer++[block],by simp [he],fun d hd => ?_,hc⟩
      rcases mem_append.mp hd with hd | hd
      · exact hnew d hd
      · rwa [mem_singleton.mp hd]
    have hmiss : block.range.overlaps range=false → ∀ a, a∈range → a∉block.range := by
      intro hno a ha hab
      rw [(overlaps_iff_exists hb.1 hrange).mpr ⟨a,hab,ha⟩] at hno
      cases hno
    by_cases ht : block.range.touches range
    · by_cases hp : block.prot=prot
      · have hw : (block.merge range).range≠⟨0#64,umax 64⟩ := fun hw =>
          hsafe ⟨rest.reverse,block,[],by simp,by simp,ht,hp,hw⟩
        have hadj := adjoins_of_touches hb.1 hrange ht (by rwa [← merge_range_eq hb.1 hrange])
        subst hp
        simpa [deferScan,ht] using ScanSpec.grow h hproper hadj hw
      · by_cases hin : block.range.inside range
        · have hsub := (inside_iff_subset hb.1).mp hin
          have hs := (ih' fun _ => ⟨hp,.inl hin⟩).swallow hsub
          simpa [deferScan,ht,hp,hin] using hs
        · cases ho : block.range.overlaps range with
          | true => simpa [deferScan,ht,hp,hin,ho] using ScanSpec.stop range prot h
          | false =>
            have hs := (ih' fun _ => ⟨hp,.inr ho⟩).keep hb (hmiss ho)
            simpa [deferScan,ht,hp,hin,ho] using hs
    · have ho : block.range.overlaps range=false := by
        by_contra ho
        exact ht (by simp [touches,Bool.eq_true_of_not_eq_false ho])
      have hs := (ih' fun hc => absurd hc ht).keep hb (hmiss ho)
      simpa [deferScan,ht] using hs

/-- The sweep after the scan keeps proper blocks only and moves no protection. -/
theorem ScanSpec.sweep {blocks' : List MMBlock} {hasInvalid isMerged : Bool}
    (h : ScanSpec cfg range prot blocks (blocks',hasInvalid,isMerged)) (hqueue : queue =
      if hasInvalid then mmSanitizeQueueInternal blocks'.reverse else blocks'.reverse) :
    (∀ b∈queue, Proper cfg b.range) ∧ ∀ issued, overlay issued (queue.map MMBlock.patch) =
      overlay issued (blocks'.reverse.map MMBlock.patch) := by
  cases hasInvalid with
  | true =>
    subst hqueue
    refine ⟨fun b hb => ?_,fun issued => overlay_sanitize issued _⟩
    obtain ⟨hm,hv⟩ := mem_filter.mp hb
    exact h.proper b (mem_reverse.mp hm) hv
  | false =>
    subst hqueue
    refine ⟨fun b hb => ?_,fun issued => rfl⟩
    have hm := mem_reverse.mp hb
    exact h.proper b hm (h.valid rfl b hm)

theorem mmDeferMprotectInternal_spec (hq : ∀ b∈queue, Proper cfg b.range) {ptr length : BitVec 64}
    (h₀ : 0 < length.toNat) (h : ptr.toNat+length.toNat ≤ 2^64)
    (hpages : WholePages cfg ptr.toNat (ptr.toNat+length.toNat))
    (hsafe : ¬MergesWholeSpace (startLength ptr length) prot queue) (tag : BitVec 64) :
    (∀ b∈mmDeferMprotectInternal tag ptr length prot queue, Proper cfg b.range) ∧
    ∀ issued, overlay issued ((mmDeferMprotectInternal tag ptr length prot queue).map MMBlock.patch) =
      (requested ptr length prot).apply (overlay issued (queue.map MMBlock.patch)) := by
  have hproper := startLength_proper h₀ h hpages
  have hregion := requested_region h₀ h prot
  rw [mmDeferMprotectInternal]
  generalize startLength ptr length = range at *
  have hsafe' : ¬MergesWholeSpace range prot queue.reverse.reverse := by rwa [reverse_reverse]
  have hspec := deferScan_spec hproper (fun b hb => hq b (mem_reverse.mp hb)) hsafe'
  obtain ⟨⟨blocks,hasInvalid,isMerged⟩,hscan⟩ : ∃ r, deferScan range prot queue.reverse=r :=
    ⟨_,rfl⟩
  rw [hscan] at hspec
  simp only [hscan]
  generalize hkept : (if hasInvalid=true then mmSanitizeQueueInternal blocks.reverse
    else blocks.reverse)=kept
  obtain ⟨hkp,hko⟩ := hspec.sweep hkept.symm
  have hout : ∀ issued a, a∉range → overlay issued (kept.map MMBlock.patch) a =
      (requested ptr length prot).apply (overlay issued (queue.map MMBlock.patch)) a := by
    intro issued a ha
    rw [hko,hspec.outside issued a ha,reverse_reverse,
      Patch.apply_of_notMem (Bool.eq_false_iff.mpr (mt (hregion a).mp ha))]
  cases isMerged with
  | true =>
    refine ⟨hkp,fun issued => funext fun a => ?_⟩
    by_cases ha : a∈range
    · rw [if_pos rfl,hko,hspec.within rfl issued a ha,Patch.apply_of_mem ((hregion a).mpr ha)]
      rfl
    · exact hout issued a ha
  | false =>
    rw [if_neg Bool.false_ne_true]
    refine ⟨fun b hb => ?_,fun issued => funext fun a => ?_⟩
    · rcases mem_append.mp hb with hb | hb
      · exact hkp b hb
      · rw [mem_singleton.mp hb]
        exact hproper
    · rw [map_append,map_singleton,overlay_concat]
      by_cases ha : a∈range
      · rw [Patch.apply_of_mem ((hregion a).mpr ha),Patch.apply_of_mem (patch_region.mpr ha)]
        rfl
      · rw [Patch.apply_of_notMem (patch_region_false.mpr ha),hout issued a ha]

end PS3Native.DeferredProtection
