import PS3Native.CellSyncQueue

/-!
# Where `CellSyncQueue` keeps its values

The values of the queue lie in the ring slots before `next`. A push in flight owns the newest of
these slots, a pop or a peek in flight reads the oldest one.
-/
namespace PS3Native.CellSyncQueue
open RingSlots List

/-- The depth fits the 24-bit fields and the buffer fits the 32-bit address space. -/
structure Admissible (cfg : Config) : Prop where
  depth_pos : 0 < cfg.depth.toNat
  depth_lt : cfg.depth.toNat < 2^24
  fits : cfg.depth.toNat*cfg.size.toNat ≤ 2^32

inductive Writer
  | push (position : BitVec 32) (data : List Byte) (copied : ℕ)
  | clear

inductive Reader
  | read (peek : Bool) (position : BitVec 32) (copied : List Byte)
  | clear

def given : Option Writer → ℕ
  | some (.push _ _ _) => 1
  | _ => 0

def taken : Option Reader → ℕ
  | some (.read false _ _) => 1
  | _ => 0

def SlotHolds (cfg : Config) (buffer : ℕ → Byte) (slot : ℕ) (value : List Byte) : Prop :=
  ∀ i b, value[i]? = some b → buffer (slot*cfg.size.toNat+i)=b

structure Layout (cfg : Config) (m : Memory) (contents : List (List Byte)) (w : Option Writer)
    (r : Option Reader) : Prop where
  next_lt : m.ctrl.next.toNat < cfg.depth.toNat
  count_eq : m.ctrl.count.toNat+taken r = contents.length+given w
  len_le : contents.length+given w ≤ cfg.depth.toNat
  stored : ∀ j v, contents[j]? = some v → v.length=cfg.size.toNat ∧ SlotHolds cfg m.buffer
    (ringSlot cfg.depth.toNat m.ctrl.next.toNat (contents.length+given w) j) v
  writing : ∀ position data copied, w = some (.push position data copied) →
    position.toNat = ringSlot cfg.depth.toNat m.ctrl.next.toNat (contents.length+given w)
      contents.length ∧
    data.length=cfg.size.toNat ∧ SlotHolds cfg m.buffer position.toNat (data.take copied)
  reading : ∀ peek position copied, r = some (.read peek position copied) →
    position.toNat%cfg.depth.toNat =
      ringSlot cfg.depth.toNat m.ctrl.next.toNat (contents.length+given w) 0 ∧
    ∃ v, contents.head? = some v ∧ copied = v.take copied.length

section Atomic
variable {ctrl ctrl' : Ctrl} {depth position : BitVec 32}

section

variable (hdepth : depth.toNat < 2^24) (hnext : ctrl.next.toNat < depth.toNat)

include hdepth hnext

theorem tryPushBegin_spec (h : tryPushBegin ctrl depth = some (position,ctrl')) :
    ctrl.push = 0#8 ∧ ctrl.count.toNat+ctrl.pop.toNat < depth.toNat ∧
      position.toNat=ctrl.next.toNat ∧ ctrl'.push = 1#8 ∧ ctrl'.pop=ctrl.pop ∧
      ctrl'.count.toNat = ctrl.count.toNat+1 ∧
      ctrl'.next.toNat = ringNext depth.toNat ctrl.next.toNat := by
  rw [tryPushBegin] at h
  split_ifs at h with hbusy
  simp only [decide_not,Bool.or_eq_true,Bool.not_eq_eq_eq_not,Bool.not_true,
    decide_eq_false_iff_not,decide_eq_true_eq,not_or,Decidable.not_not,ge_iff_le,
    BitVec.le_def,BitVec.toNat_add,BitVec.toNat_setWidth] at hbusy
  obtain ⟨rfl,rfl⟩ := Prod.mk.inj (Option.some.inj h)
  refine ⟨hbusy.1,by omega,?_,rfl,rfl,?_,?_⟩
  · simp only [BitVec.toNat_setWidth]
    omega
  · simp only [BitVec.toNat_setWidth,BitVec.toNat_add,BitVec.toNat_ofNat]
    omega
  · have hsucc : (ctrl.next.setWidth 32+1#32).toNat = ctrl.next.toNat+1 := by
      simp only [BitVec.toNat_setWidth,BitVec.toNat_add,BitVec.toNat_ofNat]
      omega
    rw [ringNext,← hsucc]
    simp only [BitVec.toNat_setWidth,ne_eq,← BitVec.toNat_inj]
    split_ifs with hlast
    · rfl
    · omega

theorem tryPeekBegin_spec (hcount : ctrl.count.toNat ≤ depth.toNat)
    (h : tryPeekBegin ctrl depth = some (position,ctrl')) :
    ctrl.pop = 0#8 ∧ ctrl.push.toNat < ctrl.count.toNat ∧
      position.toNat = ctrl.next.toNat+depth.toNat-ctrl.count.toNat ∧
      ctrl' = {ctrl with pop := 1#8} := by
  rw [tryPeekBegin] at h
  split_ifs at h with hbusy
  simp only [decide_not,Bool.or_eq_true,Bool.not_eq_eq_eq_not,Bool.not_true,
    decide_eq_false_iff_not,decide_eq_true_eq,not_or,Decidable.not_not,BitVec.le_def,
    BitVec.toNat_setWidth] at hbusy
  obtain ⟨rfl,rfl⟩ := Prod.mk.inj (Option.some.inj h)
  refine ⟨hbusy.1,by omega,?_,rfl⟩
  simp only [BitVec.toNat_setWidth,BitVec.toNat_add,BitVec.toNat_sub]
  omega

theorem tryPopBegin_spec (hcount : ctrl.count.toNat ≤ depth.toNat)
    (h : tryPopBegin ctrl depth = some (position,ctrl')) :
    ctrl.pop = 0#8 ∧ ctrl.push.toNat < ctrl.count.toNat ∧
      position.toNat = ctrl.next.toNat+depth.toNat-ctrl.count.toNat ∧ ctrl'.pop = 1#8 ∧
      ctrl'.push=ctrl.push ∧ ctrl'.count.toNat+1=ctrl.count.toNat ∧
      ctrl'.next=ctrl.next := by
  have hpeek : tryPeekBegin ctrl depth = some (position,{ctrl with pop := 1#8}) := by
    rw [tryPopBegin] at h
    split_ifs at h with hbusy
    rw [tryPeekBegin,if_neg hbusy,(Prod.mk.inj (Option.some.inj h)).1]
  obtain ⟨hfree,hlt,hpos,-⟩ := tryPeekBegin_spec hdepth hnext hcount hpeek
  rw [tryPopBegin] at h
  split_ifs at h with hbusy
  obtain ⟨-,rfl⟩ := Prod.mk.inj (Option.some.inj h)
  refine ⟨hfree,hlt,hpos,rfl,rfl,?_,rfl⟩
  simp only [BitVec.toNat_setWidth,BitVec.toNat_sub,BitVec.toNat_ofNat]
  omega

end

end Atomic

theorem Admissible.slotByte_eq {cfg : Config} (hcfg : Admissible cfg) {position : BitVec 32}
    (hp : position.toNat < cfg.depth.toNat) (i : ℕ) :
    slotByte cfg position i = position.toNat*cfg.size.toNat+i := by
  have hlt : position.toNat*cfg.size.toNat < 2^32 := by
    rcases Nat.eq_zero_or_pos cfg.size.toNat with h₀ | hpos
    · simp [h₀]
    · exact ((Nat.mul_lt_mul_right hpos).mpr hp).trans_le hcfg.fits
  rw [slotByte,BitVec.toNat_mul,Nat.mod_eq_of_lt hlt]

theorem slot_byte_ne {size p q i j : ℕ} (hi : i < size) (hj : j < size) (hpq : p≠q) :
    p*size+i≠q*size+j := by
  intro heq
  have hdiv := congrArg (·/size) heq
  simp only [Nat.mul_comm _ size,Nat.mul_add_div (Nat.zero_lt_of_lt hi),Nat.div_eq_of_lt hi,
    Nat.div_eq_of_lt hj] at hdiv
  exact hpq hdiv

theorem SlotHolds.update_of_ne {cfg : Config} {buffer : ℕ → Byte} {slot p i : ℕ} {b : Byte}
    {value : List Byte} (h : SlotHolds cfg buffer slot value) (hv : value.length ≤ cfg.size.toNat)
    (hi : i < cfg.size.toNat) (hp : slot≠p) :
    SlotHolds cfg (Function.update buffer (p*cfg.size.toNat+i) b) slot value := by
  intro j c hc
  have hj := (List.getElem?_eq_some_iff.mp hc).1
  rw [Function.update_of_ne (slot_byte_ne (hj.trans_le hv) hi hp)]
  exact h j c hc

theorem SlotHolds.extend {cfg : Config} {buffer : ℕ → Byte} {slot i : ℕ} {b : Byte}
    {value : List Byte} (h : SlotHolds cfg buffer slot (value.take i)) (hb : value[i]? = some b) :
    SlotHolds cfg (Function.update buffer (slot*cfg.size.toNat+i) b) slot (value.take (i+1)) := by
  intro j c hc
  rw [getElem?_take] at hc
  split_ifs at hc with hj
  rcases Nat.lt_succ_iff_lt_or_eq.mp hj with hlt | rfl
  · rw [Function.update_of_ne (by omega)]
    exact h j c (by rwa [getElem?_take_of_lt hlt])
  · rw [Function.update_self]
    exact Option.some.inj (hb.symm.trans hc)

private theorem getElem?_concat_cases {α : Type*} {xs : List α} {x y : α} {j : ℕ}
    (h : (xs++[x])[j]? = some y) : xs[j]? = some y ∨ j=xs.length ∧ x=y := by
  rw [getElem?_append] at h
  split_ifs at h with hj
  · exact .inl h
  · obtain ⟨hlt,heq⟩ := List.getElem?_eq_some_iff.mp h
    rw [length_singleton] at hlt
    exact .inr ⟨by omega,by simpa using heq⟩

section Steps
variable {cfg : Config} {m : Memory} {contents : List (List Byte)} {w w' : Option Writer}
  {r r' : Option Reader} {ctrl' : Ctrl} {position : BitVec 32} {data copied : List Byte} {i : ℕ}

theorem Layout.empty (hcfg : Admissible cfg) (buffer : ℕ → Byte) :
    Layout cfg ⟨emptyCtrl,buffer⟩ [] none none where
  next_lt := hcfg.depth_pos
  count_eq := rfl
  len_le := Nat.zero_le _
  stored := by simp
  writing := by simp
  reading := by simp

/-- The flags may change with what their holders do, as long as no transfer starts. -/
theorem Layout.reflag (h : Layout cfg m contents w r) (hnext : ctrl'.next=m.ctrl.next)
    (hcount : ctrl'.count=m.ctrl.count) (hgiven : given w' = given w)
    (htaken : taken r' = taken r) (hw : ∀ p d c, w' = some (.push p d c) → w = some (.push p d c))
    (hr : ∀ k p c, r' = some (.read k p c) → r = some (.read k p c)) :
    Layout cfg {m with ctrl := ctrl'} contents w' r' where
  next_lt := by
    rw [hnext]
    exact h.next_lt
  count_eq := by
    rw [hcount,htaken,hgiven]
    exact h.count_eq
  len_le := by
    rw [hgiven]
    exact h.len_le
  stored := by
    rw [hnext,hgiven]
    exact h.stored
  writing p d c hp := by
    rw [hnext,hgiven]
    exact h.writing p d c (hw p d c hp)
  reading k p c hp := by
    rw [hnext,hgiven]
    exact h.reading k p c (hr k p c hp)

theorem Layout.pushBegin (hcfg : Admissible cfg) (h : Layout cfg m contents none r)
    (htaken : taken r ≤ m.ctrl.pop.toNat) (hdata : data.length=cfg.size.toNat)
    (hop : tryPushBegin m.ctrl cfg.depth = some (position,ctrl')) :
    Layout cfg {m with ctrl := ctrl'} contents (some (.push position data 0)) r := by
  obtain ⟨-,hroom,hpos,-,-,hcount,hnext⟩ := tryPushBegin_spec hcfg.depth_lt h.next_lt hop
  have hce := h.count_eq
  have hlen : contents.length < cfg.depth.toNat := by
    omega
  refine ⟨hnext ▸ ringNext_lt h.next_lt,?_,hlen,?_,?_,?_⟩
  · simp only [given] at hce ⊢
    omega
  · intro j v hv
    have hj := (List.getElem?_eq_some_iff.mp hv).1
    simp only [hnext,given]
    rw [ringSlot_grow hlen hj.le]
    exact h.stored j v hv
  · rintro p d c ⟨⟩
    refine ⟨?_,hdata,by simp [SlotHolds]⟩
    simp only [hnext,given]
    rw [ringSlot_grow hlen le_rfl,ringSlot_last h.next_lt hlen.le,hpos]
  · intro k p c hr
    simp only [hnext,given]
    rw [ringSlot_grow hlen (Nat.zero_le _)]
    exact h.reading k p c hr

theorem Layout.writeByte (hcfg : Admissible cfg)
    (h : Layout cfg m contents (some (.push position data i)) r) {b : Byte}
    (hb : data[i]? = some b) :
    Layout cfg {m with buffer := Function.update m.buffer (slotByte cfg position i) b} contents
      (some (.push position data (i+1))) r := by
  obtain ⟨hpos,hdata,hslot⟩ := h.writing _ _ _ rfl
  have hi : i < cfg.size.toNat := hdata ▸ (List.getElem?_eq_some_iff.mp hb).1
  rw [hcfg.slotByte_eq (hpos ▸ ringSlot_lt hcfg.depth_pos)]
  refine ⟨h.next_lt,h.count_eq,h.len_le,?_,?_,h.reading⟩
  · intro j v hv
    obtain ⟨hlen,hold⟩ := h.stored j v hv
    refine ⟨hlen,hold.update_of_ne hlen.le hi fun heq => ?_⟩
    have hj := (List.getElem?_eq_some_iff.mp hv).1
    have := ringSlot_injective h.next_lt h.len_le (hj.trans_le (Nat.le_add_right _ _))
      (Nat.lt_succ_self _) (heq.trans hpos)
    omega
  · rintro p d c ⟨⟩
    exact ⟨hpos,hdata,hslot.extend hb⟩

theorem Layout.pushEnd (h : Layout cfg m contents (some (.push position data i)) r)
    (hend : data[i]? = none) :
    Layout cfg {m with ctrl := pushEnd m.ctrl} (contents++[data]) none r := by
  obtain ⟨hpos,hdata,hslot⟩ := h.writing _ _ _ rfl
  rw [take_of_length_le (getElem?_eq_none_iff.mp hend)] at hslot
  have hlen : (contents++[data]).length+given none =
      contents.length+given (some (.push position data i)) := by simp [given]
  refine ⟨h.next_lt,?_,?_,?_,by simp,?_⟩
  · rw [hlen]
    exact h.count_eq
  · rw [hlen]
    exact h.len_le
  · intro j v hv
    rw [hlen]
    rcases getElem?_concat_cases hv with hv | ⟨rfl,rfl⟩
    · exact h.stored j v hv
    · exact ⟨hdata,hpos ▸ hslot⟩
  · intro k p c hr
    rw [hlen]
    obtain ⟨hp,v,hv,hc⟩ := h.reading k p c hr
    exact ⟨hp,v,by simp [hv],hc⟩

theorem Layout.count_le (h : Layout cfg m contents w none) :
    m.ctrl.count.toNat = contents.length+given w ∧ m.ctrl.count.toNat ≤ cfg.depth.toNat := by
  have hc := h.count_eq
  have hl := h.len_le
  simp only [taken] at hc
  omega

/-- The position that a pop or a peek computes is the oldest slot, and it is in use. -/
theorem Layout.readBegin {peek : Bool} (h : Layout cfg m contents w none)
    (hgiven : given w ≤ m.ctrl.push.toNat) (hlt : m.ctrl.push.toNat < m.ctrl.count.toNat)
    (hpos : position.toNat = m.ctrl.next.toNat+cfg.depth.toNat-m.ctrl.count.toNat)
    (hcount : ctrl'.count.toNat+taken (some (.read peek position []))=m.ctrl.count.toNat)
    (hnext : ctrl'.next=m.ctrl.next) :
    Layout cfg {m with ctrl := ctrl'} contents w (some (.read peek position [])) := by
  have hc := h.count_le.1
  refine ⟨hnext ▸ h.next_lt,hcount.trans hc,h.len_le,hnext ▸ h.stored,hnext ▸ h.writing,?_⟩
  rintro k p c ⟨⟩
  refine ⟨by rw [hpos,hc,hnext,ringSlot,Nat.add_zero],?_⟩
  cases contents with
  | nil =>
    simp only [length_nil] at hc
    omega
  | cons v rest => exact ⟨v,rfl,by simp⟩

theorem Layout.popBegin (hcfg : Admissible cfg) (h : Layout cfg m contents w none)
    (hgiven : given w ≤ m.ctrl.push.toNat)
    (hop : tryPopBegin m.ctrl cfg.depth = some (position,ctrl')) :
    Layout cfg {m with ctrl := ctrl'} contents w (some (.read false position [])) := by
  obtain ⟨-,hlt,hpos,-,-,hcount,hnext⟩ := tryPopBegin_spec hcfg.depth_lt h.next_lt h.count_le.2 hop
  exact h.readBegin hgiven hlt hpos hcount hnext

theorem Layout.readByte (hcfg : Admissible cfg) {peek : Bool}
    (h : Layout cfg m contents w (some (.read peek position copied)))
    (hlt : copied.length < cfg.size.toNat) :
    Layout cfg m contents w (some (.read peek position
      (copied++[m.buffer (slotByte cfg (position%cfg.depth) copied.length)]))) := by
  obtain ⟨hslot,v,hv,hcopied⟩ := h.reading _ _ _ rfl
  refine ⟨h.next_lt,?_,h.len_le,h.stored,h.writing,?_⟩
  · rw [← h.count_eq]
    cases peek <;> rfl
  · rintro k p c ⟨⟩
    refine ⟨hslot,v,hv,?_⟩
    obtain ⟨hlen,hbytes⟩ := h.stored 0 v (by rwa [← head?_eq_getElem?])
    have hmod : (position%cfg.depth).toNat < cfg.depth.toNat := by
      exact Nat.mod_lt _ hcfg.depth_pos
    have hbyte := hbytes copied.length v[copied.length] (by simp)
    rw [hcfg.slotByte_eq hmod,BitVec.toNat_umod,hslot,hbyte,length_append,
      length_singleton,take_succ_eq_append_getElem,← hcopied]

/-- A finished transfer has copied the oldest value. -/
theorem Layout.copied_eq {peek : Bool}
    (h : Layout cfg m contents w (some (.read peek position copied)))
    (hend : ¬copied.length < cfg.size.toNat) : contents.head? = some copied := by
  obtain ⟨-,v,hv,hcopied⟩ := h.reading _ _ _ rfl
  obtain ⟨hlen,-⟩ := h.stored 0 v (by rwa [← head?_eq_getElem?])
  rwa [hcopied,take_of_length_le (by omega)]

theorem Layout.popEnd (h : Layout cfg m contents w (some (.read false position copied))) :
    Layout cfg {m with ctrl := popEnd m.ctrl} contents.tail w none := by
  obtain ⟨-,v,hv,-⟩ := h.reading _ _ _ rfl
  cases contents with
  | nil => cases hv
  | cons first rest =>
    have hlen : (first::rest).length+given w = (rest.length+given w)+1 := by
      rw [length_cons]
      omega
    have hle := h.len_le
    have hc := h.count_eq
    rw [hlen] at hle hc
    refine ⟨h.next_lt,?_,by simpa using by omega,?_,?_,by simp⟩
    · simp only [taken] at hc ⊢
      exact Nat.succ.inj hc
    · intro j v hv
      have := h.stored (j+1) v (by simpa using hv)
      rwa [hlen,ringSlot_shrink hle] at this
    · intro p d c hp
      have := h.writing p d c hp
      rwa [hlen,length_cons,ringSlot_shrink hle] at this

end Steps

end PS3Native.CellSyncQueue
