import PS3Native.RangedMap

/-!
# Range iteration after any history

The head block of a block only ever decreases, so after any sequence of insertions
and erasures it is a lower bound for the block of every stored entry that reaches
into it.
-/
namespace PS3Native.RangedMap
open Function List

variable {T : Type*} (blockSize : ℕ)

inductive Op (T : Type*)
  | emplace (range : AddressRange 32) (value : T) (rehash : Rehash T)
  | eraseAddress (address : BitVec 32)
  | eraseIterator (it : Iterator)
  | clear

/-- The map, and for every start address the range emplaced there last. -/
structure History (T : Type*) where
  map : RangedMap T := {}
  lastRange : BitVec 32 → AddressRange 32 := fun _ => {}

def History.apply (h : History T) : Op T → History T
  | .emplace range value rehash =>
    { map := h.map.emplace blockSize range value rehash
      lastRange := update h.lastRange range.start range }
  | .eraseAddress address => {h with map := h.map.eraseAddress blockSize address}
  | .eraseIterator it => {h with map := (h.map.erase it).1}
  | .clear => {h with map := h.map.clear}

def History.run (ops : List (Op T)) : History T := ops.foldl (History.apply blockSize) {}

def Stored (m : RangedMap T) (entry : BitVec 32 × T) : Prop :=
  entry∈m.data (blockFor blockSize entry.1)

/-- Entries are in the block of their key, a key occurs once, and every block an
entry reaches knows a head block that is not behind the entry's own. -/
structure History.WellFormed (h : History T) : Prop where
  block : ∀ b, ∀ e∈h.map.data b, blockFor blockSize e.1=b
  nodup : ∀ b, ((h.map.data b).map Prod.fst).Nodup
  start : ∀ b, ∀ e∈h.map.data b, (h.lastRange e.1).start=e.1
  head : ∀ b, ∀ e∈h.map.data b, ∀ c, b ≤ c → c ≤ blockFor blockSize (h.lastRange e.1).last →
    h.map.headBlock c ≤ b

theorem broadcastLoop_apply (head : ℕ) (headBlock : ℕ → ℕ) (id count c : ℕ) :
    broadcastLoop head headBlock id count c =
      if id ≤ c ∧ c < id+count then min head (headBlock c) else headBlock c := by
  induction count generalizing headBlock id with
  | zero => rw [broadcastLoop,if_neg (by omega)]
  | succ count ih =>
    rw [broadcastLoop,ih]
    by_cases hc : c=id
    · subst hc
      rw [update_self,if_neg (by omega),if_pos (by omega)]
    · rw [update_of_ne hc]
      by_cases hin : id+1 ≤ c ∧ c < id+1+count
      · rw [if_pos hin,if_pos (by omega)]
      · rw [if_neg hin,if_neg (by omega)]

theorem broadcastInsert_le (m : RangedMap T) (range : AddressRange 32) (c : ℕ) :
    (m.broadcastInsert blockSize range).headBlock c ≤ m.headBlock c := by
  simp only [broadcastInsert,broadcastLoop_apply]
  split_ifs <;> omega

theorem broadcastInsert_le_start (m : RangedMap T) (range : AddressRange 32) {c : ℕ}
    (hle : blockFor blockSize range.start ≤ c) (hge : c ≤ blockFor blockSize range.last) :
    (m.broadcastInsert blockSize range).headBlock c ≤ blockFor blockSize range.start := by
  simp only [broadcastInsert,broadcastLoop_apply]
  rw [if_pos (by omega)]
  omega

variable {inner : List (BitVec 32 × T)}

theorem mem_insertOrAssign {rehash : Rehash T} {key : BitVec 32} {value : T} {e : BitVec 32 × T} :
    e∈insertOrAssign rehash inner key value ↔ e = (key,value) ∨ e.1≠key ∧ e∈inner := by
  unfold insertOrAssign
  split_ifs with hany
  · constructor
    · intro h
      obtain ⟨e',he',rfl⟩ := mem_map.mp h
      by_cases hkey : e'.1=key
      · simp [hkey]
      · exact .inr (by simp [hkey,he'])
    · rintro (rfl | ⟨hne,he⟩)
      · obtain ⟨e',he',hkey⟩ := any_eq_true.mp hany
        exact mem_map.mpr ⟨e',he',if_pos hkey⟩
      · exact mem_map.mpr ⟨e,he,by simp [hne]⟩
  · rw [(rehash.perm _).mem_iff,mem_cons]
    refine or_congr_right ⟨fun he => ⟨?_,he⟩,And.right⟩
    rintro rfl
    exact hany (any_eq_true.mpr ⟨e,he,by simp⟩)

theorem nodup_insertOrAssign {rehash : Rehash T} {key : BitVec 32} {value : T}
    (h : (inner.map Prod.fst).Nodup) :
    ((insertOrAssign rehash inner key value).map Prod.fst).Nodup := by
  unfold insertOrAssign
  split_ifs with hany
  · have hkeys : (inner.map fun e => if e.1 == key then (key,value) else e).map Prod.fst =
        inner.map Prod.fst := by
      rw [map_map]
      apply map_congr_left
      intro e _
      by_cases hkey : e.1=key <;> simp [hkey]
    rwa [hkeys]
  · rw [((rehash.perm _).map Prod.fst).nodup_iff,map_cons,nodup_cons]
    refine ⟨?_,h⟩
    intro hmem
    obtain ⟨e,he,hkey⟩ := mem_map.mp hmem
    exact hany (any_eq_true.mpr ⟨e,he,by simpa using hkey⟩)

theorem History.WellFormed.setBlock {blockSize : ℕ} {h : History T} (hwf : h.WellFormed blockSize)
    {b : ℕ} (hsub : inner.Sublist (h.map.data b)) :
    ({h with map := h.map.setBlock b inner} : History T).WellFormed blockSize := by
  have hdata : ∀ c, ((h.map.setBlock b inner).data c).Sublist (h.map.data c) := by
    intro c
    by_cases hc : c=b
    · subst hc
      rwa [setBlock_data_self]
    · rw [setBlock_data_of_ne h.map hc]
  exact
    { block := fun c e he => hwf.block c e ((hdata c).subset he)
      nodup := fun c => (hwf.nodup c).sublist ((hdata c).map Prod.fst)
      start := fun c e he => hwf.start c e ((hdata c).subset he)
      head := fun c e he => hwf.head c e ((hdata c).subset he) }

theorem History.WellFormed.mem_emplace {blockSize : ℕ} {h : History T} (hwf : h.WellFormed blockSize)
    (range : AddressRange 32) (value : T) (rehash : Rehash T) {c : ℕ} {e : BitVec 32 × T} :
    e∈(h.map.emplace blockSize range value rehash).data c ↔
      c = blockFor blockSize range.start ∧ e = (range.start,value) ∨
        e.1≠range.start ∧ e∈h.map.data c := by
  by_cases hc : c = blockFor blockSize range.start
  · subst hc
    rw [RangedMap.emplace,setBlock_data_self,mem_insertOrAssign]
    simp
  · rw [RangedMap.emplace,setBlock_data_of_ne _ hc]
    refine ⟨fun he => .inr ⟨fun hkey => hc ?_,he⟩,fun h => ?_⟩
    · rw [← hkey]
      exact (hwf.block c e he).symm
    · exact h.elim (fun h => absurd h.1 hc) And.right

theorem History.WellFormed.emplace {blockSize : ℕ} {h : History T} (hwf : h.WellFormed blockSize)
    (range : AddressRange 32) (value : T) (rehash : Rehash T) :
    (h.apply blockSize (.emplace range value rehash)).WellFormed blockSize := by
  set b := blockFor blockSize range.start with hb
  have hmem := fun c e => (hwf.mem_emplace range value rehash (c := c) (e := e)).1
  refine ⟨?_,?_,?_,?_⟩
  · intro c e he
    rcases hmem c e he with ⟨rfl,rfl⟩ | ⟨-,hold⟩
    · rfl
    · exact hwf.block c e hold
  · intro c
    by_cases hc : c=b
    · subst hc
      simp only [History.apply,RangedMap.emplace,← hb,setBlock_data_self]
      exact nodup_insertOrAssign (hwf.nodup b)
    · simp only [History.apply,RangedMap.emplace,← hb,setBlock_data_of_ne _ hc]
      exact hwf.nodup c
  · intro c e he
    simp only [History.apply]
    rcases hmem c e he with ⟨-,rfl⟩ | ⟨hne,hold⟩
    · rw [update_self]
    · rw [update_of_ne hne]
      exact hwf.start c e hold
  · intro c e he d hle hge
    simp only [History.apply,RangedMap.emplace,setBlock_headBlock] at hge ⊢
    rcases hmem c e he with ⟨rfl,rfl⟩ | ⟨hne,hold⟩
    · rw [update_self] at hge
      exact broadcastInsert_le_start blockSize h.map range hle hge
    · rw [update_of_ne hne] at hge
      exact (broadcastInsert_le blockSize h.map range d).trans (hwf.head c e hold d hle hge)

theorem History.WellFormed.apply {blockSize : ℕ} {h : History T} (hwf : h.WellFormed blockSize)
    (op : Op T) : (h.apply blockSize op).WellFormed blockSize := by
  cases op with
  | emplace range value rehash => exact hwf.emplace range value rehash
  | eraseAddress address => exact hwf.setBlock eraseP_sublist
  | eraseIterator it =>
    cases hb : it.current with
    | none => simpa [History.apply,erase,hb] using hwf
    | some b =>
      simp only [History.apply,erase_eq h.map hb]
      exact hwf.setBlock (eraseIdx_sublist ..)
  | clear => constructor <;> simp [History.apply,clear]

theorem run_wellFormed (ops : List (Op T)) : (History.run blockSize ops).WellFormed blockSize := by
  have hfold : ∀ h : History T, h.WellFormed blockSize →
      (ops.foldl (History.apply blockSize) h).WellFormed blockSize := by
    induction ops with
    | nil => exact fun h hwf => hwf
    | cons op ops ih => exact fun h hwf => ih _ (hwf.apply op)
  refine hfold {} ?_
  constructor <;> simp

section Contents

variable {blockSize : ℕ} {h : History T} (hwf : h.WellFormed blockSize)

include hwf

theorem History.WellFormed.found_eq_some_iff {key : BitVec 32} {e : BitVec 32 × T} :
    h.map.found blockSize key = some e ↔ e.1=key ∧ h.map.Stored blockSize e := by
  have hnodup := hwf.nodup (blockFor blockSize key)
  cases hidx : (h.map.data (blockFor blockSize key)).findIdx? (·.1 == key) with
  | none =>
    refine iff_of_false (by simp [found,entryAt,find,hidx]) ?_
    rintro ⟨rfl,hmem⟩
    simpa using findIdx?_eq_none_iff.mp hidx e hmem
  | some pos =>
    obtain ⟨hlt,hkey,-⟩ := findIdx?_eq_some_iff_getElem.mp hidx
    simp only [found,entryAt,find,hidx,Option.bind_some,getElem?_eq_getElem hlt,Option.some_inj]
    constructor
    · rintro rfl
      rw [Stored,eq_of_beq hkey]
      exact ⟨rfl,getElem_mem hlt⟩
    · rintro ⟨rfl,hmem⟩
      obtain ⟨i,hi,heq⟩ := getElem_of_mem hmem
      obtain rfl : i=pos :=
        (getElem?_inj (by simpa using hi) hnodup).mp (by simp [hi,hlt,heq,eq_of_beq hkey])
      exact heq

theorem History.WellFormed.found_eq_update {h' : History T} (hwf' : h'.WellFormed blockSize)
    {key : BitVec 32} {value : Option (BitVec 32 × T)} (hkey : ∀ e∈value, e.1=key)
    (hstored : ∀ e, h'.map.Stored blockSize e ↔
      value = some e ∨ e.1≠key ∧ h.map.Stored blockSize e) :
    h'.map.found blockSize = update (h.map.found blockSize) key value := by
  funext k
  ext e
  rw [hwf'.found_eq_some_iff,hstored]
  by_cases hk : k=key
  · subst hk
    rw [update_self]
    exact ⟨fun h => h.2.resolve_right fun hother => hother.1 h.1,fun h => ⟨hkey e h,.inl h⟩⟩
  · rw [update_of_ne hk,hwf.found_eq_some_iff]
    refine and_congr_right fun he => ⟨fun h => ?_,fun h => .inr ⟨by rwa [he],h⟩⟩
    exact (h.resolve_left fun hvalue => hk (he.symm.trans (hkey e hvalue))).2

omit hwf in
theorem stored_setBlock {key : BitVec 32}
    (hinner : ∀ e, e∈inner ↔ e.1≠key ∧ e∈h.map.data (blockFor blockSize key)) (e : BitVec 32 × T) :
    (h.map.setBlock (blockFor blockSize key) inner).Stored blockSize e ↔
      none = some e ∨ e.1≠key ∧ h.map.Stored blockSize e := by
  rw [Stored,Stored,or_iff_right (by simp)]
  by_cases hblock : blockFor blockSize e.1 = blockFor blockSize key
  · rw [hblock,setBlock_data_self,hinner]
  · rw [setBlock_data_of_ne _ hblock]
    exact (and_iff_right fun hkey => hblock (by rw [hkey])).symm

theorem History.WellFormed.mem_eraseIdx {b pos : ℕ} {removed e : BitVec 32 × T}
    (hremoved : (h.map.data b)[pos]? = some removed) :
    e∈(h.map.data b).eraseIdx pos ↔ e.1≠removed.1 ∧ e∈h.map.data b := by
  rw [mem_eraseIdx_iff_getElem?]
  constructor
  · rintro ⟨i,hne,hi⟩
    obtain ⟨hlt,-⟩ := List.getElem?_eq_some_iff.mp hi
    refine ⟨fun hkey => hne ((getElem?_inj (by simpa using hlt) (hwf.nodup b)).mp ?_),mem_of_getElem? hi⟩
    rw [getElem?_map,getElem?_map,hi,hremoved,Option.map_some,Option.map_some,hkey]
  · rintro ⟨hother,hmem⟩
    obtain ⟨i,hi⟩ := mem_iff_getElem?.mp hmem
    refine ⟨i,?_,hi⟩
    rintro rfl
    exact hother (by rw [Option.some.inj (hi.symm.trans hremoved)])

theorem History.WellFormed.mem_eraseP {b : ℕ} {key : BitVec 32} {e : BitVec 32 × T} :
    e∈(h.map.data b).eraseP (·.1 == key) ↔ e.1≠key ∧ e∈h.map.data b := by
  by_cases hkey : e.1=key
  · refine iff_of_false (fun hmem => ?_) fun h => h.1 hkey
    have herase := (hwf.nodup b).not_mem_erase (a := key)
    rw [erase_eq_eraseP',eraseP_map] at herase
    exact herase (mem_map.mpr ⟨e,hmem,hkey⟩)
  · rw [mem_eraseP_of_neg (by simpa using hkey),and_iff_right hkey]

end Contents

/-- What `find` leads to after a call, if it leads to `contents` before. -/
def Op.effect (m : RangedMap T) (contents : BitVec 32 → Option (BitVec 32 × T)) :
    Op T → BitVec 32 → Option (BitVec 32 × T)
  | .emplace range value _ => update contents range.start (some (range.start,value))
  | .eraseAddress address => update contents address none
  | .eraseIterator it => (m.entryAt it).elim contents fun e => update contents e.1 none
  | .clear => fun _ => none

theorem History.WellFormed.found_apply {blockSize : ℕ} {h : History T} (hwf : h.WellFormed blockSize)
    (op : Op T) : (h.apply blockSize op).map.found blockSize =
      op.effect h.map (h.map.found blockSize) := by
  have hwf' := hwf.apply op
  cases op with
  | emplace range value rehash =>
    refine hwf.found_eq_update hwf' (by simp) fun e => (hwf.mem_emplace _ _ _).trans ?_
    refine or_congr_left ⟨fun he => by rw [he.2],fun he => ?_⟩
    obtain rfl := Option.some.inj he
    exact ⟨rfl,rfl⟩
  | eraseAddress address =>
    exact hwf.found_eq_update hwf' (by simp) (stored_setBlock fun e => hwf.mem_eraseP)
  | eraseIterator it =>
    rw [Op.effect]
    cases hb : it.current with
    | none => simp [History.apply,erase,entryAt,hb]
    | some b =>
      simp only [History.apply,erase_eq h.map hb] at hwf' ⊢
      cases hremoved : (h.map.data b)[it.pos]? with
      | none =>
        have hlength := getElem?_eq_none_iff.mp hremoved
        simp [entryAt,hb,hremoved,eraseIdx_of_length_le hlength,RangedMap.setBlock]
      | some removed =>
        have hblock := hwf.block b removed (mem_of_getElem? hremoved)
        subst hblock
        simp only [entryAt,hb,hremoved,Option.bind_some,Option.elim_some]
        exact hwf.found_eq_update hwf' (by simp)
          (stored_setBlock fun e => hwf.mem_eraseIdx hremoved)
  | clear => funext key; simp [History.apply,Op.effect,found,entryAt,find,clear]

/-- The entries that `find` leads to are a map that each call changes at its own key only: `emplace`
sets the value of its start address, an erasure takes the entry of the address or at the iterator. -/
theorem find_refines_map (ops : List (Op T)) (op : Op T) :
    (History.run blockSize ([] : List (Op T))).map.found blockSize = (fun _ => none) ∧
      (History.run blockSize (ops++[op])).map.found blockSize =
        op.effect (History.run blockSize ops).map ((History.run blockSize ops).map.found blockSize) := by
  refine ⟨rfl,?_⟩
  rw [History.run,foldl_concat]
  exact (run_wellFormed blockSize ops).found_apply op

section Iteration

variable {blockSize : ℕ} {h : History T}

theorem nodup_blocks (hwf : h.WellFormed blockSize) (first count : ℕ) :
    (((range' first count).flatMap h.map.data).map Prod.fst).Nodup := by
  rw [map_flatMap,nodup_flatMap]
  refine ⟨fun b _ => hwf.nodup b,(pairwise_lt_range' _).imp ?_⟩
  intro b c hlt key hb hc
  obtain ⟨e,he,rfl⟩ := mem_map.mp hb
  obtain ⟨e',he',hkey⟩ := mem_map.mp hc
  rw [← hwf.block b e he,← hwf.block c e' he',hkey] at hlt
  exact hlt.false

/-- The blocks from the head block of the range's first block to its last block
hold every entry whose range overlaps the queried one. -/
theorem mem_blocks_of_overlaps (hwf : h.WellFormed blockSize) {e : BitVec 32 × T}
    (he : h.map.Stored blockSize e) {range : AddressRange 32}
    (hov : (h.lastRange e.1).overlaps range) :
    min (blockFor blockSize range.start) (h.map.headBlock (blockFor blockSize range.start)) ≤
        blockFor blockSize e.1 ∧
      blockFor blockSize e.1 ≤ blockFor blockSize range.last := by
  obtain ⟨hfirst,hlast⟩ := AddressRange.overlaps_iff.mp hov
  rw [hwf.start _ e he] at hfirst
  refine ⟨?_,Nat.div_le_div_right hfirst⟩
  by_cases hle : blockFor blockSize range.start ≤ blockFor blockSize e.1
  · exact (Nat.min_le_left ..).trans hle
  · have hreach := hwf.head _ e he (blockFor blockSize range.start) (by omega)
      (Nat.div_le_div_right hlast)
    exact (Nat.min_le_right ..).trans hreach

end Iteration

/-- After any history, a loop from `begin_range` to `end()` that erases any of the
entries it visits ends, visits every stored entry whose last emplaced range
overlaps the queried one, nothing that is not stored, and no key twice. -/
theorem begin_range_visits (ops : List (Op T)) (range : AddressRange 32)
    (choose : List (BitVec 32 × T) → Bool) :
    ∃ visited m' bound,
      (∀ fuel, bound ≤ fuel → iterate choose fuel (History.run blockSize ops).map
          ((History.run blockSize ops).map.beginRange blockSize range) [] = some (visited,m')) ∧
      (visited.map Prod.fst).Nodup ∧
      (∀ e∈visited, (History.run blockSize ops).map.Stored blockSize e) ∧
      ∀ e, (History.run blockSize ops).map.Stored blockSize e →
        ((History.run blockSize ops).lastRange e.1).overlaps range → e∈visited := by
  have hwf := run_wellFormed blockSize ops
  obtain ⟨hplaced,hpend⟩ := (History.run blockSize ops).map.forwardScan_pending
    (min (blockFor blockSize range.start)
      ((History.run blockSize ops).map.headBlock (blockFor blockSize range.start)))
    (blockFor blockSize range.last)
  obtain ⟨m',hm'⟩ := iterate_eq_pending choose _ _ _ [] hplaced rfl
  rw [nil_append,hpend] at hm'
  refine ⟨_,m',_,hm',nodup_blocks hwf ..,?_,?_⟩
  · intro e he
    obtain ⟨b,-,hmem⟩ := mem_flatMap.mp he
    rw [Stored,hwf.block b e hmem]
    exact hmem
  · intro e he hov
    obtain ⟨hfirst,hlast⟩ := mem_blocks_of_overlaps hwf he hov
    exact mem_flatMap.mpr ⟨_,List.mem_range'_1.mpr ⟨hfirst,by omega⟩,he⟩

end PS3Native.RangedMap
