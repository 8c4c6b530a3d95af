import PS3Native.AddressRange

/-!
# Maps from address ranges, in blocks

`rsx::ranged_map<T, BlockSize>` keeps an entry in the block of its start address, and for every
block the earliest block that may hold an entry reaching into it. An insertion may reorder a block,
an erasure may not. `forwardScan` takes the block that `m_current` is advanced to.
-/
namespace PS3Native
open List

structure RangedMap (T : Type*) where
  data : ℕ → List (BitVec 32 × T) := fun _ => []
  headBlock : ℕ → ℕ := fun _ => (umax 32).toNat

structure Rehash (T : Type*) where
  place : List (BitVec 32 × T) → List (BitVec 32 × T)
  perm : ∀ inner, (place inner).Perm inner

namespace RangedMap

variable {T : Type*} (blockSize : ℕ)

def blockFor (address : BitVec 32) : ℕ := address.toNat/blockSize

/-- `count` steps of the loop of `broadcast_insert` from the block `id` on. -/
def broadcastLoop (head : ℕ) (headBlock : ℕ → ℕ) (id : ℕ) : ℕ → ℕ → ℕ
  | 0 => headBlock
  | count+1 => broadcastLoop head (Function.update headBlock id (min head (headBlock id)))
      (id+1) count

def broadcastInsert (m : RangedMap T) (range : AddressRange 32) : RangedMap T :=
  let head := blockFor blockSize range.start
  { m with headBlock :=
      broadcastLoop head m.headBlock head (blockFor blockSize range.last+1-head) }

def insertOrAssign (rehash : Rehash T) (inner : List (BitVec 32 × T)) (key : BitVec 32)
    (value : T) : List (BitVec 32 × T) :=
  if inner.any (·.1 == key) then inner.map (fun e => if e.1 == key then (key,value) else e)
  else rehash.place ((key,value)::inner)

def setBlock (m : RangedMap T) (b : ℕ) (inner : List (BitVec 32 × T)) : RangedMap T :=
  {m with data := Function.update m.data b inner}

def emplace (m : RangedMap T) (range : AddressRange 32) (value : T) (rehash : Rehash T) :
    RangedMap T :=
  let b := blockFor blockSize range.start
  (m.broadcastInsert blockSize range).setBlock b
    (insertOrAssign rehash (m.data b) range.start value)

def eraseAddress (m : RangedMap T) (address : BitVec 32) : RangedMap T :=
  let b := blockFor blockSize address
  m.setBlock b ((m.data b).eraseP (·.1 == address))

def clear (m : RangedMap T) : RangedMap T := {m with data := fun _ => []}

/-- `current` is empty at the end pointer, `last` is the inclusive `m_end`, and
`pos` is the place of `m_it` in the block. -/
structure Iterator where
  current : Option ℕ := none
  last : ℕ := 0
  pos : ℕ := 0

/-- The first block with an entry among `count` blocks from `next` on. -/
def scan (data : ℕ → List (BitVec 32 × T)) (next : ℕ) : ℕ → Option ℕ
  | 0 => none
  | count+1 => if (data next).isEmpty then scan data (next+1) count else some next

def forwardScan (m : RangedMap T) (next last : ℕ) : Iterator :=
  {current := scan m.data next (last+1-next), last}

def next (m : RangedMap T) (it : Iterator) : Iterator :=
  match it.current with
  | none => it
  | some b =>
    if it.pos+1 < (m.data b).length then {it with pos := it.pos+1}
    else m.forwardScan (b+1) it.last

def erase (m : RangedMap T) (it : Iterator) : RangedMap T × Iterator :=
  match it.current with
  | none => (m,it)
  | some b =>
    let m' := m.setBlock b ((m.data b).eraseIdx it.pos)
    if it.pos < (m'.data b).length then (m',it) else (m',m'.forwardScan (b+1) it.last)

def beginRange (m : RangedMap T) (range : AddressRange 32) : Iterator :=
  let startBlock := blockFor blockSize range.start
  m.forwardScan (min startBlock (m.headBlock startBlock)) (blockFor blockSize range.last)

def find (m : RangedMap T) (key : BitVec 32) : Iterator :=
  let b := blockFor blockSize key
  match (m.data b).findIdx? (·.1 == key) with
  | some pos => {current := some b, last := b, pos}
  | none => {}

def entryAt (m : RangedMap T) (it : Iterator) : Option (BitVec 32 × T) :=
  it.current.bind fun b => (m.data b)[it.pos]?

/-- The entry that `find` leads to. -/
def found (m : RangedMap T) (key : BitVec 32) : Option (BitVec 32 × T) :=
  m.entryAt (m.find blockSize key)

/-- A loop to `end()` that erases the entries `choose` picks, given all entries
visited so far, and moves past the others. -/
def iterate (choose : List (BitVec 32 × T) → Bool) :
    ℕ → RangedMap T → Iterator → List (BitVec 32 × T) → Option (List (BitVec 32 × T) × RangedMap T)
  | 0, _, _, _ => none
  | fuel+1, m, it, visited =>
    match it.current with
    | none => some (visited,m)
    | some b =>
      match (m.data b)[it.pos]? with
      | none => none
      | some entry =>
        if choose (visited++[entry]) then
          iterate choose fuel (m.erase it).1 (m.erase it).2 (visited++[entry])
        else iterate choose fuel m (m.next it) (visited++[entry])

def pending (m : RangedMap T) (it : Iterator) : List (BitVec 32 × T) :=
  match it.current with
  | none => []
  | some b => (m.data b).drop it.pos++(List.range' (b+1) (it.last-b)).flatMap m.data

def Placed (m : RangedMap T) (it : Iterator) : Prop :=
  ∀ b, it.current = some b → it.pos < (m.data b).length

@[simp] theorem setBlock_data_self (m : RangedMap T) (b : ℕ) (inner : List (BitVec 32 × T)) :
    (m.setBlock b inner).data b=inner := Function.update_self ..

theorem setBlock_data_of_ne (m : RangedMap T) {b c : ℕ} (h : c≠b)
    (inner : List (BitVec 32 × T)) : (m.setBlock b inner).data c = m.data c :=
  Function.update_of_ne h ..

@[simp] theorem setBlock_headBlock (m : RangedMap T) (b : ℕ) (inner : List (BitVec 32 × T)) :
    (m.setBlock b inner).headBlock=m.headBlock := rfl

theorem erase_eq (m : RangedMap T) {it : Iterator} {b : ℕ} (h : it.current = some b) :
    (m.erase it).1 = m.setBlock b ((m.data b).eraseIdx it.pos) := by
  simp only [erase,h]
  split_ifs <;> rfl

theorem scan_spec (data : ℕ → List (BitVec 32 × T)) (next count : ℕ) :
    match scan data next count with
    | none => (range' next count).flatMap data=[]
    | some b => data b≠[] ∧ next ≤ b ∧ b < next+count ∧ (range' next count).flatMap data =
          data b++(range' (b+1) (next+count-(b+1))).flatMap data := by
  induction count generalizing next with
  | zero => simp [scan]
  | succ count ih =>
    rw [scan]
    split_ifs with hempty
    · have hnil : data next=[] := isEmpty_iff.mp hempty
      have hrest := ih (next+1)
      split at hrest
      · simpa [range'_succ,hnil] using hrest
      · obtain ⟨hne,hle,hlt,heq⟩ := hrest
        refine ⟨hne,by omega,by omega,?_⟩
        rw [range'_succ,flatMap_cons,hnil,nil_append,heq,
          show next+1+count = next+(count+1) by omega]
    · refine ⟨fun h => hempty (isEmpty_iff.mpr h),Nat.le_refl _,by omega,?_⟩
      rw [range'_succ,flatMap_cons, show next+(count+1)-(next+1) = count by omega]

theorem forwardScan_pending (m : RangedMap T) (next last : ℕ) : m.Placed (m.forwardScan next last) ∧
      m.pending (m.forwardScan next last) = (range' next (last+1-next)).flatMap m.data := by
  have hspec := scan_spec m.data next (last+1-next)
  cases hscan : scan m.data next (last+1-next) with
  | none =>
    rw [hscan] at hspec
    refine ⟨by simp [Placed,forwardScan,hscan],?_⟩
    simp only [pending,forwardScan,hscan]
    exact hspec.symm
  | some b =>
    rw [hscan] at hspec
    obtain ⟨hne,hle,hlt,heq⟩ := hspec
    constructor
    · intro c hc
      obtain rfl : b=c := by simpa [forwardScan,hscan] using hc
      exact length_pos_of_ne_nil hne
    · simp only [pending,forwardScan,hscan,drop_zero]
      rw [heq,show next+(last+1-next)-(b+1) = last-b by omega]

section Step

variable {m : RangedMap T} {it : Iterator} {b : ℕ} {entry : BitVec 32 × T}

theorem flatMap_setBlock_after (m : RangedMap T) (b count : ℕ) (inner : List (BitVec 32 × T)) :
    (range' (b+1) count).flatMap (m.setBlock b inner).data =
      (range' (b+1) count).flatMap m.data := by
  refine flatMap_congr ?_
  intro c hc
  have := mem_range'_1.mp hc
  exact setBlock_data_of_ne m (by omega) inner

section

variable (hb : it.current = some b) (he : (m.data b)[it.pos]? = some entry)

include hb he

theorem pending_cons : m.pending it=entry ::
      ((m.data b).drop (it.pos+1)++(range' (b+1) (it.last-b)).flatMap m.data) := by
  obtain ⟨hlt,hget⟩ := List.getElem?_eq_some_iff.mp he
  simp only [pending,hb]
  rw [drop_eq_getElem_cons hlt,hget,cons_append]

/-- `++` leaves what comes after the current element. -/
theorem next_pending : m.Placed (m.next it) ∧ m.pending it = entry::m.pending (m.next it) := by
  rw [pending_cons hb he]
  simp only [next,hb]
  split_ifs with hlt
  · refine ⟨?_,?_⟩
    · intro c hc
      obtain rfl : b=c := by simpa [hb] using hc
      exact hlt
    · simp only [pending]
  · obtain ⟨hplaced,hpend⟩ := m.forwardScan_pending (b+1) it.last
    refine ⟨hplaced,?_⟩
    rw [hpend,drop_eq_nil_of_le (by omega),nil_append,show it.last+1-(b+1) = it.last-b by omega]

/-- `erase` leaves the same elements to visit as `++` does. -/
theorem erase_pending : (m.erase it).1.Placed (m.erase it).2 ∧
      m.pending it = entry::(m.erase it).1.pending (m.erase it).2 := by
  rw [pending_cons hb he]
  obtain ⟨hpos,-⟩ := List.getElem?_eq_some_iff.mp he
  have hlen : ((m.data b).eraseIdx it.pos).length = (m.data b).length-1 :=
    length_eraseIdx_of_lt hpos
  simp only [erase,hb,setBlock_data_self]
  split_ifs with hlt
  · refine ⟨?_,?_⟩
    · intro c hc
      obtain rfl : b=c := by simpa [hb] using hc
      simpa using hlt
    · simp only [pending,hb,setBlock_data_self,flatMap_setBlock_after]
      rw [eraseIdx_eq_take_drop_succ,drop_left' (length_take_of_le hpos.le)]
  · obtain ⟨hplaced,hpend⟩ :=
      (m.setBlock b ((m.data b).eraseIdx it.pos)).forwardScan_pending (b+1) it.last
    refine ⟨hplaced,?_⟩
    rw [hpend,flatMap_setBlock_after,drop_eq_nil_of_le (by omega),nil_append,
      show it.last+1-(b+1) = it.last-b by omega]

end

end Step

/-- The loop visits the pending elements in order and ends. -/
theorem iterate_eq_pending (choose : List (BitVec 32 × T) → Bool) (n : ℕ) (m : RangedMap T)
    (it : Iterator) (visited : List (BitVec 32 × T)) (hplaced : m.Placed it)
    (hlen : (m.pending it).length=n) :
    ∃ m', ∀ fuel, n < fuel →
      iterate choose fuel m it visited = some (visited++m.pending it,m') := by
  induction n generalizing m it visited with
  | zero =>
    cases hb : it.current with
    | none =>
      refine ⟨m,?_⟩
      intro fuel hfuel
      cases fuel with
      | zero => omega
      | succ fuel => simp [iterate,pending,hb]
    | some b =>
      have hpos := hplaced b hb
      simp only [pending,hb,length_append,length_drop] at hlen
      omega
  | succ n ih =>
    cases hb : it.current with
    | none => simp [pending,hb] at hlen
    | some b =>
      obtain ⟨entry,he⟩ : ∃ entry, (m.data b)[it.pos]? = some entry :=
        ⟨_,getElem?_eq_getElem (hplaced b hb)⟩
      obtain ⟨m₁,it₁,hstep,hplaced',hpend⟩ : ∃ m₁ it₁,
          (∀ fuel, iterate choose (fuel+1) m it visited = iterate choose fuel m₁ it₁ (visited++[entry])) ∧
          m₁.Placed it₁ ∧ m.pending it = entry::m₁.pending it₁ := by
        simp only [iterate,hb,he]
        split_ifs
        · exact ⟨_,_,fun _ => rfl,erase_pending hb he⟩
        · exact ⟨_,_,fun _ => rfl,next_pending hb he⟩
      rw [hpend,length_cons,Nat.add_right_cancel_iff] at hlen
      obtain ⟨m',hm'⟩ := ih m₁ it₁ (visited++[entry]) hplaced' hlen
      refine ⟨m',?_⟩
      intro fuel hfuel
      cases fuel with
      | zero => omega
      | succ fuel =>
        rw [hpend,hstep,hm' fuel (by omega),append_assoc,singleton_append]

end RangedMap
end PS3Native
