import Mathlib.Algebra.Ring.Nat
import Mathlib.Data.List.Infix

/-!
# The list of arrays behind a storage block

`ranged_storage_block_list<T, array_size>` keeps its elements in a list of arrays, with a list
iterator, an index into the current array and a capacity counter of 32 bits. An `ensure` that fires
is `none`.
-/

namespace PS3Native.StorageBlockList

def umax : Nat := 2^32-1

structure State (V : Type) (A : Nat) where
  size : Nat
  data : List (Vector V A)
  /-- `m_data_it`; the length of `data` stands for `m_data.end()`. -/
  dataIt : Nat
  arrayIdx : Nat
  capacity : Nat

inductive Op (V : Type)
  | emplaceBack (v : V)
  | clear
  | free

structure Iterator where
  listIt : Nat
  idx : Nat
  arrayIdx : Nat

section Model

variable {V : Type} {A : Nat}

def initial : State V A := ⟨0,[],0,umax,0⟩

def State.nextArray [Inhabited V] (s : State V A) : State V A :=
  -- the iterator is advanced only if it is not already at the end
  let it := if s.dataIt=s.data.length then s.dataIt else s.dataIt+1
  if it=s.data.length then
    { s with
      data := s.data.insertIdx it (Vector.replicate A default)
      dataIt := it
      capacity := (s.capacity+A)%2^32
      arrayIdx := 0 }
  else {s with dataIt := it, arrayIdx := 0}

def State.construct (s : State V A) (v : V) : State V A :=
  { s with
    data := s.data.modify s.dataIt (·.setIfInBounds s.arrayIdx v)
    arrayIdx := (s.arrayIdx+1)%2^32
    size := (s.size+1)%2^32 }

def State.emplaceBack [Inhabited V] (s : State V A) (v : V) : Option (State V A) :=
  let s := if A ≤ s.arrayIdx then s.nextArray else s
  if 0 < s.capacity ∧ s.arrayIdx < A ∧ s.dataIt≠s.data.length then some (s.construct v) else none

def State.clear (s : State V A) : State V A := {s with size := 0, arrayIdx := 0, dataIt := 0}

def State.free (_ : State V A) : State V A := ⟨0,[],0,0,0⟩

def step [Inhabited V] (s : State V A) : Op V → Option (State V A)
  | .emplaceBack v => s.emplaceBack v
  | .clear => some s.clear
  | .free => some s.free

def run [Inhabited V] (A : Nat) (ops : List (Op V)) : Option (State V A) :=
  ops.foldlM step initial

def State.slot (s : State V A) (i j : Nat) : Option V := do (← s.data[i]?)[j]?

def State.begin (s : State V A) : Iterator := ⟨0,if s.size=0 then umax else 0,0⟩

def Iterator.next (it : Iterator) (s : State V A) : Iterator :=
  let idx := (it.idx+1)%2^32
  if s.size ≤ idx then {it with idx := umax}
  else if A ≤ (it.arrayIdx+1)%2^32 then ⟨it.listIt+1,idx,0⟩
  else ⟨it.listIt,idx,(it.arrayIdx+1)%2^32⟩

/-- A range-based loop from `it` to `end()`: the elements it sees, if it ends within `fuel` steps and
reads only slots that exist. -/
def State.iterate (s : State V A) : Nat → Iterator → Option (List V)
  | 0, _ => none
  | fuel+1, it =>
    if it.idx=umax then some []
    else do
      let v ← s.slot it.listIt it.arrayIdx
      let vs ← s.iterate fuel (it.next s)
      return v::vs

/-- The elements emplaced since the last `clear` or `free`. -/
def elements (ops : List (Op V)) : List V :=
  ops.foldl (fun es op => match op with
    | .emplaceBack v => es++[v]
    | _ => []) []

/-- Whether an element was emplaced since the last `free`, so that the list owns an array. -/
def holdsArrays (ops : List (Op V)) : Bool :=
  ops.foldl (fun b op => match op with
    | .emplaceBack _ => true
    | .clear => b
    | .free => false) false

/-- No element is emplaced into a list that was cleared or freed and owns no array. -/
def Admissible (ops : List (Op V)) : Prop :=
  ∀ before v, before++[.emplaceBack v] <+: ops → before=[] ∨ holdsArrays before

end Model

section Invariant

variable {V : Type} {A : Nat} {s s' : State V A} {es : List V} {n : Nat} {v : V}

/-- The list holds `es`, and never held more than `n` elements. -/
structure Inv (es : List V) (n : Nat) (s : State V A) : Prop where
  size : s.size=es.length
  slot : ∀ i j, j < A → i*A+j < es.length → s.slot i j = es[i*A+j]?
  capacity : s.capacity = s.data.length*A
  room : s.data.length*A < n+A
  le : es.length ≤ n
  place : (s.data=[] ∧ s.dataIt=0 ∧ es=[]) ∨
    (s.dataIt < s.data.length ∧ s.arrayIdx ≤ A ∧ s.dataIt*A+s.arrayIdx=es.length)

theorem Inv.empty (hdata : s.data=[]) (hsize : s.size=0) (hcap : s.capacity=0)
    (hit : s.dataIt=0) (hA : 0 < A) : Inv [] n s where
  size := hsize
  slot i j _ h := absurd h (Nat.not_lt_zero _)
  capacity := by simp [hdata,hcap]
  room := by simp [hdata]; omega
  le := Nat.zero_le _
  place := .inl ⟨hdata,hit,rfl⟩

theorem Inv.clear (h : Inv es n s) : Inv [] n s.clear where
  size := rfl
  slot i j _ h := absurd h (Nat.not_lt_zero _)
  __ := h
  le := Nat.zero_le _
  place := by
    rcases h.place with ⟨hdata,_,_⟩ | ⟨hit,_,_⟩
    · exact .inl ⟨hdata,rfl,rfl⟩
    · exact .inr ⟨Nat.zero_lt_of_lt hit,Nat.zero_le _,by simp [State.clear]⟩

theorem Inv.data_ne_nil (h : Inv (es++[v]) n s) : s.data≠[] := by
  rcases h.place with ⟨_,_,hes⟩ | ⟨hit,_,_⟩
  · simp at hes
  · exact List.ne_nil_of_length_pos (Nat.zero_lt_of_lt hit)

section Emplace

variable (h : Inv es n s) (hlt : es.length < n) (hn : n+A ≤ 2^32)
include h hlt hn

theorem Inv.construct (hit : s.dataIt < s.data.length) (hidx : s.arrayIdx < A)
    (hpos : s.dataIt*A+s.arrayIdx=es.length) : Inv (es++[v]) n (s.construct v) := by
  unfold State.construct
  refine ⟨?_,fun i j hj hij => ?_,by simp [h.capacity],by simp [h.room],by simp; omega,.inr ?_⟩
  · simp only [h.size,List.length_append,List.length_singleton]
    exact Nat.mod_eq_of_lt (by omega)
  · have hold := h.slot i j hj
    simp only [List.length_append,List.length_singleton] at hij
    simp only [State.slot,List.getElem?_modify] at hold ⊢
    by_cases hlast : i*A+j=es.length
    · have hdiv := congrArg (·/A) (hlast.trans hpos.symm)
      simp only [Nat.mul_comm _ A,Nat.mul_add_div (Nat.zero_lt_of_lt hj),Nat.div_eq_of_lt hidx,
        Nat.div_eq_of_lt hj] at hdiv
      obtain rfl : i=s.dataIt := hdiv
      obtain rfl : j=s.arrayIdx := by omega
      simp [List.getElem?_eq_getElem hit,hpos,hidx]
    · rw [List.getElem?_append_left (by omega),← hold (by omega)]
      by_cases hi : s.dataIt=i
      · subst hi
        simp [List.getElem?_eq_getElem hit,show s.arrayIdx≠j by omega]
      · simp [hi]
  · have hmod : (s.arrayIdx+1)%2^32 = s.arrayIdx+1 := Nat.mod_eq_of_lt (by omega)
    simp only [List.length_modify,hmod,List.length_append,List.length_singleton]
    exact ⟨hit,by omega,by omega⟩

variable [Inhabited V]

/-- A list without arrays, or whose current array is full, moves on to an array with room. -/
theorem Inv.nextArray (hfull : s.data≠[] → s.arrayIdx=A) :
    Inv es n s.nextArray ∧ s.nextArray.dataIt < s.nextArray.data.length ∧
      s.nextArray.arrayIdx=0 ∧ s.nextArray.dataIt*A=es.length := by
  have hcases : (s.dataIt=s.data.length ∨ s.dataIt+1=s.data.length) ∧
      s.data.length*A=es.length ∨ s.dataIt+1 < s.data.length ∧ (s.dataIt+1)*A=es.length := by
    rcases h.place with ⟨hdata,hit,rfl⟩ | ⟨hit,_,hpos⟩
    · exact .inl ⟨.inl (by simp [hdata,hit]),by simp [hdata]⟩
    · rw [hfull (List.ne_nil_of_length_pos (Nat.zero_lt_of_lt hit)),← Nat.succ_mul] at hpos
      rcases Nat.lt_or_eq_of_le (Nat.succ_le_of_lt hit) with hlt | hend
      · exact .inr ⟨hlt,hpos⟩
      · exact .inl ⟨.inr hend,hend ▸ hpos⟩
  rcases hcases with ⟨hend,hpos⟩ | ⟨hit,hpos⟩
  · have hit : (if s.dataIt=s.data.length then s.dataIt else s.dataIt+1)=s.data.length := by
      split_ifs <;> omega
    have hcap : (s.capacity+A)%2^32 = (s.data.length+1)*A := by
      rw [h.capacity,Nat.mod_eq_of_lt (by omega),Nat.succ_mul]
    have hnew : s.nextArray = ⟨s.size,s.data++[Vector.replicate A default],s.data.length,0,
        (s.data.length+1)*A⟩ := by
      simp only [State.nextArray,hit,hcap,if_true,List.insertIdx_length_self]
    rw [hnew]
    refine ⟨⟨h.size,fun i j hj hij => ?_,by simp,?_,h.le,.inr ?_⟩,?_⟩
    · have hi : i < s.data.length := by
        by_contra hle
        have := Nat.mul_le_mul_right A (Nat.not_lt.mp hle)
        omega
      rw [← h.slot i j hj hij]
      simp [State.slot,List.getElem?_append_left hi]
    · simp only [List.length_append,List.length_singleton,Nat.succ_mul]
      omega
    all_goals simp [hpos]
  · have hnew : s.nextArray = {s with dataIt := s.dataIt+1, arrayIdx := 0} := by
      simp [State.nextArray,Nat.ne_of_lt hit,show s.dataIt≠s.data.length by omega]
    rw [hnew]
    exact ⟨{h with place := .inr ⟨hit,Nat.zero_le _,hpos⟩},hit,rfl,hpos⟩

theorem Inv.emplaceBack (hA : 0 < A) (hready : s.data=[] → s.arrayIdx=umax) :
    ∃ s', s.emplaceBack v = some s' ∧ Inv (es++[v]) n s' := by
  have key : ∃ t, t = (if A ≤ s.arrayIdx then s.nextArray else s) ∧ Inv es n t ∧
      t.dataIt < t.data.length ∧ t.arrayIdx < A ∧ t.dataIt*A+t.arrayIdx=es.length := by
    refine ⟨_,rfl,?_⟩
    split
    · have hfull : s.data≠[] → s.arrayIdx=A := by
        intro hne
        rcases h.place with ⟨hdata,_,_⟩ | ⟨_,hle,_⟩
        · exact absurd hdata hne
        · omega
      obtain ⟨hinv,hit,hidx,hpos⟩ := h.nextArray hlt hn hfull
      exact ⟨hinv,hit,hidx ▸ hA,by omega⟩
    · rcases h.place with ⟨hdata,_,_⟩ | ⟨hit,_,hpos⟩
      · have := hready hdata
        simp only [umax] at this
        omega
      · exact ⟨h,hit,by omega,hpos⟩
  obtain ⟨t,ht,hinv,hit,hidx,hpos⟩ := key
  refine ⟨_,?_,hinv.construct hlt hn hit hidx hpos⟩
  have hcap : 0 < t.capacity := by
    rw [hinv.capacity]
    exact Nat.mul_pos (Nat.zero_lt_of_lt hit) hA
  simp only [State.emplaceBack,← ht]
  rw [if_pos ⟨hcap,hidx,Nat.ne_of_lt hit⟩]

end Emplace

/-- A cleared or freed list that owns no array is taken for one whose array has room. -/
theorem Inv.emplaceBack_eq_none [Inhabited V] (h : Inv es n s) (hA : 0 < A) (hdata : s.data=[])
    (hidx : s.arrayIdx=0) : s.emplaceBack v=none := by
  have hcap := h.capacity
  simp only [hdata,List.length_nil,Nat.zero_mul] at hcap
  simp [State.emplaceBack,hidx,hcap,Nat.not_le.mpr hA]

theorem Inv.iterate (h : Inv es n s) (hn : n+A ≤ 2^32) (fuel i j : Nat) (hj : j < A)
    (hij : i*A+j < es.length) (hfuel : es.length-(i*A+j) ≤ fuel) :
    s.iterate (fuel+1) ⟨i,i*A+j,j⟩ = some (es.drop (i*A+j)) := by
  induction fuel generalizing i j with
  | zero => omega
  | succ fuel ih =>
    have hle := h.le
    have hidx : (i*A+j+1)%2^32 = i*A+j+1 := Nat.mod_eq_of_lt (by omega)
    have hmod : (j+1)%2^32 = j+1 := Nat.mod_eq_of_lt (by omega)
    have hne : i*A+j≠umax := by
      simp only [umax]
      omega
    rw [State.iterate,if_neg hne,h.slot i j hj hij,List.getElem?_eq_getElem hij,
      List.drop_eq_getElem_cons hij]
    simp only [Iterator.next,h.size,hidx,hmod]
    by_cases hend : es.length ≤ i*A+j+1
    · rw [List.drop_eq_nil_of_le hend]
      simp [hend,State.iterate]
    by_cases hnext : A ≤ j+1
    · have hsum : (i+1)*A+0 = i*A+j+1 := by
        rw [Nat.succ_mul]
        omega
      have hrest := ih (i+1) 0 (by omega) (by omega) (by omega)
      rw [hsum] at hrest
      simp [hend,hnext,hrest]
    · have hrest := ih i (j+1) (by omega) (by omega) (by omega)
      simp only [← Nat.add_assoc] at hrest
      simp [hend,hnext,hrest]

theorem Inv.iterate_begin (h : Inv es n s) (hn : n+A ≤ 2^32) (hA : 0 < A) :
    s.iterate (s.size+1) s.begin = some es := by
  rw [h.size]
  rcases List.eq_nil_or_concat es with rfl | ⟨_,_,hes⟩
  · simp [State.begin,State.iterate,h.size]
  · have hpos : 0 < es.length := by simp [hes]
    have := h.iterate hn es.length 0 0 hA (by omega) (by omega)
    simpa [State.begin,h.size,Nat.ne_of_gt hpos] using this

end Invariant

section Histories

variable {V : Type} [Inhabited V] {A n : Nat} {ops : List (Op V)} {s : State V A}

structure Follows (n : Nat) (ops : List (Op V)) (s : State V A) : Prop where
  inv : Inv (elements ops) n s
  holds : s.data=[] ↔ holdsArrays ops=false
  idle : s.data=[] → s.arrayIdx = if ops=[] then umax else 0

omit [Inhabited V] in
theorem admissible_concat (op : Op V) : Admissible (ops++[op]) ↔
    Admissible ops ∧ ∀ v, op = .emplaceBack v → ops=[] ∨ holdsArrays ops := by
  constructor
  · refine fun h => ⟨fun before v hb => h before v (hb.trans (List.prefix_append _ _)),?_⟩
    rintro v rfl
    exact h ops v (List.prefix_refl _)
  · rintro ⟨h,hlast⟩ before v hb
    rcases List.prefix_concat_iff.mp hb with heq | hb
    · obtain ⟨rfl,hop⟩ := List.append_inj' heq rfl
      exact hlast v (List.singleton_inj.mp hop).symm
    · exact h before v hb

theorem Follows.step (h : Follows n ops s) (hA : 0 < A) (op : Op V) (hn : n+A ≤ 2^32)
    (hheld : (elements (ops++[op])).length ≤ n) :
    (step s op≠none ↔ ∀ v, op = .emplaceBack v → ops=[] ∨ holdsArrays ops) ∧
      ∀ s', step s op = some s' → Follows n (ops++[op]) s' := by
  cases op with
  | emplaceBack v =>
    have hlt : (elements ops).length < n := Nat.lt_of_succ_le (by simpa [elements] using hheld)
    by_cases hok : ops=[] ∨ holdsArrays ops
    · have hready : s.data=[] → s.arrayIdx=umax := by
        intro hdata
        rcases hok with rfl | hholds
        · exact h.idle hdata
        · simp [h.holds.mp hdata] at hholds
      obtain ⟨t,ht,hinv⟩ := h.inv.emplaceBack (v := v) hlt hn hA hready
      refine ⟨by simp [StorageBlockList.step,ht,hok],fun s' hs => ?_⟩
      obtain rfl := Option.some.inj (ht.symm.trans hs)
      have hne := hinv.data_ne_nil
      exact ⟨by simpa [elements] using hinv,by simp [hne,holdsArrays],
        fun hdata => absurd hdata hne⟩
    · obtain ⟨hops,hholds⟩ := not_or.mp hok
      have hdata := h.holds.mpr (by simpa using hholds)
      have hnone := h.inv.emplaceBack_eq_none (v := v) hA hdata (by simp [h.idle hdata,hops])
      simp [StorageBlockList.step,hnone,hok]
  | clear =>
    refine ⟨by simp [StorageBlockList.step],fun s' hs => ?_⟩
    obtain rfl := Option.some.inj hs
    exact ⟨by simpa [elements] using h.inv.clear,
      by simpa [holdsArrays,State.clear] using h.holds,fun _ => by simp [State.clear]⟩
  | free =>
    refine ⟨by simp [StorageBlockList.step],fun s' hs => ?_⟩
    obtain rfl := Option.some.inj hs
    exact ⟨by simpa [elements] using Inv.empty rfl rfl rfl rfl hA,by simp [holdsArrays,State.free],
      fun _ => by simp [State.free]⟩

theorem run_follows (hA : 0 < A) (hn : n+A ≤ 2^32)
    (hheld : ∀ before, before <+: ops → (elements before).length ≤ n) :
    (run A ops≠none ↔ Admissible ops) ∧ ∀ s, run A ops = some s → Follows n ops s := by
  induction ops using List.reverseRecOn with
  | nil =>
    refine ⟨by simp [run,Admissible],fun s hs => ?_⟩
    obtain rfl := Option.some.inj hs
    exact ⟨Inv.empty rfl rfl rfl rfl hA,by simp [initial,holdsArrays],fun _ => rfl⟩
  | append_singleton ops op ih =>
    obtain ⟨hiff,hfollows⟩ := ih fun before hb => hheld before (hb.trans (List.prefix_append ..))
    have hrun : run A (ops++[op]) = (run A ops).bind (StorageBlockList.step · op) := by
      simp [run,List.foldlM_append]
    rw [hrun,admissible_concat,← hiff]
    cases hs : run A ops with
    | none => simp
    | some s => simpa using (hfollows s hs).step hA op hn (hheld _ List.prefix_rfl)

/-- A history of a block list fires no `ensure` exactly if it never emplaces an element into a list
that was cleared or freed and owns no array; then the size and the iteration are those of the plain
list. The counters are 32 bits wide, so the elements held must leave room for one more array. -/
theorem ranged_storage_block_list_correct (A : Nat) (hA : 0 < A) (ops : List (Op V))
    (hheld : ∀ before, before <+: ops → (elements before).length+A ≤ 2^32) :
    (run A ops≠none ↔ Admissible ops) ∧ ∀ s, run A ops = some s → s.size = (elements ops).length ∧
        s.iterate (s.size+1) s.begin = some (elements ops) := by
  have hA' := hheld [] List.nil_prefix
  have hn : 2^32-A+A ≤ 2^32 := by
    simp only [elements,List.foldl_nil,List.length_nil] at hA'
    omega
  obtain ⟨hiff,hfollows⟩ := run_follows hA hn fun before hb => Nat.le_sub_of_add_le (hheld before hb)
  refine ⟨hiff,fun s hs => ?_⟩
  have hinv := (hfollows s hs).inv
  exact ⟨hinv.size,hinv.iterate_begin hn hA⟩

end Histories

theorem ranged_storage_block_list_correct_cleared :
    ∃ s : State ℕ 1, run 1 [.emplaceBack 1,.emplaceBack 2,.clear,.emplaceBack 3] = some s ∧
      s.size=1 ∧ s.iterate (s.size+1) s.begin = some [3] := by
  have hheld : ∀ before∈[.emplaceBack 1,.emplaceBack 2,.clear,.emplaceBack 3].inits,
      (elements before).length+1 ≤ 2^32 := by decide
  exact ⟨_,rfl,(ranged_storage_block_list_correct 1 (by decide) _ fun before hb =>
    hheld before ((List.mem_inits ..).2 hb)).2 _ rfl⟩

/-- An element is emplaced after `free`, or after `clear` on a list that never held one. -/
theorem ensure_fires_after_clear_or_free :
    run 4 [.emplaceBack 1,.free,.emplaceBack 2]=none ∧ run 4 [.clear,.emplaceBack 1]=none := by
  decide

end PS3Native.StorageBlockList
