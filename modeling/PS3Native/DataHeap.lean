import PS3Native.RingWindow
import Mathlib.Data.BitVec

/-!
# The ring buffer allocator `rsx::data_heap`

All positions are `usz`. A run records the intervals that were returned, the snapshots of
`get_current_put_pos_minus_one` that are not installed yet, and how many intervals had been returned
when the installed snapshot was taken. It is a run of the ring of `RingWindow` as long as aligning
the put position does not carry it past the get position, which the source does not check, and
nothing overflows.
-/
namespace PS3Native
open RingWindow

structure DataHeap where
  size : BitVec 64
  putPos : BitVec 64
  getPos : BitVec 64
  minGuardSize : BitVec 64
  name : String

namespace DataHeap

inductive HeapError
  | exception (message : String)
  | verification
  deriving DecidableEq, Repr

/-- `utils::align` -/
def align (value alignment : BitVec 64) : BitVec 64 :=
  (value+(alignment-1#64)) &&& (0#64-alignment)

def init (heapSize : BitVec 64) (bufferName : Option String) (minGuardSize : BitVec 64) :
    DataHeap where
  size := heapSize
  putPos := 0#64
  getPos := heapSize-1#64
  minGuardSize := minGuardSize
  name := bufferName.getD "<unnamed>"

def canAllocImpl (h : DataHeap) (alignedPutPos alignedAllocSize : BitVec 64) : Bool :=
  let allocEnd := alignedPutPos+alignedAllocSize
  if allocEnd < h.size then
    if allocEnd < h.getPos then true
    else if alignedPutPos > h.getPos then true
    else false
  else if alignedPutPos < h.getPos then false
  else if alignedAllocSize > h.getPos then false
  else true

def grow (_h : DataHeap) (_size : BitVec 64) : Bool := false

def notBigEnough (h : DataHeap) (requested : BitVec 64) : HeapError :=
  .exception (s!"[{h.name}] Working buffer not big enough, buffer_length={h.size.toNat} " ++
    s!"requested={requested.toNat} guard={h.minGuardSize.toNat}")

def place (h : DataHeap) (requested alignedPutPos allocSize : BitVec 64) :
    Except HeapError (BitVec 64 × DataHeap) :=
  if !h.canAllocImpl alignedPutPos allocSize && !h.grow allocSize then
    .error (notBigEnough h requested)
  else if alignedPutPos+allocSize < h.size then
    .ok (alignedPutPos,{h with putPos := alignedPutPos+allocSize})
  else .ok (0#64,{h with putPos := allocSize})

def alloc (h : DataHeap) (alignment size : BitVec 64) : Except HeapError (BitVec 64 × DataHeap) :=
  place h size (align h.putPos alignment) (align size alignment)

def staticAlloc (h : DataHeap) (alignment size : BitVec 64) :
    Except HeapError (BitVec 64 × DataHeap) :=
  if h.putPos &&& (alignment-1#64) = 0#64 then place h size h.putPos size else .error .verification

def getCurrentPutPosMinusOne (h : DataHeap) : BitVec 64 :=
  if h.putPos > 0#64 then h.putPos-1#64 else h.size-1#64

def setGetPos (h : DataHeap) (value : BitVec 64) : DataHeap := {h with getPos := value}

def resetAllocationStats (h : DataHeap) : DataHeap :=
  {h with getPos := getCurrentPutPosMinusOne h}

/-- `setGetPos skip` installs the oldest waiting snapshot but for `skip` older ones. -/
inductive HeapCall
  | alloc (alignment size : BitVec 64)
  | staticAlloc (alignment size : BitVec 64)
  | snapshot
  | setGetPos (skip : ℕ)
  | resetAllocationStats

structure Snapshot where
  value : BitVec 64
  taken : ℕ

structure HeapRun where
  heap : DataHeap
  returned : List Span
  installed : ℕ
  pending : List Snapshot

/-- The intervals returned since the snapshot that is installed as `m_get_pos`. -/
def HeapRun.live (s : HeapRun) : List Span := s.returned.drop s.installed

def HeapRun.give (s : HeapRun) (size : BitVec 64) (result : BitVec 64 × DataHeap) : HeapRun :=
  { s with heap := result.2
           returned := s.returned++[⟨result.1.toNat,result.1.toNat+size.toNat⟩] }

def step (s : HeapRun) : HeapCall → Option HeapRun
  | .alloc alignment size =>
    ((alloc s.heap alignment size).toOption).map (s.give (align size alignment))
  | .staticAlloc alignment size =>
    ((staticAlloc s.heap alignment size).toOption).map (s.give size)
  | .snapshot => some
    {s with pending := s.pending++[⟨getCurrentPutPosMinusOne s.heap,s.returned.length⟩]}
  | .setGetPos skip =>
    match s.pending.drop skip with
    | [] => none
    | snapshot::newer => some
      { s with heap := setGetPos s.heap snapshot.value, installed := snapshot.taken,
               pending := newer }
  | .resetAllocationStats => some
    {s with heap := resetAllocationStats s.heap, installed := s.returned.length, pending := []}

def run : HeapRun → List HeapCall → Option HeapRun
  | s, [] => some s
  | s, call::calls => (step s call).bind fun s => run s calls

def initial (heap : DataHeap) : HeapRun := ⟨heap,[],0,[]⟩

def PowerOfTwo (alignment : BitVec 64) : Prop := ∃ k < 64, alignment.toNat = 2^k

private theorem and_high_mask (x m k : ℕ) : x &&& (2^m-1)*2^k = x/2^k%2^m*2^k := by
  refine Nat.eq_of_testBit_eq fun i => ?_
  simp only [Nat.testBit_and,Nat.testBit_mul_two_pow,Nat.testBit_two_pow_sub_one,
    Nat.testBit_mod_two_pow,Nat.testBit_div_two_pow]
  by_cases hi : k ≤ i
  · simp [hi,Bool.and_comm]
  · simp [hi]

theorem toNat_align {value alignment : BitVec 64} {k : ℕ} (hk : k < 64)
    (ha : alignment.toNat = 2^k) :
    (align value alignment).toNat = (value.toNat+(2^k-1))%2^64/2^k*2^k := by
  have hpos : 0 < 2^k := Nat.two_pow_pos k
  have hsplit : 2^64 = 2^(64-k)*2^k := by rw [← Nat.pow_add,Nat.sub_add_cancel hk.le]
  have hmask : (0#64-alignment).toNat = (2^(64-k)-1)*2^k := by
    rw [Nat.sub_mul,← hsplit,Nat.one_mul,BitVec.toNat_sub,ha]
    simp only [BitVec.toNat_ofNat]
    omega
  have hsum : (value+(alignment-1#64)).toNat = (value.toNat+(2^k-1))%2^64 := by
    rw [BitVec.toNat_add,BitVec.toNat_sub,ha]
    simp only [BitVec.toNat_ofNat]
    omega
  rw [align,BitVec.toNat_and,hmask,hsum,and_high_mask,Nat.mod_eq_of_lt]
  rw [Nat.div_lt_iff_lt_mul hpos,← hsplit]
  exact Nat.mod_lt _ (by decide)

theorem le_align_or_eq_zero {value alignment : BitVec 64} (ha : PowerOfTwo alignment) :
    value.toNat ≤ (align value alignment).toNat ∨ (align value alignment).toNat=0 := by
  obtain ⟨k,hk,ha⟩ := ha
  rw [toNat_align hk ha]
  by_cases h : value.toNat+(2^k-1) < 2^64
  · rw [Nat.mod_eq_of_lt h]
    have := Nat.div_add_mod' (value.toNat+(2^k-1)) (2^k)
    omega
  · right
    rw [Nat.div_eq_of_lt (by omega),Nat.zero_mul]

/-- The end of the allocation does not overflow, and when the free space ends at the
get position, aligning the put position does not carry it there. -/
def PlaceSafe (h : DataHeap) (alignedPutPos allocSize : BitVec 64) : Prop :=
  alignedPutPos.toNat+allocSize.toNat < 2^64 ∧
    (h.putPos ≤ h.getPos → h.putPos ≤ alignedPutPos ∧ alignedPutPos < h.getPos)

def HeapCall.Safe (h : DataHeap) : HeapCall → Prop
  | .alloc alignment size => PlaceSafe h (align h.putPos alignment) (align size alignment)
  | .staticAlloc _ size => PlaceSafe h h.putPos size
  | _ => True

def HeapCall.WellFormed : HeapCall → Prop
  | .alloc alignment _ => PowerOfTwo alignment
  | .staticAlloc alignment size => PowerOfTwo alignment ∧ size &&& (alignment-1#64) = 0#64
  | _ => True

def SafeRun : HeapRun → List HeapCall → Prop
  | _, [] => True
  | s, call::calls =>
    call.WellFormed ∧ call.Safe s.heap ∧ ∀ s', step s call = some s' → SafeRun s' calls

/-- The position that `get_current_put_pos_minus_one` gives for put position `0`. -/
def top (h : DataHeap) : ℕ := (h.size-1#64).toNat

variable {h : DataHeap} {alignedPutPos allocSize requested heapSize : BitVec 64} {s s' : HeapRun}

theorem top_eq (hne : h.size≠0#64) : top h+1=h.size.toNat := by
  have : h.size.toNat≠0 := fun h₀ => hne (BitVec.eq_of_toNat_eq h₀)
  simp only [top,BitVec.toNat_sub,BitVec.toNat_ofNat]
  omega

def Snapshot.mark (snapshot : Snapshot) : Mark := ⟨snapshot.value.toNat,snapshot.taken⟩

def HeapRun.ring (s : HeapRun) : Ring where
  top := top s.heap
  put := s.heap.putPos.toNat
  spans := s.returned
  get := ⟨s.heap.getPos.toNat,s.installed⟩
  pending := s.pending.map Snapshot.mark

structure Invariant (heapSize : BitVec 64) (s : HeapRun) : Prop where
  ring : s.ring.Invariant
  size : s.heap.size=heapSize
  idle : s.heap.size = 0#64 → s.heap.putPos = 0#64

theorem can_of_place {result : BitVec 64 × DataHeap}
    (hplace : h.place requested alignedPutPos allocSize = .ok result) :
    (alignedPutPos+allocSize).toNat < h.size.toNat ∧
        ((alignedPutPos+allocSize).toNat < h.getPos.toNat ∨ h.getPos.toNat < alignedPutPos.toNat) ∨
      h.size.toNat ≤ (alignedPutPos+allocSize).toNat ∧ h.getPos.toNat ≤ alignedPutPos.toNat ∧
        allocSize.toNat ≤ h.getPos.toNat := by
  have hcan : h.canAllocImpl alignedPutPos allocSize := by
    by_contra hcan
    simp [place,grow,Bool.eq_false_iff.mpr hcan] at hplace
  simp only [canAllocImpl,BitVec.lt_def,gt_iff_lt] at hcan
  split_ifs at hcan <;> omega

theorem place_move {h' : DataHeap} {offset : BitVec 64}
    (hplace : h.place requested alignedPutPos allocSize = .ok (offset,h'))
    (hsafe : PlaceSafe h alignedPutPos allocSize)
    (halign : h.putPos.toNat ≤ alignedPutPos.toNat ∨ alignedPutPos.toNat=0)
    (hidle : h.size = 0#64 → h.putPos = 0#64) :
    h.size≠0#64 ∧ h' = {h with putPos := h'.putPos} ∧
      Move (top h) h.getPos.toNat h.putPos.toNat ⟨offset.toNat,offset.toNat+allocSize.toNat⟩
        h'.putPos.toNat := by
  obtain ⟨hend,hget⟩ := hsafe
  have hsum : (alignedPutPos+allocSize).toNat = alignedPutPos.toNat+allocSize.toNat := by
    rw [BitVec.toNat_add,Nat.mod_eq_of_lt hend]
  simp only [BitVec.le_def,BitVec.lt_def] at hget
  have hcan := can_of_place hplace
  rw [place] at hplace
  split_ifs at hplace with hfail hlt
  · obtain ⟨rfl,rfl⟩ := Prod.mk.inj (Except.ok.inj hplace)
    rw [BitVec.lt_def,hsum] at hlt
    have hne : h.size≠0#64 := by
      rintro h₀
      simp [h₀] at hlt
    refine ⟨hne,rfl,?_⟩
    have := top_eq hne
    rw [hsum]
    by_cases hw : h.putPos.toNat ≤ alignedPutPos.toNat
    · exact .advance hw (by omega) (by omega) (by omega)
    · rw [halign.resolve_left hw,Nat.zero_add]
      exact .wrap (by omega) (by omega)
  · obtain ⟨rfl,rfl⟩ := Prod.mk.inj (Except.ok.inj hplace)
    rw [BitVec.lt_def,hsum] at hlt
    have hput : h.getPos.toNat < h.putPos.toNat := by omega
    refine ⟨fun h₀ => ?_,rfl,?_⟩
    · simp [hidle h₀] at hput
    · have hmove : Move (top h) h.getPos.toNat h.putPos.toNat ⟨0,allocSize.toNat⟩ allocSize.toNat :=
        .wrap hput (by omega)
      simpa using hmove

private theorem ok_of_toOption {α ε : Type} {x : Except ε α} {a : α} :
    x.toOption = some a ↔ x = .ok a := by
  cases x <;> simp [Except.toOption]

theorem toNat_getCurrentPutPosMinusOne (h : DataHeap) :
    h.getCurrentPutPosMinusOne.toNat+1=h.putPos.toNat ∨
      h.putPos.toNat=0 ∧ h.getCurrentPutPosMinusOne.toNat = top h := by
  rw [getCurrentPutPosMinusOne]
  split_ifs with hput
  · rw [gt_iff_lt,BitVec.lt_def] at hput
    simp only [BitVec.toNat_sub,BitVec.toNat_ofNat] at hput ⊢
    omega
  · rw [gt_iff_lt,BitVec.lt_def] at hput
    exact .inr ⟨by simpa using hput,rfl⟩

theorem step_cases {call : HeapCall} (hwf : call.WellFormed) (hsafe : call.Safe s.heap)
    (hstep : step s call = some s') :
    (∃ requested alignedPutPos allocSize result,
      s.heap.place requested alignedPutPos allocSize = .ok result ∧
      PlaceSafe s.heap alignedPutPos allocSize ∧
      (s.heap.putPos.toNat ≤ alignedPutPos.toNat ∨ alignedPutPos.toNat=0) ∧
      s' = s.give allocSize result) ∨
    s'.returned=s.returned ∧ s'.heap.size=s.heap.size ∧ s'.heap.putPos=s.heap.putPos ∧
      Relation.ReflTransGen Ring.Step s.ring s'.ring := by
  cases call with
  | alloc alignment size =>
    left
    simp only [step,Option.map_eq_some_iff,ok_of_toOption] at hstep
    obtain ⟨result,hplace,rfl⟩ := hstep
    exact ⟨_,_,_,result,hplace,hsafe,le_align_or_eq_zero hwf,rfl⟩
  | staticAlloc alignment size =>
    left
    simp only [step,Option.map_eq_some_iff,ok_of_toOption] at hstep
    obtain ⟨result,hstatic,rfl⟩ := hstep
    rw [staticAlloc] at hstatic
    split_ifs at hstatic
    exact ⟨_,_,_,result,hstatic,hsafe,.inl le_rfl,rfl⟩
  | snapshot =>
    cases hstep
    refine .inr ⟨rfl,rfl,rfl,.single ?_⟩
    have hmark := Ring.Step.mark s.ring (toNat_getCurrentPutPosMinusOne s.heap)
    simpa [HeapRun.ring,Snapshot.mark] using hmark
  | setGetPos skip =>
    rw [step] at hstep
    cases hdrop : s.pending.drop skip with
    | nil => simp [hdrop] at hstep
    | cons snapshot newer =>
      simp only [hdrop,Option.some.injEq] at hstep
      subst hstep
      refine .inr ⟨rfl,rfl,rfl,.single ?_⟩
      have hpending : s.ring.pending = (s.pending.take skip).map Snapshot.mark ++
          snapshot.mark::newer.map Snapshot.mark := by
        rw [← List.map_cons,← List.map_append,← hdrop,List.take_append_drop]
        rfl
      exact Ring.Step.install s.ring hpending
  | resetAllocationStats =>
    cases hstep
    have hmark := Ring.Step.mark s.ring (toNat_getCurrentPutPosMinusOne s.heap)
    exact .inr ⟨rfl,rfl,rfl,.tail (.single hmark) (.install _ rfl)⟩

theorem give_spec (hs : Invariant heapSize s) {result : BitVec 64 × DataHeap}
    (hplace : s.heap.place requested alignedPutPos allocSize = .ok result)
    (hsafe : PlaceSafe s.heap alignedPutPos allocSize)
    (halign : s.heap.putPos.toNat ≤ alignedPutPos.toNat ∨ alignedPutPos.toNat=0) :
    Invariant heapSize (s.give allocSize result) ∧ result.1.toNat+allocSize.toNat ≤ heapSize.toNat ∧
      ∀ t∈s.live, Disjoint
        (Span.cells ⟨result.1.toNat,result.1.toNat+allocSize.toNat⟩) t.cells := by
  obtain ⟨offset,h'⟩ := result
  obtain ⟨hne,hheap,hmove⟩ := place_move hplace hsafe halign hs.idle
  have hstep : s.ring.Step (s.give allocSize (offset,h')).ring := by
    have := Ring.Step.take s.ring hmove
    rw [HeapRun.give,hheap]
    exact this
  obtain ⟨htop,hfresh⟩ := Move.fresh hs.ring hmove
  have hsize : h'.size=s.heap.size := by rw [hheap]
  refine ⟨⟨hstep.invariant hs.ring,hsize.trans hs.size,?_⟩,?_,hfresh⟩
  · exact fun h₀ => absurd (hsize.symm.trans h₀) hne
  · exact hs.size ▸ (htop.trans (Nat.le_succ _)).trans_eq (top_eq hne)

theorem step_invariant {call : HeapCall} (hs : Invariant heapSize s) (hwf : call.WellFormed)
    (hsafe : call.Safe s.heap) (hstep : step s call = some s') : Invariant heapSize s' := by
  rcases step_cases hwf hsafe hstep with
    ⟨_,_,_,_,hplace,hsafe,halign,rfl⟩ | ⟨-,hsize,hput,hring⟩
  · exact (give_spec hs hplace hsafe halign).1
  · exact ⟨Ring.steps_invariant hring hs.ring,hsize.trans hs.size,
      fun h₀ => hput.trans (hs.idle (hsize.symm.trans h₀))⟩

theorem initial_invariant (heapSize : BitVec 64) (bufferName : Option String)
    (minGuardSize : BitVec 64) :
    Invariant heapSize (initial (init heapSize bufferName minGuardSize)) := by
  refine ⟨⟨by simp [HeapRun.ring,initial,init],?_,?_,?_⟩,rfl,fun _ => rfl⟩
  all_goals simp [HeapRun.ring,initial,init,top]

theorem run_invariant {calls rest : List HeapCall} (hs : Invariant heapSize s)
    (hsafe : SafeRun s (calls++rest)) (hrun : run s calls = some s') :
    Invariant heapSize s' ∧ SafeRun s' rest := by
  induction calls generalizing s with
  | nil =>
    cases hrun
    exact ⟨hs,hsafe⟩
  | cons call calls ih =>
    obtain ⟨hwf,hcall,hnext⟩ := hsafe
    obtain ⟨s₁,hstep,hrun⟩ := Option.bind_eq_some_iff.mp hrun
    exact ih (step_invariant hs hwf hcall hstep) (hnext s₁ hstep) hrun

/-- In every run whose allocations are safe, a returned interval lies inside the heap and
misses every interval returned since the installed snapshot. -/
theorem returned_misses_live (heapSize : BitVec 64) (bufferName : Option String)
    (minGuardSize : BitVec 64) (calls : List HeapCall) (call : HeapCall)
    (hsafe : SafeRun (initial (init heapSize bufferName minGuardSize)) (calls++[call]))
    {s s' : HeapRun} (hrun : run (initial (init heapSize bufferName minGuardSize)) calls = some s)
    (hstep : step s call = some s') {span : Span} (hspan : s'.returned = s.returned++[span]) :
    span.cells ⊆ Set.Ico 0 heapSize.toNat ∧ ∀ t∈s.live, Disjoint span.cells t.cells := by
  obtain ⟨hs,hwf,hcall,-⟩ := run_invariant (initial_invariant _ _ _) hsafe hrun
  rcases step_cases hwf hcall hstep with
    ⟨_,_,_,_,hplace,hsafe,halign,rfl⟩ | ⟨hsame,-⟩
  · obtain ⟨-,hin,hfresh⟩ := give_spec hs hplace hsafe halign
    obtain rfl := List.singleton_injective (List.append_cancel_left hspan)
    exact ⟨fun a ha => ⟨Nat.zero_le a,ha.2.trans_le hin⟩,hfresh⟩
  · simp [hsame] at hspan

/-- A heap of 1024 bytes wraps into the space that an installed snapshot has freed. -/
theorem returned_misses_live_wrapped : let heap : DataHeap := init 1024 none 0x10000
    let calls : List HeapCall := [.alloc 64 256,.snapshot,.alloc 64 704,.setGetPos 0]
    ∃ s s', run (initial heap) calls = some s ∧ step s (.alloc 64 192) = some s' ∧
      s'.returned = s.returned++[⟨0,192⟩] ∧ Span.cells ⟨0,192⟩ ⊆ Set.Ico 0 (1024#64).toNat ∧
      ∀ t∈s.live, Disjoint (Span.cells ⟨0,192⟩) t.cells := by
  have hpow : PowerOfTwo 64 := ⟨6,by decide,rfl⟩
  refine ⟨_,_,rfl,rfl,rfl,returned_misses_live 1024 none 0x10000
    [.alloc 64 256,.snapshot,.alloc 64 704,.setGetPos 0] (.alloc 64 192) ?_ rfl rfl rfl⟩
  refine ⟨hpow,⟨by decide,by decide⟩,?_⟩
  rintro _ ⟨⟩
  refine ⟨trivial,trivial,?_⟩
  rintro _ ⟨⟩
  refine ⟨hpow,⟨by decide,by decide⟩,?_⟩
  rintro _ ⟨⟩
  refine ⟨trivial,trivial,?_⟩
  rintro _ ⟨⟩
  exact ⟨hpow,⟨by decide,by decide⟩,fun _ _ => trivial⟩

/-- Aligning the put position `192` to `256` carries it over the get position `255` into a
live interval; and an end that overflows is accepted although it lies outside the heap. -/
theorem returned_overlaps_live : let heap : DataHeap := init 1024 none 0x10000
    let calls : List HeapCall := [.alloc 64 256,.snapshot,.alloc 64 704,.setGetPos 0,.alloc 64 192]
    PowerOfTwo 64 ∧ PowerOfTwo 256 ∧
    (∃ s s', run (initial heap) calls = some s ∧ step s (.alloc 256 256) = some s' ∧
      s'.returned = s.returned++[⟨256,512⟩] ∧ ⟨256,960⟩∈s.live) ∧
    ∃ s s', run (initial heap) [.alloc 64 256] = some s ∧ step s (.alloc 64 (0-64)) = some s' ∧
      s'.returned = s.returned++[⟨256,256+(2^64-64)⟩] := by
  refine ⟨⟨6,by decide,rfl⟩,⟨8,by decide,rfl⟩,?_,⟨_,_,rfl,rfl,rfl⟩⟩
  exact ⟨_,_,rfl,rfl,rfl,List.mem_cons_self⟩

end DataHeap
end PS3Native
