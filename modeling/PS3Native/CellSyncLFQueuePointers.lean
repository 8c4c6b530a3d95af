import PS3Native.CellSyncLFQueue

/-!
# Push pointers are right up to depth `0x4000`

Up to that depth the counters stay below `0x8000` and the `s16` cast of `m_h8` is
the identity. From depth `0x4001` on a producer that the consumer follows closely
reaches `m_h8 = 0x8000`, and the next pointer is `-0x8000`.
-/
namespace PS3Native.CellSyncLFQueue
open RingSlots List

def nextH8 (depth : ℕ) (h8 : BitVec 16) : BitVec 16 :=
  BitVec.ofNat 16 (ringNext (2*depth) h8.toNat)

theorem toNat_nextH8 {depth : ℕ} {h8 : BitVec 16} (hd : depth ≤ 0x7fff)
    (h : h8.toNat < 2*depth) : (nextH8 depth h8).toNat = ringNext (2*depth) h8.toNat := by
  have := ringNext_lt h
  rw [nextH8,BitVec.toNat_ofNat,Nat.mod_eq_of_lt (by omega)]

variable {depth : BitVec 32} {push : Push1} {s s' : State}

theorem toInt_depth (hd : depth.toNat ≤ 0x7fff) : depth.toInt=depth.toNat :=
  BitVec.toInt_eq_toNat_of_lt (by omega)

theorem pushDecision_eq {q : LFQueue} {h1 : BitVec 16} (hd : q.depth.toNat ≤ 0x7fff)
    (h8 : push.h8.toNat < 2*q.depth.toNat) (hpos : push.h8.toNat < 0x8000)
    (hh1 : h1.toNat < 2*q.depth.toNat) :
    pushDecision q 0#32 0#32 push h1 =
      if distance (2*q.depth.toNat) h1.toNat push.h8.toNat < q.depth.toNat then
        .swap {push with h8 := nextH8 q.depth.toNat push.h8} none (some (push.h8.toNat : ℤ))
      else .fail .again := by
  have hint : push.h8.toInt=push.h8.toNat := BitVec.toInt_eq_toNat_of_lt (by omega)
  have hnext : (if (push.h8.toNat : ℤ)+1 ≥ (q.depth.toNat : ℤ)*2 then 0#16 else push.h8+1#16) =
      nextH8 q.depth.toNat push.h8 := by
    rw [nextH8,ringNext]
    split_ifs with h₁ h₂ h₂
    · omega
    · rfl
    · refine BitVec.eq_of_toNat_eq ?_
      simp only [BitVec.toNat_add,BitVec.toNat_ofNat]
    · omega
  have hdist : (if (push.h8.toNat : ℤ)-h1.toNat < 0 then
      (push.h8.toNat : ℤ)-h1.toNat+q.depth.toNat*2 else (push.h8.toNat : ℤ)-h1.toNat) =
      (distance (2*q.depth.toNat) h1.toNat push.h8.toNat : ℕ) := by
    rw [distance_eq hh1 h8]
    split_ifs <;> omega
  simp only [pushDecision,toInt_depth hd,hint,hnext,hdist,ne_eq,not_true_eq_false,
    false_and,if_false,Int.ofNat_lt,if_true]

/-- Where the producer is inside a call, and what it has decided. -/
def PcOk (s : State) : Prop :=
  match s.pc with
  | .idle | .loadPush => True
  | .loadPop old => old=s.queue.push1
  | .swap old push res pointer => old=s.queue.push1 ∧
      s.queue.distance < s.queue.depth.toNat ∧
      push = {old with h8 := nextH8 s.queue.depth.toNat old.h8} ∧ res=none ∧
      pointer = some (old.h8.toNat : ℤ)
  | .receive => False

structure Invariant (depth : BitVec 32) (s : State) : Prop where
  depth_eq : s.queue.depth=depth
  h1_lt : s.queue.pop1.h1.toNat < 2*depth.toNat
  h8_lt : s.queue.push1.h8.toNat < 2*depth.toNat
  h7 : s.queue.push1.h7 = 0#16
  capacity : s.queue.distance ≤ depth.toNat
  range : ∀ p∈s.pointers, 0 ≤ p ∧ p < 2*(depth.toNat : ℤ)
  chain : s.pointers.IsChain fun p q => q = (p+1)%(2*(depth.toNat : ℤ))
  last : ∀ p∈s.pointers.getLast?, (s.queue.push1.h8.toNat : ℤ) = (p+1)%(2*(depth.toNat : ℤ))
  pc : PcOk s

theorem consume_invariant (hd : depth.toNat ≤ 0x7fff) (h : Invariant depth s) {k : ℕ}
    (hstep : step s (.consume k) = some s') : Invariant depth s' := by
  rw [step] at hstep
  split_ifs at hstep with hk
  cases hstep
  obtain ⟨rfl,h1,h8,h7,hcap,hrange,hchain,hlast,hpc⟩ := h
  have hmod : (s.queue.pop1.h1.toNat+k)%(2*s.queue.depth.toNat) < 2*s.queue.depth.toNat :=
    Nat.mod_lt _ (by omega)
  have hnat : (BitVec.ofNat 16 ((s.queue.pop1.h1.toNat+k)%(2*s.queue.depth.toNat))).toNat =
      (s.queue.pop1.h1.toNat+k)%(2*s.queue.depth.toNat) := by
    rw [BitVec.toNat_ofNat,Nat.mod_eq_of_lt (by omega)]
  have hdist : distance (2*s.queue.depth.toNat)
      ((s.queue.pop1.h1.toNat+k)%(2*s.queue.depth.toNat)) s.queue.push1.h8.toNat =
      s.queue.distance-k := distance_advance h1 h8 hk
  refine ⟨rfl,by rwa [hnat],h8,h7,?_,hrange,hchain,hlast,?_⟩
  · rw [LFQueue.distance,hnat,hdist]
    omega
  · rw [PcOk] at hpc ⊢
    cases hp : s.pc with rw [hp] at hpc
    | idle => trivial
    | loadPush => trivial
    | loadPop old =>
      exact hpc
    | swap old push res pointer =>
      obtain ⟨hold,hlt,hrest⟩ := hpc
      refine ⟨hold,?_,hrest⟩
      rw [LFQueue.distance,hnat,hdist]
      dsimp only
      omega
    | receive =>
      exact hpc

theorem call_invariant (h : Invariant depth s) (hstep : step s .call = some s') :
    Invariant depth s' := by
  rw [step] at hstep
  split at hstep
  · cases hstep
    refine {h with pc := ?_}
    split_ifs <;> trivial
  · cases hstep

theorem initial_invariant (hpos : 1 ≤ depth.toNat) : Invariant depth (initial depth) where
  depth_eq := rfl
  h1_lt := by
    change 0 < 2*depth.toNat
    omega
  h8_lt := by
    change 0 < 2*depth.toNat
    omega
  h7 := rfl
  capacity := by
    change distance (2*depth.toNat) 0 0 ≤ depth.toNat
    simp [distance]
  range := by simp [initial]
  chain := List.IsChain.nil
  last := by simp [initial]
  pc := trivial

section

variable (hd : depth.toNat ≤ 0x4000) (h : Invariant depth s)

include hd h

theorem loadPop_invariant {old : Push1} (hp : s.pc = .loadPop old)
    (hstep : step s .produce = some s') : Invariant depth s' := by
  have hpc := h.pc
  rw [PcOk,hp] at hpc
  obtain rfl := h.depth_eq
  subst hpc
  have h8 := h.h8_lt
  simp only [step,produce,hp,pushDecision_eq (by omega) h.h8_lt (by omega) h.h1_lt] at hstep
  split_ifs at hstep with hlt
  · cases hstep
    exact {h with pc := ⟨rfl,hlt,rfl,rfl,rfl⟩}
  · cases hstep
    exact {h with pc := trivial}

theorem swap_invariant {old : Push1} {res : Option CellSyncError} {pointer : Option ℤ}
    (hp : s.pc = .swap old push res pointer) (hstep : step s .produce = some s') :
    Invariant depth s' := by
  have hpc := h.pc
  rw [PcOk,hp] at hpc
  obtain ⟨rfl,hlt,rfl,rfl,rfl⟩ := hpc
  obtain rfl := h.depth_eq
  have h8 := h.h8_lt
  have hnext := toNat_nextH8 (by omega) h.h8_lt
  simp only [step,produce,hp,if_true,h.h7,true_or] at hstep
  cases hstep
  refine ⟨rfl,h.h1_lt,?_,rfl,?_,?_,?_,?_,trivial⟩
  · rw [hnext]
    exact ringNext_lt h.h8_lt
  · rw [LFQueue.distance,hnext]
    exact (distance_ringNext h.h1_lt h.h8_lt (by rw [LFQueue.distance] at hlt; omega)).trans_le hlt
  · intro p hmem
    rcases mem_append.mp hmem with hmem | hmem
    · exact h.range p hmem
    · rw [mem_singleton.mp hmem]
      omega
  · refine isChain_append.mpr ⟨h.chain,isChain_singleton _,?_⟩
    intro p hlast q hq
    obtain rfl := Option.mem_some_iff.mp (by simpa using hq)
    exact h.last p hlast
  · intro p hlast
    simp only [Option.toList_some,getLast?_append,getLast?_singleton,Option.some_or,
      Option.mem_def,Option.some.injEq] at hlast
    subst hlast
    rw [hnext,ringNext]
    split_ifs with hwrap
    · rw [Int.emod_eq_of_lt (by omega) (by omega)]
      rfl
    · have hfull : (s.queue.push1.h8.toNat : ℤ)+1 = 2*(s.queue.depth.toNat : ℤ) := by omega
      rw [hfull,Int.emod_self]
      rfl

theorem step_invariant {input : Input} (hstep : step s input = some s') : Invariant depth s' := by
  cases input with
  | call => exact call_invariant h hstep
  | consume k => exact consume_invariant (by omega) h hstep
  | produce =>
    cases hp : s.pc with
    | idle => simp [step,produce,hp] at hstep
    | loadPush =>
      simp only [step,produce,hp] at hstep
      cases hstep
      exact {h with pc := rfl}
    | loadPop old => exact loadPop_invariant hd h hp hstep
    | swap old push res pointer => exact swap_invariant hd h hp hstep
    | receive => simp [step,produce,hp] at hstep

theorem run_invariant {inputs : List Input} (hrun : run s inputs = some s') :
    Invariant depth s' := by
  induction inputs generalizing s with
  | nil =>
    cases hrun
    exact h
  | cons input inputs ih =>
    obtain ⟨s₁,hstep,hrun⟩ := Option.bind_eq_some_iff.mp hrun
    exact ih (step_invariant hd h hstep) hrun

end

theorem Invariant.pointersOk (hd : depth.toNat ≤ 0x7fff) (h : Invariant depth s) :
    PointersOk s := by
  obtain ⟨rfl,-,-,-,hcap,hrange,hchain,-,-⟩ := h
  refine ⟨hrange,hchain,hcap,fun p hp => ?_⟩
  have := hrange p hp
  rw [toInt_depth hd,bufferSlot]
  split_ifs <;> omega

theorem run_append {s₁ s₂ : State} {xs ys : List Input} (hx : run s xs = some s₁)
    (hy : run s₁ ys = some s₂) : run s (xs++ys) = some s₂ := by
  induction xs generalizing s with
  | nil =>
    cases hx
    exact hy
  | cons x xs ih =>
    obtain ⟨s',hstep,hx⟩ := Option.bind_eq_some_iff.mp hx
    rw [cons_append,run,hstep,Option.bind_some,ih hx]

theorem run_take {pointer : ℤ} (hpc : s.pc=.idle) (hdir : s.queue.direction=.ppu2spu)
    (hdecision : pushDecision s.queue 0#32 0#32 s.queue.push1 s.queue.pop1.h1 =
      .swap push none (some pointer)) (h7 : push.h7 = 0#16) :
    run s [.call,.produce,.produce,.produce] = some
      ⟨{s.queue with push1 := push},.idle,s.pointers++[pointer]⟩ := by
  simp [run,step,produce,hpc,hdir,hdecision,h7]

def level (depth : BitVec 32) (n : ℕ) (pointers : List ℤ) : State where
  queue := { (initial depth).queue with
    pop1 := ⟨BitVec.ofNat 16 n,0#16,0#16,0#16⟩
    push1 := ⟨0#16,0#16,0#16,BitVec.ofNat 16 n⟩ }
  pc := .idle
  pointers := pointers

theorem level_succ (hd : depth.toNat ≤ 0x7fff) {n : ℕ} (hn : n < 0x8000)
    (hlt : n+1 < 2*depth.toNat) (pointers : List ℤ) :
    ∃ inputs pointers', run (level depth n pointers) inputs =
      some (level depth (n+1) pointers') := by
  have hpos : 0 < depth.toNat := by omega
  have hnat : (BitVec.ofNat 16 n).toNat=n := by
    rw [BitVec.toNat_ofNat,Nat.mod_eq_of_lt (by omega)]
  have hnat' : (BitVec.ofNat 16 (n+1)).toNat = n+1 := by
    rw [BitVec.toNat_ofNat,Nat.mod_eq_of_lt (by omega)]
  have hnext : nextH8 depth.toNat (BitVec.ofNat 16 n) = BitVec.ofNat 16 (n+1) := by
    rw [nextH8,hnat,ringNext,if_pos (by omega)]
  have hdecision : pushDecision (level depth n pointers).queue 0#32 0#32
      ⟨0#16,0#16,0#16,BitVec.ofNat 16 n⟩ (BitVec.ofNat 16 n) =
      .swap ⟨0#16,0#16,0#16,BitVec.ofNat 16 (n+1)⟩ none (some (n : ℤ)) := by
    rw [pushDecision_eq hd (by rw [hnat]; exact Nat.lt_of_succ_lt hlt) (by rwa [hnat])
      (by rw [hnat]; exact Nat.lt_of_succ_lt hlt),hnat]
    have hzero : distance (2*depth.toNat) n n=0 := by simp [distance]
    rw [← hnext]
    exact if_pos (hzero.trans_lt hpos)
  refine ⟨[.call,.produce,.produce,.produce]++[.consume 1],pointers++[(n : ℤ)],
    run_append (run_take rfl rfl hdecision rfl) ?_⟩
  have hdist : 1 ≤ LFQueue.distance { (level depth n pointers).queue with
      push1 := ⟨0#16,0#16,0#16,BitVec.ofNat 16 (n+1)⟩ } := by
    change 1 ≤ distance (2*depth.toNat) (BitVec.ofNat 16 n).toNat (BitVec.ofNat 16 (n+1)).toNat
    rw [hnat,hnat',distance_eq (by omega) hlt]
    split_ifs <;> omega
  simp only [run,step,if_pos hdist,Option.bind_some,Option.some.injEq]
  simp only [level,hnat,State.mk.injEq,LFQueue.mk.injEq,Pop1.mk.injEq,and_true]
  rw [show (initial depth).queue.depth = depth from rfl,Nat.mod_eq_of_lt hlt]

theorem level_reached (hd : depth.toNat ≤ 0x7fff) (hbig : 0x4000 < depth.toNat) (n : ℕ)
    (hn : n ≤ 0x8000) :
    ∃ inputs pointers, run (initial depth) inputs = some (level depth n pointers) := by
  induction n with
  | zero => exact ⟨[],[],rfl⟩
  | succ n ih =>
    obtain ⟨xs,pointers,hx⟩ := ih (by omega)
    have hlt : n+1 < 2*depth.toNat := by omega
    obtain ⟨ys,pointers',hy⟩ := level_succ hd (by omega) hlt pointers
    exact ⟨xs++ys,pointers',run_append hx hy⟩

theorem negative_pointer (hd : depth.toNat ≤ 0x7fff) (hbig : 0x4000 < depth.toNat) :
    ∃ inputs s, run (initial depth) inputs = some s ∧ -0x8000∈s.pointers := by
  obtain ⟨xs,pointers,hx⟩ := level_reached hd hbig 0x8000 le_rfl
  have hdepth : (level depth 0x8000 pointers).queue.depth.toInt=depth.toNat := toInt_depth hd
  have hdecision : ∃ h8, pushDecision (level depth 0x8000 pointers).queue 0#32 0#32
      ⟨0#16,0#16,0#16,0x8000#16⟩ 0x8000#16 =
      .swap ⟨0#16,0#16,0#16,h8⟩ none (some (-0x8000)) := by
    have hint : (0x8000#16).toInt = -0x8000 := by decide
    have hnat : ((0x8000#16).toNat : ℤ)=0x8000 := by decide
    simp only [pushDecision,hdepth,hint,hnat]
    rw [if_neg (by simp),if_neg (by simp),if_pos (by split_ifs <;> omega)]
    exact ⟨_,rfl⟩
  obtain ⟨h8,hdecision⟩ := hdecision
  exact ⟨_,_,run_append hx (run_take rfl rfl hdecision rfl),by simp⟩

/-- For the depths that `cellSyncLFQueueInitialize` accepts, every run keeps its pointers in
order and its count within the capacity exactly up to depth `0x4000`. -/
theorem push_pointers_ok_iff (depth : BitVec 32) (hpos : 1 ≤ depth.toNat)
    (hmax : depth.toNat ≤ 0x7fff) :
    (∀ inputs s, run (initial depth) inputs = some s → PointersOk s) ↔ depth.toNat ≤ 0x4000 := by
  constructor
  · intro h
    by_contra hbig
    obtain ⟨inputs,s,hrun,hmem⟩ := negative_pointer hmax (by omega)
    have := (h inputs s hrun).range _ hmem
    omega
  · intro hd inputs s hrun
    exact (run_invariant hd (initial_invariant hpos) hrun).pointersOk hmax

theorem push_pointers_ok_depth_four : (4#32).toNat ≤ 0x4000 ∧
      ∀ inputs s, run (initial 4) inputs = some s → PointersOk s :=
  ⟨by decide,(push_pointers_ok_iff 4 (by decide) (by decide)).mpr (by decide)⟩

/-- A queue of the greatest depth hands out the pointer `-0x8000`. -/
theorem push_pointer_negative_depth_max :
    ∃ inputs s, run (initial 0x7fff) inputs = some s ∧ -0x8000∈s.pointers ∧ ¬PointersOk s := by
  have hmax : (0x7fff#32).toNat ≤ 0x7fff := by decide
  obtain ⟨inputs,s,hrun,hmem⟩ := negative_pointer hmax (by decide)
  refine ⟨inputs,s,hrun,hmem,fun h => ?_⟩
  have := h.range _ hmem
  omega

end PS3Native.CellSyncLFQueue
