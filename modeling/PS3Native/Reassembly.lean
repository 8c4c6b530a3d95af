import Mathlib.Data.List.Basic

/-!
# A stream put together from pieces

A stream is sent as pieces with consecutive positions, which arrive in any order. The receiver
keeps what has arrived and is not yet taken in a map from positions, in the order of the
positions.
-/
namespace PS3Native.Reassembly
open List

universe u

variable {α : Type u}

structure Piece (α : Type u) where
  data : List α
  arrived : Bool

def stream (pieces : List (Piece α)) : List α := pieces.flatMap Piece.data

/-- Where the first piece begins that has not arrived. -/
def contiguousEnd (start : ℕ) : List (Piece α) → ℕ
  | [] => start
  | p::pieces => if p.arrived then contiguousEnd (start+p.data.length) pieces else start

/-- What has arrived and lies at or behind the position `beg`. -/
def pending (start beg : ℕ) : List (Piece α) → List (ℕ × List α)
  | [] => []
  | p::pieces =>
    if p.arrived ∧ beg < start+p.data.length then
      (max start beg,p.data.drop (beg-start))::pending (start+p.data.length) beg pieces
    else pending (start+p.data.length) beg pieces

def arrive (start seq : ℕ) : List (Piece α) → List (Piece α)
  | [] => []
  | p::pieces =>
    if start=seq then {p with arrived := true}::pieces
    else p::arrive (start+p.data.length) seq pieces

def HasPiece (start seq : ℕ) (p : Piece α) (pieces : List (Piece α)) : Prop :=
  ∃ before after, pieces = before++p::after ∧ seq = start+(stream before).length

def emplace (map : List (ℕ × List α)) (key : ℕ) (value : List α) : List (ℕ × List α) :=
  match map with
  | [] => [(key,value)]
  | entry::rest =>
    if key < entry.1 then (key,value)::entry::rest
    else if key=entry.1 then entry::rest
    else entry::emplace rest key value

/-- Follows the entries of the map from a position on as long as there is no gap. -/
def follow (map : List (ℕ × List α)) : ℕ → ℕ → ℕ
  | 0, pos => pos
  | fuel+1, pos =>
    match map.lookup pos with
    | none => pos
    | some value => follow map fuel (pos+value.length)

variable {start beg seq : ℕ} {p : Piece α} {pieces : List (Piece α)}

@[simp] theorem stream_cons (p : Piece α) (pieces : List (Piece α)) :
    stream (p::pieces) = p.data++stream pieces := rfl

@[simp] theorem stream_append (pieces pieces' : List (Piece α)) :
    stream (pieces++pieces') = stream pieces++stream pieces' := flatMap_append

theorem le_contiguousEnd (start : ℕ) (pieces : List (Piece α)) :
    start ≤ contiguousEnd start pieces := by
  induction pieces generalizing start with
  | nil => exact Nat.le_refl start
  | cons p pieces ih =>
    rw [contiguousEnd]
    split
    · exact Nat.le_trans (Nat.le_add_right ..) (ih _)
    · exact Nat.le_refl start

theorem contiguousEnd_le (start : ℕ) (pieces : List (Piece α)) :
    contiguousEnd start pieces ≤ start+(stream pieces).length := by
  induction pieces generalizing start with
  | nil => exact Nat.le_refl start
  | cons p pieces ih =>
    rw [contiguousEnd,stream_cons,length_append]
    split
    · have h := ih (start+p.data.length)
      omega
    · omega

theorem contiguousEnd_of_arrived (h : ∀ p∈pieces, p.arrived) :
    contiguousEnd start pieces = start+(stream pieces).length := by
  induction pieces generalizing start with
  | nil => rfl
  | cons p pieces ih =>
    rw [contiguousEnd,if_pos (h p mem_cons_self),ih fun q hq => h q (mem_cons_of_mem _ hq),
      stream_cons,length_append,Nat.add_assoc]

theorem HasPiece.cons_iff {q : Piece α} : HasPiece start seq p (q::pieces) ↔
      start=seq ∧ q=p ∨ HasPiece (start+q.data.length) seq p pieces := by
  constructor
  · rintro ⟨before,after,heq,hseq⟩
    cases before with
    | nil =>
      cases heq
      exact .inl ⟨hseq.symm,rfl⟩
    | cons q' before =>
      cases heq
      refine .inr ⟨before,after,rfl,?_⟩
      rw [hseq,stream_cons,length_append,Nat.add_assoc]
  · rintro (⟨rfl,rfl⟩ | ⟨before,after,rfl,rfl⟩)
    · exact ⟨[],pieces,rfl,rfl⟩
    · refine ⟨q::before,after,rfl,?_⟩
      rw [stream_cons,length_append,Nat.add_assoc]

theorem HasPiece.not_nil : ¬HasPiece start seq p [] := by
  rintro ⟨before,after,heq,-⟩
  simp at heq

theorem HasPiece.concat_iff {q : Piece α} : HasPiece start seq p (pieces++[q]) ↔
      HasPiece start seq p pieces ∨ q=p ∧ seq = start+(stream pieces).length := by
  induction pieces generalizing start with
  | nil =>
    rw [nil_append,HasPiece.cons_iff]
    simp only [HasPiece.not_nil,or_false,false_or]
    exact ⟨fun h => ⟨h.2,h.1.symm⟩,fun h => ⟨h.2.symm,h.1⟩⟩
  | cons q' pieces ih =>
    rw [cons_append,HasPiece.cons_iff,ih,HasPiece.cons_iff,stream_cons,length_append,
      Nat.add_assoc,or_assoc]

section

variable (h : HasPiece start seq p pieces)

include h

theorem HasPiece.le : start ≤ seq := by
  obtain ⟨before,after,-,rfl⟩ := h
  exact Nat.le_add_right ..

theorem HasPiece.mem : p∈pieces := by
  obtain ⟨before,after,rfl,-⟩ := h
  simp

theorem HasPiece.append (more : List (Piece α)) : HasPiece start seq p (pieces++more) := by
  obtain ⟨before,after,rfl,rfl⟩ := h
  exact ⟨before,after++more,by simp,rfl⟩

theorem HasPiece.arrived (hlt : seq < contiguousEnd start pieces) : p.arrived := by
  induction pieces generalizing start with
  | nil => exact absurd h HasPiece.not_nil
  | cons q pieces ih =>
    rw [contiguousEnd] at hlt
    rcases HasPiece.cons_iff.1 h with ⟨rfl,rfl⟩ | h
    · by_contra hnot
      rw [if_neg hnot] at hlt
      omega
    · split at hlt
      · exact ih h hlt
      · have hle := h.le
        omega

end

@[simp] theorem stream_arrive (start seq : ℕ) (pieces : List (Piece α)) :
    stream (arrive start seq pieces) = stream pieces := by
  induction pieces generalizing start with
  | nil => rfl
  | cons p pieces ih =>
    rw [arrive]
    split
    · rfl
    · rw [stream_cons,ih,stream_cons]

/-- What has arrived before is still there. -/
theorem contiguousEnd_le_arrive (start seq : ℕ) (pieces : List (Piece α)) :
    contiguousEnd start pieces ≤ contiguousEnd start (arrive start seq pieces) := by
  induction pieces generalizing start with
  | nil => exact Nat.le_refl _
  | cons p pieces ih =>
    rw [arrive]
    split
    · rw [contiguousEnd,contiguousEnd,if_pos rfl]
      split
      · exact Nat.le_refl _
      · exact Nat.le_trans (Nat.le_add_right ..) (le_contiguousEnd _ pieces)
    · rw [contiguousEnd,contiguousEnd]
      split
      · exact ih _
      · exact Nat.le_refl _

theorem exists_of_mem_arrive (h : p∈arrive start seq pieces) : ∃ q∈pieces, q.data=p.data := by
  induction pieces generalizing start with
  | nil => simp [arrive] at h
  | cons q pieces ih =>
    rw [arrive] at h
    split at h
    · rcases mem_cons.1 h with rfl | h
      · exact ⟨q,mem_cons_self,rfl⟩
      · exact ⟨p,mem_cons_of_mem _ h,rfl⟩
    · rcases mem_cons.1 h with rfl | h
      · exact ⟨p,mem_cons_self,rfl⟩
      · obtain ⟨r,hr,hdata⟩ := ih h
        exact ⟨r,mem_cons_of_mem _ hr,hdata⟩

theorem HasPiece.of_arrive {seq' : ℕ} (h : HasPiece start seq' p (arrive start seq pieces)) :
    ∃ q, HasPiece start seq' q pieces ∧ q.data=p.data ∧ (q.arrived → p.arrived) := by
  induction pieces generalizing start with
  | nil => exact absurd h HasPiece.not_nil
  | cons q pieces ih =>
    rw [arrive] at h
    split at h
    · rcases HasPiece.cons_iff.1 h with ⟨rfl,rfl⟩ | h'
      · exact ⟨q,HasPiece.cons_iff.2 (.inl ⟨rfl,rfl⟩),rfl,fun _ => rfl⟩
      · exact ⟨p,HasPiece.cons_iff.2 (.inr h'),rfl,id⟩
    · rcases HasPiece.cons_iff.1 h with ⟨rfl,rfl⟩ | h'
      · exact ⟨q,HasPiece.cons_iff.2 (.inl ⟨rfl,rfl⟩),rfl,id⟩
      · obtain ⟨r,hr,hdata,harrived⟩ := ih h'
        exact ⟨r,HasPiece.cons_iff.2 (.inr hr),hdata,harrived⟩

theorem HasPiece.arrive {seq' : ℕ} (h : HasPiece start seq' p pieces) (seq : ℕ) :
    ∃ q, HasPiece start seq' q (Reassembly.arrive start seq pieces) ∧ q.data=p.data := by
  induction pieces generalizing start with
  | nil => exact absurd h HasPiece.not_nil
  | cons q pieces ih =>
    rw [Reassembly.arrive]
    rcases HasPiece.cons_iff.1 h with ⟨rfl,rfl⟩ | h'
    · split
      · exact ⟨_,HasPiece.cons_iff.2 (.inl ⟨rfl,rfl⟩),rfl⟩
      · exact ⟨q,HasPiece.cons_iff.2 (.inl ⟨rfl,rfl⟩),rfl⟩
    · split
      · exact ⟨p,HasPiece.cons_iff.2 (.inr h'),rfl⟩
      · obtain ⟨r,hr,hdata⟩ := ih h'
        exact ⟨r,HasPiece.cons_iff.2 (.inr hr),hdata⟩

theorem le_key_of_mem_pending {entry : ℕ × List α} (h : entry∈pending start beg pieces) :
    start ≤ entry.1 ∧ beg ≤ entry.1 := by
  induction pieces generalizing start with
  | nil => simp [pending] at h
  | cons p pieces ih =>
    rw [pending] at h
    split at h
    · rcases mem_cons.1 h with rfl | h
      · exact ⟨Nat.le_max_left ..,Nat.le_max_right ..⟩
      · have hle := ih h
        omega
    · have hle := ih h
      omega

theorem pending_concat (start beg : ℕ) (pieces : List (Piece α)) (data : List α) :
    pending start beg (pieces++[⟨data,false⟩]) = pending start beg pieces := by
  induction pieces generalizing start with
  | nil => simp [pending]
  | cons p pieces ih => rw [cons_append,pending,pending,ih]

theorem contiguousEnd_concat (start : ℕ) (pieces : List (Piece α)) (data : List α) :
    contiguousEnd start (pieces++[⟨data,false⟩]) = contiguousEnd start pieces := by
  induction pieces generalizing start with
  | nil => simp [contiguousEnd]
  | cons p pieces ih => rw [cons_append,contiguousEnd,contiguousEnd,ih]

/-- The part of a piece that has arrived and is not taken is in the map. -/
theorem HasPiece.mem_pending (h : HasPiece start seq p pieces) (harrived : p.arrived)
    (hlt : beg < seq+p.data.length) :
    (max seq beg,p.data.drop (beg-seq))∈pending start beg pieces := by
  induction pieces generalizing start with
  | nil => exact absurd h HasPiece.not_nil
  | cons q pieces ih =>
    rw [pending]
    rcases HasPiece.cons_iff.1 h with ⟨rfl,rfl⟩ | h'
    · rw [if_pos ⟨harrived,hlt⟩]
      exact mem_cons_self
    · split
      · exact mem_cons_of_mem _ (ih h')
      · exact ih h'

theorem pending_of_not_arrived (h : ∀ q∈pieces, q.arrived=false) :
    pending start beg pieces=[] := by
  induction pieces generalizing start with
  | nil => rfl
  | cons q pieces ih =>
    have hq := h q mem_cons_self
    rw [pending,if_neg fun hc => by rw [hq] at hc; exact absurd hc.1 Bool.false_ne_true,
      ih fun r hr => h r (mem_cons_of_mem _ hr)]

theorem contiguousEnd_of_not_arrived (h : ∀ q∈pieces, q.arrived=false) :
    contiguousEnd start pieces=start := by
  cases pieces with
  | nil => rfl
  | cons q pieces =>
    rw [contiguousEnd,h q mem_cons_self]
    rfl

theorem emplace_of_lt {map : List (ℕ × List α)} {key : ℕ} (value : List α)
    (h : ∀ entry∈map, key < entry.1) : emplace map key value = (key,value)::map := by
  cases map with
  | nil => rfl
  | cons entry rest => rw [emplace,if_pos (h entry mem_cons_self)]

theorem lookup_eq_none {map : List (ℕ × List α)} {key : ℕ} (h : ∀ entry∈map, entry.1≠key) :
    map.lookup key=none :=
  lookup_eq_none_iff.mpr fun entry hentry => bne_iff_ne.mpr (h entry hentry).symm

theorem pos_of_nonempty {q : Piece α} (hne : ∀ r∈q::pieces, r.data≠[]) :
    0 < q.data.length ∧ ∀ r∈pieces, r.data≠[] := by
  obtain ⟨hq,hrest⟩ := forall_mem_cons.mp hne
  exact ⟨length_pos_iff.2 hq,hrest⟩

section

variable (hne : ∀ q∈pieces, q.data≠[])

include hne

theorem arrive_of_arrived (h : HasPiece start seq p pieces) (harrived : p.arrived) :
    arrive start seq pieces=pieces := by
  induction pieces generalizing start with
  | nil => rfl
  | cons q pieces ih =>
    obtain ⟨hq,hrest⟩ := pos_of_nonempty hne
    rcases HasPiece.cons_iff.1 h with ⟨rfl,rfl⟩ | h'
    · rw [arrive,if_pos rfl,← harrived]
    · have hle := h'.le
      rw [arrive,if_neg (by omega),ih hrest h']

/-- The map has a piece that is not yet taken exactly if it has arrived. -/
theorem lookup_pending (h : HasPiece start seq p pieces) (hbeg : beg ≤ seq) :
    (pending start beg pieces).lookup seq = if p.arrived then some p.data else none := by
  induction pieces generalizing start with
  | nil => exact absurd h HasPiece.not_nil
  | cons q pieces ih =>
    obtain ⟨hq,hrest⟩ := pos_of_nonempty hne
    rw [pending]
    rcases HasPiece.cons_iff.1 h with ⟨rfl,rfl⟩ | h'
    · rw [Nat.max_eq_left hbeg,Nat.sub_eq_zero_of_le hbeg,drop_zero]
      by_cases harrived : q.arrived
      · rw [if_pos ⟨harrived,by omega⟩,if_pos harrived,lookup_cons_self]
      · rw [if_neg fun hq => harrived hq.1,if_neg harrived]
        refine lookup_eq_none fun entry hentry => ?_
        have hle := le_key_of_mem_pending hentry
        omega
    · have hle := h'.le
      have hlookup := ih hrest h'
      split
      · have hkey : seq≠max start beg := by omega
        rw [lookup_cons,beq_false_of_ne hkey]
        exact hlookup
      · exact hlookup

theorem emplace_pending (h : HasPiece start seq p pieces) (hbeg : beg ≤ seq) :
    emplace (pending start beg pieces) seq p.data = pending start beg (arrive start seq pieces) := by
  induction pieces generalizing start with
  | nil => exact absurd h HasPiece.not_nil
  | cons q pieces ih =>
    obtain ⟨hq,hrest⟩ := pos_of_nonempty hne
    rcases HasPiece.cons_iff.1 h with ⟨rfl,rfl⟩ | h'
    · have hright : pending start beg ({q with arrived := true}::pieces) =
          (start,q.data)::pending (start+q.data.length) beg pieces := by
        rw [pending,if_pos ⟨rfl,show beg < start+q.data.length by omega⟩,Nat.max_eq_left hbeg,
          Nat.sub_eq_zero_of_le hbeg,drop_zero]
      rw [arrive,if_pos rfl,hright,pending,Nat.max_eq_left hbeg,Nat.sub_eq_zero_of_le hbeg,
        drop_zero]
      split
      · rw [emplace,if_neg (Nat.lt_irrefl _),if_pos rfl]
      · exact emplace_of_lt _ fun entry hentry => by
          have hle := le_key_of_mem_pending hentry
          omega
    · have hle := h'.le
      rw [arrive,if_neg (by omega),pending,pending,← ih hrest h']
      split
      · rw [emplace,if_neg (by omega),if_neg (by omega)]
      · rfl

/-- From the first position that is not taken the map can be followed to the end of the
contiguous part. -/
theorem follow_append_pending (before : List (ℕ × List α)) {fuel : ℕ}
    (hbefore : ∀ entry∈before, entry.1 < max start beg) (hbeg : beg ≤ contiguousEnd start pieces)
    (hfuel : (pending start beg pieces).length < fuel) :
    follow (before++pending start beg pieces) fuel (max start beg) =
      contiguousEnd start pieces := by
  induction pieces generalizing start before fuel with
  | nil =>
    obtain ⟨fuel,rfl⟩ : ∃ k, fuel = k+1 := ⟨fuel-1,by omega⟩
    have hnone : (before++pending start beg ([] : List (Piece α))).lookup (max start beg)=none :=
      lookup_eq_none fun entry hentry => by
        rw [pending,append_nil] at hentry
        have hlt := hbefore entry hentry
        omega
    rw [follow,hnone]
    exact Nat.max_eq_left hbeg
  | cons q pieces ih =>
    obtain ⟨hq,hrest⟩ := pos_of_nonempty hne
    rw [contiguousEnd] at hbeg ⊢
    rw [pending] at hfuel ⊢
    by_cases harrived : q.arrived
    · rw [if_pos harrived] at hbeg ⊢
      by_cases htaken : beg < start+q.data.length
      · obtain ⟨fuel,rfl⟩ : ∃ k, fuel = k+1 := ⟨fuel-1,by omega⟩
        rw [if_pos ⟨harrived,htaken⟩] at hfuel ⊢
        rw [length_cons] at hfuel
        have hfound : (before++(max start beg,q.data.drop (beg-start)) ::
            pending (start+q.data.length) beg pieces).lookup (max start beg) =
            some (q.data.drop (beg-start)) := by
          rw [lookup_append,lookup_eq_none fun entry hentry =>
              Nat.ne_of_lt (hbefore entry hentry),
            Option.none_or,lookup_cons_self]
        have hnext : max start beg+(q.data.drop (beg-start)).length =
            max (start+q.data.length) beg := by
          rw [length_drop]
          omega
        rw [follow,hfound]
        simp only [hnext]
        rw [append_cons]
        refine ih hrest _ ?_ hbeg (by omega)
        intro entry hentry
        rcases mem_append.1 hentry with hentry | hentry
        · have hlt := hbefore entry hentry
          omega
        · rw [mem_singleton.1 hentry]
          show max start beg < _
          omega
      · rw [if_neg (by omega)] at hfuel ⊢
        have hmax : max start beg = max (start+q.data.length) beg := by omega
        rw [hmax] at hbefore ⊢
        exact ih hrest before hbefore hbeg hfuel
    · rw [if_neg harrived] at hbeg ⊢
      obtain ⟨fuel,rfl⟩ : ∃ k, fuel = k+1 := ⟨fuel-1,by omega⟩
      rw [if_neg fun h => harrived h.1,follow,lookup_eq_none]
      · exact Nat.max_eq_left hbeg
      · intro entry hentry
        rcases mem_append.1 hentry with hentry | hentry
        · have hlt := hbefore entry hentry
          omega
        · have hle := le_key_of_mem_pending hentry
          omega

/-- What lies before the pieces does not matter. -/
theorem pending_of_le (h : beg ≤ start) : pending start beg pieces = pending start start pieces := by
  induction pieces generalizing start beg with
  | nil => rfl
  | cons p pieces ih =>
    obtain ⟨hp,hrest⟩ := pos_of_nonempty hne
    rw [pending,pending,ih hrest (show beg ≤ start+p.data.length by omega),
      ih hrest (Nat.le_add_right start _),Nat.max_eq_left h,Nat.max_self,
      Nat.sub_eq_zero_of_le h,Nat.sub_self]
    exact if_congr (and_congr_right fun _ => by omega) rfl rfl

/-- The first entry of the map, if there is something to take, is at the first position that is
not taken, and taking a part of it leaves the rest of it. -/
theorem pending_eq_cons (hstart : start ≤ beg) (hbeg : beg < contiguousEnd start pieces) :
    ∃ data rest, data≠[] ∧ beg+data.length ≤ contiguousEnd start pieces ∧
      data = ((stream pieces).drop (beg-start)).take data.length ∧
      (∀ k < data.length, pending start (beg+k) pieces = (beg+k,data.drop k)::rest) ∧
      pending start (beg+data.length) pieces=rest := by
  induction pieces generalizing start with
  | nil =>
    rw [contiguousEnd] at hbeg
    omega
  | cons p pieces ih =>
    rw [contiguousEnd] at hbeg
    split at hbeg
    swap
    · omega
    rename_i harrived
    have hrest := (pos_of_nonempty hne).2
    have hle := le_contiguousEnd (start+p.data.length) pieces
    rw [contiguousEnd,if_pos harrived,stream_cons]
    by_cases htaken : beg < start+p.data.length
    · refine ⟨p.data.drop (beg-start),pending (start+p.data.length) (start+p.data.length) pieces,
        ?_,?_,?_,fun k hk => ?_,?_⟩
      · rw [ne_eq,drop_eq_nil_iff]
        omega
      · rw [length_drop]
        omega
      · rw [drop_append_of_le_length (by omega),take_left' rfl]
      · rw [length_drop] at hk
        rw [pending,if_pos ⟨harrived,by omega⟩,pending_of_le hrest (by omega),drop_drop,
          Nat.max_eq_right (by omega),show beg+k-start = beg-start+k by omega]
      · rw [length_drop,show beg+(p.data.length-(beg-start)) = start+p.data.length by omega,
          pending,if_neg (by omega)]
    · obtain ⟨data,rest,hdata,hle,htake,hpart,hall⟩ := ih hrest (by omega) hbeg
      refine ⟨data,rest,hdata,hle,?_,fun k hk => ?_,?_⟩
      · rw [drop_append,drop_eq_nil_of_le (by omega),nil_append,
          show beg-start-p.data.length = beg-(start+p.data.length) by omega]
        exact htake
      · rw [pending,if_neg (by omega),hpart k hk]
      · rw [pending,if_neg (by omega),hall]

end

end PS3Native.Reassembly
