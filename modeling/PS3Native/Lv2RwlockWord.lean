import PS3Native.Lv2Rwlock

/-!
# The owner word of `lv2_rwlock` and the places of its threads

Each of the tests of the code on the word is a test of the holders, and each of its updates is an
update of the holders.
-/
namespace PS3Native.Lv2Rwlock
open SharedHandOff

variable {τ : Type*} {ids : Ids τ} {owner : ℤ} {holders : Side → List τ} {t : τ} {side : Side}

/-- The word `owner` stands for these holders. Its lowest bit is free, except that it is
not set while nobody has the lock. -/
def Word (ids : Ids τ) (owner : ℤ) (holders : Side → List τ) : Prop :=
  (holders .writer=[] ∧ owner = owner%2-2*(holders .reader).length ∧
      (holders .reader=[] → owner%2=0)) ∨
    ∃ w, holders .writer = [w] ∧ holders .reader=[] ∧ owner = owner%2+2*ids.id w

theorem word_of_readers {n : ℕ} (hwriter : holders .writer=[]) (hn : (holders .reader).length=n)
    (howner : owner = -2*n) : Word ids owner holders := by
  refine .inl ⟨hwriter,?_,fun _ => ?_⟩ <;> omega

variable {w : τ}

theorem word_of_writer (hwriter : holders .writer = [w]) (hreader : holders .reader=[])
    (howner : owner = 2*ids.id w ∨ owner = 2*ids.id w+1) : Word ids owner holders := by
  refine .inr ⟨w,hwriter,hreader,?_⟩
  omega

section

variable (h : Word ids owner holders)

include h

theorem Word.readers_of_nonpos (howner : owner ≤ 0) :
    holders .writer=[] ∧ owner = owner%2-2*(holders .reader).length := by
  rcases h with ⟨hwriter,heq,_⟩ | ⟨w,_,_,heq⟩
  · exact ⟨hwriter,heq⟩
  · have hpos := ids.pos w
    omega

theorem Word.free_of_zero (howner : owner=0) : holders .writer=[] ∧ holders .reader=[] := by
  obtain ⟨hwriter,heq⟩ := h.readers_of_nonpos howner.le
  exact ⟨hwriter,List.eq_nil_of_length_eq_zero (by omega)⟩

theorem Word.eq_of_writer (hwriter : w∈holders .writer) :
    holders .writer = [w] ∧ holders .reader=[] ∧ owner = owner%2+2*ids.id w := by
  rcases h with ⟨hnone,_⟩ | ⟨v,hv,hreader,heq⟩
  · rw [hnone] at hwriter
    cases hwriter
  · rw [hv,List.mem_singleton] at hwriter
    subst hwriter
    exact ⟨hv,hreader,heq⟩

theorem Word.mem_of_div_two (hdiv : owner/2 = ids.id t) : t∈holders .writer := by
  have hpos := ids.pos t
  rcases h with ⟨_,heq,_⟩ | ⟨w,hw,_,heq⟩
  · omega
  · have hid : ids.id w = ids.id t := by omega
    rw [hw,ids.injective hid]
    exact List.mem_singleton_self t

theorem Word.neg_of_reader (hreader : t∈holders .reader) :
    holders .writer=[] ∧ owner = owner%2-2*(holders .reader).length ∧ owner < 0 := by
  have hpos := List.length_pos_of_mem hreader
  rcases h with ⟨hwriter,heq,_⟩ | ⟨w,_,hnone,_⟩
  · exact ⟨hwriter,heq,by omega⟩
  · rw [hnone] at hreader
    cases hreader

/-- A word with the bit set and no writer has readers. -/
theorem Word.neg_of_odd (hodd : owner%2=1) (hwriter : holders .writer=[]) : owner < 0 := by
  rcases h with ⟨_,heq,hfree⟩ | ⟨w,hw,_,_⟩
  · have hpos : 0 < (holders .reader).length := by
      refine List.length_pos_iff.mpr fun hnone => ?_
      have heven := hfree hnone
      omega
    omega
  · rw [hwriter] at hw
    cases hw

theorem Word.take_reader (hread : Readable owner) :
    Word ids (owner-2) (grant holders .reader [t]) := by
  obtain ⟨hwriter,heq⟩ := h.readers_of_nonpos hread.1
  have heven := hread.2
  refine word_of_readers (n := (holders .reader).length+1) hwriter ?_ (by omega)
  simp [grant]

theorem Word.take_writer (howner : owner=0) :
    Word ids (2*ids.id t) (grant holders .writer [t]) := by
  obtain ⟨hwriter,hreader⟩ := h.free_of_zero howner
  refine word_of_writer (w := t) ?_ hreader (.inl rfl)
  simp [grant,hwriter]

end

theorem length_drop_add_one [DecidableEq τ] (hmem : t∈holders side) :
    (drop holders side t side).length+1 = (holders side).length := by
  have hpos := List.length_pos_of_mem hmem
  rw [drop,Function.update_self,List.length_erase_of_mem hmem]
  omega

theorem setBit_mod_two (owner : ℤ) : setBit owner%2=1 := by
  unfold setBit
  omega

theorem clearBit_mod_two (owner : ℤ) : clearBit owner%2=0 := by
  unfold clearBit
  omega

section

variable (h : Word ids owner holders)

include h

/-- A reader leaves that is not the last one, or before whom nobody waits. -/
theorem Word.release_reader [DecidableEq τ] (hreader : t∈holders .reader)
    (howner : owner%2=0 ∨ owner < -1) : Word ids (owner+2) (drop holders .reader t) := by
  obtain ⟨hwriter,heq,_⟩ := h.neg_of_reader hreader
  have hlength := length_drop_add_one hreader
  refine .inl ⟨hwriter,by omega,?_⟩
  intro hnone
  rw [hnone,List.length_nil] at hlength
  omega

theorem Word.drop_writer [DecidableEq τ] (hwriter : t∈holders .writer) :
    drop holders .writer t .writer=[] ∧ drop holders .writer t .reader=[] := by
  obtain ⟨hsingle,hreader,_⟩ := h.eq_of_writer hwriter
  constructor
  · simp [drop,hsingle]
  · exact hreader

theorem Word.drop_reader [DecidableEq τ] (hreader : t∈holders .reader) (howner : owner = -1) :
    drop holders .reader t .writer=[] ∧ drop holders .reader t .reader=[] := by
  obtain ⟨hwriter,heq,_⟩ := h.neg_of_reader hreader
  have hlength := length_drop_add_one hreader
  exact ⟨hwriter,List.eq_nil_of_length_eq_zero (by omega)⟩

theorem Word.release_writer [DecidableEq τ] (hwriter : t∈holders .writer) :
    Word ids 0 (drop holders .writer t) := by
  obtain ⟨hnone,hreader⟩ := h.drop_writer hwriter
  exact word_of_readers (n := 0) hnone (by rw [hreader]; rfl) rfl

theorem Word.setBit (howner : owner≠0) : Word ids (setBit owner) holders := by
  unfold Lv2Rwlock.setBit
  rcases h with ⟨hwriter,heq,hfree⟩ | ⟨w,hwriter,hreader,heq⟩
  · refine .inl ⟨hwriter,by omega,?_⟩
    intro hnone
    have heven := hfree hnone
    rw [hnone,List.length_nil] at heq
    omega
  · exact .inr ⟨w,hwriter,hreader,by omega⟩

theorem Word.clearBit : Word ids (clearBit owner) holders := by
  unfold Lv2Rwlock.clearBit
  rcases h with ⟨hwriter,heq,_⟩ | ⟨w,hwriter,hreader,heq⟩
  · exact word_of_readers hwriter rfl (by omega)
  · exact word_of_writer hwriter hreader (.inl (by omega))

theorem Word.add_readers (hwriter : holders .writer=[]) (ts : List τ) :
    Word ids (Lv2Rwlock.clearBit (owner-2*ts.length)) (grant holders .reader ts) := by
  unfold Lv2Rwlock.clearBit
  rcases h with ⟨_,heq,_⟩ | ⟨w,hw,_,_⟩
  · refine word_of_readers (n := ts.length+(holders .reader).length) hwriter ?_ (by omega)
    simp [grant]
  · rw [hwriter] at hw
    cases hw

end

open SleepQueue Function

variable [DecidableEq τ] {s s' : State τ} {u : τ} {l : Loc τ} {p : Place}

def Steady : Place → Prop
  | .granted _ => False
  | _ => True

theorem Steady.ne (h : Steady p) (side : Side) : p≠.granted side := by
  rintro rfl
  exact h

theorem place_of_loc (hloc : (s.loc t).place=p) (hsteady : Steady p) : s.place t=p := by
  subst hloc
  unfold State.place
  split
  · next own hown => exact absurd hown (hsteady.ne own)
  · rfl

section

variable (hloc : (s.loc t).place = .granted side)

include hloc

theorem place_waiting : s.place t = if t∈threads (s.queue side) then .queued side
      else if t∈s.picked then .picked side else .granted side := by
  unfold State.place
  rw [hloc]

theorem place_queued (hmem : t∈threads (s.queue side)) :
    s.place t = .queued side := by rw [place_waiting hloc,if_pos hmem]

theorem place_picked (hnot : t∉threads (s.queue side)) (hpicked : t∈s.picked) :
    s.place t = .picked side := by
  rw [place_waiting hloc,if_neg hnot,if_pos hpicked]

theorem place_granted (hnot : t∉threads (s.queue side)) (hpicked : t∉s.picked) :
    s.place t = .granted side := by
  rw [place_waiting hloc,if_neg hnot,if_neg hpicked]

end

theorem place_cases (s : State τ) (t : τ) : Steady (s.loc t).place ∧ s.place t = (s.loc t).place ∨
      ∃ side, (s.loc t).place = .granted side ∧
        (t∈threads (s.queue side) ∧ s.place t = .queued side ∨
          t∉threads (s.queue side) ∧ t∈s.picked ∧ s.place t = .picked side ∨
            t∉threads (s.queue side) ∧ t∉s.picked ∧ s.place t = .granted side) := by
  by_cases hwait : ∃ side, (s.loc t).place = .granted side
  · obtain ⟨side,hloc⟩ := hwait
    refine .inr ⟨side,hloc,?_⟩
    by_cases hmem : t∈threads (s.queue side)
    · exact .inl ⟨hmem,place_queued hloc hmem⟩
    · by_cases hpicked : t∈s.picked
      · exact .inr (.inl ⟨hmem,hpicked,place_picked hloc hmem hpicked⟩)
      · exact .inr (.inr ⟨hmem,hpicked,place_granted hloc hmem hpicked⟩)
  · have hsteady : Steady (s.loc t).place := by
      cases hloc : (s.loc t).place with
      | granted side => exact absurd ⟨side,hloc⟩ hwait
      | _ => trivial
    exact .inl ⟨hsteady,place_of_loc rfl hsteady⟩

omit [DecidableEq τ] in
theorem Loc.place_ne (l : Loc τ) (side : Side) : l.place≠.queued side ∧ l.place≠.picked side := by
  cases l with
  | awake ts ret | leave ret => cases ret <;> constructor <;> rintro ⟨⟩
  | _ => constructor <;> rintro ⟨⟩

/-- The three places of a thread that waits. -/
theorem place_iff : (s.place t = .queued side ↔
      (s.loc t).place = .granted side ∧ t∈threads (s.queue side)) ∧
    (s.place t = .picked side ↔
      (s.loc t).place = .granted side ∧ t∉threads (s.queue side) ∧ t∈s.picked) ∧
    (s.place t = .granted side ↔
      (s.loc t).place = .granted side ∧ t∉threads (s.queue side) ∧ t∉s.picked) := by
  rcases place_cases s t with ⟨hne,heq⟩ | ⟨own,hloc,hcases⟩
  · simp [heq,hne.ne side,(s.loc t).place_ne side]
  · by_cases hown : own=side
    · subst hown
      rcases hcases with ⟨hmem,heq⟩ | ⟨hnot,hpicked,heq⟩ | ⟨hnot,hpicked,heq⟩ <;> simp [*]
    · rcases hcases with ⟨_,heq⟩ | ⟨_,_,heq⟩ | ⟨_,_,heq⟩ <;> simp [heq,hloc,hown]

theorem place_congr (hloc : (s'.loc u).place = (s.loc u).place)
    (hqueue : ∀ side, u∈threads (s'.queue side) ↔ u∈threads (s.queue side))
    (hpicked : u∈s'.picked ↔ u∈s.picked) : s'.place u = s.place u := by
  rcases place_cases s u with ⟨hne,heq⟩ | ⟨side,hwait,hcases⟩
  · rw [heq,place_of_loc hloc hne]
  · rw [place_waiting (hloc.trans hwait),place_waiting hwait]
    simp only [hqueue,hpicked]

theorem place_go (hplace : l.place = (s.loc t).place) : (s.go t l).place=s.place := by
  funext u
  refine place_congr ?_ (fun _ => Iff.rfl) Iff.rfl
  by_cases hu : u=t
  · subst hu
    simpa [State.go] using hplace
  · simp [State.go,hu]

theorem place_go_update (hsteady : Steady l.place) :
    (s.go t l).place = update s.place t l.place := by
  funext u
  by_cases hu : u=t
  · subst hu
    rw [update_self]
    exact place_of_loc (by simp [State.go]) hsteady
  · rw [update_of_ne hu]
    exact place_congr (by simp [State.go,hu]) (fun _ => Iff.rfl) Iff.rfl

variable {queue rest : List (Sleeper τ)} {e : Sleeper τ}

omit [DecidableEq τ] in
theorem threads_setQueue_of_ne {own : Side} (hown : own≠side) :
    threads ((s.setQueue side queue).queue own) = threads (s.queue own) := by
  simp [State.setQueue,hown]

omit [DecidableEq τ] in
theorem threads_setQueue_self : threads ((s.setQueue side queue).queue side) = threads queue := by
  simp [State.setQueue]

omit [DecidableEq τ] in
/-- Queues that differ in some threads only. -/
theorem mem_setQueue_iff (own : Side) (hqueue : u∈threads queue ↔ u∈threads (s.queue side)) :
    u∈threads ((s.setQueue side queue).queue own) ↔ u∈threads (s.queue own) := by
  by_cases hown : own=side
  · subst hown
    rw [threads_setQueue_self]
    exact hqueue
  · rw [threads_setQueue_of_ne hown]

theorem place_push (he : e.thread=t) (hplace : l.place = .granted side) :
    ((s.setQueue side (e::s.queue side)).go t l).place = update s.place t (.queued side) := by
  funext u
  by_cases hu : u=t
  · subst hu
    rw [update_self]
    refine place_queued (by simpa [State.go] using hplace) ?_
    have hmem : u∈threads (e::s.queue side) := by
      rw [threads,List.map_cons,he]
      exact List.mem_cons_self
    rwa [← threads_setQueue_self (s := s)] at hmem
  · rw [update_of_ne hu]
    refine place_congr (by simp [State.go,State.setQueue,hu]) (fun own => ?_) Iff.rfl
    refine mem_setQueue_iff own ?_
    rw [threads,List.map_cons,he,List.mem_cons]
    exact or_iff_right hu

omit [DecidableEq τ] in
theorem mem_threads_of_perm (hperm : queue.Perm (e::rest)) (hu : u≠e.thread) :
    u∈threads rest ↔ u∈threads queue := by
  have hmap := (hperm.map Sleeper.thread).mem_iff (a := u)
  rw [List.map_cons,List.mem_cons] at hmap
  rw [threads,threads,hmap]
  exact (or_iff_right hu).symm

theorem place_leave (he : e.thread=t) (hperm : (s.queue side).Perm (e::rest))
    (hsteady : Steady l.place) :
    ((s.setQueue side rest).go t l).place = update s.place t l.place := by
  rw [place_go_update hsteady]
  funext u
  by_cases hu : u=t
  · subst hu
    rw [update_self,update_self]
  · rw [update_of_ne hu,update_of_ne hu]
    refine place_congr rfl (fun own => mem_setQueue_iff own ?_) Iff.rfl
    exact mem_threads_of_perm hperm (by rwa [he])

theorem place_pick {ts : List τ} (hnil : s.picked=[])
    (hts : ∀ u∈ts, s.place u = .queued side ∧ u∉threads rest)
    (hrest : ∀ u, u∉ts → (u∈threads rest ↔ u∈threads (s.queue side)))
    (hplace : l.place = (s.loc t).place) :
    ((s.pick side rest ts).go t l).place = moveAll s.place ts (.picked side) := by
  rw [place_go (s := s.pick side rest ts) hplace]
  funext u
  rw [moveAll]
  split_ifs with hu
  · obtain ⟨hqueued,hnot⟩ := hts u hu
    refine place_picked (place_iff.1.mp hqueued).1 ?_ hu
    rwa [← threads_setQueue_self (s := s)] at hnot
  · refine place_congr rfl (fun own => mem_setQueue_iff own (hrest u hu)) ?_
    rw [hnil]
    exact ⟨fun hmem => absurd hmem hu,fun hmem => absurd hmem List.not_mem_nil⟩

/-- The threads that were taken from a queue get the lock. -/
theorem place_give {holders : Side → List τ} {owner : ℤ}
    (hts : ∀ u∈s.picked, s.place u = .picked side) :
    {s with owner := owner, holders := holders, picked := []}.place =
      moveAll s.place s.picked (.granted side) := by
  funext u
  rw [moveAll]
  split_ifs with hu
  · obtain ⟨hloc,hnot,_⟩ := place_iff.2.1.mp (hts u hu)
    exact place_granted hloc hnot List.not_mem_nil
  · refine place_congr rfl (fun _ => Iff.rfl) ?_
    exact ⟨fun hmem => absurd hmem List.not_mem_nil,fun hmem => absurd hmem hu⟩

end PS3Native.Lv2Rwlock
