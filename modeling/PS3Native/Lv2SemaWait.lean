import PS3Native.Lv2SemaPlaces

/-!
# The calls of `lv2_sema`

A wait takes a permit that is left, or counts itself in the word and joins the queue. A `post`
takes as many threads from the queue as the word has counted and it has permits for.
-/
namespace PS3Native.Lv2Sema
open SleepQueue List

variable {τ : Type*} [DecidableEq τ] {attr : Attr} {prio : τ → ℤ} {s s' : State τ} {t u : τ}
  {l : Loc τ} {late : Bool} {timed : Bool}

theorem threads_unqueue {queue : List (Sleeper τ)} (hmem : t∈threads queue) :
    (threads queue).Perm (t::threads (SleepQueue.unqueue queue t)) := by
  obtain ⟨e,rfl,hperm⟩ := unqueue_perm hmem
  exact hperm.map Sleeper.thread

theorem length_unqueue {queue : List (Sleeper τ)} (hmem : t∈threads queue) :
    queue.length = (SleepQueue.unqueue queue t).length+1 := by
  obtain ⟨e,-,hperm⟩ := unqueue_perm hmem
  exact hperm.length_eq

/-- A thread that was taken from the queue goes on. -/
theorem Moved.accept {s₁ : State τ} (h : Places s) (hloc : s.loc t=l) (hl : l.Taken)
    (hsame : s₁.loc=s.loc) (hqueue : s₁.queue=s.queue) (hdue : s₁.due = s.due.erase t)
    (hfree : ∀ u, u≠t → (s₁.mutex = some u ↔ s.mutex = some u)) (hnot : s₁.mutex≠some t) :
    Moved s t (s₁.go t (.returned .ok)) where
  loc := by
    intro u hut
    rw [go_loc_of_ne s₁ _ hut,hsame]
  mutex := hfree
  locked := by
    rw [go_loc_self]
    exact iff_of_false id hnot
  shift := by
    have hmem : t∈s.due := h.taken t (hloc ▸ hl)
    have hwaiters : (s₁.go t (.returned .ok)).waiters = threads s.queue++s.due.erase t :=
      congrArg₂ (threads ·++·) hqueue hdue
    refine .leave ?_ ?_ (.inl hmem)
    · rw [hwaiters]
      exact ((perm_cons_erase hmem).append_left _).trans perm_middle
    · rw [go_loc_self]
      exact id
  due := by
    intro u hu
    by_cases hut : u=t
    · exact .inr ⟨hut,hloc ▸ hl,go_loc_self ..⟩
    · have hmem : u∈s₁.due := hdue ▸ (mem_erase_of_ne hut).mpr hu
      exact .inl hmem
  taken := by
    rw [go_loc_self]
    exact False.elim
  waking := by
    rw [go_loc_self]
    exact fun u hu => absurd hu not_mem_nil

theorem length_accept (h : Places s) (hloc : s.loc t=l) (hl : l.Taken) :
    s.due.length = (s.due.erase t).length+1 :=
  (perm_cons_erase (h.taken t (hloc ▸ hl))).length_eq

variable {count : BitVec 32} {n : ℕ} {ts : List τ}

theorem toNat_of_pos (h : 0 < count.toInt) : (count.toNat : ℤ)=count.toInt := by
  rw [BitVec.toInt_eq_toNat_cond] at h ⊢
  split_ifs at h ⊢ with hsmall
  · rfl
  · omega

omit [DecidableEq τ] in
/-- There is always a thread to take. -/
theorem Inv.queue_ne_nil (h : Inv attr s) (hloc : s.loc t = .postWake (n+1) ts) : s.queue≠[] := by
  intro hnil
  obtain ⟨-,hqueue,-⟩ := h.balanced hloc trivial
  simp only [Loc.pending,Loc.wake,hnil,length_nil] at hqueue
  omega

theorem take_good (h : Inv attr s) (hloc : s.loc t = .postWake (n+1) ts)
    (hmem : u∈threads s.queue) : Good attr s t
      ({s with queue := SleepQueue.unqueue s.queue u, due := u::s.due}.go t (.postWake n (u::ts))) := by
  have hmutex := (h.places.mutex_iff hloc).mpr trivial
  have hself := go_loc_self {s with queue := SleepQueue.unqueue s.queue u, due := u::s.due} t
    (.postWake n (u::ts))
  have hperm := threads_unqueue hmem
  refine ⟨⟨fun v hvt => go_loc_of_ne _ _ hvt,fun _ _ => Iff.rfl,?_,?_,?_,?_,?_⟩,
    counts_go hmutex ?_,?_⟩
  · rw [hself]
    exact (h.places.mutex_iff hloc).symm
  · refine .keep ?_ ?_ ?_
    · exact perm_middle.trans (hperm.append_right s.due).symm
    · rw [hself,hloc]
      exact Iff.rfl
    · rw [hself,hloc]
      exact .inl rfl
  · exact fun v hv => .inl (mem_cons_of_mem _ hv)
  · rw [hself]
    exact False.elim
  · intro v hv
    rw [hself] at hv
    have hold : v∈u::s.due ∧ ¬(s.loc v).Taken := by
      rcases mem_cons.mp hv with rfl | hv
      · refine ⟨mem_cons_self,?_⟩
        intro htaken
        exact (nodup_append.mp h.places.nodup).2.2 v hmem v (h.places.taken v htaken) rfl
      · obtain ⟨hdue,hnot⟩ := h.places.waking t v (by rw [hloc]; exact hv)
        exact ⟨mem_cons_of_mem _ hdue,hnot⟩
    refine ⟨hold.1,?_⟩
    by_cases hvt : v=t
    · rw [hvt,hself]
      exact id
    · rw [go_loc_of_ne _ _ hvt]
      exact hold.2
  · obtain ⟨hbound,hqueue,hpermits⟩ := h.balanced hloc trivial
    have hlength := length_unqueue hmem
    simp only [Loc.pending,Loc.wake,length_cons] at hqueue hpermits ⊢
    constructor <;> omega
  · rw [hself]
    trivial

variable (h : Inv attr s) (hadv : advance attr prio s t late = some s')

include h hadv

theorem wait_good (hloc : s.loc t = .wait timed) : Good attr s t s' := by
  simp only [advance,hloc] at hadv
  cases hadv
  split_ifs with hval
  · exact .go h hloc rfl id rfl rfl hval
  · exact .go h hloc rfl id rfl rfl trivial

theorem waitCas_good {val : ℤ} (hloc : s.loc t = .waitCas timed val) : Good attr s t s' := by
  simp only [advance,hloc] at hadv
  cases hadv
  split_ifs with hval
  · have hpos : 0 < s.val := hval ▸ h.fits_at hloc
    exact .word h hloc rfl rfl rfl rfl rfl id trivial (h.decrement hloc hpos rfl rfl)
  · exact .go h hloc rfl id rfl rfl trivial

theorem waitDec_good (hloc : s.loc t = .waitDec timed) : Good attr s t s' := by
  simp only [advance,hloc] at hadv
  cases hadv
  have hmutex := (h.places.mutex_iff hloc).mpr trivial
  split_ifs with hval
  · refine .word h hloc rfl rfl rfl rfl rfl id trivial ?_
    obtain ⟨hbound,hqueue,hpermits⟩ := h.balanced hloc trivial
    refine counts_go hmutex ?_
    simp only [Loc.pending,Loc.wake] at hqueue hpermits ⊢
    constructor <;> omega
  · exact .word h hloc rfl rfl rfl rfl rfl id trivial (h.decrement hloc (by omega) rfl rfl)

theorem trywait_good (hloc : s.loc t = .trywait) : Good attr s t s' := by
  simp only [advance,hloc] at hadv
  cases hadv
  split_ifs with hval
  · exact .word h hloc rfl rfl rfl rfl rfl id trivial (h.decrement hloc hval rfl rfl)
  · exact .go h hloc rfl id rfl rfl trivial

theorem emplace_good (hloc : s.loc t = .emplace timed) : Good attr s t s' := by
  simp only [advance,hloc] at hadv
  cases hadv
  have hmutex := (h.places.mutex_iff hloc).mpr trivial
  have hself := go_loc_self
    {s with tag := s.tag+1, queue := ⟨t,prio t,tagOrder (s.tag+1)⟩::s.queue} t (.emplaced timed)
  refine ⟨⟨fun u hut => go_loc_of_ne _ _ hut,fun _ _ => Iff.rfl,?_,?_,fun u hu => .inl hu,?_,?_⟩,
    counts_go hmutex ?_,?_⟩
  · rw [hself]
    exact (h.places.mutex_iff hloc).symm
  · refine .join (.refl _) ?_ ?_ ?_ mem_cons_self
    · rw [hloc]
      exact id
    · rw [hloc]
      rfl
    · rw [hself]
      trivial
  · rw [hself]
    exact False.elim
  · rw [hself]
    exact fun u hu => absurd hu not_mem_nil
  · obtain ⟨hbound,hqueue,hpermits⟩ := h.balanced hloc trivial
    simp only [Loc.pending,Loc.wake,length_cons] at hqueue hpermits ⊢
    constructor <;> omega
  · rw [hself]
    trivial

theorem unqueue_good (hloc : s.loc t = .unqueue) : Good attr s t s' := by
  simp only [advance,hloc] at hadv
  cases hadv
  have hmutex := (h.places.mutex_iff hloc).mpr trivial
  split_ifs with hmem
  · have hself := go_loc_self {s with queue := SleepQueue.unqueue s.queue t} t .restore
    refine ⟨⟨fun u hut => go_loc_of_ne _ _ hut,fun _ _ => Iff.rfl,?_,?_,fun u hu => .inl hu,?_,?_⟩,
      counts_go hmutex ?_,?_⟩
    · rw [hself]
      exact (h.places.mutex_iff hloc).symm
    · refine .leave ((threads_unqueue hmem).append_right s.due) ?_ (.inr ?_)
      · rw [hself]
        exact id
      · rw [hself]
        rfl
    · rw [hself]
      exact False.elim
    · rw [hself]
      exact fun u hu => absurd hu not_mem_nil
    · obtain ⟨hbound,hqueue,hpermits⟩ := h.balanced hloc trivial
      have hlength := length_unqueue hmem
      simp only [Loc.pending,Loc.wake] at hqueue hpermits ⊢
      constructor <;> omega
    · rw [hself]
      trivial
  · have hdue : t∈s.due := by
      have hwaits : t∈s.waiters := (h.places.waits t).mpr (by rw [hloc]; trivial)
      exact (mem_append.mp hwaits).resolve_left hmem
    have hbalanced := h.balanced hloc trivial
    refine ⟨.act h.places hloc rfl rfl rfl (fun _ _ => Iff.rfl) (h.places.mutex_iff hloc).symm Iff.rfl
      (fun _ => ⟨hdue,hmutex⟩) (List.Subset.refl _) (.inl rfl),counts_go hmutex hbalanced,?_⟩
    rw [go_loc_self]
    trivial

theorem restore_good (hloc : s.loc t = .restore) : Good attr s t s' := by
  simp only [advance,hloc] at hadv
  cases hadv
  have hmutex := (h.places.mutex_iff hloc).mpr trivial
  obtain ⟨hbound,hqueue,hpermits⟩ := h.balanced hloc trivial
  simp only [Loc.pending,Loc.wake] at hqueue hpermits
  have hval : s.val < 0 := by omega
  have hmax := h.accepted
  rw [if_pos hval]
  refine .word h hloc rfl rfl rfl rfl rfl id trivial (counts_go hmutex ?_)
  simp only [Loc.pending,Loc.wake]
  constructor <;> omega

theorem sleep_good {awoken : Bool} (hloc : s.loc t = .sleep timed awoken) : Good attr s t s' := by
  simp only [advance,hloc] at hadv
  split_ifs at hadv with hlate htimed hawoken
  · cases hadv
    exact .go h hloc rfl id rfl rfl trivial
  · cases hadv
    subst hawoken
    have hnot : s.mutex≠some t := fun heq => (h.places.mutex_iff hloc).mp heq
    refine ⟨.accept h.places hloc trivial rfl rfl rfl (fun _ _ => Iff.rfl) hnot,?_,?_⟩
    · obtain ⟨hbound,hqueue,hpermits⟩ := h.counts
      have hlength := length_accept h.places hloc trivial
      have hkeep : ∀ f : Loc τ → ℕ, f (.returned .ok) = f (.sleep timed true) →
          ((s.accept t).go t (.returned .ok)).holder f = s.holder f :=
        fun f => holder_keep (s.accept t) hloc rfl rfl
      rw [State.Counts,hkeep Loc.pending rfl,hkeep Loc.wake rfl]
      simp only [State.go,State.accept]
      constructor <;> omega
    · rw [go_loc_self]
      trivial

theorem missed_good (hloc : s.loc t = .missed) : Good attr s t s' := by
  simp only [advance,hloc] at hadv
  cases hadv
  refine ⟨.accept h.places hloc trivial rfl rfl rfl
    (fun _ hut => h.places.mutex_of_ne hloc trivial hut) (Option.some_ne_none _).symm,?_,?_⟩
  · obtain ⟨hbound,hqueue,hpermits⟩ := h.balanced hloc trivial
    have hlength := length_accept h.places hloc trivial
    simp only [Loc.pending,Loc.wake] at hqueue hpermits
    simp only [State.Counts,State.holder,State.go,State.accept,Option.elim_none]
    constructor <;> omega
  · rw [go_loc_self]
    trivial

theorem post_good (hloc : s.loc t = .post count) : Good attr s t s' := by
  simp only [advance,hloc] at hadv
  cases hadv
  split_ifs with hfits hcount
  · exact .go h hloc rfl id rfl rfl hfits
  · exact .go h hloc rfl id rfl rfl trivial
  · exact .go h hloc rfl id rfl rfl (by rw [Loc.Fits]; omega)

theorem postCas_good {val : ℤ} (hloc : s.loc t = .postCas count val) : Good attr s t s' := by
  simp only [advance,hloc] at hadv
  cases hadv
  obtain ⟨hpos,hcount,hmax⟩ : 0 ≤ val ∧ 0 < count.toInt ∧ count.toInt ≤ attr.max.toInt-val :=
    h.fits_at hloc
  split_ifs with hval
  · subst hval
    refine .word h hloc rfl rfl rfl rfl rfl id trivial ?_
    obtain ⟨hbound,hqueue,hpermits⟩ := h.counts
    have hkeep : ∀ f : Loc τ → ℕ, f (.returned .ok) = f (.postCas count s.val) →
        ((s.add count.toInt).go t (.returned .ok)).holder f = s.holder f :=
      fun f => holder_keep (s.add count.toInt) hloc rfl rfl
    rw [State.Counts,hkeep Loc.pending rfl,hkeep Loc.wake rfl]
    simp only [State.go,State.add]
    constructor <;> omega
  · exact .go h hloc rfl id rfl rfl hcount

theorem postAdd_good (hloc : s.loc t = .postAdd count) : Good attr s t s' := by
  simp only [advance,hloc] at hadv
  cases hadv
  have hcount : 0 < count.toInt := h.fits_at hloc
  split_ifs with hle
  · refine .word h hloc rfl rfl rfl rfl rfl id trivial
      (counts_go ((h.places.mutex_iff hloc).mpr trivial) ?_)
    obtain ⟨hbound,hqueue,hpermits⟩ := h.balanced hloc trivial
    have hmax : count.toInt ≤ attr.max.toInt-s.val := by
      rw [toNat_of_pos hcount] at hle
      omega
    simp only [Loc.pending,Loc.wake,State.add,toAwake] at hqueue hpermits ⊢
    constructor <;> omega
  · exact .go h hloc rfl id rfl rfl trivial

theorem postWake_good (hloc : s.loc t = .postWake n ts) : Good attr s t s' := by
  cases n with
  | zero =>
    simp only [advance,hloc] at hadv
    cases hadv
    exact .go h hloc rfl id rfl rfl trivial
  | succ n =>
    cases hqueue : s.queue with
    | nil => exact absurd hqueue (h.queue_ne_nil hloc)
    | cons it rest =>
      have hfirst : schedule attr.protocol it rest∈s.queue := by
        rw [hqueue]
        exact (schedule_first attr.protocol it rest).mem
      have hgood := take_good h hloc (mem_map_of_mem hfirst)
      simp only [advance,hloc,hqueue] at hadv
      cases hadv
      rw [hqueue] at hgood
      exact hgood

end PS3Native.Lv2Sema
