import PS3Native.HandOff

/-!
# A lock for readers and writers that is handed over

Who does not get the lock joins the queue of its side. Threads are taken from a queue first and get
the lock later, from a thread that gives it up or from one that only lets readers in. A queued
thread may also give up.
-/
namespace PS3Native.SharedHandOff
open Function List
open HandOff (Ticket)

inductive Side
  | reader | writer
  deriving DecidableEq, Repr

/-- What a thread is to the lock: it is in the queue of a side, it was taken from the
queue, it has got the lock and does not know it yet, it has given up waiting, or it is
about to give the lock up. -/
inductive Place
  | outside
  | queued (side : Side)
  | picked (side : Side)
  | granted (side : Side)
  | expired
  | releasing (side : Side)
  deriving DecidableEq, Repr

def Place.ticket : Place → Ticket
  | .queued _ => .queued
  | .picked _ | .granted _ => .handed
  | .expired => .expired
  | .outside | .releasing _ => .outside

/-- Whether a thread in this place has the lock beyond what its calls have returned. -/
def Place.owns (side : Side) : Place → ℕ
  | .granted own | .releasing own => if side=own then 1 else 0
  | _ => 0

/-- `holders` lists who has the lock, as often as they have it; `held` counts the calls
that have got it, less those that have begun to give it up. -/
structure Lock (τ : Type*) where
  holders : Side → List τ
  held : Side → τ → ℕ
  place : τ → Place

variable {τ : Type*} [DecidableEq τ]

def grant (holders : Side → List τ) (side : Side) (ts : List τ) : Side → List τ :=
  update holders side (ts++holders side)

def drop (holders : Side → List τ) (side : Side) (t : τ) : Side → List τ :=
  update holders side ((holders side).erase t)

def count (held : Side → τ → ℕ) (side : Side) (t : τ) (n : ℕ) : Side → τ → ℕ :=
  update held side (update (held side) t n)

def Admits (holders : Side → List τ) : Side → Prop
  | .reader => holders .writer=[]
  | .writer => holders .writer=[] ∧ holders .reader=[]

def moveAll (place : τ → Place) (ts : List τ) (p : Place) (u : τ) : Place :=
  if u∈ts then p else place u

inductive Step (t : τ) (s : Lock τ) : Lock τ → Prop
  | take (side : Side) (hplace : s.place t = .outside) (hadmits : Admits s.holders side) :
    Step t s { s with
      holders := grant s.holders side [t], held := count s.held side t (s.held side t+1) }
  | join (side : Side) (hplace : s.place t = .outside) :
    Step t s {s with place := update s.place t (.queued side)}
  | unlock (side : Side) (hplace : s.place t = .outside) (hheld : 0 < s.held side t) :
    Step t s { s with
      held := count s.held side t (s.held side t-1)
      place := update s.place t (.releasing side) }
  | release (side : Side) (hplace : s.place t = .releasing side) :
    Step t s { s with
      holders := drop s.holders side t, place := update s.place t .outside }
  | pick (side : Side) (ts : List τ) (hts : ∀ u∈ts, s.place u = .queued side) :
    Step t s {s with place := moveAll s.place ts (.picked side)}
  | give (own side : Side) (ts : List τ) (hplace : s.place t = .releasing own) (hnodup : ts.Nodup)
    (hts : ∀ u∈ts, s.place u = .picked side) (hadmits : Admits (drop s.holders own t) side)
    (hone : side=.writer → ts.length ≤ 1) :
    Step t s { s with
      holders := grant (drop s.holders own t) side ts
      place := update (moveAll s.place ts (.granted side)) t .outside }
  | letIn (ts : List τ) (hnodup : ts.Nodup) (hts : ∀ u∈ts, s.place u = .picked .reader)
    (hadmits : Admits s.holders .reader) :
    Step t s { s with
      holders := grant s.holders .reader ts, place := moveAll s.place ts (.granted .reader) }
  | expire (side : Side) (hplace : s.place t = .queued side) :
    Step t s {s with place := update s.place t .expired}
  | accept (side : Side) (hplace : s.place t = .granted side) :
    Step t s { s with
      held := count s.held side t (s.held side t+1)
      place := update s.place t .outside }
  | giveUp (hplace : s.place t = .expired) :
    Step t s {s with place := update s.place t .outside}

def Exclusive (holders : Side → List τ) : Prop :=
  holders .writer=[] ∨ ∃ t, holders .writer = [t] ∧ holders .reader=[]

/-- A thread has the lock as often as its calls have it, and once more in some places. -/
def Accounted (s : Lock τ) (t : τ) : Prop :=
  ∀ side, (s.holders side).count t = s.held side t+(s.place t).owns side

structure Inv (s : Lock τ) : Prop where
  exclusive : Exclusive s.holders
  accounted : ∀ t, Accounted s t

section Holders

variable {holders : Side → List τ} {held : Side → τ → ℕ} {side own : Side} {t u : τ} {ts : List τ}

theorem count_grant (hnodup : ts.Nodup) (own : Side) (u : τ) : (grant holders side ts own).count u =
      (holders own).count u+if own=side ∧ u∈ts then 1 else 0 := by
  by_cases hown : own=side
  · subst hown
    rw [grant,update_self,count_append,hnodup.count,Nat.add_comm]
    simp
  · simp [grant,hown]

theorem count_drop (own : Side) (u : τ) : (drop holders side t own).count u =
      (holders own).count u-if own=side ∧ u=t then 1 else 0 := by
  by_cases hown : own=side
  · subst hown
    rw [drop,update_self,count_erase]
    simp only [true_and,beq_iff_eq,eq_comm (a := t)]
  · simp [drop,hown]

theorem count_apply (n : ℕ) (own : Side) (u : τ) :
    count held side t n own u = if own=side ∧ u=t then n else held own u := by
  by_cases hown : own=side
  · subst hown
    simp [count,update_apply]
  · simp [count,hown]

omit [DecidableEq τ] in
theorem exclusive_grant (hadmits : Admits holders side) (hone : side=.writer → ts.length ≤ 1) :
    Exclusive (grant holders side ts) := by
  cases side with
  | reader => exact .inl hadmits
  | writer =>
    obtain ⟨hwriter,hreader⟩ := hadmits
    match ts, hone rfl with
    | [], _ => exact .inl hwriter
    | [w], _ => exact .inr ⟨w,by simp [grant,hwriter],hreader⟩

theorem exclusive_drop (h : Exclusive holders) : Exclusive (drop holders side t) := by
  rcases h with hwriter | ⟨u,hwriter,hreader⟩
  · refine .inl ?_
    cases side <;> simp [drop,hwriter]
  · cases side with
    | reader => exact .inr ⟨u,hwriter,by simp [drop,hreader]⟩
    | writer =>
      by_cases htu : t=u
      · subst htu
        exact .inl (by simp [drop,hwriter])
      · exact .inr ⟨u,by simp [drop,hwriter,Ne.symm htu],hreader⟩

end Holders

variable {s s' : Lock τ} {t u : τ}

theorem Accounted.congr (h : Accounted s u) (hholders : s'.holders=s.holders)
    (hheld : s'.held=s.held) (howns : ∀ side, (s'.place u).owns side = (s.place u).owns side) :
    Accounted s' u := by
  intro side
  rw [hholders,hheld,howns side]
  exact h side

theorem Accounted.moved {p : Place} (h : ∀ u, Accounted s u)
    (howns : ∀ side, p.owns side = (s.place t).owns side) (u : τ) :
    Accounted {s with place := update s.place t p} u := by
  refine (h u).congr rfl rfl ?_
  intro side
  by_cases hu : u=t
  · subst hu
    simp [howns]
  · simp [hu]

/-- Only thread `t` is concerned, and the change of each count is matched. -/
theorem Accounted.changed (h : ∀ u, Accounted s u) (hself : Accounted s' t)
    (hother : ∀ u, u≠t → ∀ side, (s'.holders side).count u = (s.holders side).count u ∧
      s'.held side u = s.held side u ∧ s'.place u = s.place u) (u : τ) : Accounted s' u := by
  by_cases hu : u=t
  · subst hu
    exact hself
  · intro side
    obtain ⟨hcount,hheld,hplace⟩ := hother u hu side
    rw [hcount,hheld,hplace]
    exact h u side

theorem Inv.take {side : Side} (h : Inv s) (hadmits : Admits s.holders side) : Inv { s with
      holders := grant s.holders side [t], held := count s.held side t (s.held side t+1) } := by
  refine ⟨exclusive_grant hadmits fun _ => Nat.le_refl 1,Accounted.changed (t := t) h.accounted ?_ ?_⟩
  · intro own
    have ht := h.accounted t own
    simp only [count_grant (nodup_singleton t),count_apply,mem_singleton,and_true]
    split_ifs with hown
    · subst hown
      omega
    · exact ht
  · intro u hu own
    simp [count_grant (nodup_singleton t),count_apply,hu]

/-- What the calls of a thread lose its place gains, or the other way round. -/
theorem Inv.recount {side : Side} {n : ℕ} {p : Place} (h : Inv s)
    (hsum : ∀ own, (if own=side then n else s.held own t)+p.owns own =
      s.held own t+(s.place t).owns own) :
    Inv {s with held := count s.held side t n, place := update s.place t p} := by
  refine ⟨h.exclusive,Accounted.changed (t := t) h.accounted ?_ ?_⟩
  · intro own
    simp only [count_apply,and_true,update_self,hsum]
    exact h.accounted t own
  · intro u hu own
    simp [count_apply,hu]

theorem Inv.release {side : Side} (h : Inv s) (hplace : s.place t = .releasing side) : Inv { s with
      holders := drop s.holders side t, place := update s.place t .outside } := by
  refine ⟨exclusive_drop h.exclusive,Accounted.changed (t := t) h.accounted ?_ ?_⟩
  · intro own
    have ht := h.accounted t own
    rw [hplace] at ht
    simp only [count_drop,and_true,update_self,Place.owns] at ht ⊢
    split_ifs at ht ⊢ <;> omega
  · intro u hu own
    simp [count_drop,hu]

theorem Inv.grantAll {side : Side} {ts : List τ} (h : Inv s) (hnodup : ts.Nodup)
    (hts : ∀ u∈ts, s.place u = .picked side) (hadmits : Admits s.holders side)
    (hone : side=.writer → ts.length ≤ 1) :
    Inv { s with
      holders := grant s.holders side ts, place := moveAll s.place ts (.granted side) } := by
  refine ⟨exclusive_grant hadmits hone,?_⟩
  intro u own
  have hu := h.accounted u own
  simp only [count_grant hnodup,moveAll]
  by_cases hmem : u∈ts
  · rw [hts u hmem] at hu
    simp only [hmem,and_true,if_true,Place.owns] at hu ⊢
    omega
  · simpa [hmem] using hu

omit [DecidableEq τ] in
theorem not_mem_of_place {p : Place} {ts : List τ} (hts : ∀ u∈ts, s.place u=p)
    (ht : s.place t≠p) : t∉ts := fun hmem => ht (hts t hmem)

theorem Inv.step (h : Inv s) (hstep : Step t s s') : Inv s' := by
  cases hstep with
  | take side hplace hadmits => exact h.take hadmits
  | unlock side hplace hheld =>
    refine h.recount fun own => ?_
    rw [hplace]
    simp only [Place.owns]
    split_ifs with hown
    · subst hown
      omega
    · rfl
  | release side hplace => exact h.release hplace
  | accept side hplace =>
    refine h.recount fun own => ?_
    rw [hplace]
    simp only [Place.owns]
    split_ifs with hown
    · rw [hown]
    · rfl
  | letIn ts hnodup hts hadmits => exact h.grantAll hnodup hts hadmits (by rintro ⟨⟩)
  | join side hplace | expire side hplace | giveUp hplace =>
    exact ⟨h.exclusive,Accounted.moved h.accounted fun own => by rw [hplace]; rfl⟩
  | pick side ts hts =>
    refine ⟨h.exclusive,fun u => (h.accounted u).congr rfl rfl ?_⟩
    intro own
    simp only [moveAll]
    split_ifs with hu
    · rw [hts u hu]
      rfl
    · rfl
  | give own side ts hplace hnodup hts hadmits hone =>
    have htts : t∉ts := not_mem_of_place hts (by rw [hplace]; rintro ⟨⟩)
    have hother : ∀ u∈ts, update s.place t .outside u = .picked side := by
      intro u hu
      have hut : u≠t := by
        rintro rfl
        exact htts hu
      rw [update_of_ne hut]
      exact hts u hu
    have hgiven := (h.release hplace).grantAll hnodup hother hadmits hone
    have hplaces : moveAll (update s.place t .outside) ts (.granted side) =
        update (moveAll s.place ts (.granted side)) t .outside := by
      funext u
      by_cases hu : u=t
      · subst hu
        simp [moveAll,htts]
      · simp [moveAll,hu]
    rw [← hplaces]
    exact hgiven

variable (hstep : Step t s s')

include hstep

/-- What a step of thread `t` can do to another thread. -/
theorem Step.place_of_ne (hu : u≠t) : s'.place u = s.place u ∨
      ∃ side, (s.place u = .queued side ∧ s'.place u = .picked side) ∨
        (s.place u = .picked side ∧ s'.place u = .granted side) := by
  have hmove : ∀ (ts : List τ) (q : Place), moveAll s.place ts q u = s.place u ∨
      (u∈ts ∧ moveAll s.place ts q u=q) := by
    intro ts q
    rw [moveAll]
    split_ifs with hmem
    · exact .inr ⟨hmem,rfl⟩
    · exact .inl rfl
  cases hstep with
  | take side hplace hadmits => exact .inl rfl
  | join side hplace | unlock side hplace hheld | release side hplace | expire side hplace
  | accept side hplace | giveUp hplace => exact .inl (update_of_ne hu _ _)
  | pick side ts hts =>
    rcases hmove ts (.picked side) with hsame | ⟨hmem,hpicked⟩
    · exact .inl hsame
    · exact .inr ⟨side,.inl ⟨hts u hmem,hpicked⟩⟩
  | give own side ts hplace hnodup hts hadmits hone =>
    simp only [update_of_ne hu]
    rcases hmove ts (.granted side) with hsame | ⟨hmem,hgranted⟩
    · exact .inl hsame
    · exact .inr ⟨side,.inr ⟨hts u hmem,hgranted⟩⟩
  | letIn ts hnodup hts hadmits =>
    rcases hmove ts (.granted .reader) with hsame | ⟨hmem,hgranted⟩
    · exact .inl hsame
    · exact .inr ⟨.reader,.inr ⟨hts u hmem,hgranted⟩⟩

theorem Step.granted_of_ne {side : Side} (hu : u≠t) (hgranted : s.place u = .granted side) :
    s'.place u = .granted side := by
  rcases hstep.place_of_ne hu with hsame | ⟨_,⟨hqueued,_⟩ | ⟨hpicked,_⟩⟩
  · rw [hsame,hgranted]
  · rw [hgranted] at hqueued
    cases hqueued
  · rw [hgranted] at hpicked
    cases hpicked

theorem Step.held_of_ne (hu : u≠t) (side : Side) : s'.held side u = s.held side u := by
  cases hstep with
  | take own hplace hadmits | unlock own hplace hheld | accept own hplace => simp [count_apply,hu]
  | join own hplace | release own hplace | pick own ts hts
  | give own σ ts hplace hnodup hts hadmits hone | letIn ts hnodup hts hadmits
  | expire own hplace | giveUp hplace => rfl

/-- Nobody else puts a thread into a queue. -/
theorem Step.not_queued_of_ne {side : Side} (hu : u≠t) (hnot : s.place u≠.queued side) :
    s'.place u≠.queued side := by
  rcases hstep.place_of_ne hu with hsame | ⟨_,⟨_,hpicked⟩ | ⟨_,hgranted⟩⟩
  · rwa [hsame]
  · rw [hpicked]
    rintro ⟨⟩
  · rw [hgranted]
    rintro ⟨⟩

/-- A thread goes through a queue as its ticket says. -/
theorem Step.ticket (u : τ) : Ticket.Next (s.place u).ticket (s'.place u).ticket := by
  have hupdate : ∀ p : Place, Ticket.Next (s.place t).ticket p.ticket →
      Ticket.Next (s.place u).ticket (update s.place t p u).ticket := by
    intro p hp
    by_cases hu : u=t
    · subst hu
      simpa using hp
    · rw [update_of_ne hu]
      exact .stay _
  have hmove : ∀ (ts : List τ) (p q : Place), (∀ v∈ts, s.place v=p) →
      Ticket.Next p.ticket q.ticket →
      Ticket.Next (s.place u).ticket (moveAll s.place ts q u).ticket := by
    intro ts p q hts hpq
    rw [moveAll]
    split_ifs with hu
    · rw [hts u hu]
      exact hpq
    · exact .stay _
  cases hstep with
  | take side hplace hadmits => exact .stay _
  | join side hplace => exact hupdate _ (by rw [hplace]; exact .enter)
  | unlock side hplace hheld
  | release side hplace => exact hupdate _ (by rw [hplace]; exact .stay _)
  | pick side ts hts => exact hmove ts _ _ hts .hand
  | give own side ts hplace hnodup hts hadmits hone =>
    by_cases hu : u=t
    · subst hu
      simp only [update_self]
      rw [hplace]
      exact .stay _
    · simp only [update_of_ne hu]
      exact hmove ts _ _ hts (.stay _)
  | letIn ts hnodup hts hadmits => exact hmove ts _ _ hts (.stay _)
  | expire side hplace => exact hupdate _ (by rw [hplace]; exact .expire)
  | accept side hplace => exact hupdate _ (by rw [hplace]; exact .accept)
  | giveUp hplace => exact hupdate _ (by rw [hplace]; exact .giveUp)

/-- A thread that was given the lock stays until one of its calls has it. -/
theorem Step.given (hhanded : (s.place u).ticket = .handed) (hout : (s'.place u).ticket = .outside) :
    ∃ side, s.place u = .granted side ∧ s'.held side u = s.held side u+1 := by
  by_cases hu : u=t
  · subst hu
    cases hstep with
    | accept side hplace => exact ⟨side,hplace,by simp [count_apply]⟩
    | take side hplace hadmits | join side hplace | unlock side hplace hheld | release side hplace
    | give own side ts hplace hnodup hts hadmits hone | expire side hplace | giveUp hplace =>
      rw [hplace] at hhanded
      cases hhanded
    | pick side ts hts | letIn ts hnodup hts hadmits =>
      simp only [moveAll] at hout
      split_ifs at hout
      · cases hout
      · rw [hhanded] at hout
        cases hout
  · rcases hstep.place_of_ne hu with hsame | ⟨_,⟨_,hpicked⟩ | ⟨_,hgranted⟩⟩
    · rw [hsame,hhanded] at hout
      cases hout
    · rw [hpicked] at hout
      cases hout
    · rw [hgranted] at hout
      cases hout

end PS3Native.SharedHandOff
