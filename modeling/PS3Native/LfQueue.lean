import PS3Native.Schedule
import Mathlib.Data.List.Nodup

/-!
# `lf_queue`

Producers push nodes on a linked list with a compare-exchange of its head; a consumer takes the
whole list and reverses it in place. Nodes are freed with their slice, and their addresses used
again.
-/
namespace PS3Native.LfQueue
open Function List

abbrev Heap (A α : Type*) := A → Option (Option A × α)

/-- Where a thread is. `linked` is before the compare-exchange of `push`, and `failed` after one
that did not succeed; `slice k rev n head` has the slice of the exchange `k` with its first `n`
elements popped. -/
inductive Loc (A α : Type*)
  | idle
  | loaded (v : α) (oldv : Option A)
  | linked (item : A) (v : α) (oldv : Option A)
  | failed (item : A) (v : α) (oldv : Option A)
  | returned (wasEmpty : Bool)
  | observed
  | reversing (k : ℕ) (head prev : Option A)
  | slice (k : ℕ) (rev : Bool) (n : ℕ) (head : Option A)
  deriving DecidableEq

/-- `pushed` are the elements in the
order of their compare-exchanges, `queue` those since the last exchange, and `slices` what the
exchanges found. -/
structure State (A α τ : Type*) where
  heap : Heap A α
  head : Option A
  loc : τ → Loc A α
  pushed : List α
  queue : List α
  slices : List (τ × List α)

inductive Act (A α : Type*)
  | push (v : α) | popAll | popAllReversed | alloc (a : A) | next
  deriving DecidableEq

variable {A α τ : Type*}

section Step
variable [DecidableEq A] [DecidableEq τ] (s : State A α τ) (t : τ)

def State.go (l : Loc A α) : State A α τ := {s with loc := update s.loc t l}

def State.detach (l : Loc A α) : State A α τ :=
  {s with head := none, queue := [], slices := s.slices++[(t,s.queue)]}.go t l

def step (act : Act A α) : Option (State A α τ) :=
  match s.loc t, act with
  | .idle, .push v => some (s.go t (.loaded v s.head))
  | .loaded v oldv, .alloc a =>
    if s.heap a=none then
      some ({s with heap := update s.heap a (some (oldv,v))}.go t (.linked a v oldv))
    else none
  | .linked item v oldv, .next =>
    some (if s.head=oldv then
      {s with head := some item, pushed := s.pushed++[v], queue := s.queue++[v]}.go t
        (.returned oldv.isNone)
      else s.go t (.failed item v s.head))
  | .failed item v oldv, .next =>
    some ({s with heap := update s.heap item ((s.heap item).map (Prod.map (fun _ => oldv) id))}.go
      t (.linked item v oldv))
  | .returned _, .next => some (s.go t .idle)
  | .idle, .popAll => some (if s.head=none then s else s.go t .observed)
  | .observed, .next => some (s.detach t (.reversing s.slices.length none s.head))
  | .reversing k head prev, .next =>
    match prev with
    | none => some (s.go t (.slice k false 0 head))
    | some p => (s.heap p).map fun n =>
      {s with heap := update s.heap p (some (head,n.2))}.go t (.reversing k (some p) n.1)
  | .idle, .popAllReversed => some (s.detach t (.slice s.slices.length true 0 s.head))
  | .slice k rev n head, .next =>
    match head with
    | none => some (s.go t .idle)
    | some a => (s.heap a).map fun node =>
      {s with heap := update s.heap a none}.go t (.slice k rev (n+1) node.1)
  | _, _ => none

end Step

def initial (A α τ : Type*) : State A α τ := ⟨fun _ => none,none,fun _ => .idle,[],[],[]⟩

def Next [DecidableEq A] [DecidableEq τ] (s s' : State A α τ) : Prop :=
  ∃ t act, step s t act = some s'

def Reachable [DecidableEq A] [DecidableEq τ] (s : State A α τ) : Prop :=
  Relation.ReflTransGen Next (initial A α τ) s

/-- The nodes from a pointer to null, all in `P`. -/
def Chain (heap : Heap A α) (P : A → Prop) : Option A → List (A × α) → Prop
  | p, [] => p=none
  | p, (a,v)::l => p = some a ∧ P a ∧ ∃ link, heap a = some (link,v) ∧ Chain heap P link l

variable {heap heap' : Heap A α} {P Q : A → Prop} {p : Option A} {l : List (A × α)}

theorem Chain.frame (h : Chain heap P p l)
    (hframe : ∀ n∈l, P n.1 → heap n.1≠none → heap' n.1 = heap n.1 ∧ Q n.1) : Chain heap' Q p l := by
  induction l generalizing p with
  | nil => exact h
  | cons n l ih =>
    obtain ⟨hp,hn,link,hlink,hrest⟩ := h
    obtain ⟨hheap,hq⟩ := hframe n (by simp) hn (by simp [hlink])
    exact ⟨hp,hq,link,hheap.trans hlink,ih hrest fun m hm => hframe m (by simp [hm])⟩

theorem Chain.update [DecidableEq A] {a : A} {x : Option (Option A × α)} (h : Chain heap P p l)
    (ha : a∉l.map Prod.fst) : Chain (Function.update heap a x) P p l := by
  refine h.frame fun n hn hP _ => ⟨update_of_ne ?_ ..,hP⟩
  rintro rfl
  exact ha (mem_map.mpr ⟨n,hn,rfl⟩)

theorem Chain.mem (h : Chain heap P p l) {n : A × α} (hn : n∈l) : P n.1 := by
  induction l generalizing p with
  | nil => cases hn
  | cons m l ih =>
    obtain ⟨-,hm,link,-,hrest⟩ := h
    rcases mem_cons.mp hn with rfl | hn
    · exact hm
    · exact ih hrest hn

theorem Chain.eq_nil_iff (h : Chain heap P p l) : l=[] ↔ p=none := by
  cases l with
  | nil => exact iff_of_true rfl h
  | cons n l => simp [h.1]

theorem Chain.cons_inv {a : A} (h : Chain heap P (some a) l) :
    ∃ v link l', l = (a,v)::l' ∧ P a ∧ heap a = some (link,v) ∧ Chain heap P link l' := by
  cases l with
  | nil => cases h
  | cons n l =>
    obtain ⟨hp,hn,link,hlink,hrest⟩ := h
    obtain rfl := Option.some.inj hp
    exact ⟨n.2,link,l,rfl,hn,hlink,hrest⟩

def Spells (heap : Heap A α) (p : Option A) (vs : List α) : Prop :=
  ∃ l, Chain heap (fun _ => True) p l ∧ l.map Prod.snd=vs

theorem Chain.spells (h : Chain heap P p l) : Spells heap p (l.map Prod.snd) :=
  ⟨l,h.frame fun _ _ _ _ => ⟨rfl,trivial⟩,rfl⟩

def LocOk (heap : Heap A α) (own : A → Option τ) (slices : List (τ × List α)) (t : τ) :
    Loc A α → Prop
  | .linked item v oldv => own item = some t ∧ heap item = some (oldv,v)
  | .failed item v _ => own item = some t ∧ ∃ link, heap item = some (link,v)
  | .reversing k head prev => ∃ xs ys, Chain heap (own · = some t) head xs ∧
      Chain heap (own · = some t) prev ys ∧ ((ys.reverse++xs).map Prod.fst).Nodup ∧
      slices[k]? = some (t,(ys.reverse++xs).map Prod.snd)
  | .slice k rev n head => ∃ l c, Chain heap (own · = some t) head l ∧ (l.map Prod.fst).Nodup ∧
      slices[k]? = some (t,c) ∧ l.map Prod.snd = (if rev then c.reverse else c).drop n
  | _ => True

structure Owned (s : State A α τ) (own : A → Option τ) : Prop where
  queue : ∃ l, Chain s.heap (own · = none) s.head l ∧ (l.map Prod.fst).Nodup ∧
    l.map Prod.snd=s.queue.reverse
  loc : ∀ t, LocOk s.heap own s.slices t (s.loc t)
  pushed : s.pushed = s.slices.flatMap Prod.snd++s.queue

variable {own own' : A → Option τ} {slices slices' : List (τ × List α)} {t : τ} {s s' : State A α τ}
  {loc : Loc A α}

theorem LocOk.frame (h : LocOk heap own slices t loc)
    (hframe : ∀ a, own a = some t → heap a≠none → heap' a = heap a ∧ own' a = some t)
    (hslices : ∀ (k : ℕ) c, slices[k]? = some c → slices'[k]? = some c) :
    LocOk heap' own' slices' t loc := by
  cases loc with
  | linked item v oldv =>
    obtain ⟨hown,hitem⟩ := h
    obtain ⟨hheap,hown⟩ := hframe item hown (by simp [hitem])
    exact ⟨hown,hheap.trans hitem⟩
  | failed item v oldv =>
    obtain ⟨hown,link,hitem⟩ := h
    obtain ⟨hheap,hown⟩ := hframe item hown (by simp [hitem])
    exact ⟨hown,link,hheap.trans hitem⟩
  | reversing k head prev =>
    obtain ⟨xs,ys,hxs,hys,hnodup,hk⟩ := h
    exact ⟨xs,ys,hxs.frame fun n _ => hframe n.1,hys.frame fun n _ => hframe n.1,hnodup,
      hslices k _ hk⟩
  | slice k rev n head =>
    obtain ⟨l,c,hl,hnodup,hk,hc⟩ := h
    exact ⟨l,c,hl.frame fun n _ => hframe n.1,hnodup,hslices k _ hk,hc⟩
  | _ => trivial

variable [DecidableEq τ]

/-- Nodes of other threads stay as they are when `t` moves. -/
theorem Owned.locs (h : Owned s own)
    (hframe : ∀ u≠t, ∀ a, own a = some u → s.heap a≠none → heap' a = s.heap a ∧ own' a = some u)
    (hslices : ∀ (k : ℕ) c, s.slices[k]? = some c → slices'[k]? = some c)
    (hloc : LocOk heap' own' slices' t loc) (u : τ) :
    LocOk heap' own' slices' u (update s.loc t loc u) := by
  by_cases hu : u=t
  · subst hu
    rwa [update_self]
  · rw [update_of_ne hu]
    exact (h.loc u).frame (hframe u hu) hslices

theorem Owned.go (h : Owned s own) (hloc : LocOk s.heap own s.slices t loc) :
    Owned (s.go t loc) own :=
  ⟨h.queue,h.locs (fun _ _ _ ha _ => ⟨rfl,ha⟩) (fun _ _ hk => hk) hloc,h.pushed⟩

/-- The nodes of the queue go to the thread that takes them. -/
theorem Owned.detach (h : Owned s own)
    (hloc : ∀ l own', Chain s.heap (own' · = some t) s.head l → (l.map Prod.fst).Nodup →
      l.map Prod.snd=s.queue.reverse → LocOk s.heap own' (s.slices++[(t,s.queue)]) t loc) :
    ∃ own', Owned (s.detach t loc) own' := by
  obtain ⟨l,hl,hnodup,hqueue⟩ := h.queue
  refine ⟨fun a => (own a).or (some t),⟨[],rfl,.nil,rfl⟩,
    h.locs ?_ ?_ (hloc l _ ?_ hnodup hqueue),by simp [State.detach,State.go,h.pushed]⟩
  · intro u hu a ha _
    exact ⟨rfl,by simp [ha]⟩
  · intro k c hk
    obtain ⟨hlt,-⟩ := List.getElem?_eq_some_iff.mp hk
    exact (getElem?_append_left hlt).trans hk
  · exact hl.frame fun n _ hn _ => ⟨rfl,by simp [hn]⟩

variable [DecidableEq A]

/-- A write to a node of `t`, or to a free one that becomes a node of `t`. -/
theorem Owned.write {a : A} {x : Option (Option A × α)} (h : Owned s own)
    (ha : own a = some t ∨ s.heap a=none) (hother : ∀ b≠a, own' b = own b)
    (hloc : LocOk (update s.heap a x) own' s.slices t loc) :
    Owned ({s with heap := update s.heap a x}.go t loc) own' := by
  have hframe : ∀ i≠some t, ∀ b, own b=i → s.heap b≠none →
      update s.heap a x b = s.heap b ∧ own' b=i := by
    intro i hi b hb hlive
    have hne : b≠a := by
      rintro rfl
      rcases ha with ha | ha
      · exact hi (hb.symm.trans ha)
      · exact hlive ha
    rw [update_of_ne hne,hother b hne]
    exact ⟨rfl,hb⟩
  obtain ⟨l,hl,hnodup,hqueue⟩ := h.queue
  exact ⟨⟨l,hl.frame fun n _ => hframe none (by simp) n.1,hnodup,hqueue⟩,
    h.locs (fun u hu => hframe _ (by simpa using hu)) (fun _ _ hk => hk) hloc,h.pushed⟩

/-- The link of a node is the head that its compare-exchange replaces. -/
theorem Owned.cas {item : A} {v : α} (h : Owned s own) (hown : own item = some t)
    (hitem : s.heap item = some (s.head,v)) (b : Bool) :
    Owned ({s with head := some item, pushed := s.pushed++[v], queue := s.queue++[v]}.go t
      (.returned b)) (update own item none) := by
  have hframe : ∀ i≠some t, ∀ b, own b=i → update own item none b=i := by
    intro i hi b hb
    rw [update_of_ne,hb]
    rintro rfl
    exact hi (hb.symm.trans hown)
  obtain ⟨l,hl,hnodup,hqueue⟩ := h.queue
  refine ⟨⟨(item,v)::l,⟨rfl,update_self ..,s.head,hitem,?_⟩,?_, by simp [hqueue,State.go]⟩,
    h.locs (fun u hu a ha _ => ⟨rfl,hframe _ (by simpa using hu) a ha⟩) (fun _ _ hk => hk) trivial,
    by simp [State.go,h.pushed]⟩
  · exact hl.frame fun n _ hn _ => ⟨rfl,hframe none (by simp) n.1 hn⟩
  · rw [map_cons,nodup_cons,mem_map]
    refine ⟨?_,hnodup⟩
    rintro ⟨n,hn,rfl⟩
    cases hown.symm.trans (hl.mem hn)

/-- One turn of the loop of `reverse`. -/
theorem Owned.reverse {k : ℕ} {head link : Option A} {a : A} {v : α} (h : Owned s own)
    (hok : LocOk s.heap own s.slices t (.reversing k head (some a)))
    (ha : s.heap a = some (link,v)) :
    Owned ({s with heap := update s.heap a (some (head,v))}.go t (.reversing k (some a) link))
      own := by
  obtain ⟨xs,_,hxs,hys,hnodup,hk⟩ := hok
  obtain ⟨v',link',ys,rfl,hown,ha',hys⟩ := hys.cons_inv
  obtain ⟨rfl,rfl⟩ := Prod.mk.inj (Option.some.inj (ha'.symm.trans ha))
  have hshift : ((a,v')::ys).reverse++xs = ys.reverse++(a,v')::xs := by simp
  rw [hshift] at hnodup hk
  have hfresh : a∉ys.map Prod.fst ∧ a∉xs.map Prod.fst := by
    rw [map_append,map_cons,nodup_middle,nodup_cons] at hnodup
    simpa [not_or] using hnodup.1
  exact h.write (.inl hown) (fun _ _ => rfl) ⟨(a,v')::xs,ys,
    ⟨rfl,hown,head,update_self ..,hxs.update hfresh.2⟩,hys.update hfresh.1,hnodup,hk⟩

theorem Owned.pop {k n : ℕ} {rev : Bool} {a : A} {node : Option A × α} (h : Owned s own)
    (hok : LocOk s.heap own s.slices t (.slice k rev n (some a))) (ha : s.heap a = some node) :
    Owned ({s with heap := update s.heap a none}.go t (.slice k rev (n+1) node.1)) own := by
  obtain ⟨_,c,hl,hnodup,hk,hc⟩ := hok
  obtain ⟨v,link,l,rfl,hown,ha',hl⟩ := hl.cons_inv
  obtain rfl := Option.some.inj (ha'.symm.trans ha)
  rw [map_cons,nodup_cons] at hnodup
  refine h.write (.inl hown) (fun _ _ => rfl) ⟨l,c,hl.update hnodup.1,hnodup.2,hk,?_⟩
  rw [← tail_drop,← hc,map_cons,tail_cons]

theorem Owned.step {act : Act A α} (h : Owned s own) (hstep : step s t act = some s') :
    ∃ own', Owned s' own' := by
  have hok := h.loc t
  unfold LfQueue.step at hstep
  split at hstep
  next v hloc =>
    cases hstep
    exact ⟨own,h.go trivial⟩
  next v oldv a hloc =>
    split_ifs at hstep with ha
    cases hstep
    exact ⟨_,h.write (.inr ha) (fun b hb => update_of_ne hb (some t) own)
      ⟨update_self ..,update_self ..⟩⟩
  next item v oldv hloc =>
    rw [hloc] at hok
    cases hstep
    split_ifs with hhead
    · subst hhead
      exact ⟨_,h.cas hok.1 hok.2 _⟩
    · exact ⟨own,h.go ⟨hok.1,_,hok.2⟩⟩
  next item v oldv hloc =>
    rw [hloc] at hok
    obtain ⟨hown,link,hitem⟩ := hok
    cases hstep
    exact ⟨own,h.write (.inl hown) (fun _ _ => rfl) ⟨hown,by simp [hitem]⟩⟩
  next b hloc =>
    cases hstep
    exact ⟨own,h.go trivial⟩
  next hloc =>
    cases hstep
    split_ifs
    · exact ⟨own,h⟩
    · exact ⟨own,h.go trivial⟩
  next hloc =>
    cases hstep
    exact h.detach fun l own' hl hnodup hqueue => ⟨[],l,rfl,hl,by simpa using hnodup,by
      simp [hqueue]⟩
  next k head prev hloc =>
    rw [hloc] at hok
    cases prev with
    | none =>
      obtain ⟨xs,ys,hxs,hys,hnodup,hk⟩ := hok
      obtain rfl := hys.eq_nil_iff.mpr rfl
      cases hstep
      exact ⟨own,h.go ⟨xs,_,hxs,by simpa using hnodup,hk,by simp⟩⟩
    | some a =>
      obtain ⟨node,ha,rfl⟩ := Option.map_eq_some_iff.mp hstep
      exact ⟨own,h.reverse hok ha⟩
  next hloc =>
    cases hstep
    exact h.detach fun l _ hl hnodup hqueue => ⟨l,s.queue,hl,hnodup,by simp,by simp [hqueue]⟩
  next k rev n head hloc =>
    rw [hloc] at hok
    cases head with
    | none =>
      cases hstep
      exact ⟨own,h.go trivial⟩
    | some a =>
      obtain ⟨node,ha,rfl⟩ := Option.map_eq_some_iff.mp hstep
      exact ⟨own,h.pop hok ha⟩
  next => cases hstep

structure Correct (s : State A α τ) : Prop where
  /-- The elements pushed so far are those of the slices, in the order of the exchanges, and
  those still queued. -/
  delivered : s.pushed = s.slices.flatMap Prod.snd++s.queue
  queued : Spells s.heap s.head s.queue.reverse
  /-- A thread finds in its slice the elements of its own exchange that it has not popped. -/
  sliced : ∀ t k rev n head, s.loc t = .slice k rev n head → ∃ c, s.slices[k]? = some (t,c) ∧
    Spells s.heap head ((if rev then c.reverse else c).drop n)
  /-- The loop of `pop_all` comes to its end. -/
  returns : ∀ t k head prev, s.loc t = .reversing k head prev → ∃ s' head',
    Relation.ReflTransGen (fun s s' => step s t .next = some s') s s' ∧
      s'.loc t = .slice k false 0 head'
  /-- What `push` returns after the compare-exchange that succeeds. -/
  push : ∀ t item v oldv s' b, s.loc t = .linked item v oldv → step s t .next = some s' →
    s'.loc t = .returned b → (b=true ↔ s.queue=[])

theorem Chain.returns {k : ℕ} {head : Option A} (h : Chain s.heap P p l)
    (hnodup : (l.map Prod.fst).Nodup) (hloc : s.loc t = .reversing k head p) : ∃ s' head',
      Relation.ReflTransGen (fun s s' => step s t .next = some s') s s' ∧
        s'.loc t = .slice k false 0 head' := by
  induction l generalizing s p head with
  | nil =>
    obtain rfl : p=none := h
    exact ⟨s.go t (.slice k false 0 head),head,.single (by simp [step,hloc]),update_self ..⟩
  | cons n l ih =>
    obtain ⟨rfl,-,link,hlink,hl⟩ := h
    rw [map_cons,nodup_cons] at hnodup
    obtain ⟨s',head',hrun,hs'⟩ := ih (s := { s with
        heap := Function.update s.heap n.1 (some (head,n.2)) }.go t (.reversing k (some n.1) link))
      (hl.update hnodup.1) hnodup.2 (update_self ..)
    exact ⟨s',head',.head (by simp [step,hloc,hlink]) hrun,hs'⟩

theorem Reachable.owned (h : Reachable s) : ∃ own, Owned s own := by
  induction h with
  | refl => exact ⟨fun _ => none,⟨[],rfl,.nil,rfl⟩,fun _ => trivial,rfl⟩
  | tail _ hnext ih =>
    obtain ⟨own,h⟩ := ih
    obtain ⟨t,act,hstep⟩ := hnext
    exact h.step hstep

/-- In every interleaving of pushes and pops the elements are delivered once and in order. -/
theorem lf_queue_correct (h : Reachable s) : Correct s := by
  obtain ⟨own,h⟩ := h.owned
  obtain ⟨l,hl,-,hqueue⟩ := h.queue
  refine ⟨h.pushed,hqueue ▸ hl.spells,?_,?_,?_⟩
  · intro t k rev n head hloc
    have hok := h.loc t
    rw [hloc] at hok
    obtain ⟨l,c,hl,-,hk,hc⟩ := hok
    exact ⟨c,hk,hc ▸ hl.spells⟩
  · intro t k head prev hloc
    have hok := h.loc t
    rw [hloc] at hok
    obtain ⟨xs,ys,-,hys,hnodup,-⟩ := hok
    rw [map_append,map_reverse] at hnodup
    exact hys.returns (nodup_reverse.mp hnodup.of_append_left) hloc
  · intro t item v oldv s' b hloc hstep hreturned
    simp only [step,hloc,Option.some.injEq] at hstep
    subst hstep
    split_ifs at hreturned with hhead
    · obtain rfl : oldv.isNone=b := by simpa [State.go] using hreturned
      rw [Option.isNone_iff_eq_none,← hhead,← hl.eq_nil_iff,← map_eq_nil_iff,hqueue,
        reverse_eq_nil_iff]
    · simp [State.go] at hreturned

theorem lf_queue_correct_reused_address :
    ∃ s : State ℕ ℕ Bool, s.slices = [(false,[1]),(false,[3,2])] ∧ Correct s := by
  have hrun : (Schedule.run (fun (s : State ℕ ℕ Bool) (c : Bool × Act ℕ ℕ) => step s c.1 c.2)
      (initial ℕ ℕ Bool) [(false,.push 1),(false,.alloc 0),(false,.next),(false,.next),
        (true,.push 2),(true,.alloc 1),(false,.popAllReversed),(false,.next),(false,.next),
        (false,.push 3),(false,.alloc 0),(false,.next),(true,.next),(false,.next),
        (false,.popAll),(false,.next),(false,.next),(false,.next),(false,.next)]).map
      (fun s => s.slices) = some [(false,[1]),(false,[3,2])] := by decide
  obtain ⟨s,hreach,hs⟩ := Schedule.exists_of_run (R := Next) (fun s c s' hstep =>
    ⟨c.1,c.2,hstep⟩) hrun
  exact ⟨s,hs,lf_queue_correct hreach⟩

end PS3Native.LfQueue
