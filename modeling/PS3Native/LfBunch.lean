import PS3Native.Interleaving

/-!
# Conditional insertion into an `lf_bunch`

An item stays linked, so it is known by its place in the chain, counted from the oldest one, and the
place below it is its link. The null pointer is place 0 and the head is the place of the newest item.
-/
namespace PS3Native.LfBunch
open Interleaving List

variable {T τ : Type*}

inductive Call (T : Type*)
  | push (item : T)
  | pushIf (pred : T → T → Bool) (item : T)

inductive Loc (T : Type*)
  | idle
  | push (item : T) (old : ℕ)
  /-- In the loop over the items from `old` down to `chk`. -/
  | check (pred : T → T → Bool) (item : T) (old chk ptr : ℕ)
  | exchange (pred : T → T → Bool) (item : T) (old : ℕ)

/-- What `push_if` returns, with the items that are linked then. -/
inductive Event (T : Type*)
  | added (pred : T → T → Bool) (item : T) (items : List T)
  | refused (pred : T → T → Bool) (item : T) (items : List T)

def program : Program (List T) (Loc T) (Option (Call T)) (Event T)
  | items,.idle,some (.push item) => some (items,.push item items.length,[])
  | items,.idle,some (.pushIf pred item) =>
    some (items,.check pred item items.length 0 items.length,[])
  | items,.push item old,none =>
    if items.length=old then some (items++[item],.idle,[])
    else some (items,.push item items.length,[])
  | items,.check pred item old chk ptr,none =>
    if ptr=chk then some (items,.exchange pred item old,[])
    else items[ptr-1]?.map fun linked =>
      if pred item linked then (items,.check pred item old chk (ptr-1),[])
      else (items,.idle,[.refused pred item items])
  | items,.exchange pred item old,none =>
    if items.length=old then some (items++[item],.idle,[.added pred item items])
    else some (items,.check pred item items.length old items.length,[])
  | _,_,_ => none

def Event.Sound : Event T → Prop
  | .added pred item items => ∀ linked∈items, pred item linked
  | .refused pred item items => ∃ linked∈items, pred item linked=false

/-- The items below place `n` that are outside of the places from `lo` to `hi` have passed. -/
def Passed (pred : T → T → Bool) (item : T) (items : List T) (n lo hi : ℕ) : Prop :=
  ∀ k < n, (k < lo ∨ hi ≤ k) → ∀ linked, items[k]? = some linked → pred item linked

def Loc.Fits (items : List T) : Loc T → Prop
  | .check pred item old chk ptr => chk ≤ ptr ∧ ptr ≤ old ∧ old ≤ items.length ∧
      Passed pred item items old chk ptr
  | .exchange pred item old => old ≤ items.length ∧ Passed pred item items old 0 0
  | _ => True

theorem Passed.append {pred : T → T → Bool} {item : T} {items : List T} {n lo hi : ℕ}
    (h : Passed pred item items n lo hi) (hn : n ≤ items.length) (new : T) :
    Passed pred item (items++[new]) n lo hi := by
  intro k hk hplace linked hlinked
  rw [getElem?_append_left (by omega)] at hlinked
  exact h k hk hplace linked hlinked

theorem Loc.Fits.append {items : List T} {l : Loc T} (h : l.Fits items) (new : T) :
    l.Fits (items++[new]) := by
  have hle : items.length ≤ (items++[new]).length := by simp
  cases l with
  | check =>
    obtain ⟨hchk,hptr,hold,hpassed⟩ := h
    exact ⟨hchk,hptr,hold.trans hle,hpassed.append hold new⟩
  | exchange =>
    obtain ⟨hold,hpassed⟩ := h
    exact ⟨hold.trans hle,hpassed.append hold new⟩
  | _ => trivial

/-- What one step leaves: the chain, or the chain with a new item, a place that fits to it, and sound
events. -/
theorem program_spec {items items' : List T} {l l' : Loc T} {input : Option (Call T)}
    {events : List (Event T)} (h : l.Fits items)
    (hstep : program items l input = some (items',l',events)) :
    (items'=items ∨ ∃ new, items' = items++[new]) ∧ l'.Fits items' ∧ ∀ e∈events, e.Sound := by
  unfold program at hstep
  split at hstep
  · cases hstep
    exact ⟨.inl rfl,trivial,by simp⟩
  · cases hstep
    refine ⟨.inl rfl,⟨Nat.zero_le _,le_rfl,le_rfl,?_⟩,by simp⟩
    intro k hk hplace
    omega
  · split at hstep
    · cases hstep
      exact ⟨.inr ⟨_,rfl⟩,trivial,by simp⟩
    · cases hstep
      exact ⟨.inl rfl,trivial,by simp⟩
  · next pred item old chk ptr =>
    obtain ⟨hchk,hptr,hold,hpassed⟩ := h
    split at hstep
    · cases hstep
      exact ⟨.inl rfl,⟨hold,fun k hk _ => hpassed k hk (by omega)⟩,by simp⟩
    · obtain ⟨linked,hlinked,hnext⟩ := Option.map_eq_some_iff.mp hstep
      cases hpred : pred item linked with
      | true =>
        rw [if_pos hpred] at hnext
        cases hnext
        refine ⟨.inl rfl,⟨by omega,by omega,hold,fun k hk hplace => ?_⟩,by simp⟩
        by_cases heq : k = ptr-1
        · intro linked' hlinked'
          rw [heq,hlinked] at hlinked'
          cases hlinked'
          exact hpred
        · exact hpassed k hk (by omega)
      | false =>
        rw [if_neg (ne_true_of_eq_false hpred)] at hnext
        cases hnext
        exact ⟨.inl rfl,trivial,by simpa [Event.Sound] using ⟨linked,mem_of_getElem? hlinked,hpred⟩⟩
  · next pred item old =>
    obtain ⟨hold,hpassed⟩ := h
    split at hstep
    · next heq =>
      cases hstep
      refine ⟨.inr ⟨item,rfl⟩,trivial,?_⟩
      simp only [mem_singleton,forall_eq]
      intro linked hlinked
      obtain ⟨k,hk,hget⟩ := mem_iff_getElem.mp hlinked
      exact hpassed k (heq ▸ hk) (.inr (Nat.zero_le k)) linked (hget ▸ getElem?_eq_getElem hk)
    · cases hstep
      exact ⟨.inl rfl,⟨hold,le_rfl,le_rfl,fun k hk hplace =>
        hpassed k (by omega) (.inr (Nat.zero_le k))⟩,by simp⟩
  · cases hstep

variable [DecidableEq τ]

/-- In every interleaving of `push` and `push_if`, an element that was added satisfies its predicate
against the elements linked before, and one that was refused fails it against a linked one. -/
theorem pushIf_never_conflicts (schedule : List (τ × Option (Call T)))
    {s : System (List T) (Loc T) (Event T) τ}
    (hrun : run program ⟨[],fun _ => .idle,[]⟩ schedule = some s) : ∀ e∈s.log, e.Sound := by
  have hinv : (∀ t, (s.thread t).Fits s.shared) ∧ ∀ e∈s.log, e.Sound := by
    refine @run_invariant _ _ _ _ τ _ _
      (fun s => (∀ t, (s.thread t).Fits s.shared) ∧ ∀ e∈s.log, e.Sound) ?_ _ _ _
      ⟨fun _ => trivial,by simp⟩ hrun
    intro s t input items l events hs hstep
    obtain ⟨hitems,hl,hevents⟩ := program_spec (hs.1 t) hstep
    have hothers : ∀ u, (s.thread u).Fits items := by
      intro u
      rcases hitems with rfl | ⟨new,rfl⟩
      · exact hs.1 u
      · exact (hs.1 u).append new
    exact ⟨forall_update hothers hl,forall_mem_append.mpr ⟨hs.2,hevents⟩⟩
  exact hinv.2

/-- Two threads race to add a 4 behind a 3: the loser checks again and finds the 4 of the other. -/
def racedRun : List (Bool × Option (Call ℕ)) :=
  (false,some (.push 3)) :: (false,none) :: (false,some (.pushIf (· != ·) 4)) ::
    (true,some (.pushIf (· != ·) 4)) :: [false,true,false,true,false,true,true].map (·,none)

theorem pushIf_never_conflicts_raced :
    ∃ s, run program ⟨[],fun _ => .idle,[]⟩ racedRun = some s ∧ s.shared = [3,4] ∧
      s.log.length=2 ∧ ∀ e∈s.log, e.Sound := by
  have hrun : ((run program ⟨[],fun _ => .idle,[]⟩ racedRun).map fun s => (s.shared,s.log.length)) =
      some ([3,4],2) := by decide
  obtain ⟨s,hs,hfacts⟩ := Option.map_eq_some_iff.mp hrun
  simp only [Prod.mk.injEq] at hfacts
  exact ⟨s,hs,hfacts.1,hfacts.2,pushIf_never_conflicts _ hs⟩

end PS3Native.LfBunch
