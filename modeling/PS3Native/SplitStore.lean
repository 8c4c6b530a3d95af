import Mathlib.Data.Set.Basic

/-!
# A store kept in two copies

A store of values is simulated by two copies of it. Every write goes to one of the copies, and a
location whose last write went to one copy is out of date in the other one until it is copied
over. Programs write through effects: functions from what can be read to a list of writes.
-/
namespace PS3Native.SplitStore
open Function List

variable {ι α : Type}

structure Write (ι α : Type) where
  copy : Bool
  index : ι
  value : α
deriving DecidableEq, Repr

abbrev Copies (ι α : Type) := Bool → ι → α

abbrev Effect (ι α : Type) := Copies ι α → List (Write ι α)

/-- Each copy holds the stored value, except where the other one has been written later. -/
def Coherent (latest : ι → Option Bool) (s : Copies ι α) (m : ι → α) : Prop :=
  ∀ copy index, latest index≠some (!copy) → s copy index = m index

def Copies.sync (s : Copies ι α) (copy : Bool) (p : ι → Prop) [DecidablePred p] : Copies ι α :=
  fun c index => if c=copy ∧ p index then s (!copy) index else s c index

def Effect.ReadsOnly (e : Effect ι α) (reads : Set (Bool × ι)) : Prop :=
  ∀ s t : Copies ι α, (∀ copy index, (copy,index)∈reads → s copy index = t copy index) →
    e s = e t

theorem sync_congr (s : Copies ι α) (copy : Bool) {p q : ι → Prop} [DecidablePred p]
    [DecidablePred q] (h : ∀ index, p index ↔ q index) : s.sync copy p = s.sync copy q := by
  funext c index
  simp only [Copies.sync,h]

theorem sync_sync (s : Copies ι α) (copy : Bool) (p q : ι → Prop) [DecidablePred p]
    [DecidablePred q] : (s.sync copy p).sync copy q = s.sync copy fun index => p index ∨ q index := by
  funext c index
  simp only [Copies.sync]
  grind

theorem Coherent.sync {latest : ι → Option Bool} {s : Copies ι α} {m : ι → α}
    (h : Coherent latest s m) (copy : Bool) (p : ι → Prop) [DecidablePred p]
    (hp : ∀ index, p index → latest index = some (!copy)) :
    Coherent (fun index => if p index then none else latest index) (s.sync copy p) m := by
  intro c index hlatest
  rw [Copies.sync]
  by_cases hindex : p index
  · have hother : s (!copy) index = m index := by
      refine h _ _ ?_
      rw [hp index hindex]
      simp
    by_cases hc : c=copy
    · rw [if_pos ⟨hc,hindex⟩,hother]
    · have hc' : c = !copy := by
        cases hcopy : copy <;> cases hcc : c <;> simp [hcopy,hcc] at hc ⊢
      rw [if_neg fun hand => hc hand.1,hc',hother]
  · simp only [if_neg hindex] at hlatest
    rw [if_neg fun hand => hindex hand.2]
    exact h c index hlatest

section Writes

variable [DecidableEq ι]

def Copies.write (s : Copies ι α) (w : Write ι α) : Copies ι α :=
  update s w.copy (update (s w.copy) w.index w.value)

def Copies.exec (s : Copies ι α) (e : Effect ι α) : Copies ι α := (e s).foldl Copies.write s

/-- The effect on the store itself, which both copies alias. -/
def exec (m : ι → α) (e : Effect ι α) : ι → α :=
  (e fun _ => m).foldl (fun m w => update m w.index w.value) m

def mark (latest : ι → Option Bool) (copy : Bool) (index : ι) : ι → Option Bool :=
  update latest index (some copy)

theorem foldl_mark (latest : ι → Option Bool) (copy : Bool) (indices : List ι) :
    indices.foldl (fun latest index => mark latest copy index) latest =
      fun index => if index∈indices then some copy else latest index := by
  induction indices generalizing latest with
  | nil => simp
  | cons i indices ih =>
    rw [foldl_cons,ih]
    funext index
    simp only [mark,update_apply,mem_cons]
    grind

variable {latest : ι → Option Bool} {m : ι → α} {s : Copies ι α}

theorem Coherent.write (h : Coherent latest s m) (w : Write ι α) :
    Coherent (mark latest w.copy w.index) (s.write w) (update m w.index w.value) := by
  intro copy index hlatest
  rw [mark] at hlatest
  rw [Copies.write]
  by_cases hindex : index=w.index
  · subst hindex
    rw [update_self] at hlatest ⊢
    have hcopy : copy=w.copy := by
      cases hc : copy <;> cases hw : w.copy <;> simp [hc,hw] at hlatest ⊢
    rw [hcopy,update_self,update_self]
  · rw [update_of_ne hindex] at hlatest ⊢
    rw [← h copy index hlatest]
    by_cases hcopy : copy=w.copy
    · rw [hcopy,update_self,update_of_ne hindex]
    · rw [update_of_ne hcopy]

theorem Coherent.writes (h : Coherent latest s m) (ws : List (Write ι α)) :
    Coherent (ws.foldl (fun latest w => mark latest w.copy w.index) latest)
      (ws.foldl Copies.write s) (ws.foldl (fun m w => update m w.index w.value) m) := by
  induction ws generalizing latest s m with
  | nil => exact h
  | cons w ws ih => exact ih (h.write w)

/-- An effect that reads only what is up to date acts alike on the copies and on the store. -/
theorem Coherent.exec (h : Coherent latest s m) {e : Effect ι α} {reads : Set (Bool × ι)}
    (he : e.ReadsOnly reads)
    (hreads : ∀ copy index, (copy,index)∈reads → latest index≠some (!copy)) :
    Coherent ((e fun _ => m).foldl (fun latest w => mark latest w.copy w.index) latest)
      (s.exec e) (SplitStore.exec m e) := by
  have hsame : e s = e fun _ => m := he _ _ fun copy index hmem => h copy index (hreads _ _ hmem)
  rw [Copies.exec,hsame]
  exact h.writes _

def syncEffect (copy : Bool) (indices : List ι) : Effect ι α :=
  fun s => indices.map fun index => ⟨copy,index,s (!copy) index⟩

theorem exec_syncEffect (s : Copies ι α) (copy : Bool) (indices : List ι) :
    s.exec (syncEffect copy indices) = s.sync copy (·∈indices) := by
  suffices h : ∀ t : Copies ι α,
      (indices.map fun index => (⟨copy,index,s (!copy) index⟩ : Write ι α)).foldl Copies.write t =
        fun c index => if c=copy ∧ index∈indices then s (!copy) index else t c index from
    h s
  induction indices with
  | nil => simp
  | cons i indices ih =>
    intro t
    rw [map_cons,foldl_cons,ih]
    funext c index
    simp only [Copies.write,update_apply,mem_cons]
    grind

end Writes

end PS3Native.SplitStore
