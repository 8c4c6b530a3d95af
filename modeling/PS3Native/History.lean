import Mathlib.Data.List.Basic

/-!
# Sequential histories

A sequential object is a partial function from a state and an event to the next state. A history
is legal when it can be replayed.
-/
namespace PS3Native.History

variable {σ ε α : Type*}

def replay (apply : σ → ε → Option σ) : σ → List ε → Option σ
  | state, [] => some state
  | state, event::history => (apply state event).bind fun state => replay apply state history

theorem replay_concat {apply : σ → ε → Option σ} {state state' : σ} {history : List ε}
    (h : replay apply state history = some state') (event : ε) :
    replay apply state (history++[event]) = apply state' event := by
  induction history generalizing state with
  | nil =>
    cases h
    simp [replay]
  | cons first history ih =>
    obtain ⟨next,hfirst,h⟩ := Option.bind_eq_some_iff.mp h
    rw [List.cons_append,replay,hfirst,Option.bind_some,ih h]

inductive QueueEvent (α : Type*)
  | push (a : α)
  | pop (a : α)
  | peek (a : α)
  | clear
  deriving DecidableEq

def queue [DecidableEq α] (contents : List α) : QueueEvent α → Option (List α)
  | .push a => some (contents++[a])
  | .pop a => if contents.head? = some a then some contents.tail else none
  | .peek a => if contents.head? = some a then some contents else none
  | .clear => some []

/-- A queue that holds at most `capacity` values: a push onto a full one overwrites the newest. -/
def boundedQueue [DecidableEq α] (capacity : ℕ) (contents : List α) : QueueEvent α → Option (List α)
  | .push a => some (if contents.length < capacity then contents++[a] else contents.dropLast++[a])
  | event => queue contents event

def pushedOf : List (QueueEvent α) → List α
  | [] => []
  | .push a::history => a::pushedOf history
  | _::history => pushedOf history

def poppedOf : List (QueueEvent α) → List α
  | [] => []
  | .pop a::history => a::poppedOf history
  | _::history => poppedOf history

theorem pushedOf_append (l r : List (QueueEvent α)) : pushedOf (l++r) = pushedOf l++pushedOf r := by
  induction l with
  | nil => rfl
  | cons event l ih => cases event <;> simp [pushedOf,ih]

theorem poppedOf_append (l r : List (QueueEvent α)) : poppedOf (l++r) = poppedOf l++poppedOf r := by
  induction l with
  | nil => rfl
  | cons event l ih => cases event <;> simp [poppedOf,ih]

inductive RegisterEvent (α : Type*)
  | read (a : α)
  | write (a : α)
  deriving DecidableEq

def register [DecidableEq α] (value : α) : RegisterEvent α → Option α
  | .read a => if value=a then some value else none
  | .write a => some a

end PS3Native.History
