import Mathlib.Data.List.Infix

/-!
# Structured code

Straight-line code with nested two-way branches, loops and breaks, laid out at consecutive
addresses. Its runs are lists of executed addresses in which a loop back edge is marked; the
pairs of addresses that some run executes one right after the other are computed by `flow`.
-/
namespace PS3Native.StructuredCode
open List

/-- Code up to the end of the enclosing body. A `nop` or `plain` instruction is followed by
`literals` words of data, and every other instruction is one word. -/
inductive Code
  | done
  | nop (literals : ℕ) (rest : Code)
  | plain (literals : ℕ) (rest : Code)
  | brk (rest : Code)
  | branch (yes no rest : Code)
  | loop (body rest : Code)
deriving DecidableEq, Repr

namespace Code

def size : Code → ℕ
  | done => 0
  | nop literals rest => 1+literals+rest.size
  | plain literals rest => 1+literals+rest.size
  | brk rest => 1+rest.size
  | branch yes no rest => 1+yes.size+no.size+rest.size
  | loop body rest => 1+body.size+rest.size

/-- The first address at or after `a` that the code executes, if it executes any. -/
def first (a : ℕ) : Code → Option ℕ
  | done => none
  | nop literals rest => rest.first (a+1+literals)
  | plain _ _ | brk _ | branch _ _ _ | loop _ _ => some a

theorem size_eq_zero {c : Code} : c.size=0 ↔ c=done := by
  cases c <;> simp [size]

theorem size_pos {c : Code} (h : c≠done) : 0 < c.size :=
  Nat.pos_of_ne_zero fun hsize => h (size_eq_zero.mp hsize)

def addresses (a : ℕ) : Code → List ℕ
  | done => []
  | nop literals rest => rest.addresses (a+1+literals)
  | plain literals rest => a::rest.addresses (a+1+literals)
  | brk rest => a::rest.addresses (a+1)
  | branch yes no rest =>
    a::yes.addresses (a+1)++no.addresses (a+1+yes.size) ++
      rest.addresses (a+1+yes.size+no.size)
  | loop body rest => a::body.addresses (a+1)++rest.addresses (a+1+body.size)

def Filled : Code → Prop
  | done => True
  | nop _ rest | plain _ rest | brk rest => rest.Filled
  | branch yes no rest => 0 < yes.size+no.size ∧ yes.Filled ∧ no.Filled ∧ rest.Filled
  | loop body rest => 0 < body.size ∧ body.Filled ∧ rest.Filled

end Code

/-- What a run does: it executes the instruction at an address, or takes a loop back edge. -/
inductive Event
  | instr (address : ℕ)
  | back
deriving DecidableEq, Repr

inductive Outcome
  | finished | broke
deriving DecidableEq, Repr

/-- `Runs false a c t o`: code `c` at address `a` can run with trace `t` and outcome `o`.
`Runs true a c t o`: so can any number of turns of a loop with body `c` at `a`. Conditions and
trip counts are not interpreted, so a branch may go either way and a loop may leave at any turn. -/
inductive Runs : Bool → ℕ → Code → List Event → Outcome → Prop
  | done {a} : Runs false a .done [] .finished
  | nop {a literals rest t o} : Runs false (a+1+literals) rest t o →
      Runs false a (.nop literals rest) t o
  | plain {a literals rest t o} : Runs false (a+1+literals) rest t o →
      Runs false a (.plain literals rest) (.instr a::t) o
  | brkTaken {a rest} : Runs false a (.brk rest) [.instr a] .broke
  | brkSkipped {a rest t o} : Runs false (a+1) rest t o →
      Runs false a (.brk rest) (.instr a::t) o
  | yesFinished {a yes no rest t u o} : Runs false (a+1) yes t .finished →
      Runs false (a+1+yes.size+no.size) rest u o →
      Runs false a (.branch yes no rest) (.instr a::(t++u)) o
  | yesBroke {a yes no rest t} : Runs false (a+1) yes t .broke →
      Runs false a (.branch yes no rest) (.instr a::t) .broke
  | noFinished {a yes no rest t u o} : Runs false (a+1+yes.size) no t .finished →
      Runs false (a+1+yes.size+no.size) rest u o →
      Runs false a (.branch yes no rest) (.instr a::(t++u)) o
  | noBroke {a yes no rest t} : Runs false (a+1+yes.size) no t .broke →
      Runs false a (.branch yes no rest) (.instr a::t) .broke
  | loop {a body rest t u o o'} : Runs true (a+1) body t o →
      Runs false (a+1+body.size) rest u o' →
      Runs false a (.loop body rest) (.instr a::(t++u)) o'
  | noTurn {a body} : Runs true a body [] .finished
  | lastTurn {a body t o} : Runs false a body t o → Runs true a body t o
  | turn {a body t u o} : Runs false a body t .finished → Runs true a body u o →
      Runs true a body (t++.back::u) o

def Consecutive (t : List Event) (x y : ℕ) : Prop := [Event.instr x,Event.instr y] <:+: t

def link (x : ℕ) (y : Option ℕ) : List (ℕ × ℕ) := y.toList.map (x,·)

variable {x y : ℕ} {t : List Event} {exit next : Option ℕ}

@[simp] theorem mem_link {u v : ℕ} {y : Option ℕ} : (u,v)∈link x y ↔ u=x ∧ y = some v := by
  simp [link,eq_comm,and_comm]

/-- The pairs of consecutively executed addresses of code at `a`, when what runs after it starts
at `next` and what runs after the enclosing loop starts at `exit`. -/
def flow (a : ℕ) (c : Code) (next exit : Option ℕ) : List (ℕ × ℕ) :=
  match c with
  | .done => []
  | .nop literals rest => flow (a+1+literals) rest next exit
  | .plain literals rest =>
    link a ((rest.first (a+1+literals)).or next)++flow (a+1+literals) rest next exit
  | .brk rest =>
    link a ((rest.first (a+1)).or next)++link a exit++flow (a+1) rest next exit
  | .branch yes no rest =>
    let after := (rest.first (a+1+yes.size+no.size)).or next
    link a ((yes.first (a+1)).or after)++link a ((no.first (a+1+yes.size)).or after) ++
      flow (a+1) yes after exit++flow (a+1+yes.size) no after exit ++
      flow (a+1+yes.size+no.size) rest next exit
  | .loop body rest =>
    let after := (rest.first (a+1+body.size)).or next
    link a ((body.first (a+1)).or after)++link a after++flow (a+1) body after after ++
      flow (a+1+body.size) rest next exit

theorem consecutive_cons {e : Event} : Consecutive (e::t) x y ↔
      (e = .instr x ∧ t.head? = some (.instr y)) ∨ Consecutive t x y := by
  unfold Consecutive
  rw [infix_cons_iff]
  refine or_congr_left ?_
  cases t <;> simp [eq_comm]

@[simp] theorem not_consecutive_nil : ¬ Consecutive [] x y := by
  simp [Consecutive]

theorem consecutive_append {s : List Event} :
    Consecutive (s++t) x y ↔ Consecutive s x y ∨ Consecutive t x y ∨
      (s.getLast? = some (.instr x) ∧ t.head? = some (.instr y)) := by
  induction s with
  | nil => simp
  | cons e s ih =>
    rw [cons_append,consecutive_cons,ih,consecutive_cons]
    cases s with
    | nil => simp; tauto
    | cons e' s => simp; tauto

def Outcome.resume (next exit : Option ℕ) : Outcome → Option ℕ
  | .finished => next
  | .broke => exit

namespace Runs

theorem head {b a c t o} (h : Runs b a c t o) (hb : b=false) :
    t.head? = (c.first a).map .instr := by
  induction h with
  | nop _ ih => exact ih hb
  | noTurn | lastTurn | turn => cases hb
  | _ => rfl

theorem head_turns {b a c t o y} (h : Runs b a c t o) (hb : b)
    (hy : t.head? = some (.instr y)) : c.first a = some y := by
  induction h with
  | noTurn => cases hy
  | lastTurn h _ =>
    rw [h.head rfl] at hy
    simpa using hy
  | @turn a body t u o h _ _ _ =>
    have ht := h.head rfl
    cases t with
    | nil => cases hy
    | cons e t =>
      have he : (some e : Option Event) = some (.instr y) := hy
      rw [← head?_cons (l := t),ht] at he
      simpa using he
  | _ => cases hb

theorem finished_of_nil {b a c t o} (h : Runs b a c t o) (ht : t=[]) : o=.finished := by
  induction h with
  | done | noTurn => rfl
  | nop _ ih | lastTurn _ ih => exact ih ht
  | turn => simp at ht
  | _ => cases ht

end Runs

/-- Every consecutive pair of the trace is in `pairs`, and so is the pair of its last address
with the address the run resumes at. -/
structure Within (t : List Event) (resume : Option ℕ) (pairs : List (ℕ × ℕ)) : Prop where
  consecutive : ∀ x y, Consecutive t x y → (x,y)∈pairs
  last : ∀ x y, t.getLast? = some (.instr x) → resume = some y → (x,y)∈pairs

namespace Within

variable {p : List (ℕ × ℕ)} {resume : Option ℕ} {t : List Event}

theorem mono {q : List (ℕ × ℕ)} (h : Within t resume p) (hpq : p ⊆ q) : Within t resume q :=
  ⟨fun x y hxy => hpq (h.consecutive x y hxy),fun x y hx hy => hpq (h.last x y hx hy)⟩

theorem nil : Within [] resume p := ⟨by simp,by simp⟩

theorem cons {a : ℕ} (ht : Within t resume p) (hhead : ∀ y, t.head? = some (.instr y) → (a,y)∈p)
    (hnil : ∀ y, t=[] → resume = some y → (a,y)∈p) : Within (.instr a::t) resume p := by
  refine ⟨fun x y hxy => ?_,fun x y hx hy => ?_⟩
  · rcases consecutive_cons.mp hxy with ⟨hx,hy⟩ | h
    · cases hx
      exact hhead y hy
    · exact ht.consecutive x y h
  · cases t with
    | nil =>
      cases hx
      exact hnil y rfl hy
    | cons e t => exact ht.last x y hx hy

theorem cons_link {a : ℕ} {head next : Option ℕ} (ht : Within t resume p)
    (hhead : t.head? = head.map .instr) (hnil : t=[] → next=resume)
    (hp : link a (head.or next) ⊆ p) : Within (.instr a::t) resume p := by
  refine ht.cons (fun y hy => hp ?_) fun y ht hy => hp ?_
  · have hy' : head = some y := by simpa using hhead.symm.trans hy
    simp [hy']
  · have hnone : head=none := by
      rw [ht] at hhead
      simpa using hhead.symm
    simp [hnone,hnil ht,hy]

theorem append {u : List Event} {head after : Option ℕ} (ht : Within t (head.or after) p)
    (hu : Within u resume p) (hhead : u.head? = head.map .instr) (hnil : u=[] → after=resume) :
    Within (t++u) resume p := by
  refine ⟨fun x y hxy => ?_,fun x y hx hy => ?_⟩
  · rcases consecutive_append.mp hxy with h | h | ⟨hx,hy⟩
    · exact ht.consecutive x y h
    · exact hu.consecutive x y h
    · refine ht.last x y hx ?_
      rw [hhead] at hy
      cases head with
      | none => cases hy
      | some z => simpa using hy
  · cases u with
    | nil =>
      have hnone : head=none := by simpa [eq_comm] using hhead
      rw [append_nil] at hx
      exact ht.last x y hx (by rw [hnone,hnil rfl]; exact hy)
    | cons e u =>
      rw [getLast?_append_of_ne_nil _ (by simp)] at hx
      exact hu.last x y hx hy

end Within

theorem Runs.resume_of_nil {b a c t o} (h : Runs b a c t o) (ht : t=[]) :
    next = o.resume next exit := by
  rw [h.finished_of_nil ht]
  rfl

/-- An instruction at `a`, then a body at `i`, then the code after it at `e`. -/
theorem Runs.within_seq {a i e body rest t u o p} (h : Runs false i body t .finished)
    (hrest : Runs false e rest u o) (ht : Within t ((rest.first e).or next) p)
    (hu : Within u (o.resume next exit) p)
    (hp : link a ((body.first i).or ((rest.first e).or next)) ⊆ p) :
    Within (.instr a::(t++u)) (o.resume next exit) p := by
  have happend := ht.append hu (hrest.head rfl) hrest.resume_of_nil
  have hhead : (t++u).head? = ((body.first i).or (rest.first e)).map .instr := by
    rw [head?_append,h.head rfl,hrest.head rfl,← Option.map_or]
  refine happend.cons_link hhead (fun hnil => hrest.resume_of_nil (append_eq_nil_iff.mp hnil).2) ?_
  rwa [Option.or_assoc]

theorem Runs.within_broke {a i body t p} (h : Runs false i body t .broke) (after : Option ℕ)
    (ht : Within t exit p) (hp : link a ((body.first i).or after) ⊆ p) :
    Within (.instr a::t) exit p :=
  ht.cons_link (h.head rfl) (fun hnil => nomatch h.finished_of_nil hnil) hp

/-- Every run stays within the pairs computed by `flow`. -/
theorem Runs.within_flow {b a c t o} (h : Runs b a c t o) (next exit : Option ℕ)
    (hb : b → exit=next) : Within t (o.resume next exit) (flow a c next exit) := by
  induction h generalizing next exit with
  | done => exact Within.nil
  | nop _ ih => exact ih next exit hb
  | plain h ih | brkSkipped h ih =>
    refine ((ih next exit hb).mono ?_).cons_link (h.head rfl) h.resume_of_nil ?_
    all_goals intro z hz; simp [flow,hz]
  | brkTaken =>
    refine Within.nil.cons (by simp) fun y _ hy => ?_
    have hexit : exit = some y := hy
    simp [flow,hexit]
  | @yesFinished a yes no rest t u o h hrest ih ihrest
  | @noFinished a yes no rest t u o h hrest ih ihrest =>
    have hpart := ih ((rest.first (a+1+yes.size+no.size)).or next) exit nofun
    refine h.within_seq hrest (hpart.mono ?_) ((ihrest next exit hb).mono ?_) ?_
    all_goals intro z hz; simp [flow,hz]
  | @yesBroke a yes no rest t h ih | @noBroke a yes no rest t h ih =>
    set after := (rest.first (a+1+yes.size+no.size)).or next with hafter
    refine h.within_broke after ((ih after exit nofun).mono ?_) ?_
    all_goals intro z hz; simp [flow,← hafter,hz]
  | @loop a body rest t u o o' h hrest ih ihrest =>
    set after := (rest.first (a+1+body.size)).or next with hafter
    have hturns : Within t after (flow a (.loop body rest) next exit) := by
      have hres : o.resume after after=after := by cases o <;> rfl
      refine hres ▸ (ih after after fun _ => rfl).mono fun z hz => ?_
      simp [flow,← hafter,hz]
    have hu : Within u (o'.resume next exit) (flow a (.loop body rest) next exit) :=
      (ihrest next exit hb).mono fun z hz => by simp [flow,hz]
    have hlink : ∀ y, after = some y → (a,y)∈flow a (.loop body rest) next exit := by
      intro y hy
      simp [flow,← hafter,hy]
    refine (hturns.append hu (hrest.head rfl) hrest.resume_of_nil).cons (fun y hy => ?_)
      fun y hnil hy => hlink y ?_
    · cases t with
      | nil =>
        rw [nil_append,hrest.head rfl] at hy
        have hfirst : rest.first (a+1+body.size) = some y := by simpa using hy
        exact hlink y (by simp [hafter,hfirst])
      | cons e t =>
        have hfirst := h.head_turns rfl (y := y) hy
        simp [flow,hfirst]
    · have hnil' := (append_eq_nil_iff.mp hnil).2
      have hfirst : rest.first (a+1+body.size)=none := by
        have := hrest.head rfl
        rw [hnil'] at this
        simpa using this.symm
      have hresume : next = o'.resume next exit := hrest.resume_of_nil hnil'
      rw [hafter,hfirst,Option.none_or,hresume]
      exact hy
  | noTurn => exact Within.nil
  | lastTurn h ih => exact ih next exit nofun
  | @turn a body t u o h hu ih ihu =>
    have ht := ih next exit nofun
    have hu := ihu next exit hb
    refine ⟨fun x y hxy => ?_,fun x y hx hy => ?_⟩
    · rcases consecutive_append.mp hxy with hxy | hxy | ⟨_,hxy⟩
      · exact ht.consecutive x y hxy
      · rcases consecutive_cons.mp hxy with ⟨hback,_⟩ | hxy
        · cases hback
        · exact hu.consecutive x y hxy
      · cases hxy
    · rw [getLast?_append_of_ne_nil _ (by simp)] at hx
      cases u with
      | nil => cases hx
      | cons e u => exact hu.last x y hx hy

theorem exists_run (c : Code) (a : ℕ) : ∃ t, Runs false a c t .finished := by
  induction c generalizing a with
  | done => exact ⟨_,.done⟩
  | nop literals rest ih =>
    obtain ⟨t,ht⟩ := ih (a+1+literals)
    exact ⟨t,ht.nop⟩
  | plain literals rest ih =>
    obtain ⟨t,ht⟩ := ih (a+1+literals)
    exact ⟨_,ht.plain⟩
  | brk rest ih =>
    obtain ⟨t,ht⟩ := ih (a+1)
    exact ⟨_,ht.brkSkipped⟩
  | branch yes no rest ihyes _ ihrest =>
    obtain ⟨t,ht⟩ := ihyes (a+1)
    obtain ⟨u,hu⟩ := ihrest (a+1+yes.size+no.size)
    exact ⟨_,ht.yesFinished hu⟩
  | loop body rest _ ihrest =>
    obtain ⟨u,hu⟩ := ihrest (a+1+body.size)
    exact ⟨_,.loop .noTurn hu⟩

def resumeEvent (resume : Option ℕ) : List Event := resume.toList.map .instr

theorem head_resumeEvent (resume : Option ℕ) : (resumeEvent resume).head? = resume.map .instr := by
  cases resume <;> rfl

/-- The pair is consecutive in some run that goes on to where it resumes. -/
def Realised (a : ℕ) (c : Code) (next exit : Option ℕ) (x y : ℕ) : Prop :=
  ∃ t o, Runs false a c t o ∧ Consecutive (t++resumeEvent (o.resume next exit)) x y

theorem Runs.head_append {a c t} (h : Runs false a c t .finished) (next : Option ℕ) :
    (t++resumeEvent next).head? = ((c.first a).or next).map .instr := by
  rw [head?_append,h.head rfl,head_resumeEvent,← Option.map_or]

/-- What follows a trace may be replaced by anything that starts with the same event. -/
theorem Consecutive.extend {u : List Event} {resume : Option ℕ}
    (h : Consecutive (t++resumeEvent resume) x y) (hu : u.head? = resume.map .instr) :
    Consecutive (t++u) x y := by
  rcases consecutive_append.mp h with h | h | ⟨hx,hy⟩
  · exact consecutive_append.mpr (.inl h)
  · cases resume <;> simp [resumeEvent,consecutive_cons] at h
  · rw [head_resumeEvent,← hu] at hy
    exact consecutive_append.mpr (.inr (.inr ⟨hx,hy⟩))

theorem Runs.realised_head {a c t o y} (h : Runs false a c (.instr a::t) o)
    (hy : (t++resumeEvent (o.resume next exit)).head? = some (.instr y)) :
    Realised a c next exit a y :=
  ⟨_,o,h,consecutive_cons.mpr (.inl ⟨rfl,hy⟩)⟩

theorem Runs.realised_tail {a c t o x y} (h : Runs false a c (.instr a::t) o)
    (hxy : Consecutive (t++resumeEvent (o.resume next exit)) x y) : Realised a c next exit x y :=
  ⟨_,o,h,consecutive_cons.mpr (.inr hxy)⟩

theorem Consecutive.append_left {s : List Event} (h : Consecutive t x y) : Consecutive (s++t) x y :=
  consecutive_append.mpr (.inr (.inl h))

/-- Every pair computed by `flow` is consecutive in some run. -/
theorem realised_of_mem_flow {a c next exit x y} (h : (x,y)∈flow a c next exit) :
    Realised a c next exit x y := by
  induction c generalizing a next exit with
  | done => cases h
  | nop literals rest ih =>
    obtain ⟨t,o,ht,hxy⟩ := ih h
    exact ⟨t,o,ht.nop,hxy⟩
  | plain literals rest ih =>
    rcases mem_append.mp h with h | h
    · obtain ⟨rfl,hy⟩ := mem_link.mp h
      obtain ⟨t,ht⟩ := exists_run rest (x+1+literals)
      refine ht.plain.realised_head ?_
      rw [Outcome.resume,ht.head_append,hy]
      rfl
    · obtain ⟨t,o,ht,hxy⟩ := ih h
      exact ht.plain.realised_tail hxy
  | brk rest ih =>
    simp only [flow,mem_append,mem_link,or_assoc] at h
    rcases h with ⟨rfl,hy⟩ | ⟨rfl,hy⟩ | h
    · obtain ⟨t,ht⟩ := exists_run rest (x+1)
      refine ht.brkSkipped.realised_head ?_
      rw [Outcome.resume,ht.head_append,hy]
      rfl
    · refine Runs.realised_head .brkTaken ?_
      rw [Outcome.resume,hy]
      rfl
    · obtain ⟨t,o,ht,hxy⟩ := ih h
      exact ht.brkSkipped.realised_tail hxy
  | branch yes no rest ihyes ihno ihrest =>
    obtain ⟨t,ht⟩ := exists_run yes (a+1)
    obtain ⟨t',ht'⟩ := exists_run no (a+1+yes.size)
    obtain ⟨u,hu⟩ := exists_run rest (a+1+yes.size+no.size)
    simp only [flow,mem_append,mem_link,or_assoc] at h
    rcases h with ⟨rfl,hy⟩ | ⟨rfl,hy⟩ | h | h | h
    · refine (ht.yesFinished hu).realised_head ?_
      rw [append_assoc,head?_append,Outcome.resume,hu.head_append,ht.head rfl, ← Option.map_or,hy]
      rfl
    · refine (ht'.noFinished hu).realised_head ?_
      rw [append_assoc,head?_append,Outcome.resume,hu.head_append,ht'.head rfl, ← Option.map_or,hy]
      rfl
    · obtain ⟨t,o,ht,hxy⟩ := ihyes h
      cases o with
      | finished =>
        refine (ht.yesFinished hu).realised_tail ?_
        rw [append_assoc]
        exact hxy.extend (hu.head_append next)
      | broke => exact ht.yesBroke.realised_tail hxy
    · obtain ⟨t,o,ht,hxy⟩ := ihno h
      cases o with
      | finished =>
        refine (ht.noFinished hu).realised_tail ?_
        rw [append_assoc]
        exact hxy.extend (hu.head_append next)
      | broke => exact ht.noBroke.realised_tail hxy
    · obtain ⟨u,o,hu,hxy⟩ := ihrest h
      refine (ht.yesFinished hu).realised_tail ?_
      rw [append_assoc]
      exact hxy.append_left
  | loop body rest ihbody ihrest =>
    obtain ⟨t,ht⟩ := exists_run body (a+1)
    obtain ⟨u,hu⟩ := exists_run rest (a+1+body.size)
    simp only [flow,mem_append,mem_link,or_assoc] at h
    rcases h with ⟨rfl,hy⟩ | ⟨rfl,hy⟩ | h | h
    · refine Runs.realised_head (.loop ht.lastTurn hu) ?_
      rw [append_assoc,head?_append,Outcome.resume,hu.head_append,ht.head rfl, ← Option.map_or,hy]
      rfl
    · refine Runs.realised_head (.loop .noTurn hu) ?_
      rw [nil_append,Outcome.resume,hu.head_append,hy]
      rfl
    · obtain ⟨t,o,ht,hxy⟩ := ihbody h
      refine Runs.realised_tail (.loop ht.lastTurn hu) ?_
      rw [append_assoc]
      refine hxy.extend ((hu.head_append next).trans ?_)
      cases o <;> rfl
    · obtain ⟨u,o,hu,hxy⟩ := ihrest h
      exact Runs.realised_tail (.loop .noTurn hu) hxy

/-- The pairs of addresses that some run of a whole program executes consecutively. -/
theorem consecutive_iff_mem_flow {a c x y} :
    (∃ t o, Runs false a c t o ∧ Consecutive t x y) ↔ (x,y)∈flow a c none none := by
  refine ⟨fun ⟨t,o,h,hxy⟩ => (h.within_flow none none nofun).consecutive x y hxy,fun h => ?_⟩
  obtain ⟨t,o,ht,hxy⟩ := realised_of_mem_flow h
  refine ⟨t,o,ht,?_⟩
  cases o <;> simpa [Outcome.resume,resumeEvent] using hxy

end PS3Native.StructuredCode
