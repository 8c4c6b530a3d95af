import Mathlib.Algebra.Ring.Int.Defs
import Mathlib.Data.List.TakeWhile

/-!
# Reading integers of the configuration

`try_to_int64` strips a sign and a prefix by hand and leaves the rest to `std::from_chars`, which takes
a minus sign of its own. A read outside of the view and an overflow are `undefined`.
-/
namespace PS3Native.ConfigInt
open List

def digit (c : Char) : ℕ :=
  if c.isDigit then c.toNat - '0'.toNat
  else if 'a' ≤ c ∧ c ≤ 'f' then c.toNat - 'a'.toNat+10
  else if 'A' ≤ c ∧ c ≤ 'F' then c.toNat - 'A'.toNat+10
  else 16

def number (base : ℕ) (digits : List Char) : ℕ := digits.foldl (fun n c => n*base+digit c) 0

/-- The sign in front of a text, and the text behind it. -/
def stripSign : List Char → ℤ × List Char
  | '-'::rest => (-1,rest)
  | text => (1,text)

/-- `std::from_chars`: the value and what follows the digits, or an error. -/
def fromChars (base : ℕ) (start : List Char) : Option (ℤ × List Char) :=
  let digits := (stripSign start).2
  let result := (stripSign start).1*number base (digits.takeWhile (digit · < base))
  if digits.takeWhile (digit · < base)=[] ∨ ¬(-2^63 ≤ result ∧ result < 2^63) then none
  else some (result,digits.dropWhile (digit · < base))

inductive Outcome
  | accepted (result : ℤ)
  | rejected
  | undefined
  deriving DecidableEq

/-- From `std::from_chars` on. -/
def convert (sign : ℤ) (base : ℕ) (start : List Char) (min max : ℤ) : Outcome :=
  match fromChars base start with
  | some (result,[]) =>
    if (stripSign start).1 < 0 ∧ sign < 0 then .rejected
    else if ¬(-2^63 ≤ result*sign ∧ result*sign < 2^63) then .undefined
    else if result*sign < min ∨ result*sign > max then .rejected
    else .accepted (result*sign)
  | _ => .rejected

/-- The base that a prefix announces, and the text behind it. -/
def stripPrefix : List Char → ℕ × List Char
  | '0' :: 'x'::digits => (16,digits)
  | '0' :: 'X'::digits => (16,digits)
  | text => (10,text)

def tryToInt64 (value : List Char) (min max : ℤ) : Outcome :=
  let start := (stripSign value).2
  if value=[] then .rejected
  -- `start[0]` and `start[1]` are read without a look at the end
  else if start=[] ∨ start = ['0'] ∧ value.length ≥ 2 then .undefined
  else convert (stripSign value).1 (stripPrefix start).1 (stripPrefix start).2 min max

def literal (base : ℕ) (digits : List Char) : Option ℕ :=
  if digits≠[] ∧ digits.all (digit · < base) then some (number base digits) else none

/-- The integer that a text stands for. -/
def intended (value : List Char) : Option ℤ :=
  let start := (stripSign value).2
  (literal (stripPrefix start).1 (stripPrefix start).2).map fun n : ℕ => (stripSign value).1*n

def bounded (min max : ℤ) : Option ℤ → Outcome
  | some n => if min ≤ n ∧ n ≤ max then .accepted n else .rejected
  | none => .rejected

/-- A sign without digits or with only a 0, a minus sign behind a prefix, or the least integer. -/
inductive Misread (value : List Char) (min max : ℤ) : Prop
  | short (h : value = ['-'] ∨ value = ['-','0'])
  | signed (base : ℕ) (digits : List Char) (n : ℕ) (hsign : (stripSign value).1=1)
      (hstart : stripPrefix (stripSign value).2 = (base,'-'::digits))
      (hn : literal base digits = some n) (hrange : min ≤ -n ∧ -n ≤ max)
  | least (h : intended value = some (-2^63)) (hrange : min ≤ -2^63 ∧ -2^63 ≤ max)

variable {sign min max : ℤ} {value : List Char}

theorem stripSign_cases (text : List Char) :
    stripSign text = (1,text) ∨ ∃ rest, text = '-'::rest ∧ stripSign text = (-1,rest) := by
  unfold stripSign
  split
  · next rest => exact .inr ⟨rest,rfl,rfl⟩
  · exact .inl rfl

theorem stripSign_sign (text : List Char) : (stripSign text).1=1 ∨ (stripSign text).1 = -1 := by
  obtain h | ⟨rest,-,h⟩ := stripSign_cases text <;> simp [h]

theorem literal_minus (text digits : List Char) :
    literal (stripPrefix text).1 ('-'::digits)=none := by
  have hminus : digit '-' = 16 := by decide
  have hbase : (stripPrefix text).1 ≤ 16 := by
    unfold stripPrefix
    split <;> simp
  refine if_neg fun h => ?_
  have hlt := of_decide_eq_true (all_eq_true.mp h.2 '-' mem_cons_self)
  omega

theorem fromChars_eq (base : ℕ) (start : List Char) :
    (∃ n, literal base (stripSign start).2 = some n ∧ fromChars base start =
      if -2^63 ≤ (stripSign start).1*n ∧ (stripSign start).1*n < 2^63
        then some ((stripSign start).1*n,[]) else none) ∨
    literal base (stripSign start).2=none ∧ ∀ result, fromChars base start≠some (result,[]) := by
  unfold literal fromChars
  by_cases h : (stripSign start).2≠[] ∧ (stripSign start).2.all (digit · < base)
  · have htake : (stripSign start).2.takeWhile (digit · < base) = (stripSign start).2 :=
      takeWhile_eq_self_iff.mpr (all_eq_true.mp h.2)
    have hdrop : (stripSign start).2.dropWhile (digit · < base)=[] :=
      dropWhile_eq_nil_iff.mpr (all_eq_true.mp h.2)
    refine .inl ⟨_,if_pos h,?_⟩
    simp only [htake,hdrop,h.1,false_or]
    split_ifs <;> rfl
  · refine .inr ⟨if_neg h,fun result heq => h ?_⟩
    simp only at heq
    split_ifs at heq with hnone
    simp only [Option.some.injEq,Prod.mk.injEq] at heq
    have hall := all_eq_true.mpr (dropWhile_eq_nil_iff.mp heq.2)
    exact ⟨fun hnil => hnone (.inl (by rw [hnil]; rfl)),hall⟩

theorem convert_eq (hsign : sign=1 ∨ sign = -1) (hmin : -2^63 ≤ min) (base : ℕ)
    (start : List Char) : convert sign base start min max =
      match literal base (stripSign start).2 with
      | some n =>
        if (stripSign start).1*n < 2^63 ∧ ¬((stripSign start).1 < 0 ∧ sign < 0)
          then bounded min max (some ((stripSign start).1*n*sign)) else .rejected
      | none => .rejected := by
  obtain ⟨n,hn,heq⟩ | ⟨hnone,heq⟩ := fromChars_eq base start
  · by_cases hfits : -2^63 ≤ (stripSign start).1*n ∧ (stripSign start).1*n < 2^63
    all_goals
      simp only [hfits,and_self,reduceIte] at heq
      simp only [hn,convert,heq,bounded]
      rcases stripSign_sign start with h | h <;> rcases hsign with rfl | rfl <;>
        simp only [h] at hfits ⊢ <;> split_ifs <;> first | omega | rfl
  · unfold convert
    rw [hnone]
    split
    · next result hresult => exact absurd hresult (heq result)
    · rfl

theorem tryToInt64_short (h : value = ['-'] ∨ value = ['-','0']) :
    tryToInt64 value min max = .undefined := by
  rcases h with rfl | rfl <;> rfl

theorem tryToInt64_long (h : ¬(value = ['-'] ∨ value = ['-','0'])) :
    tryToInt64 value min max = convert (stripSign value).1 (stripPrefix (stripSign value).2).1
      (stripPrefix (stripSign value).2).2 min max := by
  by_cases hnil : value=[]
  · subst hnil
    rfl
  · refine (if_neg hnil).trans (if_neg ?_)
    obtain hplain | ⟨rest,rfl,hminus⟩ := stripSign_cases value
    · rw [hplain]
      rintro (hstart | ⟨rfl,hlen⟩)
      · exact hnil hstart
      · exact absurd hlen (by decide)
    · rw [hminus]
      rintro (rfl | ⟨rfl,-⟩) <;> simp at h

theorem Misread.differs (h : Misread value min max) (hmin : -2^63 ≤ min) :
    tryToInt64 value min max≠bounded min max (intended value) := by
  by_cases hshort : value = ['-'] ∨ value = ['-','0']
  · rw [tryToInt64_short hshort]
    unfold bounded
    split
    · split_ifs <;> nofun
    · nofun
  rw [tryToInt64_long hshort,convert_eq (stripSign_sign value) hmin]
  cases h with
  | short h => exact absurd h hshort
  | signed base digits n hsign hstart hn hrange =>
    have hnone := literal_minus (stripSign value).2 digits
    have hminus : stripSign ('-'::digits) = (-1,digits) := rfl
    simp only [hstart] at hnone
    simp only [intended,hsign,hstart,hnone,hminus,hn]
    rw [if_pos (by omega),bounded,if_pos (by omega)]
    nofun
  | least h hrange =>
    obtain ⟨n,hn,heq⟩ := Option.map_eq_some_iff.mp h
    rw [h,bounded,if_pos hrange]
    obtain hstart | ⟨digits,hstart,-⟩ := stripSign_cases (stripPrefix (stripSign value).2).2
    · simp only [hstart,hn]
      rcases stripSign_sign value with hsign | hsign <;> rw [hsign] at heq
      · omega
      · rw [if_neg (by omega)]
        nofun
    · rw [hstart,literal_minus] at hn
      cases hn

theorem reads_of_not_misread (h : ¬Misread value min max) (hmin : -2^63 ≤ min)
    (hmax : max < 2^63) : tryToInt64 value min max = bounded min max (intended value) := by
  rw [tryToInt64_long fun hshort => h (.short hshort),convert_eq (stripSign_sign value) hmin]
  obtain hstart | ⟨digits,hdigits,hstart⟩ := stripSign_cases (stripPrefix (stripSign value).2).2
  · rw [hstart]
    cases hn : literal (stripPrefix (stripSign value).2).1 (stripPrefix (stripSign value).2).2 with
    | none => simp [intended,hn,bounded]
    | some n =>
      have hvalue : intended value = some ((stripSign value).1*n) := by simp [intended,hn]
      have hleast : ¬((stripSign value).1*n = -2^63 ∧ min ≤ -2^63 ∧ -2^63 ≤ max) :=
        fun hl => h (.least (hl.1▸hvalue) hl.2)
      simp only [hvalue,bounded]
      rcases stripSign_sign value with hsign | hsign <;> simp only [hsign] at hleast ⊢ <;>
        split_ifs <;> grind
  · have hnone : intended value=none := by simp [intended,hdigits,literal_minus]
    rw [hstart,hnone]
    cases hn : literal (stripPrefix (stripSign value).2).1 digits with
    | none => rfl
    | some n =>
      have hrange : (stripSign value).1=1 → ¬(min ≤ -n ∧ -n ≤ max) := fun hsign hr =>
        h (.signed _ digits n hsign (Prod.ext rfl hdigits) hn hr)
      simp only [bounded]
      rcases stripSign_sign value with hsign | hsign <;> simp only [hsign] at hrange ⊢ <;>
        split_ifs <;> grind

/-- Integers are read as intended, the misread ones apart. -/
theorem tryToInt64_reads_iff (value : List Char) (min max : ℤ) (hmin : -2^63 ≤ min)
    (hmax : max < 2^63) :
    tryToInt64 value min max = bounded min max (intended value) ↔ ¬Misread value min max :=
  ⟨fun h hmisread => hmisread.differs hmin h,fun h => reads_of_not_misread h hmin hmax⟩

theorem tryToInt64_reads_negative :
    tryToInt64 ['-','5'] (-8) 7 = bounded (-8) 7 (intended ['-','5']) := by
  refine (tryToInt64_reads_iff ['-','5'] (-8) 7 (by decide) (by decide)).mpr ?_
  rintro (h | ⟨base,digits,n,h,-⟩ | ⟨-,h⟩)
  · simp at h
  · simp [stripSign] at h
  · omega

theorem tryToInt64_misreads : tryToInt64 ['-','0'] (-8) 7 = .undefined ∧
    bounded (-8) 7 (intended ['-','0']) = .accepted 0 ∧
    tryToInt64 ['0','x','-','5'] (-8) 7 = .accepted (-5) ∧
    bounded (-8) 7 (intended ['0','x','-','5']) = .rejected ∧
    tryToInt64 "-9223372036854775808".toList (-2^63) (2^63-1) = .rejected ∧
    bounded (-2^63) (2^63-1) (intended "-9223372036854775808".toList) = .accepted (-2^63) := by
  decide +kernel

end PS3Native.ConfigInt
