import PS3Native.VfsEscape

/-!
# Reading an escaped name

Each piece that `escape` writes is read back on its own, with one exception: the first byte
of a three byte character is copied, and `unescape` looks at the two bytes behind it. They
are copied too, so both sides look at the same bytes.
-/
namespace PS3Native.VfsEscape

open PathComponents List

theorem decodeWide_digit : ∀ c : UInt8, c ≤ 9 →
    0x81 ≤ 0x90+c ∧ 0x90+c ≤ 0xBF ∧ decodeWide (0x90+c) = .byte c :=
  forall_byte (by decide +kernel)

theorem decodeWide_letter : ∀ c : UInt8, ¬c ≤ 9 → c ≤ 31 →
    0x81 ≤ 0xA1+c-10 ∧ 0xA1+c-10 ≤ 0xBF ∧ decodeWide (0xA1+c-10) = .byte c :=
  forall_byte (by decide +kernel)

theorem digit_hex : ∀ b : UInt8, ((digit (hex (b >>> 4))).bind fun hi =>
    (digit (hex (b &&& 0xF))).map fun lo => hi*16+lo) = some b :=
  forall_byte (by decide +kernel)

/-- `unescape` reads these bytes as the character, wherever they stand. -/
def Reads (written : Bytes) (c : UInt8) : Prop :=
  ∀ start rest, unescapeLoop start (written++rest) = c::unescapeLoop false rest

variable {b c : UInt8} {rest name : Bytes} {utf8Left : ℕ}

theorem reads_wide {c3 : UInt8} (h : 0x81 ≤ c3 ∧ c3 ≤ 0xBF ∧ decodeWide c3 = .byte b) :
    Reads (wide c3) b := by
  intro start rest
  show unescapeLoop start (0xEF::0xBC::c3::rest) = _
  rw [unescapeLoop]
  simp [getChar,h]

theorem reads_bar : Reads (wideHigh 0x9C) 0x7C := by
  intro start rest
  show unescapeLoop start (0xEF::0xBD::0x9C::rest) = _
  rw [unescapeLoop]
  simp [getChar]

theorem reads_escaped (h : c≠0) : Reads (wide 0x81++[c]) c := by
  intro start rest
  show unescapeLoop start (0xEF::0xBC::0x81::c::rest) = _
  have hwide : decodeWide 0x81 = .escaped := rfl
  rw [unescapeLoop]
  simp [getChar,hwide,h]

theorem reads_hex (b : UInt8) : Reads (wide 0x85++[hex (b >>> 4),hex (b &&& 0xF)]) b := by
  intro start rest
  show unescapeLoop start (0xEF::0xBC::0x85::hex (b >>> 4)::hex (b &&& 0xF)::rest) = _
  have hwide : decodeWide 0x85 = .hex := rfl
  obtain ⟨hi,hhi,hlo⟩ := Option.bind_eq_some_iff.1 (digit_hex b)
  obtain ⟨lo,hlo,hsum⟩ := Option.map_eq_some_iff.1 hlo
  rw [unescapeLoop]
  simp [getChar,hwide,hhi,hlo,hsum]

theorem reads_plain (h : c≠0) (hwide : c≠0xEF) : Reads [c] c := by
  intro start rest
  rw [singleton_append,unescapeLoop]
  simp [h,hwide]

/-- The first byte of a three byte character that is not one of the full-width ones. -/
theorem unescapeLoop_lead (h : ¬IsFullWidth (getChar rest 0) (getChar rest 1)) (start : Bool) :
    unescapeLoop start (0xEF::rest) = 0xEF::unescapeLoop false rest := by
  obtain ⟨hlow,hhigh⟩ := not_or.1 h
  rw [unescapeLoop]
  simp only [if_true]
  by_cases h2 : getChar rest 0=0xBC
  · rw [if_pos h2,if_neg fun h3 => hlow ⟨h2,h3⟩]
  · rw [if_neg h2]
    by_cases h2 : getChar rest 0=0xBD
    · rw [if_pos h2,if_neg fun h3 => hhigh ⟨h2,h3⟩]
    · rw [if_neg h2]

theorem reserved_reads {written : Bytes} (h : reserved.lookup c = some written) :
    Reads written c := by
  have hall : ∀ p∈reserved, Reads p.2 p.1 := by
    simp only [reserved,forall_mem_cons]
    exact ⟨reads_wide (by decide),reads_wide (by decide),reads_wide (by decide),
      reads_wide (by decide),reads_wide (by decide),reads_bar,reads_wide (by decide),
      reads_wide (by decide),fun p hp => absurd hp not_mem_nil⟩
  obtain ⟨l,r,hsplit,-⟩ := lookup_eq_some_iff.1 h
  exact hall (c,written) (by rw [hsplit]; simp)

/-- Everything but the copied first byte of a three byte character is read on its own. -/
theorem escapeChar_reads (h : c=0xEF → IsFullWidth (getChar rest 0) (getChar rest 1)) :
    Reads (escapeChar false c rest) c := by
  unfold escapeChar
  split
  · exact reads_wide (decodeWide_digit c ‹_›)
  split
  · exact reads_wide (decodeWide_letter c ‹_› ‹_›)
  have hzero : c≠0 := by
    rintro rfl
    contradiction
  split
  · exact reserved_reads ‹_›
  split
  · rename_i hslash
    subst hslash
    exact reads_plain (by decide) (by decide)
  split
  · rename_i hdot
    split
    · split
      · rename_i hdot
        subst hdot
        exact reads_wide (by decide)
      · obtain rfl := hdot.resolve_left ‹_›
        exact reads_wide (by decide)
    · refine reads_plain hzero ?_
      rintro rfl
      revert hdot
      decide
  split
  · rw [if_pos (h ‹_›)]
    exact reads_escaped hzero
  · exact reads_plain hzero ‹_›

/-- The next bytes of the name belong to a sequence that has begun. -/
def Continues (utf8Left : ℕ) (rest : Bytes) : Prop :=
  ∀ i < utf8Left, IsContinuation (getChar rest i)

theorem Continues.tail (h : Continues utf8Left (b::rest)) : Continues (utf8Left-1) rest :=
  fun i hi => h (i+1) (by omega)

theorem Continues.head (h : Continues utf8Left (b::rest)) (hne : utf8Left≠0) : IsContinuation b :=
  h 0 (Nat.pos_of_ne_zero hne)

theorem continues_zero (rest : Bytes) :
    Continues 0 rest := fun i hi => absurd hi (Nat.not_lt_zero i)

theorem IsContinuation.within {low high : UInt8} (hlow : low ≤ b) (hhigh : b ≤ high)
    (h : 0x80 ≤ low ∧ high ≤ 0xBF) : IsContinuation b :=
  ⟨UInt8.le_trans h.1 hlow,UInt8.le_trans hhigh h.2⟩

theorem isContinuation_of_announcedSize {b0 b1 : UInt8} (h : announcedSize b0 b1≠0) :
    IsContinuation b1 := by
  unfold announcedSize at h
  split at h
  · rename_i hb
    exact hb.2.2
  split at h
  · rename_i hb
    exact .within hb.2.1 hb.2.2 (by decide)
  split at h
  · rename_i hb
    exact .within hb.2.1 hb.2.2 (by decide)
  split at h
  · rename_i hb
    exact hb.2.2
  split at h
  · rename_i hb
    exact .within hb.2.1 hb.2.2 (by decide)
  split at h
  · rename_i hb
    exact .within hb.2.1 hb.2.2 (by decide)
  split at h
  · rename_i hb
    exact hb.2.2
  · exact absurd rfl h

theorem utf8SequenceSize_of_ne_zero (hb : ¬b < 0x80) (h : utf8SequenceSize (b::rest)≠0) :
    utf8SequenceSize (b::rest) = announcedSize b (getChar rest 0) ∧
      ∀ i∈range' 2 (announcedSize b (getChar rest 0)-2),
        IsContinuation (getChar (b::rest) i) := by
  have hfirst : ¬getChar (b::rest) 0 < 0x80 := hb
  simp only [utf8SequenceSize,if_neg hfirst] at h ⊢
  split at h
  · rename_i hall
    refine ⟨if_pos hall,fun i hi => ?_⟩
    exact of_decide_eq_true (all_eq_true.1 hall i hi)
  · exact absurd rfl h

theorem continues_of_sequence (hb : ¬b < 0x80) (h : utf8SequenceSize (b::rest)≠0) :
    Continues (utf8SequenceSize (b::rest)-1) rest := by
  obtain ⟨hsize,hall⟩ := utf8SequenceSize_of_ne_zero hb h
  intro i hi
  cases i with
  | zero => exact isContinuation_of_announcedSize (hsize ▸ h)
  | succ i => exact hall (i+2) (mem_range'.2 ⟨i,by omega,by omega⟩)

theorem announcedSize_lead : ∀ b1 : UInt8, announcedSize 0xEF b1=0 ∨ announcedSize 0xEF b1=3 :=
  forall_byte (by decide +kernel)

/-- The characters that `escape` copies, whatever follows. -/
def IsPlain (c : UInt8) : Prop :=
  ¬c ≤ 9 ∧ ¬c ≤ 31 ∧ reserved.lookup c=none ∧ c≠0x2F ∧ ¬(c=0x2E ∨ c=0x20) ∧ c≠0xEF

instance (c : UInt8) : Decidable (IsPlain c) :=
  inferInstanceAs (Decidable (¬c ≤ 9 ∧ ¬c ≤ 31 ∧ reserved.lookup c=none ∧ c≠0x2F ∧
    ¬(c=0x2E ∨ c=0x20) ∧ c≠0xEF))

theorem escapeChar_plain (h : IsPlain c) (escapeSlash : Bool) (rest : Bytes) :
    escapeChar escapeSlash c rest = [c] := by
  obtain ⟨hdigit,hletter,hreserved,hslash,hdot,hlead⟩ := h
  rw [escapeChar,if_neg hdigit,if_neg hletter,hreserved]
  simp [hslash,hdot,hlead]

theorem IsContinuation.plain : ∀ b : UInt8, IsContinuation b → ¬b < 0x80 ∧ IsPlain b :=
  forall_byte (by decide +kernel)

theorem escapeLoop_continuation (hb : IsContinuation b) (escapeSlash : Bool) (h : utf8Left≠0)
    (rest : Bytes) :
    escapeLoop escapeSlash utf8Left (b::rest) = b::escapeLoop escapeSlash (utf8Left-1) rest := by
  obtain ⟨hascii,hplain⟩ := hb.plain
  rw [escapeLoop,if_neg hascii,if_pos h,escapeChar_plain hplain]
  rfl

/-- The two bytes after the first one of a three byte character are copied. -/
theorem getChar_escapeLoop (h : Continues 2 rest) (escapeSlash : Bool) :
    getChar (escapeLoop escapeSlash 2 rest) 0 = getChar rest 0 ∧
      getChar (escapeLoop escapeSlash 2 rest) 1 = getChar rest 1 := by
  have htwo : (2 : ℕ)≠0 := by decide
  rcases rest with _ | ⟨c2,_ | ⟨c3,rest⟩⟩
  · exact ⟨rfl,rfl⟩
  · rw [escapeLoop_continuation (h.head htwo) escapeSlash htwo]
    exact ⟨rfl,rfl⟩
  · rw [escapeLoop_continuation (h.head htwo) escapeSlash htwo,
      escapeLoop_continuation (h.tail.head Nat.one_ne_zero) escapeSlash Nat.one_ne_zero]
    exact ⟨rfl,rfl⟩

theorem escapeChar_lead (h : ¬IsFullWidth (getChar rest 0) (getChar rest 1)) (escapeSlash : Bool) :
    escapeChar escapeSlash 0xEF rest = [0xEF] := by
  have hreserved : reserved.lookup 0xEF=none := by decide
  rw [escapeChar,if_neg (by decide),if_neg (by decide),hreserved]
  simp [h]

/-- A three byte character without a mark is copied and read byte by byte. -/
theorem unescapeLoop_copied (hsize : utf8SequenceSize (0xEF::rest)≠0)
    (h : ¬IsFullWidth (getChar rest 0) (getChar rest 1)) (start : Bool) :
    unescapeLoop start (escapeChar false 0xEF rest ++
        escapeLoop false (utf8SequenceSize (0xEF::rest)-1) rest) =
      0xEF::unescapeLoop false (escapeLoop false (utf8SequenceSize (0xEF::rest)-1) rest) := by
  have hascii : ¬(0xEF : UInt8) < 0x80 := by decide
  have hthree : utf8SequenceSize (0xEF::rest)=3 := by
    have hannounced := (utf8SequenceSize_of_ne_zero hascii hsize).1
    exact hannounced.trans ((announcedSize_lead _).resolve_left (hannounced ▸ hsize))
  have hcont := continues_of_sequence hascii hsize
  rw [hthree] at hcont ⊢
  obtain ⟨h2,h3⟩ := getChar_escapeLoop hcont false
  have hnot : ¬IsFullWidth (getChar (escapeLoop false 2 rest) 0)
      (getChar (escapeLoop false 2 rest) 1) := by
    rw [h2,h3]
    exact h
  rw [escapeChar_lead h]
  exact unescapeLoop_lead hnot start

theorem unescapeLoop_escapeLoop (utf8Left : ℕ) (rest : Bytes) (h : Continues utf8Left rest)
    (start : Bool) : unescapeLoop start (escapeLoop false utf8Left rest)=rest := by
  induction rest generalizing utf8Left start with
  | nil => rw [escapeLoop,unescapeLoop]
  | cons b rest ih =>
    rw [escapeLoop]
    split
    · rename_i hascii
      have hlead : b≠0xEF := by
        rintro rfl
        exact absurd hascii (by decide)
      obtain rfl : utf8Left=0 := by
        by_contra hne
        exact (h.head hne).plain.1 hascii
      rw [escapeChar_reads (fun hEq => absurd hEq hlead),ih 0 (continues_zero rest)]
    split
    · rename_i hne
      have hlead : b≠0xEF := (h.head hne).plain.2.2.2.2.2.2
      rw [escapeChar_reads (fun hEq => absurd hEq hlead),ih _ h.tail]
    split
    · rename_i hascii _ hsize
      have hcont := continues_of_sequence hascii hsize
      by_cases hlead : b=0xEF ∧ ¬IsFullWidth (getChar rest 0) (getChar rest 1)
      · obtain ⟨rfl,hnot⟩ := hlead
        rw [unescapeLoop_copied hsize hnot,ih _ hcont]
      · rw [escapeChar_reads fun hEq => not_not.1 fun hnot => hlead ⟨hEq,hnot⟩,ih _ hcont]
    · rename_i _ hzero _
      obtain rfl : utf8Left=0 := not_not.1 hzero
      have hread := reads_hex b start (escapeLoop false 0 rest)
      rw [ih 0 (continues_zero rest)] at hread
      simpa using hread

theorem findFirstNotOf_dots (h : findFirstNotOf name 0x2E 0=none) : ∀ c∈name, c=0x2E := by
  have hnil := findFirstNotOf_eq_none.1 h
  rw [drop_zero,dropWhile_eq_nil_iff] at hnil
  intro c hc
  simpa using hnil c hc

theorem unescapeLoop_plain (h : ∀ c∈name, c≠0 ∧ c≠0xEF) (start : Bool) :
    unescapeLoop start name=name := by
  induction name generalizing start with
  | nil => rw [unescapeLoop]
  | cons c name ih =>
    obtain ⟨hzero,hlead⟩ := h c mem_cons_self
    rw [show c::name = [c]++name from rfl,reads_plain hzero hlead,
      ih fun d hd => h d (mem_cons_of_mem c hd)]
    rfl

theorem toupper_letter : ∀ c : UInt8, toupper c∈ascii "CLNAP" → c < 0x80 ∧ c≠0 ∧ IsPlain c :=
  forall_byte (by decide +kernel)

/-- A device name starts with one of five letters. -/
theorem isDeviceName_head (h : isDeviceName name) :
    ∃ c rest, name = c::rest ∧ toupper c∈ascii "CLNAP" := by
  cases name with
  | nil => exact absurd h (by decide)
  | cons c rest =>
    have hwords : ∀ word∈[ascii "COM",ascii "LPT",ascii "NUL",ascii "CON",ascii "AUX",
        ascii "PRN"], word.head?.all (·∈ascii "CLNAP") := by decide
    have hmem : ∀ word∈[ascii "COM",ascii "LPT",ascii "NUL",ascii "CON",ascii "AUX",
        ascii "PRN"], ((c::rest).take 3).map toupper=word → toupper c∈ascii "CLNAP" := by
      rintro word hword rfl
      exact of_decide_eq_true (hwords _ hword)
    refine ⟨c,rest,rfl,?_⟩
    unfold isDeviceName at h
    dsimp only at h
    split at h
    · rename_i htriple
      rcases htriple with htriple | htriple
      · exact hmem _ (by simp) htriple
      · exact hmem _ (by simp) htriple
    split at h
    · rename_i htriple
      rcases htriple with htriple | htriple | htriple | htriple
      · exact hmem _ (by simp) htriple
      · exact hmem _ (by simp) htriple
      · exact hmem _ (by simp) htriple
      · exact hmem _ (by simp) htriple
    · exact absurd h Bool.false_ne_true

theorem unescape_escape (name : Bytes) : unescape (escape name false)=name := by
  rw [unescape,escape]
  split
  · rename_i hdots
    refine unescapeLoop_plain (fun c hc => ?_) true
    rw [findFirstNotOf_dots hdots.2 c hc]
    decide
  split
  · rename_i hdevice
    obtain ⟨c,rest,rfl,hletter⟩ := isDeviceName_head hdevice
    obtain ⟨hascii,hzero,hplain⟩ := toupper_letter c hletter
    have hread := reads_escaped hzero true (escapeLoop false 0 rest)
    rw [escapeLoop,if_pos hascii,escapeChar_plain hplain,← append_assoc,hread,
      unescapeLoop_escapeLoop 0 rest (continues_zero rest)]
  · exact unescapeLoop_escapeLoop 0 name (continues_zero name) true

end PS3Native.VfsEscape
