import PS3Native.VfsEscapeRoundTrip

/-! # What an escaped name contains -/
namespace PS3Native.VfsEscape

open PathComponents List

variable {b c : UInt8} {escapeSlash : Bool} {rest name : Bytes} {utf8Left : ℕ}

theorem mem_wide {third : UInt8} (h : 0x80 ≤ third) (hb : b∈wide third) : 0x80 ≤ b := by
  rcases mem_cons.1 hb with rfl | hb
  · decide
  rcases mem_cons.1 hb with rfl | hb
  · decide
  · rwa [mem_singleton.1 hb]

/-- What is below U+0080 in the output stands there for itself. -/
theorem mem_escapeChar (h : b∈escapeChar escapeSlash c rest) :
    0x80 ≤ b ∨ (b=c ∧ ¬c ≤ 31 ∧ reserved.lookup c=none) := by
  unfold escapeChar at h
  split at h
  · exact .inl (mem_wide (UInt8.le_trans (by decide) (decodeWide_digit c ‹_›).1) h)
  split at h
  · exact .inl (mem_wide (UInt8.le_trans (by decide) (decodeWide_letter c ‹_› ‹_›).1) h)
  rename_i hcontrol
  split at h
  · rename_i written hlookup
    have hall : ∀ p∈reserved, ∀ b∈p.2, (0x80 : UInt8) ≤ b := by decide +kernel
    obtain ⟨l,r,hsplit,-⟩ := lookup_eq_some_iff.1 hlookup
    exact .inl (hall (c,written) (by rw [hsplit]; simp) b h)
  rename_i hlookup
  have hcopy : b∈[c] → 0x80 ≤ b ∨ (b=c ∧ ¬c ≤ 31 ∧ reserved.lookup c=none) :=
    fun hb => .inr ⟨mem_singleton.1 hb,hcontrol,hlookup⟩
  split at h
  · split at h
    · exact .inl (mem_wide (by decide) h)
    · exact hcopy h
  split at h
  · split at h
    · split at h
      · exact .inl (mem_wide (by decide) h)
      · exact .inl (mem_wide (by decide) h)
    · exact hcopy h
  split at h
  · split at h
    · rcases mem_append.1 h with h | h
      · exact .inl (mem_wide (by decide) h)
      · exact hcopy h
    · exact hcopy h
  · exact hcopy h

theorem hex_mem {digit : UInt8} (h : digit.toNat < 16) : hex digit∈hexDigits := by
  have hlength : digit.toNat < hexDigits.length := h
  rw [hex,getChar,getD_eq_getElem?_getD,getElem?_eq_getElem hlength]
  exact getElem_mem hlength

theorem hex_mem_hexDigits (b : UInt8) : hex (b >>> 4)∈hexDigits ∧ hex (b &&& 0xF)∈hexDigits := by
  refine ⟨hex_mem ?_,hex_mem ?_⟩
  · have := b.toNat_lt
    simp [Nat.shiftRight_eq_div_pow]
    omega
  · exact Nat.lt_of_le_of_lt Nat.and_le_right (by decide)

theorem mem_escapeLoop (h : b∈escapeLoop escapeSlash utf8Left rest) :
    0x80 ≤ b ∨ b∈hexDigits ∨ (b∈rest ∧ ¬b ≤ 31 ∧ reserved.lookup b=none) := by
  induction rest generalizing utf8Left with
  | nil => exact absurd h not_mem_nil
  | cons c rest ih =>
    have hrest : ∀ left, b∈escapeLoop escapeSlash left rest →
        0x80 ≤ b ∨ b∈hexDigits ∨ (b∈c::rest ∧ ¬b ≤ 31 ∧ reserved.lookup b=none) := by
      intro left hb
      rcases ih hb with hb | hb | ⟨hb,hsafe⟩
      · exact .inl hb
      · exact .inr (.inl hb)
      · exact .inr (.inr ⟨mem_cons_of_mem c hb,hsafe⟩)
    have happend : ∀ left, b∈escapeChar escapeSlash c rest++escapeLoop escapeSlash left rest →
        0x80 ≤ b ∨ b∈hexDigits ∨ (b∈c::rest ∧ ¬b ≤ 31 ∧ reserved.lookup b=none) := by
      intro left hb
      rcases mem_append.1 hb with hb | hb
      · rcases mem_escapeChar hb with hb | ⟨rfl,hsafe⟩
        · exact .inl hb
        · exact .inr (.inr ⟨mem_cons_self,hsafe⟩)
      · exact hrest left hb
    rw [escapeLoop] at h
    split at h
    · exact happend _ h
    split at h
    · exact happend _ h
    split at h
    · exact happend _ h
    · rcases mem_append.1 h with h | h
      · exact .inl (mem_wide (by decide) h)
      rcases mem_cons.1 h with rfl | h
      · exact .inr (.inl (hex_mem_hexDigits c).1)
      rcases mem_cons.1 h with rfl | h
      · exact .inr (.inl (hex_mem_hexDigits c).2)
      · exact hrest _ h

theorem mem_escape (h : b∈escape name escapeSlash) :
    0x80 ≤ b ∨ b∈hexDigits ∨ (b∈name ∧ ¬b ≤ 31 ∧ reserved.lookup b=none) := by
  unfold escape at h
  split at h
  · rename_i hdots
    have hdot := findFirstNotOf_dots hdots.2 b h
    exact .inr (.inr ⟨h,by rw [hdot]; decide⟩)
  rcases mem_append.1 h with h | h
  · split at h
    · exact .inl (mem_wide (by decide) h)
    · exact absurd h not_mem_nil
  · exact mem_escapeLoop h

theorem plain_mem_escapeLoop (hascii : c < 0x80) (hplain : IsPlain c) (h : c∈rest) :
    c∈escapeLoop escapeSlash utf8Left rest := by
  induction rest generalizing utf8Left with
  | nil => exact absurd h not_mem_nil
  | cons b rest ih =>
    rw [escapeLoop]
    rcases mem_cons.1 h with rfl | h
    · rw [if_pos hascii,escapeChar_plain hplain]
      exact mem_append_left _ (mem_singleton_self c)
    split
    · exact mem_append_right _ (ih h)
    split
    · exact mem_append_right _ (ih h)
    split
    · exact mem_append_right _ (ih h)
    · exact mem_append_right _ (mem_cons_of_mem _ (mem_cons_of_mem _ (ih h)))

theorem plain_mem_escape (hascii : c < 0x80) (hplain : IsPlain c) (h : c∈name) :
    c∈escape name escapeSlash := by
  unfold escape
  split
  · exact h
  · exact mem_append_right _ (plain_mem_escapeLoop hascii hplain h)

def EndsSafely (written : Bytes) : Prop :=
  written.getLast?≠some 0x2E ∧ written.getLast?≠some 0x20

instance (written : Bytes) : Decidable (EndsSafely written) :=
  inferInstanceAs (Decidable (written.getLast?≠some 0x2E ∧ written.getLast?≠some 0x20))

theorem EndsSafely.append {l r : Bytes} (hr : EndsSafely r) (hl : r=[] → EndsSafely l) :
    EndsSafely (l++r) := by
  by_cases hnil : r=[]
  · rw [hnil,append_nil]
    exact hl hnil
  · rw [EndsSafely,getLast?_append_of_ne_nil l hnil]
    exact hr

theorem escapeChar_endsSafely (escapeSlash : Bool) (c : UInt8) :
    EndsSafely (escapeChar escapeSlash c []) := by
  by_cases hdot : c=0x2E ∨ c=0x20
  · rcases hdot with rfl | rfl
    · cases escapeSlash <;> decide
    · cases escapeSlash <;> decide
  · have hlast : ∀ b : UInt8, (b=0x2E ∨ b=0x20) →
        (escapeChar escapeSlash c []).getLast?≠some b := by
      intro b hb hlast
      rcases mem_escapeChar (mem_of_getLast? hlast) with h | ⟨rfl,-⟩
      · rcases hb with rfl | rfl
        · exact absurd h (by decide)
        · exact absurd h (by decide)
      · exact hdot hb
    exact ⟨hlast 0x2E (.inl rfl),hlast 0x20 (.inr rfl)⟩

theorem hexDigits_endsSafely (h : b∈hexDigits) : b≠0x2E ∧ b≠0x20 := by
  have hall : ∀ d∈hexDigits, d≠0x2E ∧ d≠0x20 := by decide +kernel
  exact hall b h

theorem escapeChar_ne_nil (escapeSlash : Bool) (c : UInt8) (rest : Bytes) :
    escapeChar escapeSlash c rest≠[] := by
  have hall : ∀ p∈reserved, p.2≠[] := by decide
  unfold escapeChar
  split
  · exact cons_ne_nil _ _
  split
  · exact cons_ne_nil _ _
  split
  · rename_i written hlookup
    obtain ⟨l,r,hsplit,-⟩ := lookup_eq_some_iff.1 hlookup
    exact hall (c,written) (by rw [hsplit]; simp)
  · split_ifs <;> exact cons_ne_nil _ _

theorem escapeLoop_eq_nil (h : escapeLoop escapeSlash utf8Left rest=[]) : rest=[] := by
  cases rest with
  | nil => rfl
  | cons b rest =>
    have happend : ∀ left, escapeChar escapeSlash b rest++escapeLoop escapeSlash left rest≠[] :=
      fun left hnil => escapeChar_ne_nil escapeSlash b rest (append_eq_nil_iff.1 hnil).1
    rw [escapeLoop] at h
    split at h
    · exact absurd h (happend _)
    split at h
    · exact absurd h (happend _)
    split at h
    · exact absurd h (happend _)
    · exact absurd h (cons_ne_nil _ _)

theorem escapeLoop_endsSafely (escapeSlash : Bool) (utf8Left : ℕ) (rest : Bytes) :
    EndsSafely (escapeLoop escapeSlash utf8Left rest) := by
  induction rest generalizing utf8Left with
  | nil => simp [escapeLoop,EndsSafely]
  | cons b rest ih =>
    have happend : ∀ left,
        EndsSafely (escapeChar escapeSlash b rest++escapeLoop escapeSlash left rest) := by
      intro left
      refine (ih left).append fun hnil => ?_
      rw [escapeLoop_eq_nil hnil]
      exact escapeChar_endsSafely escapeSlash b
    rw [escapeLoop]
    split
    · exact happend _
    split
    · exact happend _
    split
    · exact happend _
    · have hdigit := hexDigits_endsSafely (hex_mem_hexDigits b).2
      have hlast : EndsSafely (wide 0x85++[hex (b >>> 4),hex (b &&& 0xF)]) := by
        simpa [EndsSafely,wide] using hdigit
      exact (ih utf8Left).append fun _ => hlast

theorem escape_endsSafely (h : ¬(name.length ≤ 2 ∧ findFirstNotOf name 0x2E 0=none))
    (escapeSlash : Bool) : EndsSafely (escape name escapeSlash) := by
  rw [escape,if_neg h]
  refine (escapeLoop_endsSafely escapeSlash 0 name).append fun _ => ?_
  split
  · decide
  · decide

theorem not_control (h : 0x80 ≤ b ∨ b∈hexDigits ∨ ¬b ≤ 31) (hb : IsControl b) : b=0x7F := by
  rcases hb with hb | hb
  · have hlow : b ≤ 31 := by
      exact Nat.le_of_lt_succ hb
    rcases h with h | h | h
    · exact absurd (UInt8.le_trans h hlow) (by decide)
    · have hall : ∀ d∈hexDigits, ¬d ≤ 31 := by decide +kernel
      exact absurd hlow (hall b h)
    · exact absurd hlow h
  · exact hb

theorem not_reserved (h : 0x80 ≤ b ∨ b∈hexDigits ∨ reserved.lookup b=none) :
    b∉ascii "<>:\"\\|?*" := by
  have hall : ∀ c∈ascii "<>:\"\\|?*", ¬0x80 ≤ c ∧ c∉hexDigits ∧ reserved.lookup c≠none := by
    decide +kernel
  intro hb
  obtain ⟨hhigh,hhex,hlookup⟩ := hall b hb
  rcases h with h | h | h
  · exact hhigh h
  · exact hhex h
  · exact hlookup h

theorem escape_not_reserved (h : b∈escape name escapeSlash) : b∉ascii "<>:\"\\|?*" :=
  not_reserved ((mem_escape h).imp_right (Or.imp_right fun hsafe => hsafe.2.2))

theorem dots_of_length (hlength : name.length ≤ 2) (hdots : ∀ c∈name, c=0x2E) :
    name=[] ∨ name = ascii "." ∨ name = ascii ".." := by
  rcases name with _ | ⟨a,_ | ⟨b,_ | ⟨c,rest⟩⟩⟩
  · exact .inl rfl
  · rw [hdots a (by simp)]
    exact .inr (.inl rfl)
  · rw [hdots a (by simp),hdots b (by simp)]
    exact .inr (.inr rfl)
  · simp at hlength

/-- The control character that `escape` copies. -/
theorem escape_keeps_delete : escape [0x7F] false = [0x7F] ∧ IsControl 0x7F := by decide

/-- `unescape` inverts `escape`, and the escaped name is safe for the host: its only control
character is U+007F, which it has from the name, it has no reserved character, and it ends
in a dot or a space only if it is `.` or `..`. -/
theorem escape_reversible_and_safe (name : Bytes) : unescape (escape name false)=name ∧
    (∀ b∈escape name false, IsControl b → b=0x7F) ∧
    (0x7F∈escape name false ↔ 0x7F∈name) ∧
    (∀ b∈escape name false, b∉ascii "<>:\"\\|?*") ∧
    (∀ b∈(escape name false).getLast?, b=0x2E ∨ b=0x20 →
      escape name false = ascii "." ∨ escape name false = ascii "..") := by
  refine ⟨unescape_escape name,fun b hb => ?_,⟨fun h => ?_,?_⟩,fun b hb => ?_,fun b hb hend => ?_⟩
  · exact not_control ((mem_escape hb).imp_right (Or.imp_right fun h => h.2.1))
  · rcases mem_escape h with h | h | h
    · exact absurd h (by decide)
    · exact absurd h (by decide)
    · exact h.1
  · exact plain_mem_escape (by decide) (by decide)
  · exact escape_not_reserved hb
  · by_cases hdots : name.length ≤ 2 ∧ findFirstNotOf name 0x2E 0=none
    · rw [escape,if_pos hdots] at hb ⊢
      refine (dots_of_length hdots.1 (findFirstNotOf_dots hdots.2)).resolve_left ?_
      rintro rfl
      exact absurd hb (by simp)
    · obtain ⟨hdot,hspace⟩ := escape_endsSafely hdots false
      rcases hend with rfl | rfl
      · exact absurd hb hdot
      · exact absurd hb hspace

end PS3Native.VfsEscape
