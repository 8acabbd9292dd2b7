import WideLog.Macros.Literal
import WideLog.Serialize.Text

/-!
# String literals

`unescape_json_string` on the strings that the direct serializer writes, and on the
string literals of Rust, which the compiler has read by other rules before the macro
sees their text.
-/

namespace WideLog.Macros

/-! ## The decoder -/

theorem unescapeChars_raw {c : Char} (hc : c ≠ '\\') (cs : List Char) :
    unescapeChars (c :: cs) = (unescapeChars cs).map (c :: ·) := by
  rw [unescapeChars.eq_def]
  exact if_pos hc

/-- An escape of one letter. -/
theorem unescapeChars_short {esc c : Char} (h : shortEscape esc = some c) (cs : List Char) :
    unescapeChars ('\\' :: esc :: cs) = (unescapeChars cs).map (c :: ·) := by
  rw [unescapeChars.eq_def]
  dsimp only
  rw [if_neg (not_not.mpr rfl), h]
  rfl

/-- A letter that is none of the short escapes, nor `u`. -/
theorem unescapeChars_invalid {esc : Char} (h : shortEscape esc = none) (hu : esc ≠ 'u')
    (cs : List Char) : ∃ e, unescapeChars ('\\' :: esc :: cs) = .error e := by
  rw [unescapeChars.eq_def]
  dsimp only
  rw [if_neg (not_not.mpr rfl), h]
  exact ⟨_, if_neg hu⟩

/-- A `\u` escape, of four characters. -/
theorem unescapeChars_unicode (h₁ h₂ h₃ h₄ : Char) (cs : List Char) :
    unescapeChars ('\\' :: 'u' :: h₁ :: h₂ :: h₃ :: h₄ :: cs) =
      (unicodeChar [h₁, h₂, h₃, h₄]).bind fun c ↦ (unescapeChars cs).map (c :: ·) := by
  have hu : shortEscape 'u' = none := by decide
  rw [unescapeChars.eq_def]
  dsimp only
  rw [if_neg (not_not.mpr rfl), hu]
  rfl

/-- A brace is no digit. -/
theorem unicodeChar_brace (cs : List Char) : ∃ e, unicodeChar ('\x7b' :: cs) = .error e := by
  have hnone (cs : List Char) : cs.foldl (fun acc c ↦ do return 16 * (← acc) + (← hexDigitVal c))
      none = none := by
    induction cs with
    | nil => rfl
    | cons c cs ih => exact ih
  have hradix : fromStrRadix16 ('\x7b' :: cs) = none := hnone cs
  rw [unicodeChar, hradix]
  exact ⟨_, rfl⟩

/-- Rust's form of a `\u` escape is rejected, also where the text ends in it. -/
theorem unescapeChars_brace (cs : List Char) :
    ∃ e, unescapeChars ('\\' :: 'u' :: '\x7b' :: cs) = .error e := by
  have hu : shortEscape 'u' = none := by decide
  rw [unescapeChars.eq_def]
  dsimp only
  rw [if_neg (not_not.mpr rfl), hu]
  dsimp only
  rw [if_pos rfl]
  split
  · rename_i h₁ h₂ h₃ h₄ rest heq
    cases heq
    obtain ⟨e, he⟩ := unicodeChar_brace [h₂, h₃, h₄]
    rw [he]
    exact ⟨e, rfl⟩
  · obtain ⟨e, he⟩ := unicodeChar_brace (cs ++ List.replicate (4 - (cs.length + 1)) '0')
    have hpad : ('\x7b' :: cs).rightpad 4 '0' =
        '\x7b' :: (cs ++ List.replicate (4 - (cs.length + 1)) '0') := rfl
    rw [hpad, he]
    exact ⟨e, rfl⟩

/-- Between its quotes, a text is unescaped character by character. -/
theorem unescapeJsonString_quoted (cs : List Char) :
    unescapeJsonString (.ofList ('"' :: (cs ++ ['"']))) = (unescapeChars cs).map .ofList := by
  unfold unescapeJsonString
  simp only [String.toList_ofList]
  rw [if_neg (by simp [List.getLast?_cons]), List.tail_cons, List.dropLast_concat]
  rfl

/-! ## The strings of the serializer -/

/-- The letters of the short escapes that the serializer writes, and what they stand for. -/
def writtenEscapes : List (Char × Char) :=
  [('"', '"'), ('\\', '\\'), ('n', '\n'), ('t', '\t'), ('r', '\r'), ('b', '\x08'), ('f', '\x0c')]

theorem charText_short {esc : Char × Char} (h : esc ∈ writtenEscapes) :
    shortEscape esc.1 = some esc.2 ∧ charText esc.2 = ['\\', esc.1] := by
  have hall : ∀ esc ∈ writtenEscapes,
      shortEscape esc.1 = some esc.2 ∧ charText esc.2 = ['\\', esc.1] := by decide
  exact hall esc h

/-- A character without a short escape is written as it is, or as a `\u` escape. -/
theorem charText_of_notMem {c : Char} (h : c ∉ writtenEscapes.map Prod.snd) :
    charText c = if c = '\u2028' ∨ c = '\u2029' ∨ c.toNat < 0x20 then unicodeEscape c.toNat
      else [c] := by
  simp only [writtenEscapes, List.map_cons, List.map_nil, List.mem_cons, List.not_mem_nil,
    or_false, not_or] at h
  obtain ⟨h₁, h₂, h₃, h₄, h₅, h₆, h₇⟩ := h
  rw [charText, if_neg h₁, if_neg h₂, if_neg h₃, if_neg h₄, if_neg h₅, if_neg h₆, if_neg h₇]

/-- The four digits of a `\u` escape that the serializer writes. -/
theorem unicodeChar_written {c : Char} (h : c = '\u2028' ∨ c = '\u2029' ∨ c.toNat < 0x20) :
    unicodeChar [hexDigit (c.toNat / 4096), hexDigit (c.toNat / 256), hexDigit (c.toNat / 16),
      hexDigit c.toNat] = .ok c := by
  have hcontrol : ∀ n < 0x20, unicodeChar [hexDigit (n / 4096), hexDigit (n / 256),
      hexDigit (n / 16), hexDigit n] = .ok (Char.ofNat n) := by decide +kernel
  rcases h with rfl | rfl | h
  · decide +kernel
  · decide +kernel
  · rw [hcontrol _ h, Char.ofNat_toNat]

/-- What the serializer makes of a character is read as that character. -/
theorem unescapeChars_charText (c : Char) (cs : List Char) :
    unescapeChars (charText c ++ cs) = (unescapeChars cs).map (c :: ·) := by
  by_cases hmem : c ∈ writtenEscapes.map Prod.snd
  · obtain ⟨esc, hesc, rfl⟩ := List.mem_map.mp hmem
    obtain ⟨hshort, htext⟩ := charText_short hesc
    rw [htext]
    exact unescapeChars_short hshort cs
  · rw [charText_of_notMem hmem]
    split_ifs with hunicode
    · have hdigits := unicodeChar_written hunicode
      refine (unescapeChars_unicode _ _ _ _ cs).trans ?_
      rw [hdigits]
      rfl
    · refine unescapeChars_raw ?_ cs
      rintro rfl
      exact hmem (by decide)

theorem unescapeChars_flatMap (cs : List Char) : unescapeChars (cs.flatMap charText) = .ok cs := by
  induction cs with
  | nil => rfl
  | cons c cs ih =>
      rw [List.flatMap_cons, unescapeChars_charText, ih]
      rfl

/-- **The decoder of the macro inverts the encoder of the runtime.** -/
theorem unescape_writeJsonStr (s : String) :
    ∃ raw : String, writeJsonStr vecWriter s [] = .ok (utf8 raw.toList) ∧
      unescapeJsonString raw = .ok s := by
  obtain ⟨written, hwrite, hwritten⟩ := writes_jsonStr nonFailing_vecWriter s []
  refine ⟨.ofList (strText s), ?_, ?_⟩
  · rw [hwrite, String.toList_ofList]
    exact congrArg Except.ok hwritten
  · rw [strText, unescapeJsonString_quoted, unescapeChars_flatMap]
    exact congrArg Except.ok String.ofList_toList

/-! ## The strings of Rust -/

/-- The escapes of one letter, and what they stand for. -/
def rustEscapes : List (Char × Char) :=
  [('n', '\n'), ('r', '\r'), ('t', '\t'), ('\\', '\\'), ('0', '\x00'), ('\x27', '\x27'),
    ('"', '"')]

/-- What hexadecimal digits denote. -/
def hexNumber (digits : List Char) : ℕ :=
  digits.foldl (fun n c ↦ 16 * n + (hexDigitVal c).getD 0) 0

/-- The text between the braces of a `\u` escape: one to six digits, with underscores
anywhere after the first, that denote a character. -/
structure BracedEscape where
  text : List Char
  first : ∃ c ∈ text.head?, (hexDigitVal c).isSome
  digits : ∀ c ∈ text, c = '_' ∨ (hexDigitVal c).isSome
  length_le : (text.filter (· ≠ '_')).length ≤ 6
  valid : (hexNumber (text.filter (· ≠ '_'))).isValidChar

/-- The character that the digits denote. -/
def BracedEscape.char (esc : BracedEscape) : Char :=
  Char.ofNatAux (hexNumber (esc.text.filter (· ≠ '_'))) esc.valid

/-- A piece of the text between the quotes of a string literal: a character that stands for
itself, an escape, or a backslash at the end of a line. -/
inductive LiteralPiece where
  | raw (c : Char) (h : c ∉ ['"', '\\', '\r'])
  | short (esc : Char × Char) (h : esc ∈ rustEscapes)
  | ascii (high low : Char) (h : (∃ n ∈ hexDigitVal high, n < 8) ∧ (hexDigitVal low).isSome)
  | braced (esc : BracedEscape)
  | continuation

namespace LiteralPiece

/-- The text of a piece. -/
def chars : LiteralPiece → List Char
  | raw c _ => [c]
  | short esc _ => ['\\', esc.1]
  | ascii high low _ => ['\\', 'x', high, low]
  | braced esc => '\\' :: 'u' :: '\x7b' :: (esc.text ++ ['\x7d'])
  | continuation => ['\\', '\n']

/-- The characters that pieces stand for.  A continuation also takes the white space at the
start of the next line. -/
def values : Bool → List LiteralPiece → List Char
  | _, [] => []
  | skipping, raw c _ :: ps =>
    if skipping ∧ c ∈ [' ', '\t', '\n', '\r'] then values true ps else c :: values false ps
  | _, short esc _ :: ps => esc.2 :: values false ps
  | _, ascii high low _ :: ps => Char.ofNat (hexNumber [high, low]) :: values false ps
  | _, braced esc :: ps => esc.char :: values false ps
  | _, continuation :: ps => values true ps

/-- The pieces that JSON has as well. -/
def Shared : LiteralPiece → Prop
  | raw _ _ => True
  | short esc _ => esc.1 ≠ '0' ∧ esc.1 ≠ '\x27'
  | ascii _ _ _ | braced _ | continuation => False

/-- A piece that JSON has is read as Rust reads it. -/
theorem Shared.unescapeChars {p : LiteralPiece} (h : p.Shared) :
    ∃ c, (∀ ps, values false (p :: ps) = c :: values false ps) ∧
      ∀ cs, Macros.unescapeChars (p.chars ++ cs) = (Macros.unescapeChars cs).map (c :: ·) := by
  cases p with
  | raw c hc =>
      have hvalues (ps : List LiteralPiece) :
          values false (raw c hc :: ps) = c :: values false ps :=
        if_neg fun hskip ↦ nomatch hskip.1
      have hbackslash : c ≠ '\\' := by
        rintro rfl
        exact hc (by decide)
      exact ⟨c, hvalues, unescapeChars_raw hbackslash⟩
  | short esc hesc =>
      have hall : ∀ esc ∈ rustEscapes, esc.1 ≠ '0' ∧ esc.1 ≠ '\x27' →
          shortEscape esc.1 = some esc.2 := by decide
      exact ⟨esc.2, fun ps ↦ rfl, unescapeChars_short (hall esc hesc h)⟩
  | ascii | braced | continuation => exact h.elim

/-- Any other piece is rejected. -/
theorem unescapeChars_of_not_shared {p : LiteralPiece} (h : ¬ p.Shared) (cs : List Char) :
    ∃ e, unescapeChars (p.chars ++ cs) = .error e := by
  cases p with
  | raw => exact absurd trivial h
  | short esc hesc =>
      have hall : ∀ esc ∈ rustEscapes, ¬ (esc.1 ≠ '0' ∧ esc.1 ≠ '\x27') →
          shortEscape esc.1 = none ∧ esc.1 ≠ 'u' := by decide
      obtain ⟨hshort, hu⟩ := hall esc hesc h
      exact unescapeChars_invalid hshort hu cs
  | ascii high low => exact unescapeChars_invalid rfl (by decide) (high :: low :: cs)
  | braced esc => exact unescapeChars_brace _
  | continuation => exact unescapeChars_invalid rfl (by decide) cs

variable {ps : List LiteralPiece}

theorem unescapeChars_flatMap_of_shared (h : ∀ p ∈ ps, p.Shared) :
    Macros.unescapeChars (ps.flatMap chars) = .ok (values false ps) := by
  induction ps with
  | nil => rfl
  | cons p ps ih =>
      rw [List.forall_mem_cons] at h
      obtain ⟨c, hvalues, hunescape⟩ := h.1.unescapeChars
      rw [List.flatMap_cons, hunescape, ih h.2, hvalues]
      rfl

/-- The first piece that JSON does not have ends the decoding. -/
theorem unescapeChars_flatMap_of_not_shared (h : ¬ ∀ p ∈ ps, p.Shared) :
    ∃ e, Macros.unescapeChars (ps.flatMap chars) = .error e := by
  induction ps with
  | nil => exact absurd nofun h
  | cons p ps ih =>
      rw [List.flatMap_cons]
      by_cases hp : p.Shared
      · obtain ⟨c, -, hunescape⟩ := hp.unescapeChars
        obtain ⟨e, he⟩ := ih fun hps ↦ h (List.forall_mem_cons.mpr ⟨hp, hps⟩)
        rw [hunescape, he]
        exact ⟨e, rfl⟩
      · exact unescapeChars_of_not_shared hp _

end LiteralPiece

/-- An ordinary string literal. -/
structure StringLiteral where
  pieces : List LiteralPiece

namespace StringLiteral

variable (l : StringLiteral)

/-- The text of the literal, with its quotes. -/
def text : String := .ofList ('"' :: (l.pieces.flatMap LiteralPiece.chars ++ ['"']))

/-- The string that Rust assigns to the literal. -/
def value : String := .ofList (LiteralPiece.values false l.pieces)

variable {l}

/-- A literal of pieces that JSON has is read as Rust reads it. -/
theorem unescape_of_shared (h : ∀ p ∈ l.pieces, p.Shared) :
    unescapeJsonString l.text = .ok l.value := by
  rw [text, unescapeJsonString_quoted, LiteralPiece.unescapeChars_flatMap_of_shared h]
  rfl

/-- A literal with any other piece is rejected. -/
theorem unescape_of_not_shared (h : ¬ ∀ p ∈ l.pieces, p.Shared) :
    ∃ e, unescapeJsonString l.text = .error e := by
  obtain ⟨e, he⟩ := LiteralPiece.unescapeChars_flatMap_of_not_shared h
  rw [text, unescapeJsonString_quoted, he]
  exact ⟨e, rfl⟩

/-- **No string literal is misread**: the decoder rejects it, or returns the string that
Rust assigns to it. -/
theorem unescape_text (l : StringLiteral) :
    (∃ e, unescapeJsonString l.text = .error e) ∨ unescapeJsonString l.text = .ok l.value := by
  by_cases h : ∀ p ∈ l.pieces, p.Shared
  · exact .inr (unescape_of_shared h)
  · exact .inl (unescape_of_not_shared h)

end StringLiteral

end WideLog.Macros
