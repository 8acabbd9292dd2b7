import Mathlib.Data.List.Infix

/-!
# UTF-8 text

Core encodes a character by `String.utf8EncodeChar` and decodes byte arrays.
This file has the list view of the encoding that a byte writer works with.
-/

/-- The UTF-8 encoding of a list of characters. -/
def utf8 (cs : List Char) : List UInt8 := cs.flatMap String.utf8EncodeChar

@[simp] theorem utf8_nil : utf8 [] = [] := rfl

@[simp] theorem utf8_append (cs ds : List Char) : utf8 (cs ++ ds) = utf8 cs ++ utf8 ds :=
  List.flatMap_append

theorem utf8_cons (c : Char) (cs : List Char) :
    utf8 (c :: cs) = String.utf8EncodeChar c ++ utf8 cs := rfl

@[simp] theorem utf8_singleton (c : Char) : utf8 [c] = String.utf8EncodeChar c := by
  simp [utf8]

/-- The characters a byte sequence encodes, if it is UTF-8. -/
def utf8Decode (bs : List UInt8) : Option (List Char) :=
  bs.toByteArray.utf8Decode?.map Array.toList

@[simp] theorem utf8Decode_utf8 (cs : List Char) : utf8Decode (utf8 cs) = some cs := by
  have h : (utf8 cs).toByteArray = cs.utf8Encode := rfl
  rw [utf8Decode, h, List.utf8Decode?_utf8Encode]
  rfl

/-- The encoding determines the text. -/
theorem utf8_injective : Function.Injective utf8 := by
  intro cs ds h
  have := congrArg utf8Decode h
  simpa using this

/-! ## Bytes and characters -/

/-- Setting bits does not decrease a byte. -/
theorem le_or_right (b m : UInt8) : m ≤ b ||| m := by
  rw [UInt8.le_iff_toNat_le, UInt8.toNat_or]
  exact Nat.right_le_or

/-- A character is one ASCII byte, or all its bytes are above ASCII. -/
theorem utf8EncodeChar_cases (c : Char) :
    (c.toNat < 0x80 ∧ String.utf8EncodeChar c = [c.val.toUInt8]) ∨
      ∀ b ∈ String.utf8EncodeChar c, 0x80 ≤ b := by
  have hor (b m : UInt8) (hm : 0x80 ≤ m) : 0x80 ≤ b ||| m := UInt8.le_trans hm (le_or_right b m)
  match h : c.utf8Size, c.utf8Size_pos, c.utf8Size_le_four with
  | 1, _, _ =>
      have hval := Char.utf8Size_eq_one_iff.mp h
      refine .inl ⟨?_, String.utf8EncodeChar_eq_singleton h⟩
      have := UInt32.le_iff_toNat_le.mp hval
      exact Nat.lt_succ_of_le this
  | 2, _, _ =>
      right
      rw [String.utf8EncodeChar_eq_cons_cons h]
      simp only [List.mem_cons, List.not_mem_nil, or_false]
      rintro b (rfl | rfl) <;> exact hor _ _ (by decide)
  | 3, _, _ =>
      right
      rw [String.utf8EncodeChar_eq_cons_cons_cons h]
      simp only [List.mem_cons, List.not_mem_nil, or_false]
      rintro b (rfl | rfl | rfl) <;> exact hor _ _ (by decide)
  | 4, _, _ =>
      right
      rw [String.utf8EncodeChar_eq_cons_cons_cons_cons h]
      simp only [List.mem_cons, List.not_mem_nil, or_false]
      rintro b (rfl | rfl | rfl | rfl) <;> exact hor _ _ (by decide)

/-- An ASCII byte of a text is an ASCII character of it. -/
theorem exists_of_mem_utf8 {b : UInt8} (hb : b < 0x80) {cs : List Char} (h : b ∈ utf8 cs) :
    ∃ c ∈ cs, c.toNat = b.toNat := by
  obtain ⟨c, hc, hmem⟩ := List.mem_flatMap.mp h
  refine ⟨c, hc, ?_⟩
  rcases utf8EncodeChar_cases c with ⟨hlt, henc⟩ | hge
  · rw [henc, List.mem_singleton] at hmem
    subst hmem
    rw [UInt32.toNat_toUInt8]
    exact (Nat.mod_eq_of_lt (Nat.lt_trans hlt (by decide))).symm
  · exact absurd hb (UInt8.not_lt.mpr (hge b hmem))

/-- Two texts that start with the same bytes start with the same character. -/
theorem eq_of_encode_append {c d : Char} {bs bs' : List UInt8}
    (h : String.utf8EncodeChar c ++ bs = String.utf8EncodeChar d ++ bs') : c = d := by
  have hdec (e : Char) (as : List UInt8) :
      (String.utf8EncodeChar e ++ as).toByteArray.utf8DecodeChar? 0 = some e := by
    rw [List.toByteArray_append]
    exact ByteArray.utf8DecodeChar?_utf8EncodeChar_append
  have := hdec c bs
  rw [h, hdec d bs'] at this
  exact (Option.some.inj this).symm

theorem encode_ne_nil (c : Char) : String.utf8EncodeChar c ≠ [] :=
  List.ne_nil_of_length_pos (by simp [c.utf8Size_pos])

theorem firstByte_of_encode {c : Char} {b : UInt8} {bs : List UInt8}
    (h : String.utf8EncodeChar c = b :: bs) : b.IsUTF8FirstByte := by
  have hlen : 0 < (String.utf8EncodeChar c).length := by simp [h]
  have hget : (String.utf8EncodeChar c)[0] = b := by simp [h]
  rw [← hget]
  exact UInt8.isUTF8FirstByte_getElem_utf8EncodeChar.mpr rfl

theorem not_firstByte_of_encode {c : Char} {b : UInt8} {s a : List UInt8}
    (h : String.utf8EncodeChar c = s ++ b :: a) (hs : s ≠ []) : ¬ b.IsUTF8FirstByte := by
  have hlen : s.length < (String.utf8EncodeChar c).length := by simp [h]
  have hget : (String.utf8EncodeChar c)[s.length] = b := by simp [h]
  rw [← hget, UInt8.isUTF8FirstByte_getElem_utf8EncodeChar, List.length_eq_zero_iff]
  exact hs

/-- UTF-8 is self-synchronizing: where the bytes of a character occur in a text, the
character does. -/
theorem mem_of_encode_within {c : Char} {cs : List Char}
    (h : String.utf8EncodeChar c <:+: utf8 cs) : c ∈ cs := by
  induction cs with
  | nil =>
      have := List.infix_nil.mp h
      exact absurd this (encode_ne_nil c)
  | cons d ds ih =>
      obtain ⟨s, t, hst⟩ := h
      rw [utf8_cons, List.append_assoc, List.append_eq_append_iff] at hst
      rcases hst with ⟨a, hd, hc⟩ | ⟨a, hs, hds⟩
      · by_cases hs : s = []
        · subst hs
          rw [List.nil_append] at hd
          rw [← hd] at hc
          exact List.mem_cons.mpr (.inl (eq_of_encode_append hc))
        · by_cases ha : a = []
          · subst ha
            exact List.mem_cons_of_mem _ (ih ⟨[], t, by simpa using hc⟩)
          · -- the first byte of `c` would be an inner byte of `d`
            obtain ⟨b, bs, hb⟩ := List.exists_cons_of_ne_nil (encode_ne_nil c)
            obtain ⟨b', a, rfl⟩ := List.exists_cons_of_ne_nil ha
            rw [hb, List.cons_append, List.cons_append] at hc
            have hfirst := firstByte_of_encode hb
            rw [(List.cons.inj hc).1] at hfirst
            exact absurd hfirst (not_firstByte_of_encode hd hs)
      · exact List.mem_cons_of_mem _ (ih ⟨a, t, by rw [hds, List.append_assoc]⟩)
