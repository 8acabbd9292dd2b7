import WideLog.Lib.Json.Grammar

/-!
# Reading JSON texts

A recursive-descent reader for the grammar, and its completeness: it accepts every
JSON text and returns the value that the text denotes.  A text therefore denotes
one value.

The reader recurses on a fuel argument.  A value consumes one unit per character
at most, and so does a list of elements or members with its closing bracket.
-/

namespace Rfc8259

/-! ## The reader -/

/-- Skip insignificant whitespace. -/
def skipWs (cs : List Char) : List Char := cs.dropWhile isWs

/-- Read one given character. -/
def expect (c : Char) : List Char → Option (List Char)
  | [] => none
  | d :: cs => if d = c then some cs else none

/-- Read a given word. -/
def readWord (word : List Char) (j : Json) (cs : List Char) : Option (Json × List Char) :=
  if cs.take word.length = word then some (j, cs.drop word.length) else none

/-- Read an optional minus sign. -/
def readMinus (cs : List Char) : Bool × List Char :=
  match expect '-' cs with
  | some cs => (true, cs)
  | none => (false, cs)

/-- Read a run of digits. -/
def readDigits (cs : List Char) : Option (List Char × List Char) :=
  let ds := cs.takeWhile Char.isDigit
  if ds = [] then none else some (ds, cs.dropWhile Char.isDigit)

/-- Read an integer part. -/
def readInt (cs : List Char) : Option (List Char × List Char) := do
  let (ds, cs) ← readDigits cs
  if ds.head? = some '0' ∧ ds ≠ ['0'] then none else some (ds, cs)

/-- Read an optional fraction. -/
def readFrac (cs : List Char) : Option (List Char × List Char) :=
  match expect '.' cs with
  | some cs => readDigits cs
  | none => some ([], cs)

/-- Read the optional sign of an exponent. -/
def readExpSign (cs : List Char) : Bool × List Char :=
  match expect '+' cs with
  | some cs => (false, cs)
  | none => readMinus cs

/-- Read an optional exponent. -/
def readExponent (cs : List Char) : Option (Option ℤ × List Char) :=
  match (expect 'e' cs).or (expect 'E' cs) with
  | some cs => do
    let (neg, cs) := readExpSign cs
    let (ds, cs) ← readDigits cs
    some (some (intOf neg ds), cs)
  | none => some (none, cs)

/-- Read a number. -/
def readNumber (cs : List Char) : Option (Json × List Char) := do
  let (neg, cs) := readMinus cs
  let (ds, cs) ← readInt cs
  let (fs, cs) ← readFrac cs
  let (e, cs) ← readExponent cs
  some (numberValue neg ds fs e, cs)

/-- Read the four digits of a code unit. -/
def readUnit : List Char → Option (ℕ × List Char)
  | a :: b :: c :: d :: cs => (hex4 a b c d).map (·, cs)
  | _ => none

/-- Read an escape, after its backslash. -/
def readEscape : List Char → Option (Char × List Char)
  | [] => none
  | e :: cs =>
    if e = 'u' then do
      let (n, cs) ← readUnit cs
      if IsHigh n then do
        let cs ← expect '\\' cs
        let cs ← expect 'u' cs
        let (lo, cs) ← readUnit cs
        if IsLow lo then some (pairChar n lo, cs) else none
      else if IsLow n then none
      else some (Char.ofNat n, cs)
    else (shortEscape e).map (·, cs)

/-- Read the inside of a string and its closing quote. -/
def readChars : ℕ → List Char → Option (List Char × List Char)
  | 0, _ => none
  | _ + 1, [] => none
  | n + 1, c :: cs =>
    if c = '"' then some ([], cs)
    else do
      let (d, cs) ← if c = '\\' then readEscape cs
        else if Unescaped c then some (c, cs) else none
      let (ds, cs) ← readChars n cs
      some (d :: ds, cs)

/-- Read a string. -/
def readStr (n : ℕ) (cs : List Char) : Option (String × List Char) := do
  let cs ← expect '"' cs
  let (ds, cs) ← readChars n cs
  some (.ofList ds, cs)

mutual

/-- Read a value. -/
def readValue : ℕ → List Char → Option (Json × List Char)
  | 0, _ => none
  | _ + 1, [] => none
  | n + 1, c :: cs =>
    if c = 'n' then readWord ['n', 'u', 'l', 'l'] .null (c :: cs)
    else if c = 't' then readWord ['t', 'r', 'u', 'e'] (.bool true) (c :: cs)
    else if c = 'f' then readWord ['f', 'a', 'l', 's', 'e'] (.bool false) (c :: cs)
    else if c = '"' then (readStr (n + 1) (c :: cs)).map fun (s, cs) => (.str s, cs)
    else if c = '[' then
      match expect ']' (skipWs cs) with
      | some cs => some (.arr [], cs)
      | none => (readElements n cs).map fun (js, cs) => (.arr js, cs)
    else if c = '\x7b' then
      match expect '\x7d' (skipWs cs) with
      | some cs => some (.obj [], cs)
      | none => (readMembers n cs).map fun (ms, cs) => (.obj ms, cs)
    else readNumber (c :: cs)

/-- Read the elements of a non-empty array and its closing bracket. -/
def readElements : ℕ → List Char → Option (List Json × List Char)
  | 0, _ => none
  | n + 1, cs => do
    let (j, cs) ← readValue n (skipWs cs)
    match expect ',' (skipWs cs) with
    | some cs => do
      let (js, cs) ← readElements n cs
      some (j :: js, cs)
    | none => do
      let cs ← expect ']' (skipWs cs)
      some ([j], cs)

/-- Read the members of a non-empty object and its closing brace. -/
def readMembers : ℕ → List Char → Option (List (String × Json) × List Char)
  | 0, _ => none
  | n + 1, cs => do
    let (k, cs) ← readStr n (skipWs cs)
    let cs ← expect ':' (skipWs cs)
    let (j, cs) ← readValue n (skipWs cs)
    match expect ',' (skipWs cs) with
    | some cs => do
      let (ms, cs) ← readMembers n cs
      some ((k, j) :: ms, cs)
    | none => do
      let cs ← expect '\x7d' (skipWs cs)
      some ([(k, j)], cs)

end

/-- Read a JSON text. -/
def parse (cs : List Char) : Option Json := do
  let (j, cs) ← readValue (cs.length + 1) (skipWs cs)
  if skipWs cs = [] then some j else none

/-! ## Tokens are read back

A token is read to its end when what follows cannot extend it. -/

/-- The text does not start with a character that satisfies `p`. -/
def NoHead (p : Char → Prop) (cs : List Char) : Prop := ∀ c ∈ cs.head?, ¬ p c

/-- The characters that may extend a number. -/
def NumberChar (c : Char) : Prop := c.isDigit ∨ c = '.' ∨ c = 'e' ∨ c = 'E'

@[simp] theorem noHead_nil (p : Char → Prop) : NoHead p [] := by simp [NoHead]

@[simp] theorem noHead_cons {p : Char → Prop} {c : Char} {cs : List Char} :
    NoHead p (c :: cs) ↔ ¬ p c := by simp [NoHead]

theorem NoHead.mono {p q : Char → Prop} (h : ∀ c, q c → p c) {cs : List Char}
    (hp : NoHead p cs) : NoHead q cs := fun c hc hq ↦ hp c hc (h c hq)

@[simp] theorem expect_cons_self (c : Char) (cs : List Char) : expect c (c :: cs) = some cs :=
  if_pos rfl

theorem expect_of_noHead {c : Char} {cs : List Char} (h : NoHead (· = c) cs) :
    expect c cs = none := by
  cases cs with
  | nil => rfl
  | cons d ds => exact if_neg (noHead_cons.mp h)

/-- Whitespace is skipped up to the first character that is none. -/
theorem skipWs_append {u cs : List Char} (hu : Ws u) (h : NoHead (isWs · = true) cs) :
    skipWs (u ++ cs) = cs := by
  rw [skipWs, List.dropWhile_append_of_pos hu]
  cases cs with
  | nil => rfl
  | cons c cs => exact List.dropWhile_cons_of_neg (noHead_cons.mp h)

theorem skipWs_cons {u cs : List Char} {c : Char} (hu : Ws u) (hc : isWs c = false) :
    skipWs (u ++ c :: cs) = c :: cs :=
  skipWs_append hu (noHead_cons.mpr (Bool.eq_false_iff.mp hc))

theorem readDigits_append {ds rest : List Char} (hds : Digits ds)
    (hrest : NoHead (·.isDigit = true) rest) : readDigits (ds ++ rest) = some (ds, rest) := by
  have htake : rest.takeWhile Char.isDigit = [] ∧ rest.dropWhile Char.isDigit = rest := by
    cases rest with
    | nil => exact ⟨rfl, rfl⟩
    | cons c cs =>
        have hc : ¬ c.isDigit = true := noHead_cons.mp hrest
        exact ⟨List.takeWhile_cons_of_neg hc, List.dropWhile_cons_of_neg hc⟩
  rw [readDigits, List.takeWhile_append_of_pos hds.2, List.dropWhile_append_of_pos hds.2,
    htake.1, htake.2, List.append_nil]
  exact if_neg hds.1

/-- The first of some digits is none of the other characters of a number. -/
theorem Digits.noHead {ds : List Char} (hds : Digits ds) (rest : List Char) {p : Char → Prop}
    (hp : ∀ c, c.isDigit = true → ¬ p c) : NoHead p (ds ++ rest) := by
  obtain ⟨d, ds', rfl⟩ := List.exists_cons_of_ne_nil hds.1
  exact noHead_cons.mpr (hp d (hds.2 d (by simp)))

theorem ne_of_isDigit {c d : Char} (hc : c.isDigit = true) (hd : d.isDigit = false) : c ≠ d := by
  rintro rfl
  exact Bool.noConfusion (hc.symm.trans hd)

theorem readMinus_append {m rest : List Char} {neg : Bool} (hm : Minus m neg)
    (hrest : NoHead (· = '-') rest) : readMinus (m ++ rest) = (neg, rest) := by
  cases hm with
  | absent => rw [List.nil_append, readMinus, expect_of_noHead hrest]
  | present => rfl

theorem readInt_append {ds rest : List Char} (hds : IntPart ds)
    (hrest : NoHead (·.isDigit = true) rest) : readInt (ds ++ rest) = some (ds, rest) := by
  rw [readInt, readDigits_append hds.1 hrest]
  exact if_neg fun h ↦ h.2 (hds.2 h.1)

theorem readFrac_append {f fs rest : List Char} (hf : Frac f fs)
    (hrest : NoHead (fun c ↦ c.isDigit = true ∨ c = '.') rest) :
    readFrac (f ++ rest) = some (fs, rest) := by
  cases hf with
  | absent =>
      rw [List.nil_append, readFrac, expect_of_noHead (hrest.mono fun c hc ↦ .inr hc)]
  | present hds =>
      simp only [readFrac, List.cons_append, expect_cons_self]
      exact readDigits_append hds (hrest.mono fun c hc ↦ .inl hc)

theorem readExpSign_append {sign ds rest : List Char} {neg : Bool} (hs : ExpSign sign neg)
    (hds : Digits ds) : readExpSign (sign ++ (ds ++ rest)) = (neg, ds ++ rest) := by
  have hplus : NoHead (· = '+') (ds ++ rest) := hds.noHead rest fun c hc ↦ ne_of_isDigit hc rfl
  have hminus : NoHead (· = '-') (ds ++ rest) := hds.noHead rest fun c hc ↦ ne_of_isDigit hc rfl
  cases hs with
  | absent =>
      rw [List.nil_append, readExpSign, expect_of_noHead hplus]
      exact readMinus_append .absent hminus
  | plus => rfl
  | minus => rfl

theorem readExponent_append {e rest : List Char} {x : Option ℤ} (he : Exponent e x)
    (hrest : NoHead NumberChar rest) : readExponent (e ++ rest) = some (x, rest) := by
  cases he with
  | absent =>
      have hlow : NoHead (· = 'e') rest := hrest.mono fun c hc ↦ .inr (.inr (.inl hc))
      have hupp : NoHead (· = 'E') rest := hrest.mono fun c hc ↦ .inr (.inr (.inr hc))
      rw [List.nil_append, readExponent, expect_of_noHead hlow, expect_of_noHead hupp]
      rfl
  | @present c sign ds neg hc hs hds =>
      have hstart : (expect 'e' (c :: (sign ++ (ds ++ rest)))).or
          (expect 'E' (c :: (sign ++ (ds ++ rest)))) = some (sign ++ (ds ++ rest)) := by
        rcases hc with rfl | rfl <;> rfl
      simp only [List.cons_append, List.append_assoc, readExponent, hstart,
        readExpSign_append hs hds]
      rw [readDigits_append hds (hrest.mono fun c hc ↦ .inl hc)]
      rfl

/-- A fraction and an exponent do not start with a digit, unless what follows does. -/
theorem Exponent.noHead {e rest : List Char} {x : Option ℤ} (he : Exponent e x)
    {p : Char → Prop} (hrest : NoHead p rest) (hlow : ¬ p 'e') (hupp : ¬ p 'E') :
    NoHead p (e ++ rest) := by
  cases he with
  | absent => exact hrest
  | present hc _ _ => rcases hc with rfl | rfl <;> simpa

theorem Frac.noHead {f fs rest : List Char} (hf : Frac f fs) {p : Char → Prop}
    (hrest : NoHead p rest) (hdot : ¬ p '.') : NoHead p (f ++ rest) := by
  cases hf with
  | absent => exact hrest
  | present _ => exact noHead_cons.mpr hdot

/-- A number is read to its end when no character that could extend it follows. -/
theorem readNumber_append {cs rest : List Char} {j : Json} (h : Number cs j)
    (hrest : NoHead NumberChar rest) : readNumber (cs ++ rest) = some (j, rest) := by
  obtain ⟨hm, hds, hf, he⟩ := h
  rename_i m ds f fs e neg x
  have hdot : NoHead (fun c ↦ c.isDigit = true ∨ c = '.') (e ++ rest) :=
    he.noHead (hrest.mono fun c hc ↦ hc.imp id .inl) (by decide) (by decide)
  have hdig : NoHead (·.isDigit = true) (f ++ (e ++ rest)) :=
    hf.noHead (hdot.mono fun c hc ↦ .inl hc) (by decide)
  have hminus : NoHead (· = '-') (ds ++ (f ++ (e ++ rest))) :=
    hds.1.noHead _ fun c hc ↦ ne_of_isDigit hc rfl
  simp only [readNumber, List.append_assoc, readMinus_append hm hminus]
  rw [readInt_append hds hdig, Option.bind_eq_bind, Option.bind_some, readFrac_append hf hdot,
    Option.bind_eq_bind, Option.bind_some, readExponent_append he hrest]
  rfl

/-- A number starts with a minus sign or a digit. -/
theorem Number.head {cs : List Char} {j : Json} (h : Number cs j) :
    ∃ c t, cs = c :: t ∧ (c = '-' ∨ c.isDigit = true) := by
  obtain ⟨hm, hds, -, -⟩ := h
  cases hm with
  | absent =>
      obtain ⟨d, ds, rfl⟩ := List.exists_cons_of_ne_nil hds.1.1
      exact ⟨d, _, rfl, .inr (hds.1.2 d (by simp))⟩
  | present => exact ⟨'-', _, rfl, .inl rfl⟩

theorem readEscape_short {e c : Char} (he : shortEscape e = some c) (cs : List Char) :
    readEscape (e :: cs) = some (c, cs) := by
  have hu : e ≠ 'u' := by
    rintro rfl
    have hnone : shortEscape 'u' = none := by decide
    rw [hnone] at he
    cases he
  rw [readEscape, if_neg hu, he]
  rfl

theorem readUnit_cons {x₃ x₂ x₁ x₀ : Char} {n : ℕ} (hx : hex4 x₃ x₂ x₁ x₀ = some n)
    (cs : List Char) : readUnit (x₃ :: x₂ :: x₁ :: x₀ :: cs) = some (n, cs) := by
  rw [readUnit, hx]
  rfl

theorem readEscape_unit {x₃ x₂ x₁ x₀ : Char} {n : ℕ} (hx : hex4 x₃ x₂ x₁ x₀ = some n)
    (hhi : ¬ IsHigh n) (hlo : ¬ IsLow n) (cs : List Char) :
    readEscape ('u' :: x₃ :: x₂ :: x₁ :: x₀ :: cs) = some (Char.ofNat n, cs) := by
  rw [readEscape, if_pos rfl, readUnit_cons hx, Option.bind_eq_bind, Option.bind_some]
  simp only [if_neg hhi, if_neg hlo]

theorem readEscape_pair {x₃ x₂ x₁ x₀ y₃ y₂ y₁ y₀ : Char} {hi lo : ℕ}
    (hx : hex4 x₃ x₂ x₁ x₀ = some hi) (hhi : IsHigh hi) (hy : hex4 y₃ y₂ y₁ y₀ = some lo)
    (hlo : IsLow lo) (cs : List Char) :
    readEscape ('u' :: x₃ :: x₂ :: x₁ :: x₀ :: '\\' :: 'u' :: y₃ :: y₂ :: y₁ :: y₀ :: cs) =
      some (pairChar hi lo, cs) := by
  rw [readEscape, if_pos rfl, readUnit_cons hx, Option.bind_eq_bind, Option.bind_some]
  simp only [if_pos hhi, expect_cons_self, Option.bind_eq_bind, Option.bind_some,
    readUnit_cons hy, if_pos hlo]

theorem readChars_escape {cs tail ds rest : List Char} {d : Char} {n : ℕ}
    (he : readEscape cs = some (d, tail)) (h : readChars n tail = some (ds, rest)) :
    readChars (n + 1) ('\\' :: cs) = some (d :: ds, rest) := by
  simp only [readChars, if_neg (by decide : ¬ '\\' = '"'), ↓reduceIte, he, h,
    Option.bind_eq_bind, Option.bind_some]

/-- The inside of a string is read up to its closing quote. -/
theorem readChars_append {cs ds : List Char} (h : Chars cs ds) {n : ℕ} (hn : cs.length < n)
    (rest : List Char) : readChars n (cs ++ '"' :: rest) = some (ds, rest) := by
  induction h generalizing n with
  | nil =>
      obtain ⟨n, rfl⟩ := Nat.exists_eq_add_one_of_ne_zero (Nat.ne_zero_of_lt hn)
      rfl
  | raw hc _ ih =>
      obtain ⟨n, rfl⟩ := Nat.exists_eq_add_one_of_ne_zero (Nat.ne_zero_of_lt hn)
      simp only [List.length_cons] at hn
      simp only [List.cons_append, readChars, if_neg hc.1, if_neg hc.2.1, if_pos hc]
      rw [Option.bind_eq_bind, Option.bind_some, ih (by omega)]
      rfl
  | short he _ ih =>
      obtain ⟨n, rfl⟩ := Nat.exists_eq_add_one_of_ne_zero (Nat.ne_zero_of_lt hn)
      simp only [List.length_cons] at hn
      exact readChars_escape (readEscape_short he _) (ih (by omega))
  | unit hx hhi hlo _ ih =>
      obtain ⟨n, rfl⟩ := Nat.exists_eq_add_one_of_ne_zero (Nat.ne_zero_of_lt hn)
      simp only [List.length_cons] at hn
      exact readChars_escape (readEscape_unit hx hhi hlo _) (ih (by omega))
  | pair hx hhi hy hlo _ ih =>
      obtain ⟨n, rfl⟩ := Nat.exists_eq_add_one_of_ne_zero (Nat.ne_zero_of_lt hn)
      simp only [List.length_cons] at hn
      exact readChars_escape (readEscape_pair hx hhi hy hlo _) (ih (by omega))

/-- A string is read to its end, whatever follows. -/
theorem readStr_append {cs : List Char} {s : String} (h : Str cs s) {n : ℕ}
    (hn : cs.length ≤ n) (rest : List Char) : readStr n (cs ++ rest) = some (s, rest) := by
  obtain ⟨h⟩ := h
  rename_i cs ds
  simp only [List.length_cons, List.length_append] at hn
  simp only [readStr, List.cons_append, List.append_assoc, List.nil_append, expect_cons_self]
  rw [Option.bind_eq_bind, Option.bind_some, readChars_append h (by omega)]
  rfl

/-! ## Completeness -/

/-- The characters a value can start with. -/
def ValueStart (c : Char) : Prop :=
  c = 'n' ∨ c = 't' ∨ c = 'f' ∨ c = '"' ∨ c = '[' ∨ c = '\x7b' ∨ c = '-' ∨ c.isDigit = true

/-- A value is not empty, and its first character announces it. -/
theorem Derives.start {cs : List Char} {j : Json} (h : Derives (.value j) cs) :
    ∃ c t, cs = c :: t ∧ ValueStart c := by
  cases h with
  | number h =>
      obtain ⟨c, t, rfl, hc⟩ := h.head
      exact ⟨c, t, rfl, by grind [ValueStart]⟩
  | string h =>
      obtain ⟨h⟩ := h
      exact ⟨_, _, rfl, by simp [ValueStart]⟩
  | _ => exact ⟨_, _, rfl, by simp [ValueStart]⟩

/-- A value starts with no whitespace, bracket that closes or comma. -/
theorem ValueStart.not_close {c : Char} (h : ValueStart c) :
    ¬ isWs c = true ∧ c ≠ ']' ∧ c ≠ '\x7d' := by
  rcases h with rfl | rfl | rfl | rfl | rfl | rfl | rfl | h
  any_goals decide
  refine ⟨?_, ne_of_isDigit h rfl, ne_of_isDigit h rfl⟩
  intro hw
  simp only [isWs, Bool.or_eq_true, decide_eq_true_eq] at hw
  rcases hw with ((rfl | rfl) | rfl) | rfl <;> exact absurd h (by decide)

/-- Each phrase is read back, on enough fuel and before a suitable rest. -/
def Phrase.Reads (cs : List Char) : Phrase → Prop
  | .value j => ∀ n rest, cs.length < n → NoHead NumberChar rest →
      readValue n (cs ++ rest) = some (j, rest)
  | .elements js => ∀ n rest, cs.length + 1 < n →
      readElements n (cs ++ ']' :: rest) = some (js, rest)
  | .members ms => ∀ n rest, cs.length + 1 < n →
      readMembers n (cs ++ '\x7d' :: rest) = some (ms, rest)

/-- Whitespace before a character that ends a value does not extend the value. -/
theorem noHead_ws {v rest : List Char} (hv : Ws v) (h : NoHead NumberChar rest) :
    NoHead NumberChar (v ++ rest) := by
  cases v with
  | nil => exact h
  | cons c v =>
      apply noHead_cons.mpr
      intro hc
      have hw := hv c (by simp)
      simp only [isWs, Bool.or_eq_true, decide_eq_true_eq] at hw
      rcases hw with ((rfl | rfl) | rfl) | rfl <;> exact absurd hc (by simp [NumberChar])

theorem readValue_number {cs : List Char} {j : Json} (h : Number cs j) :
    (Phrase.value j).Reads cs := by
  intro n rest hn hrest
  obtain ⟨n, rfl⟩ := Nat.exists_eq_add_one_of_ne_zero (Nat.ne_zero_of_lt hn)
  have hread := readNumber_append h hrest
  obtain ⟨c, t, rfl, hc⟩ := h.head
  have hne : ∀ d : Char, d.isDigit = false → d ≠ '-' → ¬ c = d := fun d hd hm ↦
    hc.elim (fun hc ↦ hc ▸ hm.symm) (ne_of_isDigit · hd)
  rw [List.cons_append] at hread ⊢
  rw [readValue, if_neg (hne _ rfl (by decide)), if_neg (hne _ rfl (by decide)),
    if_neg (hne _ rfl (by decide)), if_neg (hne _ rfl (by decide)),
    if_neg (hne _ rfl (by decide)), if_neg (hne _ rfl (by decide)), hread]

theorem readValue_string {cs : List Char} {s : String} (h : Str cs s) :
    (Phrase.value (.str s)).Reads cs := by
  intro n rest hn hrest
  obtain ⟨n, rfl⟩ := Nat.exists_eq_add_one_of_ne_zero (Nat.ne_zero_of_lt hn)
  have hread := readStr_append h (Nat.le_of_lt hn) rest
  obtain ⟨h⟩ := h
  simp only [List.cons_append, List.append_assoc, List.nil_append] at hread ⊢
  simp [readValue, hread]

theorem readValue_emptyArr {w : List Char} (hw : Ws w) :
    (Phrase.value (.arr [])).Reads ('[' :: (w ++ [']'])) := by
  intro n rest hn hrest
  obtain ⟨n, rfl⟩ := Nat.exists_eq_add_one_of_ne_zero (Nat.ne_zero_of_lt hn)
  have hskip : skipWs (w ++ ']' :: rest) = ']' :: rest :=
    skipWs_cons hw rfl
  simp [readValue, hskip]

theorem readValue_emptyObj {w : List Char} (hw : Ws w) :
    (Phrase.value (.obj [])).Reads ('\x7b' :: (w ++ ['\x7d'])) := by
  intro n rest hn hrest
  obtain ⟨n, rfl⟩ := Nat.exists_eq_add_one_of_ne_zero (Nat.ne_zero_of_lt hn)
  have hskip : skipWs (w ++ '\x7d' :: rest) = '\x7d' :: rest :=
    skipWs_cons hw rfl
  simp [readValue, hskip]

/-- Whitespace before a value is skipped, and no more. -/
theorem skipWs_value {u cs : List Char} {j : Json} (hu : Ws u) (h : Derives (.value j) cs)
    (rest : List Char) : skipWs (u ++ (cs ++ rest)) = cs ++ rest := by
  obtain ⟨c, t, rfl, hc⟩ := h.start
  exact skipWs_append hu (noHead_cons.mpr hc.not_close.1)

theorem skipWs_str {u ks : List Char} {k : String} (hu : Ws u) (h : Str ks k)
    (rest : List Char) : skipWs (u ++ (ks ++ rest)) = ks ++ rest := by
  obtain ⟨h⟩ := h
  exact skipWs_cons hu rfl

/-- The elements of an array do not start with the bracket that closes it. -/
theorem Derives.elements_open {cs : List Char} {js : List Json} (h : Derives (.elements js) cs)
    (rest : List Char) : expect ']' (skipWs (cs ++ rest)) = none := by
  have hopen {u ds : List Char} {j : Json} (hu : Ws u) (h : Derives (.value j) ds)
      (tail : List Char) : expect ']' (skipWs (u ++ (ds ++ tail))) = none := by
    rw [skipWs_value hu h]
    obtain ⟨c, t, rfl, hc⟩ := h.start
    exact expect_of_noHead (noHead_cons.mpr hc.not_close.2.1)
  cases h with
  | element hu h hv => simpa only [List.append_assoc] using hopen hu h _
  | elements hu h hv hs => simpa only [List.append_assoc] using hopen hu h _

/-- The members of an object do not start with the brace that closes it. -/
theorem Derives.members_open {cs : List Char} {ms : List (String × Json)}
    (h : Derives (.members ms) cs) (rest : List Char) :
    expect '\x7d' (skipWs (cs ++ rest)) = none := by
  have hopen {u ks : List Char} {k : String} (hu : Ws u) (h : Str ks k) (tail : List Char) :
      expect '\x7d' (skipWs (u ++ (ks ++ tail))) = none := by
    rw [skipWs_str hu h]
    obtain ⟨h⟩ := h
    exact expect_of_noHead (noHead_cons.mpr (by decide))
  cases h with
  | member hu hk hv hw h hx => simpa only [List.append_assoc] using hopen hu hk _
  | members hu hk hv hw h hx hs => simpa only [List.append_assoc] using hopen hu hk _

theorem readValue_arr {cs : List Char} {js : List Json} (h : Derives (.elements js) cs)
    (ih : (Phrase.elements js).Reads cs) :
    (Phrase.value (.arr js)).Reads ('[' :: (cs ++ [']'])) := by
  intro n rest hn hrest
  obtain ⟨n, rfl⟩ := Nat.exists_eq_add_one_of_ne_zero (Nat.ne_zero_of_lt hn)
  simp only [List.length_cons, List.length_append, List.length_nil] at hn
  simp [readValue, h.elements_open, ih n rest (by omega)]

theorem readValue_obj {cs : List Char} {ms : List (String × Json)}
    (h : Derives (.members ms) cs) (ih : (Phrase.members ms).Reads cs) :
    (Phrase.value (.obj ms)).Reads ('\x7b' :: (cs ++ ['\x7d'])) := by
  intro n rest hn hrest
  obtain ⟨n, rfl⟩ := Nat.exists_eq_add_one_of_ne_zero (Nat.ne_zero_of_lt hn)
  simp only [List.length_cons, List.length_append, List.length_nil] at hn
  simp [readValue, h.members_open, ih n rest (by omega)]

/-- After an element, the bracket that ends the array. -/
theorem readElements_last {u cs v : List Char} {j : Json} (hu : Ws u)
    (h : Derives (.value j) cs) (hv : Ws v) (ih : (Phrase.value j).Reads cs) :
    (Phrase.elements [j]).Reads (u ++ (cs ++ v)) := by
  intro n rest hn
  obtain ⟨n, rfl⟩ := Nat.exists_eq_add_one_of_ne_zero (Nat.ne_zero_of_lt hn)
  simp only [List.length_append] at hn
  have hnum : NoHead NumberChar (v ++ ']' :: rest) := noHead_ws hv (by simp [NumberChar])
  have hend : skipWs (v ++ ']' :: rest) = ']' :: rest :=
    skipWs_cons hv rfl
  have hcomma : expect ',' (']' :: rest) = none := rfl
  simp only [readElements, List.append_assoc, skipWs_value hu h, ih n _ (by omega) hnum,
    Option.bind_eq_bind, Option.bind_some, hend, hcomma, expect_cons_self]

/-- After an element, a comma and more elements. -/
theorem readElements_more {u cs v ds : List Char} {j : Json} {js : List Json} (hu : Ws u)
    (h : Derives (.value j) cs) (hv : Ws v) (ih : (Phrase.value j).Reads cs)
    (ihs : (Phrase.elements js).Reads ds) :
    (Phrase.elements (j :: js)).Reads (u ++ (cs ++ (v ++ ',' :: ds))) := by
  intro n rest hn
  obtain ⟨n, rfl⟩ := Nat.exists_eq_add_one_of_ne_zero (Nat.ne_zero_of_lt hn)
  obtain ⟨c, t, hcs, -⟩ := h.start
  have hpos : 0 < cs.length := by simp [hcs]
  simp only [List.length_append, List.length_cons] at hn
  have hnum : NoHead NumberChar (v ++ ',' :: (ds ++ ']' :: rest)) :=
    noHead_ws hv (by simp [NumberChar])
  have hend : skipWs (v ++ ',' :: (ds ++ ']' :: rest)) = ',' :: (ds ++ ']' :: rest) :=
    skipWs_cons hv rfl
  simp only [readElements, List.append_assoc, List.cons_append, skipWs_value hu h,
    ih n _ (by omega) hnum, Option.bind_eq_bind, Option.bind_some, hend, expect_cons_self,
    ihs n rest (by omega)]

/-- The name of a member, the colon and the value, up to what follows the value. -/
theorem readMember {u ks v w cs tail : List Char} {k : String} {j : Json} (hu : Ws u)
    (hk : Str ks k) (hv : Ws v) (hw : Ws w) (h : Derives (.value j) cs)
    (ih : (Phrase.value j).Reads cs) {n : ℕ} (hks : ks.length ≤ n) (hcs : cs.length < n)
    (hnum : NoHead NumberChar tail) :
    readStr n (skipWs (u ++ (ks ++ (v ++ ':' :: (w ++ (cs ++ tail)))))) =
        some (k, v ++ ':' :: (w ++ (cs ++ tail))) ∧
      expect ':' (skipWs (v ++ ':' :: (w ++ (cs ++ tail)))) = some (w ++ (cs ++ tail)) ∧
      readValue n (skipWs (w ++ (cs ++ tail))) = some (j, tail) := by
  refine ⟨?_, ?_, ?_⟩
  · rw [skipWs_str hu hk, readStr_append hk hks]
  · rw [skipWs_cons hv rfl, expect_cons_self]
  · rw [skipWs_value hw h, ih n tail hcs hnum]

theorem readMembers_last {u ks v w cs x : List Char} {k : String} {j : Json} (hu : Ws u)
    (hk : Str ks k) (hv : Ws v) (hw : Ws w) (h : Derives (.value j) cs) (hx : Ws x)
    (ih : (Phrase.value j).Reads cs) :
    (Phrase.members [(k, j)]).Reads (u ++ (ks ++ (v ++ ':' :: (w ++ (cs ++ x))))) := by
  intro n rest hn
  obtain ⟨n, rfl⟩ := Nat.exists_eq_add_one_of_ne_zero (Nat.ne_zero_of_lt hn)
  simp only [List.length_append, List.length_cons] at hn
  have hnum : NoHead NumberChar (x ++ '\x7d' :: rest) := noHead_ws hx (by simp [NumberChar])
  have hend : skipWs (x ++ '\x7d' :: rest) = '\x7d' :: rest :=
    skipWs_cons hx rfl
  have hcomma : expect ',' ('\x7d' :: rest) = none := rfl
  obtain ⟨hname, hcolon, hval⟩ :=
    readMember hu hk hv hw h ih (by omega : ks.length ≤ n) (by omega) hnum
  simp only [readMembers, List.append_assoc, List.cons_append, hname, hcolon, hval,
    Option.bind_eq_bind, Option.bind_some, hend, hcomma, expect_cons_self]

theorem readMembers_more {u ks v w cs x ds : List Char} {k : String} {j : Json}
    {ms : List (String × Json)} (hu : Ws u) (hk : Str ks k) (hv : Ws v) (hw : Ws w)
    (h : Derives (.value j) cs) (hx : Ws x) (ih : (Phrase.value j).Reads cs)
    (ihs : (Phrase.members ms).Reads ds) :
    (Phrase.members ((k, j) :: ms)).Reads
      (u ++ (ks ++ (v ++ ':' :: (w ++ (cs ++ (x ++ ',' :: ds)))))) := by
  intro n rest hn
  obtain ⟨n, rfl⟩ := Nat.exists_eq_add_one_of_ne_zero (Nat.ne_zero_of_lt hn)
  simp only [List.length_append, List.length_cons] at hn
  have hnum : NoHead NumberChar (x ++ ',' :: (ds ++ '\x7d' :: rest)) :=
    noHead_ws hx (by simp [NumberChar])
  have hend : skipWs (x ++ ',' :: (ds ++ '\x7d' :: rest)) = ',' :: (ds ++ '\x7d' :: rest) :=
    skipWs_cons hx rfl
  obtain ⟨hname, hcolon, hval⟩ :=
    readMember hu hk hv hw h ih (by omega : ks.length ≤ n) (by omega) hnum
  simp only [readMembers, List.append_assoc, List.cons_append, hname, hcolon, hval,
    Option.bind_eq_bind, Option.bind_some, hend, expect_cons_self, ihs n rest (by omega)]

/-- Every phrase of the grammar is read back. -/
theorem Derives.reads {ph : Phrase} {cs : List Char} (h : Derives ph cs) : ph.Reads cs := by
  induction h with
  | null | true | false =>
      intro n rest hn _
      obtain ⟨n, rfl⟩ := Nat.exists_eq_add_one_of_ne_zero (Nat.ne_zero_of_lt hn)
      simp [readValue, readWord]
  | number h => exact readValue_number h
  | string h => exact readValue_string h
  | emptyArr hw => exact readValue_emptyArr hw
  | arr h ih => exact readValue_arr h ih
  | emptyObj hw => exact readValue_emptyObj hw
  | obj h ih => exact readValue_obj h ih
  | element hu h hv ih => exact readElements_last hu h hv ih
  | elements hu h hv _ ih ihs => exact readElements_more hu h hv ih ihs
  | member hu hk hv hw h hx ih => exact readMembers_last hu hk hv hw h hx ih
  | members hu hk hv hw h hx _ ih ihs => exact readMembers_more hu hk hv hw h hx ih ihs

/-- **The reader is complete**: it reads every JSON text as the value it denotes. -/
theorem parse_of_text {cs : List Char} {j : Json} (h : Text cs j) : parse cs = some j := by
  obtain ⟨hu, h, hv⟩ := h
  rename_i u cs v
  have hread := h.reads ((u ++ (cs ++ v)).length + 1) v (by simp; omega) (by
    simpa using noHead_ws hv (noHead_nil _))
  have hend : skipWs v = [] := by simpa using skipWs_append hv (noHead_nil _)
  simp only [parse, skipWs_value hu h, hread, Option.bind_eq_bind, Option.bind_some, hend,
    if_true]

/-- A JSON text denotes one value. -/
theorem Text.unique {cs : List Char} {j k : Json} (hj : Text cs j) (hk : Text cs k) : j = k :=
  Option.some.inj ((parse_of_text hj).symm.trans (parse_of_text hk))

end Rfc8259
