import Mathlib
import WideLog.Macros.KeyTable

/-!
# Variants

Which key names the generated enum tells apart.  A variant keeps the letters and the
digits of its name, with the first letter of every word in upper case, and nothing
of where the underscores were.
-/

namespace WideLog.Macros

open GenContext

/-- `char::to_uppercase`, on ASCII. -/
def Toolchain.UppercasesAscii (tc : Toolchain) : Prop :=
  ∀ c : Char, c.toNat < 128 → tc.toUppercase c = [c.toUpper]

/-- A name of ASCII letters, digits and underscores that starts with a letter. -/
def PlainName (s : String) : Prop :=
  s.toList.head?.any Char.isAlpha ∧ s.toList.all fun c ↦ c.isAlphanum ∨ c = '_'

instance : DecidablePred PlainName := fun _ ↦ inferInstanceAs (Decidable (_ ∧ _))

theorem PlainName.isAlphanum {s : String} (hs : PlainName s) :
    ∀ c ∈ s.toList, c.isAlphanum ∨ c = '_' := by
  simpa only [List.all_eq_true, decide_eq_true_eq] using hs.2

/-- The characters of a name besides its underscores, in lower case, and whether each is
a letter that stands out: one in upper case, or the first of a word. -/
def letters : Bool → List Char → List (Char × Bool)
  | _, [] => []
  | first, c :: cs =>
      if c = '_' then letters true cs
      else (c.toLower, c.isUpper || first && c.isAlpha) :: letters false cs

/-- The keys of the table have variants of their own, so that the variant of a name
refers to the key of that name. -/
structure GenContext.VariantsApart (tc : Toolchain) (ctx : GenContext) : Prop where
  apart : ∀ s ∈ ctx.names, ∀ t ∈ ctx.names, toPascalCase tc s = toPascalCase tc t → s = t
  jsonName : ∀ s ∈ ctx.names, ∃ i, variantOf ctx.keys (toPascalCase tc s) = some i ∧
    (ctx.keys.get i).jsonName = s

/-! ## Letters -/

/-- A character, up to its case and with it. -/
def cased (c : Char) : Char × Bool := (c.toLower, c.isUpper)

theorem cased_injective : Function.Injective cased := by
  intro c d h
  obtain ⟨hlower, hupper⟩ := Prod.mk.inj h
  by_cases hc : c.isUpper
  · have hd : d.isUpper := hupper ▸ hc
    rw [← Char.toUpper_eq_of_not_isLower (Char.not_isLower_of_isUpper hc),
      ← Char.toUpper_eq_of_not_isLower (Char.not_isLower_of_isUpper hd),
      ← Char.toUpper_toLower_eq_toUpper c, hlower, Char.toUpper_toLower_eq_toUpper]
  · have hd : ¬ d.isUpper := hupper ▸ hc
    rw [← Char.toLower_eq_of_not_isUpper hc, hlower, Char.toLower_eq_of_not_isUpper hd]

theorem cased_toUpper (c : Char) : cased c.toUpper = (c.toLower, c.isUpper || c.isAlpha) := by
  have halpha : (c.isUpper || c.isAlpha) = c.isAlpha := by
    rw [Char.isAlpha, ← Bool.or_assoc, Bool.or_self]
  rw [cased, Char.toLower_toUpper_eq_toLower, Char.isUpper_toUpper_eq_isAlpha, halpha]

theorem toNat_lt_of_isAlphanum {c : Char} (h : c.isAlphanum) : c.toNat < 128 := by
  simp only [Char.isAlphanum, Char.isAlpha, Char.isUpper, Char.isLower, Char.isDigit,
    Bool.or_eq_true, Bool.and_eq_true, decide_eq_true_eq, UInt32.le_iff_toNat_le, ge_iff_le] at h
  change c.val.toNat < 128
  rcases h with (⟨-, h⟩ | ⟨-, h⟩) | ⟨-, h⟩ <;> exact Nat.lt_of_le_of_lt h (by decide)

theorem ne_underscore_of_mem_letters {first : Bool} {cs : List Char} {x : Char × Bool}
    (h : x ∈ letters first cs) : x.1 ≠ '_' := by
  induction cs generalizing first with
  | nil => cases h
  | cons c cs ih =>
      rw [letters] at h
      split_ifs at h with hc
      · exact ih h
      · rcases List.mem_cons.mp h with rfl | h
        · intro (heq : c.toLower = '_')
          have halpha : c.isAlpha = false := by
            rw [← Char.isAlpha_toLower_eq_isAlpha, heq]
            rfl
          have hupper : ¬ c.isUpper := by
            intro hup
            rw [Char.isAlpha, hup] at halpha
            cases halpha
          exact hc ((Char.toLower_eq_of_not_isUpper hupper).symm.trans heq)
        · exact ih h

section PascalCase

variable {tc : Toolchain}

/-- The letters of a name are those of its words, capitalized; the first word is not when
it has already begun. -/
theorem map_cased_words (hup : tc.UppercasesAscii) {cs : List Char}
    (hcs : ∀ c ∈ cs, c.isAlphanum ∨ c = '_') (first : Bool) {w : List Char} {ws : List (List Char)}
    (h : cs.splitOnP (fun c ↦ c = '_' ∨ c = '.') = w :: ws) :
    ((if first then capitalize tc w else w) ++ ws.flatMap (capitalize tc)).map cased =
      letters first cs := by
  induction cs generalizing first w ws with
  | nil =>
      rw [List.splitOnP_nil, List.cons.injEq] at h
      obtain ⟨rfl, rfl⟩ := h
      cases first <;> rfl
  | cons c cs ih =>
      rw [List.forall_mem_cons] at hcs
      obtain ⟨w', ws', hrest⟩ := List.exists_cons_of_ne_nil
        (List.splitOnP_ne_nil (fun c ↦ c = '_' ∨ c = '.') cs)
      rw [List.splitOnP_cons_eq_if_modifyHead, hrest] at h
      by_cases hc : c = '_'
      · rw [if_pos (by simp [hc]), List.cons.injEq] at h
        obtain ⟨rfl, rfl⟩ := h
        have hnil : (if first then capitalize tc [] else []) = [] := by cases first <;> rfl
        rw [hnil, List.nil_append, List.flatMap_cons, letters, if_pos hc]
        exact ih hcs.2 true hrest
      · have halnum : c.isAlphanum := hcs.1.resolve_right hc
        have hdot : c ≠ '.' := by
          rintro rfl
          cases halnum
        rw [if_neg (by simp [hc, hdot]), List.modifyHead_cons, List.cons.injEq] at h
        obtain ⟨rfl, rfl⟩ := h
        have hrec := ih hcs.2 false hrest
        rw [letters, if_neg hc, ← hrec]
        cases first with
        | false => simp [cased]
        | true =>
            rw [if_pos rfl, capitalize, hup c (toNat_lt_of_isAlphanum halnum)]
            simp [cased_toUpper]

/-- The words of a plain name, capitalized and put together, before keywords are escaped. -/
def pascalLetters (tc : Toolchain) (name : String) : List Char :=
  (name.toList.splitOnP fun c ↦ c = '_' ∨ c = '.').flatMap (capitalize tc)

theorem map_cased_pascalLetters (hup : tc.UppercasesAscii) {s : String} (hs : PlainName s) :
    (pascalLetters tc s).map cased = letters true s.toList := by
  obtain ⟨w, ws, h⟩ := List.exists_cons_of_ne_nil
    (List.splitOnP_ne_nil (fun c ↦ c = '_' ∨ c = '.') s.toList)
  rw [← map_cased_words hup hs.isAlphanum true h, pascalLetters, h]
  rfl

theorem underscore_notMem_pascalLetters (hup : tc.UppercasesAscii) {s : String}
    (hs : PlainName s) : '_' ∉ pascalLetters tc s := by
  intro h
  have hmem := List.mem_map_of_mem (f := cased) h
  rw [map_cased_pascalLetters hup hs] at hmem
  exact ne_underscore_of_mem_letters hmem rfl

/-- The underscore after a keyword is the only one in a variant. -/
theorem escape_injective {r r' : List Char} (hr : '_' ∉ r) (hr' : '_' ∉ r')
    (h : (if isRustKeyword (.ofList r) then (String.ofList r).push '_' else .ofList r) =
      if isRustKeyword (.ofList r') then (String.ofList r').push '_' else .ofList r') : r = r' := by
  have hlist := congrArg String.toList h
  split_ifs at hlist
  · simpa using hlist
  · rw [String.toList_push, String.toList_ofList, String.toList_ofList] at hlist
    exact absurd (hlist ▸ List.mem_append_right r (List.mem_singleton_self '_')) hr'
  · rw [String.toList_push, String.toList_ofList, String.toList_ofList] at hlist
    exact absurd (hlist ▸ List.mem_append_right r' (List.mem_singleton_self '_')) hr
  · simpa using hlist

/-- **Two plain names have one variant exactly when they have the same letters.** -/
theorem toPascalCase_eq_iff (hup : tc.UppercasesAscii) {s t : String} (hs : PlainName s)
    (ht : PlainName t) :
    toPascalCase tc s = toPascalCase tc t ↔ letters true s.toList = letters true t.toList := by
  rw [← map_cased_pascalLetters hup hs, ← map_cased_pascalLetters hup ht,
    cased_injective.list_map.eq_iff]
  constructor
  · exact escape_injective (underscore_notMem_pascalLetters hup hs)
      (underscore_notMem_pascalLetters hup ht)
  · intro h
    rw [pascalLetters, pascalLetters] at h
    rw [toPascalCase, toPascalCase, h]

end PascalCase

/-! ## The key table -/

variable {tc : Toolchain} {ctx : GenContext}

/-- Variants that are apart refer to the keys of their names. -/
theorem jsonName_of_apart (h : ctx.Tables tc)
    (hapart : ∀ s ∈ ctx.names, ∀ t ∈ ctx.names, toPascalCase tc s = toPascalCase tc t → s = t)
    {s : String} (hs : s ∈ ctx.names) : ∃ i, variantOf ctx.keys (toPascalCase tc s) = some i ∧
      (ctx.keys.get i).jsonName = s := by
  obtain ⟨i, hi⟩ := Option.isSome_iff_exists.mp (h.isSome_variantOf hs)
  have hvariant : (ctx.keys.get i).variant = toPascalCase tc s := by
    simpa using List.find?_some hi
  have hmem := ctx.keys.get_mem i
  refine ⟨i, hi, hapart _ (List.mem_map_of_mem hmem) _ hs ?_⟩
  rw [← h.variant_eq _ hmem, hvariant]

/-- **Distinct names have distinct variants exactly when they differ in their letters.** -/
theorem variantsApart_iff (hup : tc.UppercasesAscii) {input : List TokenTree}
    {overrides : KeyOverrides} {root : JsonNode}
    (hparse : parseWideLogInput tc input = .ok (overrides, root))
    (h : generate tc root overrides = .ok ctx) (hplain : ∀ s ∈ ctx.names, PlainName s) :
    ctx.VariantsApart tc ↔ ∀ s t, (Builtins.of overrides).TableName root s →
      (Builtins.of overrides).TableName root t →
      letters true s.toList = letters true t.toList → s = t := by
  obtain ⟨-, entries, rfl, hd⟩ := parseWideLogInput_ok hparse
  have hresolve := resolve_of_generate h
  simp only [← mem_names_iff hd hresolve]
  constructor
  · rintro ⟨hapart, -⟩ s t hs ht heq
    exact hapart s hs t ht ((toPascalCase_eq_iff hup (hplain s hs) (hplain t ht)).mpr heq)
  · intro hletters
    have hapart : ∀ s ∈ ctx.names, ∀ t ∈ ctx.names,
        toPascalCase tc s = toPascalCase tc t → s = t := fun s hs t ht heq ↦
      hletters s t hs ht ((toPascalCase_eq_iff hup (hplain s hs) (hplain t ht)).mp heq)
    exact ⟨hapart, fun s hs ↦ jsonName_of_apart (tables_resolve hresolve) hapart hs⟩

theorem uppercasesAscii_asciiToolchain : asciiToolchain.UppercasesAscii := fun _ _ ↦ rfl

/-- The keys of a schema with one field are told apart. -/
theorem variantsApart_iff_status :
    ∃ overrides root ctx,
      parseWideLogInput asciiToolchain [objectTokens [("status", [.ident "null"])]] =
        .ok (overrides, root) ∧
      generate asciiToolchain root overrides = .ok ctx ∧ ctx.VariantsApart asciiToolchain := by
  obtain ⟨overrides, root, ctx, hparse, hgenerate, hnames⟩ := exists_passed asciiToolchain
    [objectTokens [("status", [.ident "null"])]] (generate asciiToolchain)
    (fun _ _ ctx ↦ ctx.names)
    (x := ["status", "duration", "total_ms", "event", "timestamp", "id"]) (by decide +kernel)
  obtain ⟨-, entries, rfl, hd⟩ := parseWideLogInput_ok hparse
  have hplain : ∀ s ∈ ctx.names, PlainName s := by
    rw [hnames]
    decide +kernel
  refine ⟨_, _, ctx, hparse, hgenerate,
    (variantsApart_iff uppercasesAscii_asciiToolchain hparse hgenerate hplain).mpr ?_⟩
  have hletters : ∀ s ∈ ctx.names, ∀ t ∈ ctx.names,
      letters true s.toList = letters true t.toList → s = t := by
    rw [hnames]
    decide +kernel
  simp only [← mem_names_iff hd (resolve_of_generate hgenerate)]
  exact fun s t hs ht ↦ hletters s hs t ht

/-- A schema with two keys that only the case and an underscore tell apart. -/
def sameLettersSchema : List TokenTree :=
  [objectTokens [("a_b", [.ident "null"]), ("aB", [.ident "null"])]]

/-- **Two keys can have one variant.** -/
theorem not_variantsApart :
    ¬ ∀ (tc : Toolchain), tc.UppercasesAscii → ∀ (input : List TokenTree)
      (overrides : KeyOverrides) (root : JsonNode) (ctx : GenContext),
      parseWideLogInput tc input = .ok (overrides, root) →
      generate tc root overrides = .ok ctx → (∀ s ∈ ctx.names, PlainName s) →
      ctx.VariantsApart tc := by
  intro h
  obtain ⟨overrides, root, ctx, hparse, hgenerate, hnames⟩ := exists_passed asciiToolchain
    sameLettersSchema (generate asciiToolchain) (fun _ _ ctx ↦ ctx.names)
    (x := ["a_b", "aB", "duration", "total_ms", "event", "timestamp", "id"]) (by decide +kernel)
  have hplain : ∀ s ∈ ctx.names, PlainName s := by
    rw [hnames]
    decide +kernel
  have hvariants := h asciiToolchain uppercasesAscii_asciiToolchain sameLettersSchema overrides
    root ctx hparse hgenerate hplain
  have heq := hvariants.apart "a_b" (by simp [hnames]) "aB" (by simp [hnames]) (by decide +kernel)
  exact absurd heq (by decide)

end WideLog.Macros
