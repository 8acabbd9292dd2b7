import Mathlib.Data.Set.Card
import WideLog.Macros.Overrides
import WideLog.Macros.Panics

/-!
# Which inputs become a program

The tokens are in the grammar, the passes have no choice to make, every key name has a
variant of its own that is an identifier, there are at most 256 of them, and the defaults
are finite: then, and only then, `wide_log!` makes code of an input and the compiler
accepts the code.
-/

namespace WideLog.Macros

variable {tc : Toolchain}

variable (tc) in
/-- The names that the schema and the automatic fields give to keys become distinct
identifiers that fit the representation of the enum. -/
structure Builtins.Enumerable (b : Builtins) (root : JsonNode) : Prop where
  isIdent : ∀ s, b.TableName root s → tc.isIdent (toPascalCase tc s)
  apart : ∀ s t, b.TableName root s → b.TableName root t →
    tc.normalize (toPascalCase tc s) = tc.normalize (toPascalCase tc t) → s = t
  fits : {s | b.TableName root s}.ncard ≤ 256

namespace GenContext

variable {ctx : GenContext}

/-- The compiler accepts the code of closed tables whose variants are distinct and fit. -/
theorem Closed.isSome_compile_iff (h : ctx.Closed tc) :
    (compile tc ctx).isSome ↔
      (ctx.keys.map fun k ↦ tc.normalize k.variant).Nodup ∧ ctx.keys.length ≤ 256 := by
  have hsome (segments : List String) (hmem : segments ∈ ctx.spelled) :
      ∃ ks, variantsOf tc ctx.keys segments = some ks :=
    Option.isSome_iff_exists.mp (h.variants segments hmem)
  obtain ⟨dur, hdur⟩ := hsome ctx.durationSegments (by simp [spelled])
  obtain ⟨ts, hts⟩ := hsome ctx.timestampSegments (by simp [spelled])
  obtain ⟨id, hid⟩ := hsome ctx.idSegments (by simp [spelled])
  have hpaths : (ctx.paths.mapM fun p ↦ (variantsOf tc ctx.keys p.segments).bind fun ks ↦
      some (p.dotted, ks)).isSome := by
    refine List.isSome_mapM fun p hp ↦ ?_
    obtain ⟨ks, hks⟩ := hsome p.segments (by
      simp only [spelled, List.mem_append, List.mem_map]
      exact .inl (.inl ⟨p, hp, rfl⟩))
    rw [hks]
    rfl
  have hdefaults : (ctx.defaults.mapM fun d ↦ (variantsOf tc ctx.keys d.segments).bind fun ks ↦
      some (ks, d.value)).isSome := by
    refine List.isSome_mapM fun d hd ↦ ?_
    obtain ⟨ks, hks⟩ := hsome d.segments (by
      simp only [spelled, List.mem_append, List.mem_map]
      exact .inl (.inr ⟨d, hd, rfl⟩))
    rw [hks]
    rfl
  obtain ⟨arms, harms⟩ := Option.isSome_iff_exists.mp hpaths
  obtain ⟨defaults, hdefaults⟩ := Option.isSome_iff_exists.mp hdefaults
  unfold compile
  split_ifs with hfits
  · refine iff_of_true ?_ hfits
    simp only [hdur, hts, hid, Option.bind_eq_bind, Option.bind_some, Option.pure_def, harms,
      hdefaults, Option.isSome_some]
  · exact iff_of_false nofun hfits

/-- The variants of the enum are distinct and fit exactly when the names of the table do. -/
theorem Tables.fits_iff (h : ctx.Tables tc) {N : String → Prop} (hN : ∀ s, s ∈ ctx.names ↔ N s) :
    (ctx.keys.map fun k ↦ tc.normalize k.variant).Nodup ∧ ctx.keys.length ≤ 256 ↔
      (∀ s t, N s → N t →
        tc.normalize (toPascalCase tc s) = tc.normalize (toPascalCase tc t) → s = t) ∧
        {s | N s}.ncard ≤ 256 := by
  have hvariants : (ctx.keys.map fun k ↦ tc.normalize k.variant) =
      ctx.names.map fun s ↦ tc.normalize (toPascalCase tc s) := by
    rw [names, List.map_map]
    exact List.map_congr_left fun e he ↦ congrArg tc.normalize (h.variant_eq e he)
  have hcard : {s | N s}.ncard = ctx.keys.length := by
    have hset : {s | N s} = (ctx.names.toFinset : Set String) := by
      ext s
      rw [Finset.mem_coe, List.mem_toFinset, hN]
      rfl
    rw [hset, Set.ncard_coe_finset, List.toFinset_card_of_nodup h.keyIndex.nodup, names,
      List.length_map]
  rw [hvariants, List.nodup_map_iff_inj_on h.keyIndex.nodup, hcard]
  refine and_congr_left' ⟨fun hinj s t hs ht ↦ ?_, fun hinj s hs t ht ↦ ?_⟩
  · exact hinj s ((hN s).mpr hs) t ((hN t).mpr ht)
  · exact hinj s t ((hN s).mp hs) ((hN t).mp ht)

/-- Code is made of a resolved context, and compiles, exactly when its names and defaults
allow it. -/
theorem compiles_iff {entries : List (String × JsonNode)} {overrides : KeyOverrides}
    (hd : (JsonNode.object entries).DistinctKeys)
    (hctx : resolve tc (.object entries) overrides = .ok ctx) :
    generate tc (.object entries) overrides = .ok ctx ∧ (compile tc ctx).isSome ↔
      (Builtins.of overrides).Enumerable tc (.object entries) ∧
        ∀ d ∈ (JsonNode.object entries).leaves, d.value.quotable := by
  have htables := tables_resolve hctx
  have hnames := mem_names_iff hd hctx
  obtain ⟨c, hduration, hevent, -⟩ := resolve_ok hctx
  have hdefaults := mem_defaults_of_passes hd hduration hevent
  have hgenerate : generate tc (.object entries) overrides = .ok ctx ↔
      (∀ name ∈ ctx.names, tc.isIdent (toPascalCase tc name)) ∧
        ∀ d ∈ ctx.defaults, d.value.quotable := by
    have hsame : generate tc (.object entries) overrides = ctx.emit tc := by
      rw [generate, hctx, emit_eq_keys htables]
      rfl
    rw [hsame, emit_eq htables]
    split_ifs with hclean
    · exact iff_of_true rfl hclean
    · exact iff_of_false nofun hclean
  rw [hgenerate, htables.closed.isSome_compile_iff, htables.fits_iff hnames]
  simp only [hnames, hdefaults]
  constructor
  · rintro ⟨⟨hident, hquotable⟩, hapart, hfits⟩
    exact ⟨⟨hident, hapart, hfits⟩, hquotable⟩
  · rintro ⟨⟨hident, hapart, hfits⟩, hquotable⟩
    exact ⟨⟨hident, hquotable⟩, hapart, hfits⟩

end GenContext

/-- **Exactly which inputs become a program**: those in the grammar whose markers and
automatic fields leave no choice, whose key names have distinct identifiers that fit the
enum, and whose float defaults are finite. -/
theorem isSome_wideLog_iff {input : List TokenTree} :
    (wideLog tc input).isSome ↔
      ∃ overrides root, InputTokens input overrides root ∧
        (Builtins.of overrides).Resolves root ∧ (Builtins.of overrides).Enumerable tc root ∧
          ∀ d ∈ root.leaves, d.value.quotable := by
  constructor
  · intro hsome
    obtain ⟨p, hp⟩ := Option.isSome_iff_exists.mp hsome
    obtain ⟨a, -⟩ := exists_accepted hp
    obtain ⟨overrides, root, ctx, program, hparse, hgenerate, hcompile⟩ := a
    obtain ⟨-, entries, rfl, hd⟩ := parseWideLogInput_ok hparse
    have hctx := resolve_of_generate hgenerate
    rcases GenContext.resolve_total tc hd overrides with ⟨hresolves, -⟩ | ⟨-, message, herror⟩
    · have hcompiles := GenContext.compiles_iff hd hctx
      exact ⟨overrides, _, inputTokens_of_parse hparse, hresolves,
        hcompiles.mp ⟨hgenerate, by rw [hcompile]; rfl⟩⟩
    · rw [hctx] at herror
      cases herror
  · rintro ⟨overrides, root, htokens, hresolves, hclean⟩
    have hparse : parseWideLogInput tc input = .ok _ := htokens.parse
    obtain ⟨-, entries, rfl, hd⟩ := parseWideLogInput_ok hparse
    rcases GenContext.resolve_total tc hd overrides with ⟨-, ctx, hctx⟩ | ⟨hno, -⟩
    · obtain ⟨hgenerate, hcompile⟩ := (GenContext.compiles_iff hd hctx).mpr hclean
      obtain ⟨program, hprogram⟩ := Option.isSome_iff_exists.mp hcompile
      have ha := (Accepted.mk overrides _ ctx program hparse hgenerate hprogram).wideLog_eq
      rw [ha]
      rfl
    · exact absurd hresolves hno

end WideLog.Macros
