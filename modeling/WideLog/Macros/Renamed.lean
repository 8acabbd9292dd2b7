import WideLog.Macros.Defaults
import WideLog.Macros.Overrides
import WideLog.Macros.Recording
import WideLog.Macros.Rename
import WideLog.Serialize.Rekey

/-!
# A program under other names

Two accepted inputs that differ in the names of their keys only, with overrides that say
what the built-in keys are called, make programs whose guards emit the same line but for
the names of its members.
-/

namespace WideLog.Macros

open Rfc8259

variable {tc : Toolchain} {σ : Renaming} {input input' : List TokenTree}

/-- The second input is the first under other names. -/
structure Accepted.Renames (σ : Renaming) (a : Accepted tc input) (a' : Accepted tc input') :
    Prop where
  root : a'.root = a.root.rename σ
  builtins : Builtins.of a'.overrides = (Builtins.of a.overrides).rename σ

namespace Accepted.Renames

variable {a : Accepted tc input} {a' : Accepted tc input'}

theorem ctx_eq (h : a.Renames σ a') : a'.ctx = a.ctx.rename tc σ := by
  have hresolve := a'.resolved
  rw [h.root, GenContext.resolve_rename tc σ h.builtins, a.resolved] at hresolve
  exact (Except.ok.inj hresolve).symm

theorem keyStrs_eq (h : a.Renames σ a') :
    keyStrs a'.program.EventKey = (keyStrs a.program.EventKey).map σ.name := by
  rw [a'.reads.keyStrs, a.reads.keyStrs, h.ctx_eq, GenContext.names, GenContext.names,
    GenContext.rename, List.map_map, List.map_map]
  rfl

theorem length_eq (h : a.Renames σ a') : a.program.keys.length = a'.program.keys.length := by
  have hlength (p : Program) : (keyStrs p.EventKey).length = p.keys.length :=
    (List.length_map _).trans List.length_finRange
  rw [← hlength, ← hlength, h.keyStrs_eq, List.length_map]

/-- The variants of the two enums, by their numbers. -/
def rekeying (h : a.Renames σ a') : Rekeying a.program.EventKey a'.program.EventKey where
  key := Fin.cast h.length_eq
  asIndex _ := rfl

end Accepted.Renames

/-- A use of a macro, for the other program. -/
def FieldCall.rename (σ : Renaming) {p p' : Program} : FieldCall p → FieldCall p'
  | .set path value => .set (σ.name path) value.rekey
  | .null path => .null (σ.name path)
  | .inc path => .inc (σ.name path)
  | .dec path => .dec (σ.name path)
  | .add path n => .add (σ.name path) n

def MacroCall.rename (σ : Renaming) {p p' : Program} : MacroCall p → MacroCall p'
  | .field call => .field (call.rename σ)
  | .log call => .log call

namespace Accepted.Renames

variable {a : Accepted tc input} {a' : Accepted tc input'} {env : Env a.program.EventKey}
  {env' : Env a'.program.EventKey}

theorem applyDefaults_eq (h : a.Renames σ a') (henv : env.Rekeys h.rekeying env')
    (defaults : List (List a.program.EventKey × DefaultValue))
    (ev : WideEvent a.program.EventKey) :
    applyDefaults env' (defaults.map fun d ↦ (d.1.map h.rekeying.key, d.2)) ev.rekey =
      (applyDefaults env defaults ev).map .rekey := by
  induction defaults generalizing ev with
  | nil => rfl
  | cons d defaults ih =>
      have hvalue : (a'.program.defaultValue d.2) = (a.program.defaultValue d.2).rekey := by
        cases d.2 <;> rfl
      rw [List.map_cons, applyDefaults, applyDefaults, hvalue]
      exact Outcome.bind_map (WideEvent.rekey_addPath henv d.1 _ ev) ih

end Accepted.Renames

/-- The same run of a guard of the other program: the same build, values and log texts,
a preset that does the same, and the same duration and timestamp. -/
structure GuardRun.Renames {a : Accepted tc input} {a' : Accepted tc input'} (h : a.Renames σ a')
    (run : GuardRun a.program) (run' : GuardRun a'.program) : Prop where
  env : run.env.Rekeys h.rekeying run'.env
  preset : ∀ ev, (run'.preset.getD .ret) ev.rekey = ((run.preset.getD .ret) ev).map .rekey
  id : run'.id = run.id
  calls : run'.calls = run.calls.map (MacroCall.rename σ)
  elapsed : ∀ leaf ∈ (Key.durationPath : List a.program.EventKey).getLast?,
    run'.elapsed (σ.name (Key.asStr leaf)) = run.elapsed (Key.asStr leaf)
  now : run'.now = run.now

namespace GuardRun.Renames

variable {a : Accepted tc input} {a' : Accepted tc input'} {h : a.Renames σ a'}
  {run : GuardRun a.program} {run' : GuardRun a'.program}

end GuardRun.Renames

end WideLog.Macros
