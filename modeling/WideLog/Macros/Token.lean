import Mathlib.Data.List.Basic

/-!
# Token trees

The input of a procedural macro, and what the macro takes from the compiler and
from the standard library that is not modelled: how tokens and strings print in
an error, the upper case of a character, which strings are identifiers, and which
of these are the same.
-/

namespace WideLog.Macros

/-- The delimiter of a group. -/
inductive Delimiter where
  | parenthesis
  | brace
  | bracket
  | none
deriving DecidableEq, Repr

/-- A token tree.  A literal is its text, quotes and suffix included. -/
inductive TokenTree where
  | group (delimiter : Delimiter) (stream : List TokenTree)
  | ident (s : String)
  | punct (c : Char)
  | literal (text : String)

mutual

/-- The number of tokens in a tree. -/
def TokenTree.size : TokenTree → ℕ
  | .group _ stream => 1 + streamSize stream
  | .ident _ => 1
  | .punct _ => 1
  | .literal _ => 1
termination_by structural t => t

/-- The number of tokens in a stream. -/
def streamSize : List TokenTree → ℕ
  | [] => 0
  | t :: ts => t.size + streamSize ts
termination_by structural ts => ts

end

@[simp] theorem streamSize_nil : streamSize [] = 0 := rfl

@[simp] theorem streamSize_cons (t : TokenTree) (ts : List TokenTree) :
    streamSize (t :: ts) = t.size + streamSize ts := rfl

@[simp] theorem size_group (d : Delimiter) (ts : List TokenTree) :
    (TokenTree.group d ts).size = 1 + streamSize ts := rfl

@[simp] theorem size_ident (s : String) : (TokenTree.ident s).size = 1 := rfl

@[simp] theorem size_punct (c : Char) : (TokenTree.punct c).size = 1 := rfl

@[simp] theorem size_literal (text : String) : (TokenTree.literal text).size = 1 := rfl

/-- What the macro is compiled against. -/
structure Toolchain where
  /-- `to_string` of a token. -/
  display : TokenTree → String
  /-- The `{:?}` form of a string. -/
  debugStr : String → String
  /-- `char::to_uppercase`. -/
  toUppercase : Char → List Char
  /-- The strings `format_ident!` makes an identifier of. -/
  isIdent : String → Bool
  /-- The form of Unicode in which `format_ident!` makes an identifier of a string. -/
  normalize : String → String

end WideLog.Macros
