import Mathlib.Data.Nat.Notation

/-!
# The arguments of the launcher

`npm/bin/beamjs` writes the command-line arguments into one environment variable, from which
`BeamjsCli.Release.cli` splits them again with `OptionParser.split`.
-/

namespace BeamJS

namespace Launcher

/-- A string of characters. No argument of a command line holds a NUL. -/
abbrev Text := List Char

/-! ## `npm/bin/beamjs` -/

/-- One argument in double quotes if it has a space. -/
def quoteArg (a : Text) : Text := if a.contains ' ' then '"' :: a ++ ['"'] else a

/-- `args.map(a => a.includes(" ") ? `"${a}"` : a).join(" ")`. -/
def beamjsArgs : List Text → Text
  | [] => []
  | [a] => quoteArg a
  | a :: args => quoteArg a ++ ' ' :: beamjsArgs args

/-! ## `OptionParser.split` -/

/-- The characters that `OptionParser.split` looks for outside of quotes. -/
structure SplitRules where
  /-- White space, at which an argument ends. -/
  isWhite : Char → Bool
  /-- The characters that a backslash escapes. -/
  isEscapable : Char → Bool
  /-- A space ends an argument. -/
  space : isWhite ' ' = true
  /-- Quotes and the backslash are no white space. -/
  notWhite : ∀ c, isWhite c = true → c ≠ '"' ∧ c ≠ '\'' ∧ c ≠ '\\'
  /-- Quotes can be escaped. -/
  quotes : isEscapable '"' = true ∧ isEscapable '\'' = true
  /-- Nothing but quotes and white space can be escaped. -/
  escapable : ∀ c, isEscapable c = true → c = '"' ∨ c = '\'' ∨ isWhite c = true

/-- The rules of Elixir, where the space is the only white space and can be escaped. -/
def SplitRules.elixir : SplitRules where
  isWhite c := c == ' '
  isEscapable c := c == ' ' || c == '\'' || c == '"'
  space := rfl
  notWhite c h := by
    obtain rfl : c = ' ' := by simpa using h
    decide
  quotes := ⟨rfl, rfl⟩
  escapable c h := by
    simp only [Bool.or_eq_true, beq_iff_eq] at h ⊢
    rcases h with (h | h) | h
    · exact .inr (.inr h)
    · exact .inr (.inl h)
    · exact .inl h

variable (rules : SplitRules)

/-- The next character is one that a backslash escapes. -/
def nextEscapable (t : Text) : Bool := t.head?.any rules.isEscapable

/-- `do_split`, or `none` where it raises for a quote that is not closed. -/
def doSplit (s buffer : Text) (acc : List Text) (quote : Option Char) : Option (List Text) :=
  match s, quote with
  | [], none => some (if buffer = [] then acc else acc ++ [buffer])
  | [], some _ => none
  | c :: t, some q =>
    if c = '\\' ∧ t.head? = some q then doSplit t.tail (buffer ++ [q]) acc quote
    else if c = q then doSplit t buffer acc none
    else doSplit t (buffer ++ [c]) acc quote
  | c :: t, none =>
    if c = '"' ∨ c = '\'' then doSplit t buffer acc (some c)
    else if c = '\\' ∧ nextEscapable rules t then
      doSplit t.tail (buffer ++ t.head?.toList) acc none
    else if rules.isWhite c then doSplit (t.dropWhile rules.isWhite) [] (acc ++ [buffer]) none
    else doSplit t (buffer ++ [c]) acc none
termination_by s.length
decreasing_by
  all_goals simp only [List.length_cons, List.length_tail]
  all_goals first | omega | exact Nat.lt_succ_of_le (List.dropWhile_sublist _).length_le

/-- `OptionParser.split`. -/
def split (s : Text) : Option (List Text) := doSplit rules (s.dropWhile rules.isWhite) [] [] none

/-! ## `BeamjsCli.Release.cli` -/

/-- The `argv` that `BeamjsCli.main` gets, or `none` where the splitting raises. -/
def cliArgv (args : Text) : Option (List Text) := if args = [] then some [] else split rules args

/-- The arguments get through the environment variable unchanged. -/
def PassesThrough (argv : List Text) : Prop := cliArgv rules (beamjsArgs argv) = some argv

/-! ## Arguments that are kept -/

/-- The argument is not empty and has no double quote. With a space in it, it does not end in a
backslash; without one, it has no single quote and no white space. -/
def isKeptArg (a : Text) : Bool :=
  !a.isEmpty && !a.contains '"' &&
    if a.contains ' ' then a.getLast? != some '\\'
    else !a.contains '\'' && a.all fun c => !rules.isWhite c

/-- The argument ends in a backslash and is written without quotes. -/
def isOpenArg (a : Text) : Bool := !a.contains ' ' && a.getLast? == some '\\'

/-- Each argument is kept, and none but the last takes the space behind it for an escaped one. -/
def keepsArgs (argv : List Text) : Bool :=
  argv.all (isKeptArg rules) &&
    (!rules.isEscapable ' ' || argv.dropLast.all fun a => !isOpenArg a)

end Launcher

end BeamJS
