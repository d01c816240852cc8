import BeamJS.Js.JsString
import Mathlib.Data.List.Chain
import Mathlib.Data.Int.Notation

/-!
# Source text

The lexical grammar of JavaScript over the bytes of a source: white space, comments and tokens, and
which of them may stand side by side. How a slash, a brace or `<!--` is to be read depends on where
it stands, and that reading is part of a `Source`.
-/

namespace BeamJS

/-- An input element of a source. -/
inductive InputElement where
  /-- A single white space or line terminator. -/
  | blank (text : Bytes)
  /-- A comment up to the end of the line, with the mark that opens it. -/
  | lineComment (mark body : Bytes)
  | blockComment (body : Bytes)
  /-- A name, reserved or private ones included. -/
  | word (name : Bytes)
  | punctuator (text : Bytes)
  | number (text : Bytes)
  | string (quote : UInt8) (body : Bytes)
  /-- A stretch of a template, from a backtick or the end of a substitution to a backtick or the
  start of one. -/
  | template (resumes : Bool) (body : Bytes) (pauses : Bool)
  | regex (body flags : Bytes)
  deriving DecidableEq

/-! ## The characters -/

def lineTerminators : List Bytes := [[10], [13], [0xe2, 0x80, 0xa8], [0xe2, 0x80, 0xa9]]

def whiteSpaces : List Bytes :=
  [[9], [11], [12], [32], [0xc2, 0xa0], [0xef, 0xbb, 0xbf], [0xe1, 0x9a, 0x80], [0xe2, 0x80, 0x80],
    [0xe2, 0x80, 0x81], [0xe2, 0x80, 0x82], [0xe2, 0x80, 0x83], [0xe2, 0x80, 0x84],
    [0xe2, 0x80, 0x85], [0xe2, 0x80, 0x86], [0xe2, 0x80, 0x87], [0xe2, 0x80, 0x88],
    [0xe2, 0x80, 0x89], [0xe2, 0x80, 0x8a], [0xe2, 0x80, 0xaf], [0xe2, 0x81, 0x9f],
    [0xe3, 0x80, 0x80]]

/-- The marks of a comment up to the end of the line. -/
def lineMarks : List Bytes := [bytes "//", bytes "#!", bytes "<!--", bytes "-->"]

def punctuators : List Bytes :=
  ["\x7b", "\x7d", "(", ")", "[", "]", ".", "...", ";", ",", "<", ">", "<=", ">=", "==", "!=", "===",
    "!==", "+", "-", "*", "/", "%", "**", "++", "--", "<<", ">>", ">>>", "&", "|", "^", "!", "~", "&&",
    "||", "??", "?", "?.", ":", "=", "+=", "-=", "*=", "%=", "**=", "/=", "<<=", ">>=", ">>>=", "&=",
    "|=", "^=", "&&=", "||=", "??=", "=>"].map bytes

def isLetter (b : UInt8) : Bool :=
  (65 ≤ b.toNat && b.toNat ≤ 90) || (97 ≤ b.toNat && b.toNat ≤ 122)

/-- A letter, a digit, `_` or `$`. -/
def isNameByte (b : UInt8) : Bool :=
  isLetter b || (48 ≤ b.toNat && b.toNat ≤ 57) || b = 95 || b = 36

/-- A byte of a name: those of other characters, of an escape and the mark of a private name
included. -/
def isWordByte (b : UInt8) : Bool :=
  isNameByte b || 128 ≤ b.toNat || (bytes "\\\x7b\x7d#").contains b

def isNumberByte (b : UInt8) : Bool := (bytes "0123456789abcdefABCDEFxXoOn_.+-").contains b

/-- The body of a string literal: no quote and no end of line, unless escaped. -/
def isStringBody (quote : UInt8) : Bytes → Bool
  | [] => true
  | 92 :: _ :: rest => isStringBody quote rest
  | b :: rest => b ≠ quote && b ≠ 92 && b ≠ 10 && b ≠ 13 && isStringBody quote rest

/-- The body of a stretch of a template: no backtick and no start of a substitution, unless
escaped. -/
def isTemplateBody : Bytes → Bool
  | [] => true
  | 92 :: _ :: rest => isTemplateBody rest
  | 36 :: 123 :: _ => false
  | b :: rest => b ≠ 96 && b ≠ 92 && isTemplateBody rest

/-- The body of a regular expression: no slash outside a class and no end of line, unless escaped.
-/
def isRegexBody (inClass : Bool) : Bytes → Bool
  | [] => !inClass
  | 92 :: b :: rest => b ≠ 10 && b ≠ 13 && isRegexBody inClass rest
  | b :: rest =>
    b ≠ 92 && b ≠ 10 && b ≠ 13 && (inClass || b ≠ 47) &&
      isRegexBody (if b = 91 then true else if b = 93 then false else inClass) rest

namespace InputElement

/-- The bytes of an element. -/
def text : InputElement → Bytes
  | blank t | word t | punctuator t | number t => t
  | lineComment mark body => mark ++ body
  | blockComment body => bytes "/*" ++ body ++ bytes "*/"
  | string q body => q :: body ++ [q]
  | template resumes body pauses =>
    (if resumes then bytes "\x7d" else [96]) ++ body ++ (if pauses then bytes "$\x7b" else [96])
  | regex body flags => bytes "/" ++ body ++ bytes "/" ++ flags

/-- The element is as the lexical grammar has it. -/
def Valid : InputElement → Prop
  | blank t => t ∈ whiteSpaces ++ lineTerminators
  | lineComment mark body => mark ∈ lineMarks ∧ ∀ t ∈ lineTerminators, ¬ t <:+: body
  | blockComment body => ¬ bytes "*/" <:+: body ++ bytes "*"
  | word name => name ≠ [] ∧ ∀ b ∈ name, isWordByte b = true
  | punctuator t => t ∈ punctuators
  | number t => t ≠ [] ∧ ∀ b ∈ t, isNumberByte b = true
  | string q body => q ∈ bytes "'\"" ∧ isStringBody q body = true
  | template _ body _ => isTemplateBody body = true
  | regex body flags =>
    body.head? ≠ some 42 ∧ body ≠ [] ∧ isRegexBody false body = true ∧
      ∀ b ∈ flags, b ∈ bytes "dgimsuvy"

instance : DecidablePred Valid
  | blank t => inferInstanceAs (Decidable (t ∈ whiteSpaces ++ lineTerminators))
  | lineComment mark body =>
    inferInstanceAs (Decidable (mark ∈ lineMarks ∧ ∀ t ∈ lineTerminators, ¬ t <:+: body))
  | blockComment body => inferInstanceAs (Decidable (¬ bytes "*/" <:+: body ++ bytes "*"))
  | word name => inferInstanceAs (Decidable (name ≠ [] ∧ ∀ b ∈ name, isWordByte b = true))
  | punctuator t => inferInstanceAs (Decidable (t ∈ punctuators))
  | number t => inferInstanceAs (Decidable (t ≠ [] ∧ ∀ b ∈ t, isNumberByte b = true))
  | string q body => inferInstanceAs (Decidable (q ∈ bytes "'\"" ∧ isStringBody q body = true))
  | template _ body _ => inferInstanceAs (Decidable (isTemplateBody body = true))
  | regex body flags =>
    inferInstanceAs (Decidable (body.head? ≠ some 42 ∧ body ≠ [] ∧ isRegexBody false body = true ∧
      ∀ b ∈ flags, b ∈ bytes "dgimsuvy"))

/-- White space, a line terminator or a comment. -/
def isTrivia : InputElement → Bool
  | blank _ | lineComment _ _ | blockComment _ => true
  | _ => false

def isLineComment : InputElement → Bool
  | lineComment _ _ => true
  | _ => false

def isPunctuator : InputElement → Bool
  | punctuator _ => true
  | _ => false

/-- A name, a number or the flags of a regular expression take what they can of the text. -/
abbrev RunsOn (a b : InputElement) : Prop :=
  a.text.getLast?.any isNameByte = true ∧ b.text.head?.any isNameByte = true

/-- Two punctuators that would be read as a longer one, or a slash that would open a comment. -/
abbrev Merges (a b : InputElement) : Prop :=
  a.isPunctuator = true ∧
    ((b.isPunctuator = true ∧
        ∃ p ∈ punctuators, a.text <+: p ∧ a.text ≠ p ∧ p <+: a.text ++ b.text) ∨
      (a.text = bytes "/" ∧ (b.text.head? = some 47 ∨ b.text.head? = some 42)))

/-- `b` may stand right after `a`. -/
abbrev Precedes (a b : InputElement) : Prop :=
  ¬ a.RunsOn b ∧ ¬ a.Merges b ∧
    (a.isLineComment = true → ∃ t ∈ lineTerminators, b = blank t)

/-- A closing bracket lowers and an opening bracket raises the depth. -/
def depthChange : InputElement → ℤ
  | punctuator t =>
    if t ∈ ["(", "[", "\x7b"].map bytes then 1 else if t ∈ [")", "]", "\x7d"].map bytes then -1 else 0
  | template resumes _ pauses => (if pauses then 1 else 0) - (if resumes then 1 else 0)
  | _ => 0

end InputElement

open InputElement

/-- A source text with its input elements. -/
structure Source where
  elements : List InputElement
  valid : ∀ e ∈ elements, e.Valid
  precedes : elements.IsChain Precedes

/-- The bytes of some elements. -/
def elementsText (es : List InputElement) : Bytes := es.flatMap InputElement.text

namespace Source

def text (s : Source) : Bytes := elementsText s.elements

/-- The elements that the parser sees. -/
def tokens (s : Source) : List InputElement := s.elements.filter fun e => !e.isTrivia

end Source

/-! ## Import and export declarations

Both words are reserved. Outside brackets they start a declaration, except as the name of a
property, in `import(...)` and in `import.meta`. -/

/-- The token `e` after `prev` and before `next`, outside brackets, starts a declaration. -/
def startsDeclaration (prev next : Option InputElement) (e : InputElement) : Bool :=
  prev ≠ some (.punctuator (bytes ".")) && prev ≠ some (.punctuator (bytes "?.")) &&
    (e = .word (bytes "export") ||
      (e = .word (bytes "import") && next ≠ some (.punctuator (bytes "(")) &&
        next ≠ some (.punctuator (bytes "."))))

/-- An import or export declaration among the tokens. -/
def declares (prev : Option InputElement) (depth : ℤ) : List InputElement → Bool
  | [] => false
  | e :: rest =>
    (depth = 0 && startsDeclaration prev rest.head? e) ||
      declares (some e) (depth + e.depthChange) rest

end BeamJS
