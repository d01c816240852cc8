import BeamJS.Core.Transpiler

/-!
# Type declarations in a source

Interfaces and type aliases as TypeScript writes them, with any white space between their tokens, in
between statements of JavaScript. What is asked of `strip_types` is that it leaves the statements
and nothing of the declarations. The expressions for declarations look for the first closing bracket
or semicolon, wherever it stands.
-/

namespace BeamJS

open Lib Transpiler

/-! ## Types -/

/-- What stands between a member of an object type and the next one. -/
inductive Separator where
  | semicolon | comma
  /-- Nothing but white space. -/
  | lineBreak
  deriving DecidableEq

mutual

/-- A type. -/
inductive TypeExpr where
  | name (n : Bytes)
  | array (elem : TypeExpr)
  | union (left right : TypeExpr)
  | generic (n : Bytes) (args : TypeArgs)
  | object (members : Members)

/-- The arguments of a generic type. -/
inductive TypeArgs where
  | last (arg : TypeExpr)
  | cons (arg : TypeExpr) (rest : TypeArgs)

/-- The members of an object type. -/
inductive Members where
  | nil
  | cons (name : Bytes) (optional : Bool) (type : TypeExpr) (sep : Separator) (rest : Members)

end

/-- A type parameter. -/
structure TypeParam where
  name : Bytes
  /-- `extends`. -/
  constraint : Option TypeExpr
  /-- `=`. -/
  default : Option TypeExpr

/-- An interface declaration. -/
structure Interface where
  exported : Bool
  name : Bytes
  /-- `extends`. -/
  parents : List TypeExpr
  body : Members

/-- The declaration of a type alias. -/
structure TypeAlias where
  exported : Bool
  name : Bytes
  params : List TypeParam
  type : TypeExpr

/-! ## Their tokens -/

/-- A token of a declaration. -/
inductive TypeToken where
  /-- A name or a keyword. -/
  | name (n : Bytes)
  | mark (b : UInt8)
  deriving DecidableEq

namespace TypeToken

def text : TypeToken → Bytes
  | name n => n
  | mark b => [b]

/-- A name is made of letters, digits, `_`, `$` and characters beyond ASCII. -/
def isValid : TypeToken → Bool
  | name n => n ≠ [] && n.all fun b => isNameByte b || 128 ≤ b.toNat
  | mark b => (bytes "\x7b\x7d<>[]()|:;,=?").contains b

/-- The token that is written `s`. -/
def keyword (s : String) : TypeToken := name (bytes s)

end TypeToken

open TypeToken

def Separator.tokens : Separator → List TypeToken
  | semicolon => [mark 59]
  | comma => [mark 44]
  | lineBreak => []

mutual

/-- The elements of an array type are in brackets where they are a union. -/
def TypeExpr.tokens : TypeExpr → List TypeToken
  | .name n => [.name n]
  | .array (.union l r) =>
    mark 40 :: (l.tokens ++ mark 124 :: r.tokens) ++ [mark 41, mark 91, mark 93]
  | .array t => t.tokens ++ [mark 91, mark 93]
  | .union l r => l.tokens ++ mark 124 :: r.tokens
  | .generic n args => .name n :: mark 60 :: args.tokens ++ [mark 62]
  | .object members => mark 123 :: members.tokens ++ [mark 125]

def TypeArgs.tokens : TypeArgs → List TypeToken
  | .last arg => arg.tokens
  | .cons arg rest => arg.tokens ++ mark 44 :: rest.tokens

def Members.tokens : Members → List TypeToken
  | .nil => []
  | .cons n optional type sep rest =>
    .name n :: (if optional then [mark 63] else []) ++ mark 58 :: type.tokens ++ sep.tokens ++
      rest.tokens

end

/-- Some lists of tokens with commas between them. -/
def commaTokens (tss : List (List TypeToken)) : List TypeToken := [mark 44].intercalate tss

def TypeParam.tokens (p : TypeParam) : List TypeToken :=
  .name p.name :: (p.constraint.elim [] fun t => keyword "extends" :: t.tokens) ++
    p.default.elim [] fun t => mark 61 :: t.tokens

/-- `export`. -/
def exportTokens (exported : Bool) : List TypeToken := if exported then [keyword "export"] else []

/-- The tokens before the body. -/
def Interface.header (i : Interface) : List TypeToken :=
  exportTokens i.exported ++ keyword "interface" :: .name i.name ::
    if i.parents = [] then [] else keyword "extends" :: commaTokens (i.parents.map TypeExpr.tokens)

def Interface.tokens (i : Interface) : List TypeToken :=
  i.header ++ mark 123 :: i.body.tokens ++ [mark 125]

/-- The tokens between the brackets of the type parameters. -/
def TypeAlias.paramTokens (a : TypeAlias) : List TypeToken :=
  commaTokens (a.params.map TypeParam.tokens)

/-- The tokens before the equals sign. -/
def TypeAlias.header (a : TypeAlias) : List TypeToken :=
  exportTokens a.exported ++ keyword "type" :: .name a.name ::
    if a.params = [] then [] else mark 60 :: a.paramTokens ++ [mark 62]

def TypeAlias.tokens (a : TypeAlias) : List TypeToken :=
  a.header ++ mark 61 :: a.type.tokens ++ [mark 59]

/-! ## Their texts -/

/-- White space: blanks and line terminators. -/
def IsGap (g : Bytes) : Prop :=
  ∃ blanks : List Bytes, (∀ b ∈ blanks, b ∈ whiteSpaces ++ lineTerminators) ∧ g = blanks.flatten

/-- The text of some tokens, with the first gap after the first token and so on. -/
def spaced : List TypeToken → List Bytes → Bytes
  | [], _ => []
  | [tok], _ => tok.text
  | tok :: toks, gaps => tok.text ++ gaps.headD [] ++ spaced toks gaps.tail

/-- Two names are kept apart. -/
def apart : List TypeToken → List Bytes → Bool
  | .name _ :: .name n :: toks, gaps => gaps.headD [] ≠ [] && apart (.name n :: toks) gaps.tail
  | _ :: toks, gaps => apart toks gaps.tail
  | [], _ => true

/-- The white space between some tokens. -/
structure Spacing (toks : List TypeToken) where
  gaps : List Bytes
  blank : ∀ g ∈ gaps, IsGap g
  apart : apart toks gaps = true
  valid : toks.all TypeToken.isValid = true

/-- A type declaration with its white space. -/
inductive Declaration where
  | interface (i : Interface) (s : Spacing i.tokens)
  | typeAlias (a : TypeAlias) (s : Spacing a.tokens)

def Declaration.text : Declaration → Bytes
  | .interface i s => spaced i.tokens s.gaps
  | .typeAlias a s => spaced a.tokens s.gaps

/-- A part of a source. -/
inductive SourceItem where
  /-- Statements of JavaScript, with the white space around them. -/
  | statements (text : Bytes)
  | declaration (d : Declaration)

namespace SourceItem

def text : SourceItem → Bytes
  | statements text => text
  | declaration d => d.text

end SourceItem

section Plain

variable (t : CharTables)

/-- `\w` and nothing that `\s` takes. -/
def isPlainName (n : Bytes) : Bool := n.all fun b => t.word b && !t.space b

/-- `\s` and nothing that `\w` takes. -/
def isPlainGap (g : Bytes) : Bool := g.all fun b => t.space b && !t.word b

/-- The interface extends one name at most and no object type is nested in it, and the names and the
white space before its body are those that the expression knows. -/
structure PlainInterface (i : Interface) (gaps : List Bytes) : Prop where
  parents : i.parents = [] ∨ ∃ p, i.parents = [.name p]
  names : ∀ n, TypeToken.name n ∈ i.header → isPlainName t n = true
  spaces : ∀ g ∈ gaps.take i.header.length, isPlainGap t g = true
  body : mark 125 ∉ i.body.tokens

/-- No generic type is nested in the type parameters, which start right after the name; there is no
semicolon in the type; and the name and the white space up to the equals sign are those that the
expression knows. -/
structure PlainAlias (a : TypeAlias) (gaps : List Bytes) : Prop where
  name : isPlainName t a.name = true
  spaces : ∀ g ∈ gaps.take ((exportTokens a.exported).length + 1), isPlainGap t g = true
  params : a.params ≠ [] → gaps.getD ((exportTokens a.exported).length + 1) [] = [] ∧
    mark 62 ∉ a.paramTokens
  beforeEquals : isPlainGap t (gaps.getD (a.header.length - 1) []) = true
  type : mark 59 ∉ a.type.tokens

/-- The expression for the declaration takes it whole. -/
def Declaration.Plain : Declaration → Prop
  | .interface i s => PlainInterface t i s.gaps
  | .typeAlias a s => PlainAlias t a s.gaps

end Plain

end BeamJS
