import BeamJS.Js.Source
import BeamJS.Lib.Regex

/-!
# `BeamjsCore.Transpiler`

The passes of `strip_types`, each a regular expression and its replacement. The expressions are run
over bytes, and `\w` and `\s` are looked up in the character tables of the library, which are its
own beyond ASCII. No search is taken to be cut short by a limit of the library.
-/

namespace BeamJS

open Lib InputElement

/-- The character tables of the library. -/
structure CharTables where
  /-- `\w`. -/
  word : UInt8 → Bool
  /-- `\s`. -/
  space : UInt8 → Bool
  word_ascii : ∀ b, b < 128 → word b = (isNameByte b && b ≠ 36)
  space_ascii : ∀ b, b < 128 → space b = (b = 32 || (9 ≤ b && b ≤ 13))

/-- The tables that know of no characters beyond ASCII. -/
def CharTables.ascii : CharTables where
  word b := isNameByte b && b ≠ 36
  space b := b = 32 || (9 ≤ b && b ≤ 13)
  word_ascii _ _ := rfl
  space_ascii _ _ := rfl

/-- A pass: what it looks for, and what it puts in its place. -/
structure Pass where
  regex : Regex UInt8
  replacement : Bytes

/-- `Regex.replace`. -/
def Pass.apply (p : Pass) (source : Bytes) : Bytes := p.regex.replaceAll p.replacement source

namespace Transpiler

open Regex

/-- A character of `s`. -/
def anyOf (s : String) : Regex UInt8 := .cls fun b => (bytes s).contains b

/-- A character that is none of `s`. -/
def noneOf (s : String) : Regex UInt8 := .cls fun b => !(bytes s).contains b

/-- The characters of `s`. -/
def chars (s : String) : Regex UInt8 := lits (bytes s)

/-- `^` with the flag `m`. -/
def atLineStart : Regex UInt8 := .lineStart (· = 10)

section Passes

variable (t : CharTables)

/-- `\w+`. -/
def words : Regex UInt8 := plus (.cls t.word)

/-- `\s*`. -/
def spaces : Regex UInt8 := .star (.cls t.space)

/-- `\s+`. -/
def space : Regex UInt8 := plus (.cls t.space)

/-- `(?:<[^>]*>)?`. -/
def typeArguments : Regex UInt8 := .opt (seqs [chars "<", .star (noneOf ">"), chars ">"])

/-- `(?:export\s+)?`. -/
def exported : Regex UInt8 := .opt (seqs [chars "export", space t])

/-- `import\s+type\s+\{[^}]*\}\s+from\s+["'][^"']*["']\s*;?` -/
def removeTypeImports : Pass where
  regex := seqs [chars "import", space t, chars "type", space t, chars "\x7b", .star (noneOf "\x7d"),
    chars "\x7d", space t, chars "from", space t, anyOf "\"'", .star (noneOf "\"'"), anyOf "\"'",
    spaces t, .opt (chars ";")]
  replacement := []

/-- `^(?:export\s+)?interface\s+\w+(?:\s+extends\s+\w+)?\s*\{[^}]*\}` -/
def removeInterfaces : Pass where
  regex := seqs [atLineStart, exported t, chars "interface", space t, words t,
    .opt (seqs [space t, chars "extends", space t, words t]), spaces t, chars "\x7b",
    .star (noneOf "\x7d"), chars "\x7d"]
  replacement := []

/-- `^(?:export\s+)?type\s+\w+(?:<[^>]*>)?\s*=[^;]*;` -/
def removeTypeAliases : Pass where
  regex := seqs [atLineStart, exported t, chars "type", space t, words t, typeArguments, spaces t,
    chars "=", .star (noneOf ";"), chars ";"]
  replacement := []

/-- `:\s*(?:readonly\s+)?(?:\w+(?:\[\])?(?:\s*\|\s*\w+(?:\[\])?)*(?:<[^>]*>)?)` -/
def removeTypeAnnotations : Pass where
  regex := seqs [chars ":", spaces t, .opt (seqs [chars "readonly", space t]), words t,
    .opt (chars "[]"), .star (seqs [spaces t, chars "|", spaces t, words t, .opt (chars "[]")]),
    typeArguments]
  replacement := []

/-- `\)\s*:\s*(?:\w+(?:<[^>]*>)?(?:\s*\|\s*\w+)*)\s*\{` -/
def removeReturnTypes : Pass where
  regex := seqs [chars ")", spaces t, chars ":", spaces t, words t, typeArguments,
    .star (seqs [spaces t, chars "|", spaces t, words t]), spaces t, chars "\x7b"]
  replacement := bytes ") \x7b"

/-- `<(?:\w+(?:\s+extends\s+\w+)?(?:\s*,\s*\w+(?:\s+extends\s+\w+)?)*)>` -/
def removeGenerics : Pass where
  regex := seqs [chars "<", words t, .opt (seqs [space t, chars "extends", space t, words t]),
    .star (seqs [spaces t, chars ",", spaces t, words t,
      .opt (seqs [space t, chars "extends", space t, words t])]), chars ">"]
  replacement := []

/-- `\s+as\s+\w+(?:<[^>]*>)?` -/
def removeAsAssertions : Pass where
  regex := seqs [space t, chars "as", space t, words t, typeArguments]
  replacement := []

/-- `!\.` -/
def removeNonNullAssertions : Pass where
  regex := chars "!."
  replacement := bytes "."

/-- The passes, in their order. -/
def passes : List Pass :=
  [removeTypeImports t, removeInterfaces t, removeTypeAliases t, removeTypeAnnotations t,
    removeReturnTypes t, removeGenerics t, removeAsAssertions t, removeNonNullAssertions]

/-- `strip_types`. -/
def stripTypes (source : Bytes) : Bytes := (passes t).foldl (fun source p => p.apply source) source

end Passes

end Transpiler

open Transpiler

/-! ## What a caller may expect -/

/-- What is left of the source has its tokens. -/
def KeepsTokens (t : CharTables) (s : Source) : Prop :=
  ∃ s' : Source, s'.text = stripTypes t s.text ∧ s'.tokens = s.tokens

/-! ## Where nothing but comments is changed -/

/-- The pieces of a comment in which all that is found lies between the marks, and the comment that
is left of it. -/
inductive EditsComment (replacement : Bytes) : InputElement → List (Piece UInt8) → InputElement → Prop
  | line {mark : Bytes} {ps : List (Piece UInt8)}
      (h : (lineComment mark (ps.flatMap (Piece.replaced replacement))).Valid) :
      EditsComment replacement (lineComment mark (ps.flatMap Piece.source)) (mark.map .keep ++ ps)
        (lineComment mark (ps.flatMap (Piece.replaced replacement)))
  | block {ps : List (Piece UInt8)}
      (h : (blockComment (ps.flatMap (Piece.replaced replacement))).Valid) :
      EditsComment replacement (blockComment (ps.flatMap Piece.source))
        ((bytes "/*").map .keep ++ ps ++ (bytes "*/").map .keep)
        (blockComment (ps.flatMap (Piece.replaced replacement)))

/-- The pieces of some elements in which all that is found lies in comments, and what is left of the
elements. -/
inductive Edits (replacement : Bytes) :
    List InputElement → List (Piece UInt8) → List InputElement → Prop
  | nil : Edits replacement [] [] []
  | keep {e : InputElement} {es es' : List InputElement} {ps : List (Piece UInt8)}
      (h : Edits replacement es ps es') :
      Edits replacement (e :: es) (e.text.map .keep ++ ps) (e :: es')
  | comment {e e' : InputElement} {es es' : List InputElement} {qs ps : List (Piece UInt8)}
      (he : EditsComment replacement e qs e') (h : Edits replacement es ps es') :
      Edits replacement (e :: es) (qs ++ ps) (e' :: es')

/-- Each of the passes, applied to what the passes before it leave, finds nothing outside comments.
-/
inductive StaysInComments : List Pass → List InputElement → Prop
  | done (es : List InputElement) : StaysInComments [] es
  | pass {p : Pass} {ps : List Pass} {es es' : List InputElement}
      (he : Edits p.replacement es (p.regex.pieces (elementsText es)) es')
      (h : StaysInComments ps es') : StaysInComments (p :: ps) es

end BeamJS
