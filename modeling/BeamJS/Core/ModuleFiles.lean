import BeamJS.Core.ModuleResolver
import BeamJS.Core.Transpiler

/-!
# The files of modules

`resolve_and_load` over a file system of regular files and directories: the file that is found for a
module name, and the text that is read from it.
-/

namespace BeamJS

open Lib

/-- What a path leads to. -/
inductive FileNode where
  | file (content : Bytes)
  /-- A regular file that `File.read` fails on, with the reason. -/
  | unreadable (reason : Bytes)
  | directory
  deriving DecidableEq

/-- A file system, and the directories that paths are expanded from. -/
structure FileTree where
  cwd : LexPath Segment
  home : LexPath Segment
  /-- `Application.app_dir(:beamjs_core, "priv/js_stdlib")`. -/
  stdlib : FilePath
  node : FilePath → Option FileNode

namespace FileTree

/-- `File.exists?`. -/
def isThere (tree : FileTree) (path : FilePath) : Bool := (tree.node path).isSome

/-- `File.read`. -/
def read (tree : FileTree) (path : FilePath) : Except Bytes Bytes :=
  match tree.node path with
  | some (.file content) => .ok content
  | some (.unreadable reason) => .error reason
  | some .directory => .error (bytes "eisdir")
  | none => .error (bytes "enoent")

/-- What the resolver asks of the file system. -/
def files (tree : FileTree) : Files where
  cwd := tree.cwd
  home := tree.home
  exist := tree.isThere
  reads path := (tree.read path).isOk

/-- The content of a regular file that can be read. -/
def content? (tree : FileTree) (path : FilePath) : Option Bytes :=
  match tree.node path with
  | some (.file content) => some content
  | _ => none

/-- `File.regular?`. -/
def isRegular (tree : FileTree) (path : FilePath) : Bool :=
  match tree.node path with
  | some (.file _) | some (.unreadable _) => true
  | _ => false

end FileTree

/-! ## The type of a file -/

/-- The text of an absolute path. -/
def pathText (path : FilePath) : Bytes :=
  if path = [] then [slash] else path.flatMap fun s => slash :: s

/-- `Path.extname`: the name of the file from its last dot on. A dot at the start of the name begins
no extension. -/
def extname (path : FilePath) : Bytes :=
  let name := path.getLast?.getD []
  let i := (name.reverse.takeWhile (· ≠ 46)).length + 1
  if i < name.length then name.drop (name.length - i) else []

/-- `Transpiler.needs_transpile?`. -/
def needsTranspile (path : FilePath) : Bool :=
  [bytes ".ts", bytes ".tsx", bytes ".mts"].contains (extname path)

/-- `String.ends_with?(path, ".ts") or String.ends_with?(path, ".tsx")`. -/
def endsWithTs (path : FilePath) : Bool :=
  (bytes ".ts").isSuffixOf (pathText path) || (bytes ".tsx").isSuffixOf (pathText path)

/-! ## `resolve_and_load` -/

/-- `@stdlib_modules`. -/
def stdlibModules : List Bytes :=
  [bytes "process", bytes "gen_server", bytes "supervisor", bytes "match", bytes "pipe",
    bytes "task", bytes "agent", bytes "timer", bytes "console", bytes "test"]

/-- `resolve` for the part of a name after `beamjs:`. -/
def resolveStdlib (tree : FileTree) (moduleName : Bytes) : Except Bytes FilePath :=
  if moduleName ∈ stdlibModules then
    let path := tree.stdlib ++ [moduleName ++ bytes ".js"]
    if tree.isThere path then .ok path
    else .error (bytes "stdlib module not found: beamjs:" ++ moduleName)
  else .error (bytes "unknown stdlib module: beamjs:" ++ moduleName)

/-- `resolve` with its errors. -/
def resolvePath (tree : FileTree) (base : LexPath Segment) (name : Bytes) : Except Bytes FilePath :=
  if (bytes "beamjs:").isPrefixOf name then resolveStdlib tree (name.drop 7)
  else
    match resolve tree.files base name with
    | some path => .ok path
    | none =>
      if name.head? = some 46 then
        .error (bytes "file not found: " ++ pathText (expand tree.files base name).names)
      else .error (bytes "module not found: " ++ name)

/-- `read_file`. -/
def readFile (t : CharTables) (tree : FileTree) (path : FilePath) : Except Bytes Bytes :=
  match tree.read path with
  | .ok content => .ok (if endsWithTs path then Transpiler.stripTypes t content else content)
  | .error reason => .error (bytes "cannot read " ++ pathText path ++ bytes ": " ++ reason)

/-- `resolve_and_load`. -/
def resolveAndLoad (t : CharTables) (tree : FileTree) (base : LexPath Segment)
    (name : Bytes) : Except Bytes Bytes := do
  readFile t tree (← resolvePath tree base name)

/-! ## What a lookup should find -/

/-- The files that a name may stand for, in the order of preference. -/
def candidates (tree : FileTree) (base : LexPath Segment) (name : Bytes) : List FilePath :=
  extensions.map (withExt (expand tree.files base name).names) ++
    if name.head? = some 46 then []
    else [base.names ++ [bytes "beamjs_modules"] ++ segments slash name ++ [bytes "index.js"]]

/-- The text of a file as the command line treats it. -/
def loadedText (t : CharTables) (path : FilePath) (content : Bytes) : Bytes :=
  if needsTranspile path then Transpiler.stripTypes t content else content

/-- A text is the first regular file of the candidates, stripped of types where its name says so,
and there is an error exactly if no candidate can be read. -/
structure FindsFirstFile (t : CharTables) (tree : FileTree) (base : LexPath Segment)
    (name : Bytes) : Prop where
  text : ∀ text, resolveAndLoad t tree base name = .ok text →
    ∃ path content, (candidates tree base name).find? tree.isRegular = some path ∧
      tree.content? path = some content ∧ text = loadedText t path content
  error : (∃ reason, resolveAndLoad t tree base name = .error reason) ↔
    ∀ path ∈ candidates tree base name, tree.content? path = none

/-- The first path that exists among the candidates is a regular file that can be read, and the two
tests of its extension agree or there are no types in it to strip. -/
def FirstIsFile (t : CharTables) (tree : FileTree) (base : LexPath Segment)
    (name : Bytes) : Prop :=
  ∃ path content, (candidates tree base name).find? tree.isThere = some path ∧
    tree.content? path = some content ∧
    (endsWithTs path = needsTranspile path ∨ Transpiler.stripTypes t content = content)

end BeamJS
