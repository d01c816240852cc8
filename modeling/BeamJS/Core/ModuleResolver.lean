import BeamJS.Nif.ModuleLoader
import BeamJS.Lib.Transition

/-!
# The module resolver

`module_resolver.ex` finds the file of a module name, from the `base_dir` that `init` derives from
the file name of the process. Absolute paths are lists of segments, and the file system is a
parameter.
-/

namespace BeamJS

open Lib

/-- A rooted path without dots, or the path of a file that `Path.join` puts together, with them. -/
abbrev FilePath := List Segment

/-- The surroundings of a process. -/
structure Files where
  /-- `File.cwd!`. -/
  cwd : LexPath Segment
  /-- `System.user_home!`. -/
  home : LexPath Segment
  /-- `File.exists?`, which holds for directories too. -/
  exist : FilePath → Bool
  /-- `File.read` returns `{:ok, _}`. -/
  reads : FilePath → Bool

/-- `Path.expand(p, base)`. -/
def expand (files : Files) (base : LexPath Segment) (p : Bytes) : LexPath Segment :=
  if p.head? = some slash then LexPath.root.walk (moves p)
  else
    match segments slash p with
    | [] => base
    | s :: segs =>
      if s = bytes "~" then files.home.walk (segs.map moveOf)
      else base.walk ((s :: segs).map moveOf)

/-- `Path.dirname` of an absolute path. -/
def parent (p : LexPath Segment) : LexPath Segment := { p with names := p.names.dropLast }

/-- The `base_dir` of `init` for its `filename` option. -/
def baseDir (files : Files) (filename : Bytes) : LexPath Segment :=
  if filename ≠ bytes "<spawn>" ∧ filename ≠ bytes "<eval>" then
    parent (expand files files.cwd filename)
  else files.cwd

/-- `["", ".js", ".ts", ".mjs", "/index.js", "/index.ts"]`. -/
def extensions : List Bytes :=
  [[], bytes ".js", bytes ".ts", bytes ".mjs", bytes "/index.js", bytes "/index.ts"]

/-- `path <> ext`. -/
def withExt (path : FilePath) (ext : Bytes) : FilePath :=
  if ext = [] then path
  else if ext.head? = some slash then path ++ [ext.tail]
  else path.dropLast ++ [path.getLast?.getD [] ++ ext]

/-- `resolve_file`. -/
def resolveFile (files : Files) (path : FilePath) : Option FilePath :=
  (extensions.map (withExt path)).find? files.exist

/-- Where `resolve` looks a module up first, for a name that is none of the standard library. -/
def lookupPath (files : Files) (base : LexPath Segment) (name : Bytes) : Option (LexPath Segment) :=
  if (bytes "beamjs:").isPrefixOf name then none else some (expand files base name)

/-- `resolve` outside the standard library. -/
def resolve (files : Files) (base : LexPath Segment) (name : Bytes) : Option FilePath :=
  match lookupPath files base name with
  | none => none
  | some path =>
    match resolveFile files path.names with
    | some file => some file
    | none =>
      if name.head? = some 46 then none
      else
        -- `Path.join` keeps the dots of the name
        let pkgPath := base.names ++ [bytes "beamjs_modules"] ++ segments slash name ++
          [bytes "index.js"]
        if files.exist pkgPath then some pkgPath else none

/-! ## The modules of a process -/

/-- A module by its name, and the file its source was read from. -/
structure LoadedModule where
  name : Bytes
  file : FilePath

/-- The source of the process itself, evaluated under its file name. -/
def entryModule (files : Files) (filename : Bytes) : LoadedModule :=
  ⟨filename, (expand files files.cwd filename).names⟩

/-- The module that the import of `s` by `m` adds to those that are loaded. -/
def importOf (files : Files) (base : LexPath Segment) (loaded : List LoadedModule)
    (m : LoadedModule)
    (s : Bytes) : Option LoadedModule :=
  let name := moduleNormalize m.name s
  if name ∈ loaded.map LoadedModule.name then none
  else
    match resolve files base name with
    | some file => if files.reads file then some ⟨name, file⟩ else none
    | none => none

/-- The modules that a process loads: in each step one of them imports a specifier. -/
def loader (files : Files) (filename : Bytes) : Lts (List LoadedModule) (LoadedModule × Bytes) where
  init loaded := loaded = [entryModule files filename]
  step loaded a loaded' := a.1 ∈ loaded ∧
    loaded' = loaded ++ (importOf files (baseDir files filename) loaded a.1 a.2).toList

/-! ## Where a relative import belongs -/

/-- `Path.dirname` of the file of a module. -/
def fileDir (m : LoadedModule) : LexPath Segment :=
  LexPath.root.walk (m.file.dropLast.map moveOf)

/-- Each relative import of the module is looked up at its path from the directory of the file. -/
def ResolvesFromFile (files : Files) (base : LexPath Segment) (m : LoadedModule) : Prop :=
  ∀ s, isRelative s = true →
    lookupPath files base (moduleNormalize m.name s) = some (expand files (fileDir m) s)

/-- An absolute path without dots. -/
structure Canonical (p : LexPath Segment) : Prop where
  rooted : p.rooted = true
  ups : p.ups = 0
  names : ∀ s ∈ p.names, moveOf s = .into s

/-- The directory part of the name, taken from `base_dir` on, is the directory of the file, and it
is not taken for a name of the standard library. -/
def InPlace (files : Files) (base : LexPath Segment) (m : LoadedModule) : Prop :=
  (bytes "beamjs:").isPrefixOf (dirText m.name) = false ∧
    expand files base (dirText m.name) = fileDir m

end BeamJS
