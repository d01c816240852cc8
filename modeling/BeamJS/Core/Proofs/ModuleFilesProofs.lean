import BeamJS.Core.ModuleFiles
import BeamJS.Core.Proofs.TranspilerProofs

/-!
# Proofs: which file a module is

The resolver takes the first candidate that exists, whatever it is. What it loads is the first
regular file, treated as its name says, exactly where the candidate that it takes is that file or
there is nothing to load.
-/

namespace BeamJS

open Lib

section Lookup

variable {t : CharTables} {tree : FileTree} {base : LexPath Segment} {name : Bytes}

theorem isRegular_of_content? {path : FilePath} {content : Bytes}
    (h : tree.content? path = some content) : tree.isRegular path = true := by
  unfold FileTree.content? at h
  unfold FileTree.isRegular
  split at h
  · rename_i hnode
    rw [hnode]
  · cases h

theorem isThere_of_isRegular {path : FilePath} (h : tree.isRegular path = true) :
    tree.isThere path = true := by
  unfold FileTree.isRegular at h
  unfold FileTree.isThere
  cases hnode : tree.node path with
  | some node => rfl
  | none =>
    rw [hnode] at h
    cases h

theorem read_eq_ok_iff {path : FilePath} {content : Bytes} :
    tree.read path = .ok content ↔ tree.content? path = some content := by
  unfold FileTree.read FileTree.content?
  cases tree.node path with
  | none => simp
  | some node => cases node <;> simp

/-- A file is read and stripped, or there is an error if it cannot be read. -/
theorem readFile_of_content? {path : FilePath} {content : Bytes}
    (h : tree.content? path = some content) :
    readFile t tree path =
      .ok (if endsWithTs path then Transpiler.stripTypes t content else content) := by
  rw [readFile, read_eq_ok_iff.mpr h]

theorem readFile_of_none {path : FilePath} (h : tree.content? path = none) :
    ∃ reason, readFile t tree path = .error reason := by
  unfold readFile
  cases hread : tree.read path with
  | ok content =>
    rw [read_eq_ok_iff.mp hread] at h
    cases h
  | error reason => exact ⟨_, rfl⟩

/-- The two ways of looking a module up are one search through the candidates. -/
theorem resolve_eq_find? (h : (bytes "beamjs:").isPrefixOf name = false) :
    resolve tree.files base name = (candidates tree base name).find? tree.isThere := by
  have hfile : (extensions.map (withExt (expand tree.files base name).names)).find? tree.isThere =
      resolveFile tree.files (expand tree.files base name).names := rfl
  rw [resolve, lookupPath, h, candidates, List.find?_append, hfile]
  simp only [Bool.false_eq_true, if_false]
  cases resolveFile tree.files (expand tree.files base name).names with
  | some file => rfl
  | none =>
    by_cases hdot : name.head? = some 46
    · simp [hdot]
    · simp [hdot, List.find?_singleton, FileTree.files]

/-- What is loaded is read from the first candidate that exists. -/
theorem resolveAndLoad_of_find? (h : (bytes "beamjs:").isPrefixOf name = false) {path : FilePath}
    (hfind : (candidates tree base name).find? tree.isThere = some path) :
    resolveAndLoad t tree base name = readFile t tree path := by
  rw [resolveAndLoad, resolvePath, h, if_neg Bool.false_ne_true, resolve_eq_find? h, hfind]
  rfl

/-- Nothing is loaded if no candidate exists. -/
theorem resolveAndLoad_of_none (h : (bytes "beamjs:").isPrefixOf name = false)
    (hfind : (candidates tree base name).find? tree.isThere = none) :
    ∃ reason, resolveAndLoad t tree base name = .error reason := by
  rw [resolveAndLoad, resolvePath, h, if_neg Bool.false_ne_true, resolve_eq_find? h, hfind]
  simp only
  split
  · exact ⟨_, rfl⟩
  · exact ⟨_, rfl⟩

/-- Without a file to read there is an error. -/
theorem resolveAndLoad_of_unreadable (h : (bytes "beamjs:").isPrefixOf name = false)
    (hnone : ∀ path ∈ candidates tree base name, tree.content? path = none) :
    ∃ reason, resolveAndLoad t tree base name = .error reason := by
  cases hfind : (candidates tree base name).find? tree.isThere with
  | none => exact resolveAndLoad_of_none h hfind
  | some path =>
    rw [resolveAndLoad_of_find? h hfind]
    exact readFile_of_none (hnone path (List.mem_of_find?_eq_some hfind))

/-- The first candidate that exists is the first regular one if it is regular at all. -/
theorem find?_isRegular {l : List FilePath} {path : FilePath}
    (hfind : l.find? tree.isThere = some path) (hreg : tree.isRegular path = true) :
    l.find? tree.isRegular = some path := by
  obtain ⟨_, as, bs, rfl, has⟩ := List.find?_eq_some_iff_append.mp hfind
  refine List.find?_eq_some_iff_append.mpr ⟨hreg, as, bs, rfl, fun a ha => ?_⟩
  have hnot := has a ha
  rw [Bool.not_eq_true'] at hnot ⊢
  refine eq_false_of_ne_true fun hra => ?_
  rw [isThere_of_isRegular hra] at hnot
  cases hnot

/-- The text that is loaded is the one to be loaded if the two tests of the extension agree. -/
theorem loadedText_eq_iff (path : FilePath) (content : Bytes) :
    (if endsWithTs path then Transpiler.stripTypes t content else content) =
        loadedText t path content ↔
      endsWithTs path = needsTranspile path ∨ Transpiler.stripTypes t content = content := by
  unfold loadedText
  cases endsWithTs path <;> cases needsTranspile path <;> simp [eq_comm]

/-- A module lookup finds the first regular file and treats it like the command line exactly if
there is none that can be read, or the first candidate that exists is one, whose types are stripped
where its name asks for it. -/
theorem finds_first_file_iff (h : (bytes "beamjs:").isPrefixOf name = false) :
    FindsFirstFile t tree base name ↔
      (∀ path ∈ candidates tree base name, tree.content? path = none) ∨
        FirstIsFile t tree base name := by
  constructor
  · intro hspec
    by_cases hnone : ∀ path ∈ candidates tree base name, tree.content? path = none
    · exact .inl hnone
    refine .inr ?_
    have hok : ¬ ∃ reason, resolveAndLoad t tree base name = .error reason :=
      fun herr => hnone (hspec.error.mp herr)
    cases hfind : (candidates tree base name).find? tree.isThere with
    | none => exact absurd (resolveAndLoad_of_none h hfind) hok
    | some path =>
      have hload := resolveAndLoad_of_find? (t := t) h hfind
      cases hcontent : tree.content? path with
      | none =>
        rw [hload] at hok
        exact absurd (readFile_of_none hcontent) hok
      | some content =>
        rw [readFile_of_content? hcontent] at hload
        obtain ⟨path', content', hfirst, hcontent', htext⟩ := hspec.text _ hload
        rw [find?_isRegular hfind (isRegular_of_content? hcontent), Option.some.injEq] at hfirst
        subst hfirst
        rw [hcontent, Option.some.injEq] at hcontent'
        subst hcontent'
        exact ⟨path, content, hfind, hcontent, (loadedText_eq_iff path content).mp htext⟩
  · rintro (hnone | ⟨path, content, hfind, hcontent, hagree⟩)
    · obtain ⟨reason, herr⟩ := resolveAndLoad_of_unreadable (t := t) h hnone
      refine ⟨fun text htext => ?_, iff_of_true ⟨reason, herr⟩ hnone⟩
      rw [herr] at htext
      cases htext
    · have hload := resolveAndLoad_of_find? (t := t) h hfind
      rw [readFile_of_content? hcontent, (loadedText_eq_iff path content).mpr hagree] at hload
      refine ⟨fun text htext => ?_, iff_of_false ?_ fun hnone => ?_⟩
      · rw [hload, Except.ok.injEq] at htext
        exact ⟨path, content, find?_isRegular hfind (isRegular_of_content? hcontent), hcontent,
          htext.symm⟩
      · rintro ⟨reason, herr⟩
        rw [hload] at herr
        cases herr
      · rw [hnone path (List.mem_of_find?_eq_some hfind)] at hcontent
        cases hcontent

end Lookup

/-- A machine with the files `/app/foo/index.js` and `/app/types.mts`. -/
def packageTree : FileTree where
  cwd := ⟨true, 0, [bytes "app"]⟩
  home := ⟨true, 0, [bytes "root"]⟩
  stdlib := [bytes "js_stdlib"]
  node path := List.lookup path
    [([], .directory), ([bytes "app"], .directory), ([bytes "app", bytes "foo"], .directory),
      ([bytes "app", bytes "foo", bytes "index.js"], .file (bytes "0")),
      ([bytes "app", bytes "types.mts"], .file (bytes "a!.b"))]

/-- The module `./foo/index.js` is found under its own name. -/
theorem index_finds_first_file :
    FindsFirstFile .ascii packageTree packageTree.cwd (bytes "./foo/index.js") ↔
      (∀ path ∈ candidates packageTree packageTree.cwd (bytes "./foo/index.js"),
        packageTree.content? path = none) ∨
      FirstIsFile .ascii packageTree packageTree.cwd (bytes "./foo/index.js") :=
  finds_first_file_iff (by decide)

/-- The directory of `./foo` hides its `index.js`, and the types of `./types.mts` stay. -/
theorem directory_hides_index :
    (resolveAndLoad .ascii packageTree packageTree.cwd (bytes "./foo") =
        .error (bytes "cannot read /app/foo: eisdir") ∧
      ¬ FindsFirstFile .ascii packageTree packageTree.cwd (bytes "./foo")) ∧
    (resolveAndLoad .ascii packageTree packageTree.cwd (bytes "./types.mts") = .ok (bytes "a!.b") ∧
      ¬ FindsFirstFile .ascii packageTree packageTree.cwd (bytes "./types.mts")) := by
  have hfoo : resolveAndLoad .ascii packageTree packageTree.cwd (bytes "./foo") =
      .error (bytes "cannot read /app/foo: eisdir") := by decide
  have htypes : resolveAndLoad .ascii packageTree packageTree.cwd (bytes "./types.mts") =
      .ok (bytes "a!.b") := by decide
  refine ⟨⟨hfoo, fun h => ?_⟩, htypes, fun h => ?_⟩
  · have hnone := h.error.mp ⟨_, hfoo⟩ [bytes "app", bytes "foo", bytes "index.js"] (by decide)
    revert hnone
    decide
  · obtain ⟨path, content, hfirst, hcontent, htext⟩ := h.text _ htypes
    have hpath : (candidates packageTree packageTree.cwd (bytes "./types.mts")).find?
        packageTree.isRegular = some [bytes "app", bytes "types.mts"] := by decide
    rw [hpath, Option.some.injEq] at hfirst
    subst hfirst
    have hbody : packageTree.content? [bytes "app", bytes "types.mts"] = some (bytes "a!.b") := by
      decide
    rw [hbody, Option.some.injEq] at hcontent
    subst hcontent
    revert htext
    decide

end BeamJS
