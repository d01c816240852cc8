import BeamJS.Core.ModuleResolver
import BeamJS.Nif.Proofs.ModuleLoaderProofs

/-!
# Proofs: the module resolver

The C side joins a relative specifier to the directory text of the importing name, and the Elixir
side expands the result from `base_dir`. Both together resolve against the file of the importing
module exactly for the modules that are `InPlace`, and a run of the loader adds one module after the
other.
-/

namespace BeamJS

open Lib

section Paths

variable {files : Files} {base : LexPath Segment}

theorem moves_append (d s : Bytes) : moves (d ++ slash :: s) = moves d ++ moves s := by
  rw [moves, segments_append, List.map_append, moves, moves]

theorem expand_rooted {p : Bytes} (h : p.head? = some slash) :
    expand files base p = LexPath.root.walk (moves p) := by
  rw [expand, if_pos h]

theorem expand_unrooted {p : Bytes} (h : p.head? ≠ some slash) {seg : Segment}
    {segs : List Segment} (hseg : segments slash p = seg :: segs) :
    expand files base p =
      if seg = bytes "~" then files.home.walk (segs.map moveOf)
      else base.walk ((seg :: segs).map moveOf) := by
  rw [expand, if_neg h, hseg]

/-- A text that is joined to a directory text is expanded from that directory. -/
theorem expand_join {d : Bytes} (hd : d ≠ []) (s : Bytes) :
    expand files base (d ++ slash :: s) = (expand files base d).walk (moves s) := by
  obtain ⟨c, d, rfl⟩ := List.exists_cons_of_ne_nil hd
  by_cases hc : c = slash
  · subst hc
    rw [expand_rooted rfl, expand_rooted rfl, moves_append, LexPath.walk_append]
  · have hhead : (c :: d).head? ≠ some slash := by simpa using hc
    have hhead' : (c :: d ++ slash :: s).head? ≠ some slash := by simpa using hc
    obtain ⟨seg, segs, hseg⟩ := List.exists_cons_of_ne_nil (segments_ne_nil slash hc d)
    have hjoin : segments slash (c :: d ++ slash :: s) = seg :: (segs ++ segments slash s) := by
      rw [segments_append, hseg, List.cons_append]
    rw [expand_unrooted hhead' hjoin, expand_unrooted hhead hseg]
    split
    · rw [List.map_append, LexPath.walk_append, moves]
    · rw [← List.cons_append, List.map_append, LexPath.walk_append, moves]

theorem expand_nil : expand files base [] = base := rfl

/-- A relative specifier is expanded from the base alone. -/
theorem expand_relative {s : Bytes} (h : isRelative s = true) :
    expand files base s = base.walk (moves s) := by
  unfold isRelative at h
  split at h
  · rename_i t
    have hd : expand files base (46 :: slash :: t) = (expand files base [46]).walk (moves t) :=
      expand_join (List.cons_ne_nil 46 []) t
    have hm : moves (46 :: slash :: t) = moves [46] ++ moves t := moves_append [46] t
    exact hd.trans ((LexPath.walk_append base (moves [46]) (moves t)).symm.trans (by rw [← hm]; rfl))
  · rename_i t
    have hd : expand files base (46 :: 46 :: slash :: t) =
        (expand files base [46, 46]).walk (moves t) := expand_join (List.cons_ne_nil 46 [46]) t
    have hm : moves (46 :: 46 :: slash :: t) = moves [46, 46] ++ moves t :=
      moves_append [46, 46] t
    exact hd.trans ((LexPath.walk_append base (moves [46, 46]) (moves t)).symm.trans
      (by rw [← hm]; rfl))
  · cases h

theorem prefix_of_prefix_join {p d s : Bytes} (hp : slash ∉ p) :
    p <+: d ++ slash :: s ↔ p <+: d := by
  induction d generalizing p with
  | nil =>
    cases p with
    | nil => simp
    | cons x p =>
      have hx : x ≠ slash := by
        rintro rfl
        exact hp (List.mem_cons_self ..)
      simp [List.cons_prefix_cons, hx]
  | cons y d ih =>
    cases p with
    | nil => simp
    | cons x p =>
      rw [List.cons_append, List.cons_prefix_cons, List.cons_prefix_cons,
        ih fun hmem => hp (List.mem_cons_of_mem _ hmem)]

theorem isPrefixOf_beamjs (d s : Bytes) :
    (bytes "beamjs:").isPrefixOf (d ++ slash :: s) = (bytes "beamjs:").isPrefixOf d := by
  rw [Bool.eq_iff_iff, List.isPrefixOf_iff_prefix, List.isPrefixOf_iff_prefix]
  exact prefix_of_prefix_join (by decide)

/-! ## One module -/

/-- The two sides together: a relative import of `m` is looked up from the directory part of its
name. -/
theorem lookupPath_relative {s : Bytes} (h : isRelative s = true) (name : Bytes) :
    lookupPath files base (moduleNormalize name s) =
      if (bytes "beamjs:").isPrefixOf (dirText name) then none
      else some ((expand files base (dirText name)).walk (moves s)) := by
  rw [moduleNormalize_relative h, dirPrefix]
  split
  · rename_i hd
    rw [List.nil_append, lookupPath, not_beamjs_of_relative h, hd, expand_nil, expand_relative h]
    rfl
  · rename_i hd
    rw [List.append_assoc, List.singleton_append, lookupPath, isPrefixOf_beamjs, expand_join hd]

/-- A relative import is looked up from the file of its module exactly if the module is in place. -/
theorem resolvesFromFile_iff {m : LoadedModule} :
    ResolvesFromFile files base m ↔ InPlace files base m := by
  constructor
  · intro h
    have hrel : isRelative (bytes "./x") = true := by decide
    have hmoves : moves (bytes "./x") = [.stay, .into (bytes "x")] := by decide
    have hx := h (bytes "./x") hrel
    rw [lookupPath_relative hrel, expand_relative hrel, hmoves] at hx
    split at hx
    · cases hx
    · rename_i hno
      have hinto : (expand files base (dirText m.name)).walk [.into (bytes "x")] =
          (fileDir m).walk [.into (bytes "x")] := Option.some.inj hx
      exact ⟨eq_false_of_ne_true hno, LexPath.walk_into_injective hinto⟩
  · rintro ⟨hno, hdir⟩ s hs
    rw [lookupPath_relative hs, hno, if_neg Bool.false_ne_true, hdir, expand_relative hs]

end Paths

/-! ## Modules in place -/

section Place

variable {files : Files} {base : LexPath Segment}

theorem canonical_go {p : LexPath Segment} (hp : Canonical p) (s : Segment) :
    Canonical (p.go (moveOf s)) := by
  unfold moveOf
  by_cases hdot : s = [46]
  · rw [if_pos hdot]
    exact hp
  by_cases hup : s = [46, 46]
  · rw [if_neg hdot, if_pos hup, LexPath.go]
    split
    · rw [if_pos hp.rooted]
      exact hp
    · exact ⟨hp.rooted, hp.ups, fun t ht => hp.names t (List.dropLast_subset _ ht)⟩
  · rw [if_neg hdot, if_neg hup]
    refine ⟨hp.rooted, hp.ups, fun t ht => ?_⟩
    rcases List.mem_append.mp ht with ht | ht
    · exact hp.names t ht
    · rw [List.mem_singleton.mp ht, moveOf, if_neg hdot, if_neg hup]

theorem canonical_walk {p : LexPath Segment} (hp : Canonical p) (segs : List Segment) :
    Canonical (p.walk (segs.map moveOf)) := by
  induction segs generalizing p with
  | nil => exact hp
  | cons s segs ih => exact ih (canonical_go hp s)

theorem canonical_root : Canonical (.root : LexPath Segment) := ⟨rfl, rfl, nofun⟩

theorem canonical_expand (hhome : Canonical files.home) (hbase : Canonical base) (p : Bytes) :
    Canonical (expand files base p) := by
  unfold expand
  split
  · exact canonical_walk canonical_root _
  split
  · exact hbase
  split
  · exact canonical_walk hhome _
  · exact canonical_walk hbase _

/-- The names of an absolute path lead back to it. -/
theorem walk_names {p : LexPath Segment} (hp : Canonical p) :
    LexPath.root.walk (p.names.map moveOf) = p := by
  have hwalk (q : LexPath Segment) (segs : List Segment) (h : ∀ s ∈ segs, moveOf s = .into s) :
      q.walk (segs.map moveOf) = { q with names := q.names ++ segs } := by
    induction segs generalizing q with
    | nil => simp [LexPath.walk]
    | cons s segs ih =>
      obtain ⟨hs, hsegs⟩ := List.forall_mem_cons.mp h
      rw [List.map_cons, hs]
      refine (ih _ hsegs).trans ?_
      simp [LexPath.go]
  rw [hwalk _ _ hp.names]
  exact LexPath.ext hp.rooted.symm hp.ups.symm rfl

theorem dirText_join (d : Bytes) {last : Bytes} (h : slash ∉ last) :
    dirText (d ++ slash :: last) = d := by
  have htake : (last.reverse ++ slash :: d.reverse).dropWhile (· ≠ slash) = slash :: d.reverse := by
    rw [List.dropWhile_append_of_pos]
    · simp
    · intro c hc
      have hne : c ≠ slash := by
        rintro rfl
        exact h (List.mem_reverse.mp hc)
      simpa using hne
  rw [dirText, List.reverse_append, List.reverse_cons, List.append_assoc, List.singleton_append, htake]
  simp

/-- A name that ends in a proper segment behind a directory part leads to that segment of the
directory. -/
theorem expand_last {d last : Bytes} (hd : d ≠ []) (hslash : slash ∉ last) (hne : last ≠ [])
    (hlast : moveOf last = .into last) (base : LexPath Segment) :
    expand files base (d ++ slash :: last) = (expand files base d).walk [.into last] := by
  have hmoves : moves last = [.into last] := by
    rw [moves, segments_of_notMem slash hslash hne, List.map_singleton, hlast]
  rw [expand_join hd, hmoves]

/-- A module is in place if its name ends in a proper segment behind a directory part, and its file
was found with no extension or one that is no `/index`. -/
theorem inPlace_of_candidate (hhome : Canonical files.home) (hbase : Canonical base)
    {d last : Bytes}
    (hd : d ≠ []) (hno : (bytes "beamjs:").isPrefixOf d = false) (hslash : slash ∉ last)
    (hne : last ≠ []) (hlast : moveOf last = .into last) {ext : Bytes}
    (hext : ext.head? ≠ some slash) :
    InPlace files base ⟨d ++ slash :: last,
      withExt (expand files base (d ++ slash :: last)).names ext⟩ := by
  have hdir : (withExt (expand files base (d ++ slash :: last)).names ext).dropLast =
      (expand files base d).names := by
    rw [expand_last hd hslash hne hlast]
    have hnames : ((expand files base d).walk [.into last]).names =
        (expand files base d).names ++ [last] := rfl
    rw [hnames, withExt]
    split
    · simp
    · simp
  rw [InPlace, dirText_join d hslash, fileDir, hdir]
  exact ⟨hno, (walk_names (canonical_expand hhome hbase d)).symm⟩

/-- The entry under a relative file name with a directory part is in place only if this part leads
from `base_dir` back to `base_dir`. -/
theorem inPlace_entry_iff (hhome : Canonical files.home) (hcwd : Canonical files.cwd)
    {d last : Bytes} (hd : d ≠ []) (hno : (bytes "beamjs:").isPrefixOf d = false)
    (hslash : slash ∉ last) (hne : last ≠ []) (hlast : moveOf last = .into last) :
    InPlace files (baseDir files (d ++ slash :: last)) (entryModule files (d ++ slash :: last)) ↔
      expand files (expand files files.cwd d) d = expand files files.cwd d := by
  have hparent : parent (expand files files.cwd (d ++ slash :: last)) = expand files files.cwd d := by
    rw [expand_last hd hslash hne hlast]
    exact LexPath.ext rfl rfl (List.dropLast_concat ..)
  have hspawn : d ++ slash :: last ≠ bytes "<spawn>" ∧ d ++ slash :: last ≠ bytes "<eval>" := by
    have hmem : slash ∈ d ++ slash :: last := List.mem_append_right _ (List.mem_cons_self ..)
    constructor
    · intro h
      rw [h] at hmem
      exact absurd hmem (by decide)
    · intro h
      rw [h] at hmem
      exact absurd hmem (by decide)
  have hfile : fileDir (entryModule files (d ++ slash :: last)) = expand files files.cwd d := by
    have hnames : (entryModule files (d ++ slash :: last)).file.dropLast =
        (expand files files.cwd d).names := congrArg LexPath.names hparent
    rw [fileDir, hnames]
    exact walk_names (canonical_expand hhome hcwd d)
  rw [InPlace, hfile, baseDir, if_pos hspawn, hparent, entryModule, dirText_join d hslash]
  exact and_iff_right hno

end Place

/-! ## Runs of the loader -/

section Runs

variable {files : Files} {filename : Bytes}

/-- The modules of a run are those it started with and those that its steps added. -/
theorem mem_loaded_iff {loaded₀ loaded : List LoadedModule}
    {tr : List (List LoadedModule × (LoadedModule × Bytes))}
    (hrun : (loader files filename).Run loaded₀ tr loaded) (m : LoadedModule) :
    m ∈ loaded ↔ m ∈ loaded₀ ∨
      ∃ e ∈ tr, importOf files (baseDir files filename) e.1 e.2.1 e.2.2 = some m := by
  induction hrun with
  | nil => simp
  | @snoc t u tr a _ hst ih =>
    rw [hst.2, List.mem_append, ih, Option.mem_toList]
    simp only [List.mem_append, List.mem_singleton]
    constructor
    · rintro ((h | ⟨e, he, hm⟩) | h)
      · exact .inl h
      · exact .inr ⟨e, .inl he, hm⟩
      · exact .inr ⟨(t, a), .inr rfl, h⟩
    · rintro (h | ⟨e, he | rfl, hm⟩)
      · exact .inl (.inl h)
      · exact .inl (.inr ⟨e, he, hm⟩)
      · exact .inr hm

/-- In a run of the loader, all relative imports of all modules are looked up from the files of
these modules exactly if the entry and each module that a step loads are in place. -/
theorem imports_resolve_iff {loaded : List LoadedModule}
    {tr : List (List LoadedModule × (LoadedModule × Bytes))}
    (hrun : (loader files filename).Run [entryModule files filename] tr loaded) :
    (∀ m ∈ loaded, ResolvesFromFile files (baseDir files filename) m) ↔
      InPlace files (baseDir files filename) (entryModule files filename) ∧
        ∀ e ∈ tr, ∀ m, importOf files (baseDir files filename) e.1 e.2.1 e.2.2 = some m →
          InPlace files (baseDir files filename) m := by
  constructor
  · intro h
    refine ⟨?_, fun e he m hm => ?_⟩
    · apply resolvesFromFile_iff.mp
      exact h _ ((mem_loaded_iff hrun _).mpr (.inl (List.mem_singleton.mpr rfl)))
    · apply resolvesFromFile_iff.mp
      exact h m ((mem_loaded_iff hrun m).mpr (.inr ⟨e, he, hm⟩))
  · rintro ⟨hentry, hsteps⟩ m hm
    apply resolvesFromFile_iff.mpr
    rcases (mem_loaded_iff hrun m).mp hm with hm | ⟨e, he, hadd⟩
    · rw [List.mem_singleton.mp hm]
      exact hentry
    · exact hsteps e he m hadd

/-- A machine with the files `/app/src/main.js` and `/app/src/util.js`. -/
def appFiles : Files where
  cwd := ⟨true, 0, [bytes "app"]⟩
  home := ⟨true, 0, [bytes "root"]⟩
  exist p := p = [bytes "app", bytes "src", bytes "main.js"] ∨
    p = [bytes "app", bytes "src", bytes "util.js"]
  reads p := p = [bytes "app", bytes "src", bytes "main.js"] ∨
    p = [bytes "app", bytes "src", bytes "util.js"]

/-- The run in which `/app/src/main.js` imports `./util.js`. -/
theorem imports_resolve_absolute :
    (∀ m ∈ [entryModule appFiles (bytes "/app/src/main.js")] ++
        (importOf appFiles (baseDir appFiles (bytes "/app/src/main.js"))
          [entryModule appFiles (bytes "/app/src/main.js")]
          (entryModule appFiles (bytes "/app/src/main.js")) (bytes "./util.js")).toList,
      ResolvesFromFile appFiles (baseDir appFiles (bytes "/app/src/main.js")) m) ↔
    InPlace appFiles (baseDir appFiles (bytes "/app/src/main.js"))
        (entryModule appFiles (bytes "/app/src/main.js")) ∧
      ∀ e ∈ [([entryModule appFiles (bytes "/app/src/main.js")],
          (entryModule appFiles (bytes "/app/src/main.js"), bytes "./util.js"))], ∀ m,
        importOf appFiles (baseDir appFiles (bytes "/app/src/main.js")) e.1 e.2.1 e.2.2 = some m →
          InPlace appFiles (baseDir appFiles (bytes "/app/src/main.js")) m :=
  imports_resolve_iff ((Lts.Run.nil _).snoc ⟨List.mem_singleton.mpr rfl, rfl⟩)

/-- Under the relative name `src/main.js` the same module looks `./util.js` up at
`/app/src/src/util.js`. -/
theorem relative_entry_doubles_directory :
    lookupPath appFiles (baseDir appFiles (bytes "src/main.js"))
        (moduleNormalize (bytes "src/main.js") (bytes "./util.js")) =
      some ⟨true, 0, [bytes "app", bytes "src", bytes "src", bytes "util.js"]⟩ ∧
    ¬ ResolvesFromFile appFiles (baseDir appFiles (bytes "src/main.js"))
      (entryModule appFiles (bytes "src/main.js")) := by
  have hlookup : lookupPath appFiles (baseDir appFiles (bytes "src/main.js"))
        (moduleNormalize (bytes "src/main.js") (bytes "./util.js")) =
      some ⟨true, 0, [bytes "app", bytes "src", bytes "src", bytes "util.js"]⟩ := by
    decide
  refine ⟨hlookup, fun h => ?_⟩
  have hx := h (bytes "./util.js") (by decide)
  have hentry : (entryModule appFiles (bytes "src/main.js")).name = bytes "src/main.js" := rfl
  rw [hentry, hlookup] at hx
  exact absurd hx (by decide)

end Runs

end BeamJS
