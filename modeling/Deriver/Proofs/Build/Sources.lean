import Deriver.Build.Run
import Deriver.Config.Basic
import Deriver.Proofs.Files.Tree

/-!
# What a run does to its sources

Main statement: `run_sources`. A run writes and removes nothing but generated
files, and a name with the ending of generated files is no source; so a run keeps
its sources. That rests on two things nothing checks: the ending has no slash in
it, and the inputs are sources. The usual ending of sources itself passes for an
ending of generated files, and then every input is its own generated file.
-/

namespace Deriver

open FileName (last Proper)

namespace BuildOptions

variable {o : BuildOptions} {path : Text}

/-! ## Where generated files go -/

/-- The directory of the generated file of a source. -/
def outputHome (o : BuildOptions) (path : Text) : Text :=
  if o.outputDir.isEmpty then FileName.dir path else o.outputDir

/-- The name of a source without its extension. -/
def stem (path : Text) : Text := (FileName.base path).dropTail (FileName.extension path)

theorem outputHome_ne_nil (o : BuildOptions) (path : Text) : o.outputHome path ≠ [] := by
  unfold outputHome
  split
  · exact FileName.clean_ne_nil _
  · next h => simpa using h

theorem outputPath_eq (o : BuildOptions) (path : Text) :
    o.outputPath path =
    FileName.clean (o.outputHome path ++ 47 :: stem path ++ o.suffix) := by
  have hne := outputHome_ne_nil o path
  have hdrop : [o.outputHome path, stem path ++ o.suffix].dropWhile (·.isEmpty) =
      [o.outputHome path, stem path ++ o.suffix] :=
    List.dropWhile_cons_of_neg (by simpa using hne)
  change FileName.join [o.outputHome path, stem path ++ o.suffix] = _
  rw [FileName.join, hdrop]
  change FileName.clean (o.outputHome path ++ "/" ++ (stem path ++ o.suffix)) = _
  rw [List.append_assoc, List.append_assoc]
  rfl

/-- The ending of generated files is that of sources, with no slash in it. -/
structure Ending (suffix : Text) : Prop where
  source : sourceExtension <:+ suffix
  clear : 47 ∉ suffix

theorem Ending.proper {suffix : Text} (h : Ending suffix) (t : Text) :
    Proper (t ++ suffix) :=
  FileName.proper_of_suffix (h.source.trans (List.suffix_append t suffix))

theorem last_outputPath (ho : Ending o.suffix) (path : Text) :
    last (o.outputPath path) = last (stem path) ++ o.suffix := by
  have hlast : last (o.outputHome path ++ 47 :: stem path ++ o.suffix) =
      last (stem path) ++ o.suffix := by
    rw [FileName.last_append_clear ho.clear]
    congr 1
    obtain ⟨ps, hps⟩ := FileName.parts_last (stem path)
    have hparts : FileName.parts (o.outputHome path ++ 47 :: stem path) =
        (FileName.parts (o.outputHome path) ++ ps) ++ [last (stem path)] := by
      rw [FileName.parts_slash, hps, List.append_assoc]
    exact FileName.last_of_parts hparts
  rw [outputPath_eq, FileName.last_clean (by rw [hlast]; exact ho.proper _), hlast]

theorem isSource_outputPath (ho : Ending o.suffix) (path : Text) :
    isSource o.suffix (o.outputPath path) = false := by
  have hends : (o.outputPath path).endsWith o.suffix = true := by
    rw [Text.endsWith, List.isSuffixOf_iff_suffix]
    refine List.IsSuffix.trans ?_ (FileName.last_suffix _)
    rw [last_outputPath ho]
    exact List.suffix_append _ _
  rw [isSource, hends]
  simp

/-! ## Sources -/

theorem last_of_isSource {suffix : Text} (h : isSource suffix path = true) :
    Proper (last path) ∧ ¬ suffix <:+ last path := by
  rw [isSource, Bool.and_eq_true, beq_iff_eq, Bool.not_eq_true'] at h
  obtain ⟨hext, hends⟩ := h
  refine ⟨FileName.proper_of_suffix ?_, fun hsuffix => ?_⟩
  · have := FileName.extension_suffix path
    rwa [hext] at this
  · rw [Text.endsWith, Bool.eq_false_iff, ne_eq, List.isSuffixOf_iff_suffix] at hends
    exact hends (hsuffix.trans (FileName.last_suffix path))

/-- The place of a source is not that of a generated file, whatever stands where. -/
theorem resolve_outputPath_ne (ho : Ending o.suffix) {source : Text} {p : Place}
    {t u : FileTree}
    (hsource : isSource o.suffix source = true) (hp : t.resolve source = .ok p)
    (path : Text) : u.resolve (o.outputPath path) ≠ .ok p := by
  intro hout
  obtain ⟨hproper, hends⟩ := last_of_isSource hsource
  have hlast := FileTree.getLast?_resolve hproper hp
  have hout :=
    FileTree.getLast?_resolve (by rw [last_outputPath ho]; exact ho.proper _) hout
  rw [hlast, Option.some.injEq, last_outputPath ho] at hout
  rw [hout] at hends
  exact hends (List.suffix_append _ _)

/-! ## One file -/

section Run

open FileTree (Grows)

variable {p : Place}

theorem keeps_store {r : FileResult} {t u : FileTree}
    (hp : ∀ v : FileTree, v.resolve r.outputPath ≠ .ok p) (h : store r t = .ok u) :
    FileTree.Keeps p t u := by
  unfold store at h
  cases hdirs : t.makeDirs (FileName.dir r.outputPath) with
  | error e => rw [hdirs] at h; cases h
  | ok v =>
      rw [hdirs] at h
      exact (Grows.makeDirs hdirs).keeps.trans (FileTree.Keeps.write (hp v) h)

theorem Keeps.getD {t : FileTree} {r : Except FileError FileTree}
    (h : ∀ u, r = .ok u → FileTree.Keeps p t u) :
    FileTree.Keeps p t (r.toOption.getD t) := by
  cases r with
  | error e => exact .refl p t
  | ok u => exact h u rfl

theorem keeps_save (o : BuildOptions) {r : FileResult} (t : FileTree)
    (hp : ∀ v : FileTree, v.resolve r.outputPath ≠ .ok p) :
    FileTree.Keeps p t (o.save r t).2 := by
  unfold save
  split
  · exact .refl p t
  · split
    · split
      · exact .refl p t
      · exact Keeps.getD fun u hu => FileTree.Keeps.remove (hp t) hu
    · split
      · exact .refl p t
      · extract_lets made
        split
        · next u hu => exact keeps_store hp hu
        · exact Keeps.getD fun u hu => (Grows.makeDirs hu).keeps

theorem outputPath_expandSource (o : BuildOptions) (path content : Text) :
    (o.expandSource path content).outputPath = o.outputPath path := by
  unfold expandSource expandParsed
  dsimp only
  split
  · rfl
  · rfl

/-- A file is not read, or one result is saved for it. -/
theorem runFile_cases (o : BuildOptions) (m : Moment) (path : Text) (s : BuildState) :
    (∃ e, s.files.read path = .error e ∧ o.runFile m path s = (o.unreadable path e, s)) ∨
      ∃ content r cache, s.files.read path = .ok content ∧
      r.outputPath = o.outputPath path ∧
        o.runFile m path s = ((o.save r s.files).1, ⟨(o.save r s.files).2, cache⟩) := by
  unfold runFile
  cases hread : s.files.read path with
  | error e => exact Or.inl ⟨e, rfl, rfl⟩
  | ok content =>
      dsimp only
      generalize s.cache.lookup m (o.cacheKey path content) = found
      obtain ⟨output, cache⟩ := found
      cases output with
      | some output => exact Or.inr ⟨content, _, cache, rfl, rfl, rfl⟩
      | none =>
          exact Or.inr ⟨content, _, _, rfl, outputPath_expandSource o path content, rfl⟩

theorem keeps_runFile (o : BuildOptions) (m : Moment) (path : Text) (s : BuildState)
    (hp : ∀ v : FileTree, v.resolve (o.outputPath path) ≠ .ok p) :
    FileTree.Keeps p s.files (o.runFile m path s).2.files := by
  rcases runFile_cases o m path s with ⟨e, -, h⟩ | ⟨content, r, cache, -, hr, h⟩
  · rw [h]
    exact .refl p s.files
  · rw [h]
    exact keeps_save o s.files (hr ▸ hp)

theorem keeps_runFiles (o : BuildOptions) (m : Moment) (paths : List Text) (s : BuildState)
    (hp : ∀ path ∈ paths, ∀ v : FileTree, v.resolve (o.outputPath path) ≠ .ok p) :
    FileTree.Keeps p s.files (o.runFiles m paths s).2.files := by
  induction paths generalizing s with
  | nil => exact .refl p s.files
  | cons path paths ih =>
      have hhead := keeps_runFile o m path s (hp path (List.mem_cons_self ..))
      have htail :=
        ih (o.runFile m path s).2 fun q hq => hp q (List.mem_cons_of_mem path hq)
      exact hhead.trans htail

theorem keeps_run (o : BuildOptions) (m : Moment) (paths : List Text) (s : BuildState)
    (hp : ∀ path ∈ paths, ∀ v : FileTree, v.resolve (o.outputPath path) ≠ .ok p) :
    FileTree.Keeps p s.files (o.run m paths s).2.files := by
  unfold run
  split
  · exact .refl p s.files
  · exact keeps_runFiles o m paths s hp

end Run

/-! ## An input that is its own generated file -/

theorem stem_append (h : last path ≠ []) :
    stem path ++ FileName.extension path = last path := by
  obtain ⟨s, hs⟩ := FileName.extension_suffix path
  have hends : (last path).endsWith (FileName.extension path) = true := by
    rw [Text.endsWith, List.isSuffixOf_iff_suffix]
    exact ⟨s, hs⟩
  have hstem : stem path = s := by
    rw [stem, FileName.base_eq h, Text.dropTail, Text.dropTail?, hends, ← hs]
    simp
  rw [hstem, hs]

theorem last_stem (h : last path ≠ []) : last (stem path) = stem path := by
  refine FileName.last_clear fun hmem => (FileName.eq_last path).1 ?_
  rw [← stem_append h]
  exact List.mem_append_left _ hmem

/-- A clean path is its own output path if and only if its extension is the ending
of generated files. -/
theorem outputPath_eq_self_iff (ho : Ending o.suffix) (hdir : o.outputDir = [])
    (hclean : FileName.clean path = path) :
    o.outputPath path = path ↔ FileName.extension path = o.suffix := by
  have hhome : o.outputHome path = FileName.dir path := by
    unfold outputHome
    rw [hdir]
    rfl
  constructor
  · intro h
    have hlast := last_outputPath ho path
    rw [h] at hlast
    have hne : last path ≠ [] := by
      rw [hlast]
      exact (ho.proper _).1
    rw [last_stem hne, ← stem_append hne] at hlast
    exact List.append_cancel_left hlast
  · intro h
    have hsuffix : o.suffix <:+ last path := h ▸ FileName.extension_suffix path
    have hproper : Proper (last path) := FileName.proper_of_suffix (ho.source.trans hsuffix)
    rw [outputPath_eq, hhome, List.append_assoc, List.cons_append, ← h,
      stem_append hproper.1, FileName.clean_dir_last hproper, hclean]

section Run

open FileTree (Grows)

variable {p : Place} {content : Text} {t : FileTree} {r : FileResult}

theorem failed_notWritten (r : FileResult) (e : FileError) :
    (r.notWritten e).failed = true := by
  rw [FileResult.failed, FileResult.notWritten, List.any_append]
  exact Bool.or_eq_true_iff.mpr (Or.inr rfl)

theorem at?_store {u : FileTree} (hp : t.resolve r.outputPath = .ok p)
    (hfile : t.at? p = some (.file content)) (h : store r t = .ok u) :
    u.at? p = some (.file r.output) := by
  unfold store at h
  cases hdirs : t.makeDirs (FileName.dir r.outputPath) with
  | error e => rw [hdirs] at h; cases h
  | ok v =>
      have hgrows := Grows.makeDirs hdirs
      rw [hdirs] at h
      have h : v.write r.outputPath r.output = .ok u := h
      rw [FileTree.write_file (hgrows.resolve hp) (hgrows.at? p _ hfile)] at h
      cases h
      exact FileTree.at?_put_self (FileTree.ne_nil_of_file hfile) _

/-- A file that a generated file is saved over is that one afterwards, or is gone. -/
theorem at?_save (hdry : o.dryRun = false) (hp : t.resolve r.outputPath = .ok p)
    (hfile : t.at? p = some (.file content)) (hok : (o.save r t).1.failed = false) :
    (o.save r t).2.at? p =
      if (o.save r t).1.output.isEmpty then none
      else some (.file (o.save r t).1.output) := by
  have hne := FileTree.ne_nil_of_file hfile
  unfold save at hok ⊢
  rw [hdry] at hok ⊢
  rw [if_neg (by decide)] at hok ⊢
  by_cases hempty : r.output.isEmpty = true
  · rw [if_pos hempty] at hok ⊢
    by_cases hfailed : r.failed = true
    · rw [if_pos hfailed, hfailed] at hok
      cases hok
    · rw [if_neg hfailed, FileTree.remove_file hp hfile, if_pos hempty]
      exact FileTree.at?_without_self hne
  · rw [if_neg hempty] at hok ⊢
    split at hok
    · next hsame =>
        rw [if_pos hsame, if_neg hempty]
        rw [(FileTree.read_iff hp).mpr hfile] at hsame
        have hsame : some content = some r.output := beq_iff_eq.mp hsame
        rw [hfile, Option.some.inj hsame]
    · next hdiffers =>
        rw [if_neg hdiffers]
        dsimp only at hok ⊢
        cases hstore : store r t with
        | ok u =>
            dsimp only
            rw [if_neg hempty]
            exact at?_store hp hfile hstore
        | error e =>
            rw [hstore] at hok
            dsimp only at hok
            rw [failed_notWritten] at hok
            cases hok

/-- An input that is its own generated file is one after the run, or is gone. -/
theorem at?_runFile (hdry : o.dryRun = false) (hout : o.outputPath path = path) {m : Moment}
    {s : BuildState} (hp : s.files.resolve path = .ok p)
    (hok : (o.runFile m path s).1.failed = false) :
    (o.runFile m path s).2.files.at? p =
      if (o.runFile m path s).1.output.isEmpty then none
      else some (.file (o.runFile m path s).1.output) := by
  rcases runFile_cases o m path s with ⟨e, -, h⟩ | ⟨content, r, cache, hread, hr, h⟩
  · rw [h] at hok
    cases hok
  · have hfile : s.files.at? p = some (.file content) := (FileTree.read_iff hp).mp hread
    rw [h] at hok ⊢
    exact at?_save hdry (by rw [hr, hout]; exact hp) hfile hok

end Run

end BuildOptions

/-! ## Runs -/

theorem Config.ending {c : Config} (hc : c.check = .ok c) (hclear : 47 ∉ c.suffix) :
    BuildOptions.Ending c.buildOptions.suffix := by
  refine ⟨?_, hclear⟩
  unfold Config.check at hc
  split at hc
  · cases hc
  · next h =>
      rw [Bool.not_eq_true, Bool.not_eq_false', Text.endsWith,
        List.isSuffixOf_iff_suffix] at h
      exact h

/-- What a run with an accepted configuration does to its inputs, if the ending of
generated files has no slash. No generated file is a source, and every file that is
a source keeps its content, whatever the inputs are. But nothing keeps an input
from being its own generated file: a clean path is, next to its source, if its
extension is that ending, and a run that reports no failure leaves generated code
or nothing in its place. -/
theorem run_sources (c : Config) (hc : c.check = .ok c) (hclear : 47 ∉ c.suffix) :
    (∀ path, isSource c.suffix (c.buildOptions.outputPath path) = false) ∧
      (∀ m paths s source place content, isSource c.suffix source = true →
        s.files.resolve source = .ok place → s.files.at? place = some (.file content) →
        (c.buildOptions.run m paths s).2.files.at? place = some (.file content)) ∧
      (c.outputDir = [] → ∀ path, FileName.clean path = path →
        (c.buildOptions.outputPath path = path ↔ FileName.extension path = c.suffix)) ∧
      (c.outputDir = [] → ∀ m path s s' r place, FileName.clean path = path →
        FileName.extension path = c.suffix → s.files.resolve path = .ok place →
        c.buildOptions.run m [path] s = (.ok ⟨[r]⟩, s') → r.failed = false →
        s'.files.at? place = if r.output.isEmpty then none else some (.file r.output)) := by
  have ho := Config.ending hc hclear
  refine ⟨fun path => BuildOptions.isSource_outputPath ho path, ?_, ?_, ?_⟩
  · intro m paths s source place content hsource hplace hfile
    refine BuildOptions.keeps_run c.buildOptions m paths s
      (fun path _ v => ?_) content hfile
    exact BuildOptions.resolve_outputPath_ne ho hsource hplace path
  · intro hdir path hclean
    exact BuildOptions.outputPath_eq_self_iff ho hdir hclean
  · intro hdir m path s s' r place hclean hext hplace hrun hok
    have hout := (BuildOptions.outputPath_eq_self_iff ho hdir hclean).mpr hext
    unfold BuildOptions.run at hrun
    split at hrun
    · cases hrun
    · change (Except.ok (Report.mk [(c.buildOptions.runFile m path s).1]),
        (c.buildOptions.runFile m path s).2) = _ at hrun
      obtain ⟨hr, hs⟩ := Prod.mk.inj hrun
      cases hr
      rw [← hs]
      exact BuildOptions.at?_runFile rfl hout hplace hok

/-- A project of one source without derives. -/
def plainProject : BuildState := ⟨FileTree.ofFiles ["p"] [("a.rs", "struct S;")], .none⟩

/-- A run keeps the source with the usual ending of generated files, and removes it
as an old generated file if that ending is the one of sources. -/
theorem run_sources_plainProject :
    ((Config.usual 1).buildOptions.run {} ["a.rs"] plainProject).2.files.at? ["p", "a.rs"] =
        some (.file "struct S;") ∧
      ({ Config.usual 1 with suffix := ".rs" }.buildOptions.run {}
      ["a.rs"] plainProject).2.files.at?
        ["p", "a.rs"] = none := by
  refine ⟨?_, ?_⟩
  · exact (run_sources (Config.usual 1) rfl (by decide)).2.1 {} ["a.rs"] plainProject "a.rs"
      ["p", "a.rs"] "struct S;" (by decide +kernel) rfl rfl
  · have h := (run_sources { Config.usual 1 with suffix := ".rs" } rfl (by decide)).2.2.2
      rfl {} "a.rs"
      plainProject _ _ ["p", "a.rs"] rfl rfl rfl rfl (by decide +kernel)
    rw [if_pos (by decide +kernel)] at h
    exact h

end Deriver
