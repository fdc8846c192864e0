import Mathlib.Data.List.Nodup
import Deriver.Proofs.Build.Saving
import Deriver.Proofs.Text.Basic

/-!
# Which files share an output

Main statement: `outputPath_collisions`. The generated file of a source keeps its
directory, or goes to the one directory for all, and keeps its name without the
extension. So two files share an output if the names agree without their extensions
and, where no directory is given for all, the directories agree too: files of one
directory that are no sources, files of the same name in several directories. Then
each saves over the other. Files whose outputs lead to different places never touch
each other's.
-/

namespace Deriver

namespace FileName

variable {a b m n name : Text}

/-! ## Names with the same clean form -/

theorem clean_slash_eq_iff (ha : a ≠ []) (hb : b ≠ []) (hm : Proper m) (hmclear : 47 ∉ m)
    (hn : Proper n) (hnclear : 47 ∉ n) :
    clean (a ++ 47 :: m) = clean (b ++ 47 :: n) ↔ m = n ∧ clean a = clean b := by
  obtain ⟨hstacka, habsa⟩ := stackOf_slash ha hm hmclear
  obtain ⟨hstackb, habsb⟩ := stackOf_slash hb hn hnclear
  rw [clean_eq_clean_iff, clean_eq_clean_iff, hstacka, habsa, hstackb, habsb,
    List.cons.injEq, and_assoc]

theorem clean_dir (name : Text) : clean (dir name) = dir name := clean_clean _

end FileName

namespace FileTree

variable {t : FileTree} {name suffix path : Text} {args ignored files : List Text}

/-! ## Collected files -/

theorem Grounded.proper_last (ht : Grounded t) {content : Text}
    (h : t.find name = .ok (.file content)) : FileName.Proper (FileName.last name) := by
  obtain ⟨-, hway, hlead⟩ := find_iff.mp h
  obtain ⟨ps, hps⟩ := FileName.parts_last name
  -- the place in front of the last component is a directory
  have hdir : t.at? (ps.foldl FileName.onward (FileName.outset t.cwd name)) =
      some .dir := by
    refine hway _ ?_
    rw [FileName.way, hps, FileName.passes_concat]
    exact List.mem_append_right _ (List.mem_singleton_self _)
  rw [FileName.lead, hps, List.foldl_append] at hlead
  refine ⟨fun hnil => ?_, fun hdot => ?_, fun hdots => ?_⟩
  · rw [hnil] at hlead
    cases hlead.symm.trans hdir
  · rw [hdot] at hlead
    cases hlead.symm.trans hdir
  · rw [hdots] at hlead
    have habove := ht.above_dir (List.dropLast_prefix _) hdir
    cases hlead.symm.trans habove

theorem of_mapM_ok {ε α β : Type} {f : α → Except ε (List β)} {as : List α}
    {found : List (List β)} (h : as.mapM f = .ok found) {b : β} (hb : b ∈ found.flatten) :
    ∃ a ∈ as, ∃ bs, f a = .ok bs ∧ b ∈ bs := by
  induction as generalizing found with
  | nil =>
      cases h
      cases hb
  | cons a as ih =>
      rw [List.mapM_cons] at h
      cases ha : f a with
      | error e => rw [ha] at h; cases h
      | ok bs =>
          rw [ha, ok_bind] at h
          cases has : as.mapM f with
          | error e => rw [has] at h; cases h
          | ok rest =>
              rw [has, ok_bind] at h
              cases h
              rw [List.flatten_cons, List.mem_append] at hb
              rcases hb with hb | hb
              · exact ⟨a, List.mem_cons_self .., bs, ha, hb⟩
              · obtain ⟨a', ha', hbs⟩ := ih has hb
                exact ⟨a', List.mem_cons_of_mem a ha', hbs⟩

theorem of_mem_sourcesBelow {root : Text} (h : path ∈ t.sourcesBelow suffix ignored root) :
    isSource suffix path = true ∧ FileName.clean path = path := by
  unfold sourcesBelow at h
  split at h
  · cases h
  · obtain ⟨⟨place, entry⟩, -, hname⟩ := List.mem_filterMap.mp h
    dsimp only at hname
    split at hname
    · cases hname
    · next hsource =>
        cases hname
        have hsource : isSource suffix (FileName.join (root :: place)) = true := by
          rw [Bool.or_eq_true, not_or] at hsource
          simpa using hsource.2
        refine ⟨hsource, ?_⟩
        unfold FileName.join at hsource ⊢
        split at hsource
        · cases hsource
        · exact FileName.clean_clean _

theorem collect_cases (h : t.collect args suffix ignored = .ok files) :
    files.Nodup ∧ ∀ path ∈ files, ∃ arg ∈ args, ∃ found,
      t.sourcesOf (orDefaultSuffix suffix) ignored arg = .ok found ∧ path ∈ found := by
  unfold collect at h
  cases hfound : args.mapM (t.sourcesOf (orDefaultSuffix suffix) ignored) with
  | error e => rw [hfound] at h; cases h
  | ok found =>
      rw [hfound, ok_bind] at h
      cases h
      have hperm := List.mergeSort_perm (Text.distinct found.flatten) Text.le
      refine ⟨hperm.nodup_iff.mpr (Text.nodup_distinct _), fun path hpath => ?_⟩
      exact of_mapM_ok hfound (Text.mem_distinct.mp (hperm.mem_iff.mp hpath))

/-- A collected file is an argument that leads to a file, or a source below an
argument that leads to a directory. -/
theorem of_mem_sourcesOf {found : List Text} {arg : Text}
    (h : t.sourcesOf suffix ignored arg = .ok found) (hpath : path ∈ found) :
    (∃ content, t.find path = .ok (.file content) ∧ path = arg) ∨
      t.hasDir arg = true ∧ isSource suffix path = true ∧ FileName.clean path = path := by
  unfold sourcesOf stat at h
  cases hfind : t.find arg with
  | error f => rw [hfind] at h; cases h
  | ok e =>
      rw [hfind] at h
      cases e with
      | file content =>
          cases h
          obtain rfl := List.mem_singleton.mp hpath
          exact Or.inl ⟨content, hfind, rfl⟩
      | dir =>
          cases h
          refine Or.inr ⟨?_, of_mem_sourcesBelow hpath⟩
          rw [hasDir, hfind]

end FileTree

namespace BuildOptions

open FileName (last)

variable {o : BuildOptions} {p q : Text}

/-! ## Files with one output -/

theorem outputHome_eq_iff :
    FileName.clean (o.outputHome p) = FileName.clean (o.outputHome q) ↔
    (o.outputDir = [] → FileName.dir p = FileName.dir q) := by
  unfold outputHome
  by_cases hdir : o.outputDir = []
  · rw [if_pos (by simpa using hdir), if_pos (by simpa using hdir), FileName.clean_dir,
      FileName.clean_dir]
    exact ⟨fun h _ => h, fun h => h hdir⟩
  · rw [if_neg (by simpa using hdir), if_neg (by simpa using hdir)]
    exact ⟨fun _ h => absurd h hdir, fun _ => rfl⟩

/-- Two files have one output if their names agree without the extensions, and their
directories if none is given for all. -/
theorem outputPath_eq_iff (ho : Ending o.suffix) (hp : last p ≠ []) (hq : last q ≠ []) :
    o.outputPath p = o.outputPath q ↔
      stem p = stem q ∧ (o.outputDir = [] → FileName.dir p = FileName.dir q) := by
  have hclear {r : Text} (hr : last r ≠ []) : 47 ∉ stem r ++ o.suffix := by
    rw [List.mem_append, not_or, ← last_stem hr]
    exact ⟨(FileName.eq_last _).1, ho.clear⟩
  rw [outputPath_eq, outputPath_eq, List.append_assoc, List.append_assoc]
  refine (FileName.clean_slash_eq_iff (outputHome_ne_nil o p) (outputHome_ne_nil o q)
    (ho.proper _) (hclear hp) (ho.proper _) (hclear hq)).trans ?_
  rw [List.append_left_inj, outputHome_eq_iff]

theorem stem_eq_iff {suffix : Text} (hp : isSource suffix p = true)
    (hq : isSource suffix q = true) :
    stem p = stem q ↔ FileName.base p = FileName.base q := by
  have hextension {r : Text} (hr : isSource suffix r = true) :
      FileName.extension r = sourceExtension := by
    rw [isSource, Bool.and_eq_true, beq_iff_eq] at hr
    exact hr.1
  have hlastp := (last_of_isSource hp).1.1
  have hlastq := (last_of_isSource hq).1.1
  rw [FileName.base_eq hlastp, FileName.base_eq hlastq, ← stem_append hlastp,
    ← stem_append hlastq, hextension hp, hextension hq, List.append_left_inj]

theorem eq_of_dir_base {suffix : Text} (hp : isSource suffix p = true)
    (hq : isSource suffix q = true)
    (hpclean : FileName.clean p = p) (hqclean : FileName.clean q = q)
    (hdir : FileName.dir p = FileName.dir q) (hbase : FileName.base p = FileName.base q) :
    p = q := by
  have hlastp := (last_of_isSource hp).1
  have hlastq := (last_of_isSource hq).1
  rw [FileName.base_eq hlastp.1, FileName.base_eq hlastq.1] at hbase
  rw [← hpclean, ← hqclean, ← FileName.clean_dir_last hlastp,
    ← FileName.clean_dir_last hlastq, hdir, hbase]

section Run

variable {t : FileTree} {place : Place} {r : FileResult}

theorem output_save (o : BuildOptions) (r : FileResult) (t : FileTree) :
    (o.save r t).1.output = r.output := by
  unfold save
  split
  · rfl
  · split
    · split <;> rfl
    · split
      · rfl
      · dsimp only
        split <;> rfl

theorem clean_outputPath (o : BuildOptions) (path : Text) :
    FileName.clean (o.outputPath path) = o.outputPath path := by
  rw [outputPath_eq, FileName.clean_clean]

theorem keeps_elsewhere (o : BuildOptions)
    (hclean : FileName.clean r.outputPath = r.outputPath)
    (hplace : place ≠ FileName.lead t.cwd r.outputPath) :
    FileTree.Keeps place t (o.save r t).2 := by
  intro content hfile
  rcases save_others o hclean hplace with heq | ⟨hnone, -⟩
  · exact heq.trans hfile
  · rw [hfile] at hnone
    cases hnone

theorem runFile_elsewhere (m : Moment) (s : BuildState)
    (hplace : place ≠ FileName.lead s.files.cwd (o.outputPath p)) :
    FileTree.Keeps place s.files (o.runFile m p s).2.files := by
  rcases runFile_cases o m p s with ⟨e, -, h⟩ | ⟨content, r, cache, -, hr, h⟩
  · rw [h]
    exact .refl place s.files
  · rw [h]
    exact keeps_elsewhere o (hr ▸ clean_outputPath o p) (hr ▸ hplace)

/-- A step that does not fail leaves what it generates, or nothing, as the generated
file. -/
theorem read_runFile (hdry : o.dryRun = false) (m : Moment) (s : BuildState)
    (hok : (o.runFile m p s).1.failed = false) :
    ((o.runFile m p s).2.files.read (o.outputPath p)).toOption =
      if (o.runFile m p s).1.output.isEmpty then none
      else some (o.runFile m p s).1.output := by
  rcases runFile_cases o m p s with ⟨e, -, h⟩ | ⟨content, r, cache, -, hr, h⟩
  · rw [h] at hok
    cases hok
  · rw [h] at hok ⊢
    dsimp only at hok ⊢
    have hclean : FileName.clean r.outputPath = r.outputPath := hr ▸ clean_outputPath o p
    have hwritten (e : FileError) : (o.save r s.files).1 ≠ r.notWritten e := by
      intro heq
      rw [heq, failed_notWritten] at hok
      cases hok
    rw [← hr, output_save]
    by_cases hempty : r.output = []
    · rw [if_pos (by simpa using hempty)]
      have hfailed : r.failed = false := by
        rw [Bool.eq_false_iff]
        intro hfailed
        rw [save_failed hempty hfailed, hfailed] at hok
        cases hok
      cases hread : (o.save r s.files).2.read r.outputPath with
      | error e => rfl
      | ok content => exact absurd hread (read_save_empty hdry hempty hfailed content)
    · rw [if_neg (by simpa using hempty), read_save hdry hclean hempty hwritten]
      rfl

end Run

end BuildOptions

/-- Which collected files share an output with an accepted configuration, if the ending
of generated files has no slash, and what becomes of it. Two files have one output if
and only if their names agree without the extensions, and their directories if none is
given for all. Of sources below directories that leaves those of one name in several
directories, if one directory is given for all. Of two files with one output the one
expanded last decides what stands there; of two whose outputs lead to different places
each leaves the other's alone. -/
theorem outputPath_collisions {c : Config} (hc : c.check = .ok c) (hclear : 47 ∉ c.suffix)
    {t : FileTree} (ht : t.Grounded) {args ignored files : List Text}
    (hfiles : t.collect args c.suffix ignored = .ok files) :
    (∀ p ∈ files, ∀ q ∈ files, c.buildOptions.outputPath p = c.buildOptions.outputPath q ↔
        BuildOptions.stem p = BuildOptions.stem q ∧
          (c.outputDir = [] → FileName.dir p = FileName.dir q)) ∧
      ((∀ arg ∈ args, t.hasDir arg = true) →
        ((files.map c.buildOptions.outputPath).Nodup ↔
          c.outputDir = [] ∨ (files.map FileName.base).Nodup)) ∧
      (∀ p ∈ files, ∀ q ∈ files, ∀ m s,
        (c.buildOptions.outputPath p = c.buildOptions.outputPath q →
          (c.buildOptions.runFile m q s).1.failed = false →
          ((c.buildOptions.runFile m q s).2.files.read
          (c.buildOptions.outputPath p)).toOption =
            if (c.buildOptions.runFile m q s).1.output.isEmpty then none
            else some (c.buildOptions.runFile m q s).1.output) ∧
        (FileName.lead s.files.cwd (c.buildOptions.outputPath p) ≠
            FileName.lead s.files.cwd (c.buildOptions.outputPath q) →
          FileTree.Keeps (FileName.lead s.files.cwd (c.buildOptions.outputPath p)) s.files
            (c.buildOptions.runFile m q s).2.files)) := by
  have ho := Config.ending hc hclear
  have hsuffix : orDefaultSuffix c.suffix = c.suffix := by
    refine if_neg fun hempty => ?_
    have := ho.source.length_le
    rw [show c.buildOptions.suffix = [] from List.isEmpty_iff.mp hempty] at this
    revert this
    decide
  obtain ⟨hnodup, hmem⟩ := FileTree.collect_cases hfiles
  rw [hsuffix] at hmem
  refine ⟨fun p hp q hq => ?_, fun hargs => ?_,
    fun p _ q _ m s => ⟨fun heq hok => ?_, fun hne => ?_⟩⟩
  · have hlast {r : Text} (hr : r ∈ files) : FileName.last r ≠ [] := by
      obtain ⟨arg, -, found, hfound, hrfound⟩ := hmem r hr
      rcases FileTree.of_mem_sourcesOf hfound hrfound with ⟨content, hfile, -⟩
        | ⟨-, hsource, -⟩
      · exact (ht.proper_last hfile).1
      · exact (BuildOptions.last_of_isSource hsource).1.1
    exact BuildOptions.outputPath_eq_iff ho (hlast hp) (hlast hq)
  · have hsource {r : Text} (hr : r ∈ files) : isSource c.suffix r = true ∧
        FileName.clean r = r := by
      obtain ⟨arg, harg, found, hfound, hrfound⟩ := hmem r hr
      rcases FileTree.of_mem_sourcesOf hfound hrfound with ⟨content, hfile, rfl⟩
        | ⟨-, hsource⟩
      · have hdir := hargs r harg
        rw [FileTree.hasDir, hfile] at hdir
        cases hdir
      · exact hsource
    have houtput {p q : Text} (hp : p ∈ files) (hq : q ∈ files) :
        c.buildOptions.outputPath p = c.buildOptions.outputPath q ↔
          FileName.base p = FileName.base q ∧
            (c.outputDir = [] → FileName.dir p = FileName.dir q) := by
      have hp := (hsource hp).1
      have hq := (hsource hq).1
      refine (BuildOptions.outputPath_eq_iff ho (BuildOptions.last_of_isSource hp).1.1
        (BuildOptions.last_of_isSource hq).1.1).trans ?_
      rw [BuildOptions.stem_eq_iff hp hq]
      rfl
    rw [List.nodup_map_iff_inj_on hnodup, List.nodup_map_iff_inj_on hnodup]
    constructor
    · intro hinj
      by_cases hdir : c.outputDir = []
      · exact Or.inl hdir
      · exact Or.inr fun p hp q hq hbase =>
          hinj p hp q hq ((houtput hp hq).mpr ⟨hbase, fun h => absurd h hdir⟩)
    · intro h p hp q hq heq
      obtain ⟨hbase, hdirs⟩ := (houtput hp hq).mp heq
      rcases h with hdir | hinj
      · exact BuildOptions.eq_of_dir_base (hsource hp).1 (hsource hq).1 (hsource hp).2
          (hsource hq).2
          (hdirs hdir) hbase
      · exact hinj p hp q hq hbase
  · rw [heq]
    exact BuildOptions.read_runFile rfl m s hok
  · exact BuildOptions.runFile_elsewhere m s hne

/-- One name in two directories. -/
def scattered : FileTree := FileTree.ofFiles ["p"]
  [("a/x.rs", "#[derive(Default)] struct A;"), ("b/x.rs", "#[derive(Default)] struct B;")]

/-- A configuration with one directory for all generated files. -/
def gathering : Config := { Config.usual 1 with outputDir := "out" }

theorem grounded_scattered : scattered.Grounded :=
  FileTree.grounded_of_entries (by decide +kernel) (by decide +kernel)

theorem collect_scattered :
    scattered.collect ["."] gathering.suffix defaultIgnored = .ok ["a/x.rs", "b/x.rs"] := by
  have hwalk : scattered.walk ["p"] =
      ([(["a"], .dir), (["a", "x.rs"], .file "#[derive(Default)] struct A;"), (["b"], .dir),
        (["b", "x.rs"], .file "#[derive(Default)] struct B;")] : List
          (List Text × Entry)) := by
    unfold FileTree.walk
    rw [List.mergeSort_of_pairwise (by decide +kernel)]
    decide +kernel
  have hsources : scattered.sourcesOf defaultSuffix defaultIgnored "." =
      .ok ["a/x.rs", "b/x.rs"] := by
    unfold FileTree.sourcesOf FileTree.sourcesBelow
    rw [show scattered.stat "." = .ok .dir by decide +kernel,
      show scattered.resolve "." = .ok ["p"] by decide +kernel]
    dsimp only
    rw [hwalk]
    decide +kernel
  have hsuffix : orDefaultSuffix gathering.suffix = defaultSuffix := by decide +kernel
  unfold FileTree.collect
  rw [List.mapM_cons, hsuffix, hsources]
  change Except.ok (List.mergeSort _ _) = _
  rw [List.mergeSort_of_pairwise (by decide +kernel)]
  decide +kernel

/-- With one directory for all, what is generated for the first of two sources of one
name is lost to the second. -/
theorem outputPath_collisions_scattered :
    ¬ ((["a/x.rs", "b/x.rs"] : List Text).map gathering.buildOptions.outputPath).Nodup ∧
      ∃ output ≠ [],
      (gathering.buildOptions.runFile {} "a/x.rs" ⟨scattered, .none⟩).1.output ≠ output ∧
        ((gathering.buildOptions.runFile {} "b/x.rs"
          (gathering.buildOptions.runFile {} "a/x.rs" ⟨scattered, .none⟩).2).2.files.read
            (gathering.buildOptions.outputPath "a/x.rs")).toOption = some output := by
  obtain ⟨hpaths, hdirs, hsteps⟩ := outputPath_collisions (c := gathering) rfl (by decide)
    grounded_scattered collect_scattered
  have hsame : gathering.buildOptions.outputPath "a/x.rs" =
      gathering.buildOptions.outputPath "b/x.rs" :=
    (hpaths "a/x.rs" (by decide) "b/x.rs" (by decide)).mpr ⟨by decide, nofun⟩
  have hread := (hsteps "a/x.rs" (by decide) "b/x.rs" (by decide) {}
    (gathering.buildOptions.runFile {} "a/x.rs" ⟨scattered, .none⟩).2).1 hsame
      (by decide +kernel)
  refine ⟨fun hnodup => ?_, _, ?_, ?_, hread.trans (if_neg ?_)⟩
  · have hbase := (hdirs (by decide +kernel)).mp hnodup
    revert hbase
    decide
  · decide +kernel
  · decide +kernel
  · decide +kernel

end Deriver
