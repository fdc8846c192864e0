import Deriver.Build.Incremental
import Deriver.Proofs.Build.Cached
import Deriver.Proofs.Files.Content

/-!
# Keeping generated files up to date

Main statement: `generated_upToDate`. Sources are written and deleted, and batches of
them are rebuilt. However all this is mixed, what becomes of one source and its generated
file is told by `Work.track`, which looks at nothing but the works that name it:
`perform_tracks` for one work, `performAll_tracks` for a history. After a batch that names
it, the generated file is the one due to the source, and stays so until the source changes
or another batch names it.

A source may be named with a detour through a directory that is still to be made, and then
there may come to be a source by that name without its being changed. So all this is said of
names that stand (`FileTree.Stands`), and a change leaves the name of its source standing.
-/

/-!
## What a batch does to its sources

A batch does to each source it names what it would do to that source alone: `tends_sweep`
for the sources that are gone, `tends_runFiles` for those that are expanded. What is done
for one source is nothing elsewhere (`touches_save`), and done twice it is done
(`due_due`), so what is done for several is composed by `Tends.trans`.

The places of sources and generated files have to be distinct: `Kept`.
-/

namespace Deriver

/-! ### Saving -/

open FileName (lead Straight)
open FileTree (Grounded Made Touches Spared)

namespace BuildOptions

section Saving

variable {r : FileResult} {t u : FileTree} {name : Text}

theorem touches_made (p : Place) (ht : Grounded t) (hmade : Made name t u) :
    Touches p t u :=
  ⟨hmade.grows.cwd, hmade.grounded ht,
    fun q _ => (Made.others hmade q).imp_right fun h => ⟨h.1, h.2.1⟩⟩

/-- A file is written into a directory that was made if need be. -/
theorem touches_write {v : FileTree} {content : Text} (ht : Grounded t)
    (hmade : Made (FileName.dir name) t u)
    (hending : FileName.Proper (FileName.last name) ∨ lead t.cwd name <+: t.cwd)
    (hwrite : u.write name content = .ok v) :
    Touches (lead t.cwd name) t v ∧ t.at? (lead t.cwd name) ≠ some .dir := by
  have hcwd := hmade.grows.cwd
  have hu := touches_made (lead t.cwd name) ht hmade
  obtain ⟨-, rfl, hfree⟩ := of_write hwrite
  rw [hcwd] at hfree
  have hparent : u.at? (lead t.cwd name).dropLast = some .dir := by
    rcases hending with hproper | habove
    · rw [FileName.lead_eq_dir t.cwd hproper, List.dropLast_concat]
      exact hmade.dirs _ (FileName.mem_trail.mpr (Or.inr rfl))
    · exact absurd (hu.grounded.above_cwd (hcwd ▸ habove)) hfree
  rw [hcwd]
  refine ⟨⟨hcwd, hu.grounded.put hparent fun h => absurd h hfree, fun q hq => ?_⟩,
    fun hdir => hfree (hmade.grows.at? _ _ hdir)⟩
  rw [FileTree.at?_put hq]
  exact hu.others q hq

theorem touches_deposit (ht : Grounded t)
    (hclean : FileName.clean r.outputPath = r.outputPath) :
    Touches (lead t.cwd r.outputPath) t (deposit r t).2 := by
  unfold deposit
  cases hdirs : t.makeDirs (FileName.dir r.outputPath) with
  | error e => exact .refl _ ht
  | ok u =>
      have hmade := FileTree.made_of_makeDirs hdirs
      dsimp only
      split
      · exact touches_made _ ht hmade
      · next v hwrite =>
          exact (touches_write ht hmade
            (FileName.straight_of_clean t.cwd hclean).ending hwrite).1

theorem touches_remove (ht : Grounded t) (hcwd : lead t.cwd name ≠ t.cwd) :
    Touches (lead t.cwd name) t ((t.remove name).toOption.getD t) := by
  refine ⟨remove_cwd t name, ?_, fun q hq => Or.inl (remove_others hq)⟩
  cases hremove : t.remove name with
  | error e => exact ht
  | ok u => exact ht.remove hcwd hremove

theorem touches_save (o : BuildOptions) (ht : Grounded t)
    (hclean : FileName.clean r.outputPath = r.outputPath)
    (hcwd : lead t.cwd r.outputPath ≠ t.cwd) :
    Touches (lead t.cwd r.outputPath) t (o.save r t).2 := by
  rw [save_eq]
  split
  · exact .refl _ ht
  · split
    · split
      · exact .refl _ ht
      · exact touches_remove ht hcwd
    · split
      · exact .refl _ ht
      · exact touches_deposit ht hclean

end Saving

end BuildOptions

/-! ### Projects -/

/-- Sources that are kept up to date. Their generated files are in places of their own: not
in that of a source, which would be overwritten or removed, and not in that of a directory
that the name of a source goes down to and up again or sets out from, which would be removed
while it is empty. -/
structure Kept (o : BuildOptions) (cwd : Place) (sources : Set Text) : Prop where
  writes : o.dryRun = false
  source : ∀ p ∈ sources, isSource o.suffix p = true
  outputs : ∀ p ∈ sources, ∀ p' ∈ sources, p ≠ p' →
    lead cwd (o.outputPath p) ≠ lead cwd (o.outputPath p')
  apart : ∀ p ∈ sources, ∀ p' ∈ sources, lead cwd (o.outputPath p) ≠ lead cwd p'
  ways : ∀ p ∈ sources, ∀ p' ∈ sources, FileName.Direct (FileName.moves p') ∨
    lead cwd (o.outputPath p) ∉ FileName.way cwd p'
  home : ∀ p ∈ sources, lead cwd (o.outputPath p) ≠ cwd

/-- The place of a generated file is told by the place of its source and the name. -/
theorem BuildOptions.lead_outputPath_congr (o : BuildOptions) {cwd : Place} {p p' : Text}
    (hp : isSource o.suffix p = true) (hp' : isSource o.suffix p' = true)
    (h : lead cwd p = lead cwd p') :
    lead cwd (o.outputPath p) = lead cwd (o.outputPath p') := by
  have hlast := (last_of_isSource hp).1
  have hlast' := (last_of_isSource hp').1
  rw [FileName.lead_eq_dir cwd hlast, FileName.lead_eq_dir cwd hlast'] at h
  obtain ⟨hdir, hname⟩ := List.append_inj' h rfl
  have hstem : stem p = stem p' := by
    refine (stem_eq_iff hp hp').mpr ?_
    rw [FileName.base_eq hlast.1, FileName.base_eq hlast'.1]
    exact List.head_eq_of_cons_eq hname
  have hhome : lead cwd (o.outputHome p) = lead cwd (o.outputHome p') := by
    unfold outputHome
    split
    · exact hdir
    · rfl
  have hbelow (q : Text) : lead cwd (o.outputPath q) =
      (FileName.parts (stem q ++ o.suffix)).foldl FileName.onward
        (lead cwd (o.outputHome q)) := by
    rw [outputPath_eq, FileName.lead_clean, List.append_assoc, lead, List.cons_append,
      FileName.parts_slash, List.foldl_append, FileName.outset,
      FileName.isAbsolute_append (outputHome_ne_nil o q)]
    rfl
  rw [hbelow, hbelow, hhome, hstem]

/-- Sources are in places of their own, since their generated files are. -/
theorem Kept.names {o : BuildOptions} {cwd : Place} {sources : Set Text}
    (h : Kept o cwd sources) {p p' : Text} (hp : p ∈ sources) (hp' : p' ∈ sources)
    (hne : p ≠ p') : lead cwd p ≠ lead cwd p' := fun heq =>
  h.outputs p hp p' hp' hne (o.lead_outputPath_congr (h.source p hp) (h.source p' hp') heq)

/-- No name of a source is cut off by what is done at the place of a generated file. -/
theorem Kept.spared {o : BuildOptions} {sources : Set Text} {t : FileTree}
    (h : Kept o t.cwd sources) {p p' : Text} (hp : p ∈ sources) (hp' : p' ∈ sources) :
    Spared (lead t.cwd (o.outputPath p)) t p' :=
  (h.ways p hp p' hp').imp
    (fun hdirect => ⟨hdirect, Or.inl (BuildOptions.last_of_isSource (h.source p' hp')).1⟩)
      Or.inr

theorem BuildOptions.straight_outputPath (o : BuildOptions) (cwd : Place) (p : Text) :
    Straight cwd (o.outputPath p) := FileName.straight_of_clean cwd (o.clean_outputPath p)

theorem BuildOptions.read?_outputPath (o : BuildOptions) {t u : FileTree}
    {q : Place} {p : Text}
    (ht : Grounded t) (h : Touches q t u) (hne : lead t.cwd (o.outputPath p) ≠ q) :
    u.read? (o.outputPath p) = t.read? (o.outputPath p) :=
  h.read? ht (Or.inl (o.straight_outputPath _ p)) (Or.inl (o.straight_outputPath _ p)) hne

/-- What the generated file of a source should hold, if it holds `old` now: nothing
without a source, what the source expands to if that is anything, and otherwise nothing,
or what it holds if the source has errors. -/
def BuildOptions.due (o : BuildOptions) (path : Text) (source old : Option Text) :
    Option Text :=
  match source with
  | none => none
  | some content =>
      let r := o.expandSource path content
      if r.output.isEmpty then if r.failed then old else none else some r.output

/-- Whether a generated file is kept as it is: its source has errors, and expands to
nothing. -/
def BuildOptions.keeps (o : BuildOptions) (path : Text) (source : Option Text) : Bool :=
  source.any fun content =>
    (o.expandSource path content).output.isEmpty && (o.expandSource path content).failed

/-- Unless it is kept, it makes no difference what a generated file holds. -/
theorem BuildOptions.due_of_not_keeps {o : BuildOptions} {path : Text}
    {source : Option Text} (h : o.keeps path source = false) (old old' : Option Text) :
    o.due path source old = o.due path source old' := by
  cases source with
  | none => rfl
  | some content =>
      dsimp only [due]
      by_cases hempty : (o.expandSource path content).output.isEmpty = true
      · have hfailed : (o.expandSource path content).failed = false := by
          simpa only [keeps, Option.any_some, hempty, Bool.true_and] using h
        rw [if_pos hempty, if_pos hempty, hfailed]
        rfl
      · rw [if_neg hempty, if_neg hempty]

theorem BuildOptions.due_due (o : BuildOptions) (path : Text) (source old : Option Text) :
    o.due path source (o.due path source old) = o.due path source old := by
  cases source with
  | none => rfl
  | some content =>
      dsimp only [due]
      split
      · split <;> rfl
      · rfl

section Tending

variable {o : BuildOptions} {cwd : Place} {sources : Set Text} {t u v : FileTree} {p : Text}
  {ps qs : List Text}

/-- The second tree is the first with the generated files of some sources brought up to
date, as far as sources go whose names stand. -/
structure Tends (o : BuildOptions) (cwd : Place) (sources : Set Text) (ps : List Text)
    (t u : FileTree) : Prop where
  cwd : u.cwd = cwd
  grounded : Grounded u
  stands : ∀ p ∈ sources, t.Stands p → u.Stands p
  source : ∀ p ∈ sources, t.Stands p → u.read? p = t.read? p
  generated : ∀ p ∈ sources, t.Stands p → u.read? (o.outputPath p) =
    if p ∈ ps then o.due p (t.read? p) (t.read? (o.outputPath p))
      else t.read? (o.outputPath p)

theorem Tends.refl (hcwd : t.cwd = cwd) (ht : Grounded t) : Tends o cwd sources [] t t :=
  ⟨hcwd, ht, fun _ _ => id, fun _ _ _ => rfl, fun _ _ _ => rfl⟩

theorem Tends.trans (h : Tends o cwd sources ps t u) (h' : Tends o cwd sources qs u v) :
    Tends o cwd sources (ps ++ qs) t v := by
  refine ⟨h'.cwd, h'.grounded, fun p hp hstands => h'.stands p hp (h.stands p hp hstands),
    fun p hp hstands => (h'.source p hp (h.stands p hp hstands)).trans
      (h.source p hp hstands),
    fun p hp hstands => ?_⟩
  rw [h'.generated p hp (h.stands p hp hstands), h.generated p hp hstands,
    h.source p hp hstands]
  by_cases hps : p ∈ ps
  · by_cases hqs : p ∈ qs
    · rw [if_pos hps, if_pos hqs, if_pos (List.mem_append_left _ hps), o.due_due]
    · rw [if_pos hps, if_neg hqs, if_pos (List.mem_append_left _ hps)]
  · by_cases hqs : p ∈ qs
    · rw [if_neg hps, if_pos hqs, if_pos (List.mem_append_right _ hqs)]
    · rw [if_neg hps, if_neg hqs, if_neg fun h => (List.mem_append.mp h).elim hps hqs]

/-- What changes one generated file only, and that as is due, tends one source. -/
theorem Tends.single (hkept : Kept o cwd sources) (ht : Grounded t) (hcwd : t.cwd = cwd)
    (hp : p ∈ sources) (hu : Touches (lead t.cwd (o.outputPath p)) t u)
    (hown : u.read? (o.outputPath p) = o.due p (t.read? p) (t.read? (o.outputPath p))) :
    Tends o cwd sources [p] t u := by
  subst hcwd
  refine ⟨hu.cwd, hu.grounded, fun p' hp' hstands => ?_, fun p' hp' hstands => ?_,
    fun p' hp' _ => ?_⟩
  · exact hu.stands hstands (hkept.spared hp hp')
  · exact hu.read? ht hstands (hkept.spared hp hp') (hkept.apart p hp p' hp').symm
  · by_cases heq : p' = p
    · rw [heq, if_pos (List.mem_singleton_self p)]
      exact hown
    · rw [if_neg (by simpa using heq)]
      exact o.read?_outputPath ht hu (hkept.outputs p' hp' p hp heq)

theorem tends_remove (hkept : Kept o cwd sources) (ht : Grounded t) (hcwd : t.cwd = cwd)
    (hp : p ∈ sources) (hgone : t.read? p = none) :
    Tends o cwd sources [p] t ((t.remove (o.outputPath p)).toOption.getD t) := by
  refine .single hkept ht hcwd hp
    (BuildOptions.touches_remove ht (hcwd ▸ hkept.home p hp)) ?_
  rw [hgone, FileTree.read?_eq_none.mpr (BuildOptions.read_remove t _)]
  rfl

theorem read?_of_not_has (h : t.has p ≠ true) : t.read? p = none := by
  refine FileTree.read?_eq_none.mpr fun content hread => h ?_
  have hfind := FileTree.find_iff.mpr (FileTree.read_eq_ok_iff.mp hread)
  rw [FileTree.has, hfind]
  rfl

/-- Sweeping tends the sources that are gone; the others are left to be expanded. -/
theorem tends_sweep (hkept : Kept o cwd sources) {paths : List Text}
    (hpaths : ∀ p ∈ paths, p ∈ sources) (ht : Grounded t) (hcwd : t.cwd = cwd) :
    ∃ gone, Tends o cwd sources gone t (o.sweep paths t).files ∧
      ∀ p, p ∈ paths ↔ p ∈ gone ∨ p ∈ (o.sweep paths t).existing := by
  induction paths generalizing t with
  | nil => exact ⟨[], .refl hcwd ht, fun p => by simp [BuildOptions.sweep]⟩
  | cons path rest ih =>
      have hrest : ∀ p ∈ rest, p ∈ sources :=
        fun p hp => hpaths p (List.mem_cons_of_mem path hp)
      unfold BuildOptions.sweep
      by_cases hhas : t.has path = true
      · obtain ⟨gone, htends, hmem⟩ := ih hrest ht hcwd
        rw [if_pos hhas]
        refine ⟨gone, htends, fun p => ?_⟩
        simp only [List.mem_cons, hmem]
        exact or_left_comm
      · have hremove := tends_remove hkept ht hcwd (hpaths path (List.mem_cons_self ..))
          (read?_of_not_has hhas)
        rw [if_neg hhas]
        cases hok : t.remove (o.outputPath path) with
        | error e =>
            rw [hok] at hremove
            obtain ⟨gone, htends, hmem⟩ := ih hrest ht hcwd
            refine ⟨[path] ++ gone, hremove.trans htends, fun p => ?_⟩
            simp only [List.mem_cons, List.singleton_append, hmem, or_assoc]
        | ok u =>
            rw [hok] at hremove
            change Tends o cwd sources [path] t u at hremove
            obtain ⟨gone, htends, hmem⟩ := ih hrest hremove.grounded hremove.cwd
            refine ⟨[path] ++ gone, hremove.trans htends, fun p => ?_⟩
            simp only [List.mem_cons, List.singleton_append, hmem, or_assoc]

end Tending

/-! ### Running -/

/-- Whether the generated file could not be written. -/
def FileResult.blocked (r : FileResult) : Bool := r.diagnostics.any (·.code == "GEN004")

theorem FileResult.blocked_notWritten (r : FileResult) (e : FileError) :
    (r.notWritten e).blocked = true := by
  rw [blocked, notWritten, List.any_append, Bool.or_eq_true]
  exact Or.inr rfl

/-- Whether the files can be read, and what they expand to can be written. -/
def BuildOptions.unhindered (o : BuildOptions) (m : Moment) : List Text → BuildState → Bool
  | [], _ => true
  | path :: rest, s =>
      (s.files.read? path).isSome && !(o.runFile m path s).1.blocked &&
        o.unhindered m rest (o.runFile m path s).2

section Running

variable {o : BuildOptions} {cwd : Place} {sources : Set Text} {t : FileTree} {p : Text}
  {texts : List Text} {s : BuildState}

/-- What shared files and a shared cache are like between works. -/
structure Calm (o : BuildOptions) (cwd : Place) (texts : List Text) (s : BuildState) :
    Prop where
  cwd : s.files.cwd = cwd
  grounded : Grounded s.files
  cache : s.cache.Sound o texts

theorem read?_save (hdry : o.dryRun = false) {r : FileResult} {content : Text}
    (hr : r.plain = (o.expandSource p content).plain)
    (hwritten : (o.save r t).1.blocked = false) :
    (o.save r t).2.read? (o.outputPath p) =
      o.due p (some content) (t.read? (o.outputPath p)) := by
  have houtput := congrArg FileResult.output hr
  have hfailed := congrArg FileResult.failed hr
  change r.output = (o.expandSource p content).output at houtput
  change r.failed = (o.expandSource p content).failed at hfailed
  have hpath : r.outputPath = o.outputPath p :=
    (congrArg FileResult.outputPath hr).trans
      (BuildOptions.outputPath_expandSource o p content)
  have hclean : FileName.clean r.outputPath = r.outputPath :=
    hpath ▸ BuildOptions.clean_outputPath o p
  dsimp only [BuildOptions.due]
  rw [← houtput, ← hfailed, ← hpath]
  by_cases hempty : r.output = []
  · rw [if_pos (by simpa using hempty)]
    by_cases hfail : r.failed = true
    · rw [if_pos hfail, BuildOptions.save_failed hempty hfail]
    · rw [if_neg hfail]
      exact FileTree.read?_eq_none.mpr
        (BuildOptions.read_save_empty hdry hempty (by simpa using hfail))
  · rw [if_neg (by simpa using hempty)]
    refine FileTree.read?_eq_some.mpr
      (BuildOptions.read_save hdry hclean hempty fun e he => ?_)
    rw [he, FileResult.blocked_notWritten] at hwritten
    cases hwritten

theorem tends_runFile (hkept : Kept o cwd sources) (hs : Calm o cwd texts s)
    (htexts : CollisionFree texts) (hp : p ∈ sources)
    (hasked : ∀ x ∈ o.asked p s.files, x ∈ texts)
    {m : Moment} (hread : (s.files.read? p).isSome)
    (hwritten : (o.runFile m p s).1.blocked = false) :
    Tends o cwd sources [p] s.files (o.runFile m p s).2.files ∧
      Calm o cwd texts (o.runFile m p s).2 := by
  obtain ⟨content, hcontent⟩ := Option.isSome_iff_exists.mp hread
  have hfile := FileTree.read?_eq_some.mp hcontent
  have hmem : o.digested p content ∈ texts := by
    refine hasked _ ?_
    rw [BuildOptions.asked, hfile]
    exact List.mem_singleton_self _
  obtain ⟨r, cache, hrun, hr, hcache⟩ :=
    BuildOptions.runFile_remembers hs.cache htexts ⟨rfl, rfl⟩ hfile hmem m
  have hpath : r.outputPath = o.outputPath p :=
    (congrArg FileResult.outputPath hr).trans
      (BuildOptions.outputPath_expandSource o p content)
  have hclean : FileName.clean r.outputPath = r.outputPath :=
    hpath ▸ BuildOptions.clean_outputPath o p
  have hhome : lead s.files.cwd r.outputPath ≠ s.files.cwd := by
    rw [hpath, hs.cwd]
    exact hkept.home p hp
  rw [hrun] at hwritten ⊢
  have htouches := BuildOptions.touches_save o hs.grounded hclean hhome
  refine ⟨.single hkept hs.grounded hs.cwd hp (hpath ▸ htouches) ?_,
    htouches.cwd.trans hs.cwd, htouches.grounded, hcache⟩
  rw [hcontent]
  exact read?_save hkept.writes hr hwritten

theorem tends_runFiles (hkept : Kept o cwd sources) (htexts : CollisionFree texts)
    {m : Moment} {paths : List Text} (hpaths : ∀ p ∈ paths, p ∈ sources)
    (hs : Calm o cwd texts s)
    (hasked : ∀ x ∈ o.askedFiles m paths s.files, x ∈ texts)
    (hrun : o.unhindered m paths s) :
    Tends o cwd sources paths s.files (o.runFiles m paths s).2.files ∧
      Calm o cwd texts (o.runFiles m paths s).2 := by
  induction paths generalizing s with
  | nil => exact ⟨.refl hs.cwd hs.grounded, hs⟩
  | cons p rest ih =>
      rw [BuildOptions.unhindered, Bool.and_eq_true, Bool.and_eq_true,
        Bool.not_eq_true'] at hrun
      obtain ⟨⟨hread, hwritten⟩, hrest⟩ := hrun
      have hhere : ∀ x ∈ o.asked p s.files, x ∈ texts := fun x hx =>
        hasked x (List.mem_append_left _ hx)
      obtain ⟨hown, hcalm⟩ :=
        tends_runFile hkept hs htexts (hpaths p (List.mem_cons_self ..))
        hhere hread hwritten
      -- the files are those after a run that remembers nothing
      have hfiles := (BuildOptions.runFile_uncached hs.cache htexts ⟨rfl, rfl⟩ hhere m).2.1
      obtain ⟨htends, hfinal⟩ := ih (fun q hq => hpaths q (List.mem_cons_of_mem p hq)) hcalm
        (fun x hx => hasked x (List.mem_append_right _ (hfiles ▸ hx))) hrest
      rw [BuildOptions.runFiles_cons]
      exact ⟨hown.trans htends, hfinal⟩

end Running

end Deriver

namespace Deriver

open FileName (lead)
open FileTree (Grounded Touches Spared)

/-! ## Writing sources -/

namespace FileTree

/-- The tree after a file was written whose directories are made if need be. -/
def create (t : FileTree) (path content : Text) : Except FileError FileTree := do
  (← t.makeDirs (FileName.dir path)).write path content

end FileTree

/-- Once a source was written, its name stands, and nothing else has changed. -/
theorem of_create {t u : FileTree} (ht : Grounded t) {path content : Text}
    (hlast : FileName.Proper (FileName.last path)) (h : t.create path content = .ok u) :
    Touches (lead t.cwd path) t u ∧ t.at? (lead t.cwd path) ≠ some .dir ∧ u.Stands path ∧
      u.read? path = some content := by
  unfold FileTree.create at h
  cases hdirs : t.makeDirs (FileName.dir path) with
  | error e =>
      rw [hdirs] at h
      cases h
  | ok w =>
      rw [hdirs, FileTree.ok_bind] at h
      obtain ⟨htouches, hfree⟩ :=
        BuildOptions.touches_write ht (FileTree.made_of_makeDirs hdirs) (Or.inl hlast) h
      obtain ⟨hvalid, hway, -⟩ := FileTree.resolve_iff.mp (BuildOptions.resolve_of_write h)
      obtain ⟨-, rfl, hplace⟩ := BuildOptions.of_write h
      have hroot : lead w.cwd path ≠ [] := fun hnil => hplace (hnil ▸ rfl)
      -- the file is not on the way to itself
      have hstands : ∀ q ∈ FileName.way w.cwd path,
          (w.put (lead w.cwd path) (.file content)).at? q = some .dir := by
        intro q hq
        have hdir := hway q hq
        rw [FileTree.at?_put (fun heq => hplace (by rw [← heq, hdir])), hdir]
      exact ⟨htouches, hfree, Or.inr hstands, FileTree.read?_eq_some.mpr
        (FileTree.read_eq_ok_iff.mpr ⟨hvalid, hstands, FileTree.at?_put_self hroot _⟩)⟩

/-! ## Works -/

/-- What happens to a project: its sources are written and deleted, and a batch of
changes is rebuilt. -/
inductive Work where
  | write (path content : Text)
  | delete (path : Text)
  | rebuild (m : Moment) (batch : List Text)

namespace Work

/-- The state after a work, if no operation fails. -/
def perform (o : BuildOptions) : Work → BuildState → Option BuildState
  | .write path content, s =>
      (s.files.create path content).toOption.map fun t => { s with files := t }
  | .delete path, s =>
      if (s.files.read? path).isSome then
        (s.files.remove path).toOption.map fun t => { s with files := t }
      else none
  | .rebuild m batch, s =>
      let swept := o.sweep (batch.filter o.matchesSource) s.files
      if !m.cancelled && o.unhindered m swept.existing { s with files := swept.files } then
        some (o.rebuild m batch s).2
      else none

/-- The texts that are digested for a work. -/
def asked (o : BuildOptions) : Work → BuildState → List Text
  | .rebuild m batch, s =>
      let swept := o.sweep (batch.filter o.matchesSource) s.files
      o.askedFiles m swept.existing swept.files
  | _, _ => []

/-- What is changed are sources, and so are the sources of a batch. -/
def Within (o : BuildOptions) (sources : Set Text) : Work → Prop
  | .write path _ => path ∈ sources
  | .delete path => path ∈ sources
  | .rebuild _ batch => ∀ p ∈ batch, isSource o.suffix p = true → p ∈ sources

/-- The paths that a work is about. -/
def names : Work → List Text
  | .write path _ => [path]
  | .delete path => [path]
  | .rebuild _ batch => batch

/-- Whether a work changes sources. -/
def isChange : Work → Bool
  | .rebuild .. => false
  | _ => true

/-- Whether a work changes a source. -/
def Changes (p : Text) (w : Work) : Prop := w.isChange = true ∧ p ∈ w.names

/-- What becomes of a source and its generated file with a work, whatever else there is. -/
def track (o : BuildOptions) (p : Text) :
    Work → Option Text × Option Text → Option Text × Option Text
  | .write path content, (source, generated) =>
      (if p = path then some content else source, generated)
  | .delete path, (source, generated) => (if p = path then none else source, generated)
  | .rebuild _ batch, (source, generated) =>
      (source, if p ∈ batch then o.due p source generated else generated)

end Work

section Works

variable {o : BuildOptions} {cwd : Place} {sources : Set Text} {p : Text}
  {texts : List Text}
  {s s' : BuildState} {w : Work}

/-- A source and its generated file as they stand. -/
def BuildOptions.standing (o : BuildOptions) (p : Text) (t : FileTree) :
    Option Text × Option Text :=
  (t.read? p, t.read? (o.outputPath p))

/-- What a work does to a source: its name stands afterwards if it stood before, or if the
work has changed it, and then it has become of it and of its generated file what becomes of
them if there is nothing else. -/
structure Tracks (o : BuildOptions) (p : Text) (w : Work) (t u : FileTree) : Prop where
  stands : t.Stands p ∨ w.Changes p → u.Stands p
  source : t.Stands p ∨ w.Changes p → u.read? p = (w.track o p (o.standing p t)).1
  generated : t.Stands p →
    u.read? (o.outputPath p) = (w.track o p (o.standing p t)).2

theorem tracks_of_change (hkept : Kept o cwd sources) (hs : Calm o cwd texts s)
    {path : Text} (hpath : path ∈ sources) {u : FileTree} {new : Option Text}
    (hnames : w.names = [path])
    (htrack : ∀ p x, w.track o p x = (if p = path then new else x.1, x.2))
    (hu : Touches (lead s.files.cwd path) s.files u)
    (hfree : s.files.at? (lead s.files.cwd path) ≠ some .dir) (hstands : u.Stands path)
    (hown : u.read? path = new) (hp : p ∈ sources) : Tracks o p w s.files u := by
  have hplace := hs.cwd
  subst hplace
  by_cases heq : p = path
  · subst heq
    refine ⟨fun _ => hstands, fun _ => ?_, fun _ => ?_⟩
    · rw [htrack, if_pos rfl, hown]
    · rw [htrack]
      exact o.read?_outputPath hs.grounded hu (hkept.apart p hp p hpath)
  · have hother (h : s.files.Stands p ∨ w.Changes p) : s.files.Stands p :=
      h.resolve_right fun h => heq (List.mem_singleton.mp (hnames ▸ h.2))
    have hspared : Spared (lead s.files.cwd path) s.files p := Or.inr (Or.inl hfree)
    refine ⟨fun h => hu.stands (hother h) hspared, fun h => ?_, fun _ => ?_⟩
    · rw [htrack, if_neg heq]
      exact hu.read? hs.grounded (hother h) hspared (hkept.names hp hpath heq)
    · rw [htrack]
      exact o.read?_outputPath hs.grounded hu (hkept.apart p hp path hpath)

theorem perform_write (hkept : Kept o cwd sources) (hs : Calm o cwd texts s)
    {path content : Text}
    (hpath : path ∈ sources) (hperform : (Work.write path content).perform o s = some s') :
    Calm o cwd texts s' ∧
      ∀ p ∈ sources, Tracks o p (.write path content) s.files s'.files := by
  obtain ⟨u, hu, rfl⟩ := Option.map_eq_some_iff.mp hperform
  obtain ⟨htouches, hfree, hstands, hread⟩ := of_create hs.grounded
    (BuildOptions.last_of_isSource (hkept.source path hpath)).1
      (BuildOptions.toOption_eq_some.mp hu)
  exact ⟨⟨htouches.cwd.trans hs.cwd, htouches.grounded, hs.cache⟩, fun p hp =>
    tracks_of_change hkept hs hpath rfl (fun _ _ => rfl) htouches hfree hstands hread hp⟩

theorem perform_delete (hkept : Kept o cwd sources) (hs : Calm o cwd texts s) {path : Text}
    (hpath : path ∈ sources) (hperform : (Work.delete path).perform o s = some s') :
    Calm o cwd texts s' ∧ ∀ p ∈ sources, Tracks o p (.delete path) s.files s'.files := by
  unfold Work.perform at hperform
  dsimp only at hperform
  split at hperform
  · next hfile =>
      obtain ⟨content, hcontent⟩ := Option.isSome_iff_exists.mp hfile
      obtain ⟨u, hu, rfl⟩ := Option.map_eq_some_iff.mp hperform
      obtain ⟨-, hway, hplace⟩ :=
        FileTree.read_eq_ok_iff.mp (FileTree.read?_eq_some.mp hcontent)
      have hfree : s.files.at? (lead s.files.cwd path) ≠ some .dir := by
        rw [hplace]
        nofun
      have hhome : lead s.files.cwd path ≠ s.files.cwd := fun heq =>
        hfree (by rw [heq, hs.grounded.cwd])
      have hremoved : (s.files.remove path).toOption.getD s.files = u := by rw [hu]; rfl
      have htouches : Touches (lead s.files.cwd path) s.files u :=
        hremoved ▸ BuildOptions.touches_remove hs.grounded hhome
      have hstands := htouches.stands (Or.inr hway) (Or.inr (Or.inl hfree))
      have hgone : u.read? path = none :=
        FileTree.read?_eq_none.mpr (hremoved ▸ BuildOptions.read_remove s.files path)
      exact ⟨⟨htouches.cwd.trans hs.cwd, htouches.grounded, hs.cache⟩, fun p hp =>
        tracks_of_change hkept hs hpath rfl
          (fun _ _ => rfl) htouches hfree hstands hgone hp⟩
  · cases hperform

/-- A rebuild that was not called off sweeps, and then runs what is there. -/
theorem state_rebuild {m : Moment} {batch : List Text} (hcancelled : m.cancelled = false) :
    (o.rebuild m batch s).2 =
    (o.runFiles m (o.sweep (batch.filter o.matchesSource) s.files).existing
      { s with files := (o.sweep (batch.filter o.matchesSource) s.files).files }).2 := by
  unfold BuildOptions.rebuild BuildOptions.run
  rw [hcancelled]
  dsimp only
  cases (o.sweep (batch.filter o.matchesSource) s.files).existing with
  | nil => rfl
  | cons p rest => rfl

theorem perform_rebuild (hkept : Kept o cwd sources) (hs : Calm o cwd texts s)
    (htexts : CollisionFree texts) {m : Moment} {batch : List Text}
    (hasked : ∀ x ∈ (Work.rebuild m batch).asked o s, x ∈ texts)
    (hwithin : (Work.rebuild m batch).Within o sources)
    (hperform : (Work.rebuild m batch).perform o s = some s') :
    Calm o cwd texts s' ∧ ∀ p ∈ sources,
    Tracks o p (.rebuild m batch) s.files s'.files := by
  unfold Work.perform at hperform
  dsimp only at hperform
  split at hperform
  · next hok =>
      rw [Bool.and_eq_true, Bool.not_eq_true'] at hok
      obtain ⟨hcancelled, hrun⟩ := hok
      have hbatch : ∀ p ∈ batch.filter o.matchesSource, p ∈ sources := fun p hp =>
        hwithin p (List.mem_of_mem_filter hp) (List.mem_filter.mp hp).2
      obtain ⟨gone, hsweep, hmem⟩ := tends_sweep hkept hbatch hs.grounded hs.cwd
      obtain ⟨htends, hcalm⟩ := tends_runFiles
        (s := { s with files := (o.sweep (batch.filter o.matchesSource) s.files).files })
        hkept htexts (fun p hp => hbatch p ((hmem p).mpr (Or.inr hp)))
        ⟨hsweep.cwd, hsweep.grounded, hs.cache⟩ hasked hrun
      cases hperform
      rw [state_rebuild hcancelled]
      have hall := hsweep.trans htends
      have hstood {p : Text} (h : s.files.Stands p ∨ (Work.rebuild m batch).Changes p) :
          s.files.Stands p := h.resolve_right fun h => Bool.false_ne_true h.1
      refine ⟨hcalm, fun p hp => ⟨fun h => hall.stands p hp (hstood h),
        fun h => hall.source p hp (hstood h), fun h => (hall.generated p hp h).trans ?_⟩⟩
      have hiff : p ∈ gone ++ (o.sweep (batch.filter o.matchesSource) s.files).existing ↔
          p ∈ batch := by
        rw [List.mem_append, ← hmem, List.mem_filter]
        exact and_iff_left (hkept.source p hp)
      by_cases hp' : p ∈ batch
      · rw [if_pos (hiff.mpr hp')]
        exact (if_pos hp').symm
      · rw [if_neg (mt hiff.mp hp')]
        exact (if_neg hp').symm
  · cases hperform

/-- The step of `performAll_tracks`. -/
theorem perform_tracks (hkept : Kept o cwd sources) (hs : Calm o cwd texts s)
    (htexts : CollisionFree texts) (hasked : ∀ x ∈ w.asked o s, x ∈ texts)
    (hw : w.Within o sources) (hperform : w.perform o s = some s') :
    Calm o cwd texts s' ∧ ∀ p ∈ sources, Tracks o p w s.files s'.files := by
  cases w with
  | write path content => exact perform_write hkept hs hw hperform
  | delete path => exact perform_delete hkept hs hw hperform
  | rebuild m batch => exact perform_rebuild hkept hs htexts hasked hw hperform

/-! ## Histories -/

namespace Work

theorem track_of_not_named (h : p ∉ w.names) (x : Option Text × Option Text) :
    w.track o p x = x := by
  cases w with
  | write path content =>
      exact Prod.ext (if_neg fun heq => h (List.mem_singleton.mpr heq)) rfl
  | delete path => exact Prod.ext (if_neg fun heq => h (List.mem_singleton.mpr heq)) rfl
  | rebuild m batch => exact Prod.ext rfl (if_neg h)

theorem track_source (w : Work) {x y : Option Text × Option Text} (h : x.1 = y.1) :
    (w.track o p x).1 = (w.track o p y).1 := by
  obtain ⟨source, generated⟩ := x
  obtain ⟨source', generated'⟩ := y
  cases h
  cases w <;> rfl

theorem track_rebuild (h : w.isChange = false) (x : Option Text × Option Text) :
    (w.track o p x).1 = x.1 := by
  cases w with
  | rebuild m batch => rfl
  | write path content => cases h
  | delete path => cases h

/-- What is left of a source by a change does not depend on what there was. -/
theorem Changes.track (h : w.Changes p) (x y : Option Text × Option Text) :
    (w.track o p x).1 = (w.track o p y).1 := by
  obtain ⟨hchange, hnames⟩ := h
  cases w with
  | rebuild m batch => cases hchange
  | write path content =>
      have heq : p = path := List.mem_singleton.mp hnames
      exact (if_pos heq).trans (if_pos heq).symm
  | delete path =>
      have heq : p = path := List.mem_singleton.mp hnames
      exact (if_pos heq).trans (if_pos heq).symm

/-- The state after a history of works, if no operation fails. -/
def performAll (o : BuildOptions) : List Work → BuildState → Option BuildState
  | [], s => some s
  | w :: h, s => (w.perform o s).bind (performAll o h)

/-- The texts that are digested in a history of works. -/
def askedAll (o : BuildOptions) : List Work → BuildState → List Text
  | [], _ => []
  | w :: h, s => w.asked o s ++ ((w.perform o s).map (askedAll o h)).getD []

/-- What becomes of a source and its generated file in a history of works. -/
def trackAll (o : BuildOptions) (p : Text) (h : List Work) (x : Option Text × Option Text) :
    Option Text × Option Text :=
  h.foldl (fun x w => w.track o p x) x

/-- A history of works leads from one state to another: it is about the sources that are
kept up to date, and no operation fails. -/
structure Leads (o : BuildOptions) (sources : Set Text) (texts : List Text) (h : List Work)
    (s f : BuildState) : Prop where
  within : ∀ w ∈ h, w.Within o sources
  asked : ∀ x ∈ askedAll o h s, x ∈ texts
  performed : performAll o h s = some f

variable {h h' before after : List Work} {f f' : BuildState}

theorem Leads.uncons (hl : Leads o sources texts (w :: h) s f) :
    ∃ s', w.Within o sources ∧ (∀ x ∈ w.asked o s, x ∈ texts) ∧ w.perform o s = some s' ∧
      Leads o sources texts h s' f := by
  obtain ⟨s', hperform, hrest⟩ := Option.bind_eq_some_iff.mp hl.performed
  refine ⟨s', hl.within w (List.mem_cons_self ..),
    fun x hx => hl.asked x (List.mem_append_left _ hx), hperform,
    fun v hv => hl.within v (List.mem_cons_of_mem _ hv), fun x hx => ?_, hrest⟩
  refine hl.asked x (List.mem_append_right _ ?_)
  rw [hperform]
  exact hx

theorem Leads.split (hl : Leads o sources texts (before ++ after) s f) :
    ∃ s', Leads o sources texts before s s' ∧ Leads o sources texts after s' f := by
  induction before generalizing s with
  | nil => exact ⟨s, ⟨List.forall_mem_nil _, List.forall_mem_nil _, rfl⟩, hl⟩
  | cons w before ih =>
      obtain ⟨s₁, hw, hasked, hperform, hrest⟩ := hl.uncons
      obtain ⟨s', hbefore, hafter⟩ := ih hrest
      refine ⟨s', ⟨List.forall_mem_cons.mpr ⟨hw, hbefore.within⟩, fun x hx => ?_, ?_⟩,
        hafter⟩
      · rw [askedAll, hperform] at hx
        exact (List.mem_append.mp hx).elim (hasked x) (hbefore.asked x)
      · rw [performAll, hperform]
        exact hbefore.performed

/-- The run lemma: a history does to a source whose name stands, and to its generated
file, what it does if there is nothing else. -/
theorem performAll_tracks (hkept : Kept o cwd sources) (hs : Calm o cwd texts s)
    (htexts : CollisionFree texts) (hl : Leads o sources texts h s f) :
    Calm o cwd texts f ∧ ∀ p ∈ sources, s.files.Stands p →
      o.standing p f.files = trackAll o p h (o.standing p s.files) := by
  induction h generalizing s with
  | nil =>
      cases hl.performed
      exact ⟨hs, fun _ _ _ => rfl⟩
  | cons w h ih =>
      obtain ⟨s', hw, hasked, hperform, hrest⟩ := hl.uncons
      obtain ⟨hcalm, hstep⟩ := perform_tracks hkept hs htexts hasked hw hperform
      obtain ⟨hfinal, hall⟩ := ih hcalm hrest
      refine ⟨hfinal, fun p hp hstands => ?_⟩
      have htracks := hstep p hp
      have hnow : o.standing p s'.files = w.track o p (o.standing p s.files) :=
        Prod.ext (htracks.source (Or.inl hstands)) (htracks.generated hstands)
      rw [hall p hp (htracks.stands (Or.inl hstands)), hnow]
      rfl

/-- The run lemma for sources: the name of a source stands once the source was changed, and
what there is by that name is told by the changes. -/
theorem performAll_source (hkept : Kept o cwd sources) (hs : Calm o cwd texts s)
    (htexts : CollisionFree texts) (hl : Leads o sources texts h s f) (hp : p ∈ sources)
    {x : Option Text × Option Text}
    (hx : s.files.Stands p ∧ x.1 = s.files.read? p ∨ ∃ w ∈ h, w.Changes p) :
    f.files.Stands p ∧ f.files.read? p = (trackAll o p (h.filter isChange) x).1 := by
  induction h generalizing s x with
  | nil =>
      cases hl.performed
      obtain ⟨hstands, hsource⟩ := hx.resolve_right (by simp)
      exact ⟨hstands, hsource.symm⟩
  | cons w h ih =>
      obtain ⟨s', hw, hasked, hperform, hrest⟩ := hl.uncons
      obtain ⟨hcalm, hstep⟩ := perform_tracks hkept hs htexts hasked hw hperform
      have hafter : s'.files.Stands p ∧ (w.track o p x).1 = s'.files.read? p ∨
          ∃ v ∈ h, v.Changes p := by
        have hnow (hopen : s.files.Stands p ∨ w.Changes p)
            (hsame : (w.track o p x).1 = (w.track o p (o.standing p s.files)).1) :
            s'.files.Stands p ∧ (w.track o p x).1 = s'.files.read? p :=
          ⟨(hstep p hp).stands hopen, hsame.trans ((hstep p hp).source hopen).symm⟩
        rcases hx with ⟨hstands, hsource⟩ | ⟨v, hv, hchanges⟩
        · exact Or.inl (hnow (Or.inl hstands) (track_source w hsource))
        · rcases List.mem_cons.mp hv with rfl | hv
          · exact Or.inl (hnow (Or.inr hchanges) (hchanges.track _ _))
          · exact Or.inr ⟨v, hv, hchanges⟩
      by_cases hchange : w.isChange = true
      · rw [List.filter_cons_of_pos hchange]
        exact ih hcalm hrest hafter
      · rw [List.filter_cons_of_neg hchange]
        rw [track_rebuild (Bool.eq_false_iff.mpr hchange)] at hafter
        exact ih hcalm hrest hafter

theorem trackAll_of_not_named (hnamed : ∀ w ∈ h, p ∉ w.names)
    (x : Option Text × Option Text) : trackAll o p h x = x := by
  induction h with
  | nil => rfl
  | cons w h ih =>
      rw [trackAll, List.foldl_cons, track_of_not_named (hnamed w (List.mem_cons_self ..))]
      exact ih fun v hv => hnamed v (List.mem_cons_of_mem _ hv)

/-- Whether a work is a batch that names a path. -/
def Rebuilds (p : Text) : Work → Prop
  | .rebuild _ batch => p ∈ batch
  | _ => False

theorem rebuilds_of_named (hw : w.isChange = false) (hp : p ∈ w.names) : w.Rebuilds p := by
  cases w with
  | rebuild m batch => exact hp
  | write path content => cases hw
  | delete path => cases hw

theorem Rebuilds.not_changes (h : w.Rebuilds p) : ¬ w.Changes p := by
  cases w with
  | rebuild m batch => exact fun hchanges => Bool.false_ne_true hchanges.1
  | write path content => cases h
  | delete path => cases h

theorem Rebuilds.track (h : w.Rebuilds p) (x : Option Text × Option Text) :
    w.track o p x = (x.1, o.due p x.1 x.2) := by
  cases w with
  | rebuild m batch => exact Prod.ext rfl (if_pos h)
  | write path content => cases h
  | delete path => cases h

/-- A batch of a history names a path after its last change. -/
def Settled (p : Text) (h : List Work) : Prop :=
  ∃ before w after, h = before ++ w :: after ∧ w.Rebuilds p ∧
    ∀ v ∈ after, v.isChange = true → p ∉ v.names

theorem Settled.exists_last (hsettled : Settled p h) :
    ∃ before w after, h = before ++ w :: after ∧ w.Rebuilds p ∧
    ∀ v ∈ after, p ∉ v.names := by
  obtain ⟨before, w, after, rfl, hw, hafter⟩ := hsettled
  -- from the end of the history, the first batch that names the path
  induction after using List.reverseRecOn with
  | nil => exact ⟨before, w, [], rfl, hw, List.forall_mem_nil _⟩
  | append_singleton after v ih =>
      have hv : v ∈ after ++ [v] := List.mem_append_right _ (List.mem_singleton_self v)
      by_cases hnamed : p ∈ v.names
      · have hchange : v.isChange = false :=
          Bool.eq_false_iff.mpr fun h => hafter v hv h hnamed
        exact ⟨before ++ w :: after, v, [], by simp, rebuilds_of_named hchange hnamed,
          List.forall_mem_nil _⟩
      · obtain ⟨before', w', after', heq, hw', hafter'⟩ :=
          ih fun u hu => hafter u (List.mem_append_left _ hu)
        refine ⟨before', w', after' ++ [v], ?_, hw', fun u hu => ?_⟩
        · calc before ++ w :: (after ++ [v]) = (before ++ w :: after) ++ [v] := by
                rw [List.append_assoc, List.cons_append]
            _ = before' ++ w' :: (after' ++ [v]) := by
              rw [heq, List.append_assoc, List.cons_append]
        · rcases List.mem_append.mp hu with hu | hu
          · exact hafter' u hu
          · rwa [List.mem_singleton.mp hu]

/-- When a batch has named a source after its last change, the generated file is as is
due to the source: it is not there without the source, or if the source expands to nothing
without errors; it is what the source expands to; and if that is nothing because of
errors, it is what it was before the last batch that names the source.

Except for the last case it makes no difference when the changes are rebuilt: any history
with the same changes leaves the same.

This is said of all sources that the history changes, however they are named, and of those
besides whose names stand at the beginning, as straight names always do. -/
theorem generated_upToDate (hkept : Kept o cwd sources) (hs : Calm o cwd texts s)
    (htexts : CollisionFree texts) (hl : Leads o sources texts h s f) (hp : p ∈ sources)
    (hopen : s.files.Stands p ∨ ∃ w ∈ h, w.Changes p) (hsettled : Settled p h) :
    (∃ before w after s₁, h = before ++ w :: after ∧ w.Rebuilds p ∧
      (∀ v ∈ after, p ∉ v.names) ∧ performAll o before s = some s₁ ∧
      f.files.read? (o.outputPath p) =
        o.due p (f.files.read? p) (s₁.files.read? (o.outputPath p))) ∧
      ∀ h' f', Leads o sources texts h' s f' → Settled p h' →
        h'.filter isChange = h.filter isChange →
        f'.files.read? p = f.files.read? p ∧
          (o.keeps p (f.files.read? p) = false →
            f'.files.read? (o.outputPath p) = f.files.read? (o.outputPath p)) := by
  have hlast {h : List Work} {f : BuildState} (hl : Leads o sources texts h s f)
      (hopen : s.files.Stands p ∨ ∃ w ∈ h, w.Changes p) (hsettled : Settled p h) :
      ∃ before w after s₁, h = before ++ w :: after ∧ w.Rebuilds p ∧
        (∀ v ∈ after, p ∉ v.names) ∧ performAll o before s = some s₁ ∧
        f.files.read? (o.outputPath p) =
          o.due p (f.files.read? p) (s₁.files.read? (o.outputPath p)) := by
    obtain ⟨before, w, after, rfl, hw, hafter⟩ := hsettled.exists_last
    obtain ⟨s₁, hbefore, hrest⟩ := hl.split
    have hcalm := (performAll_tracks hkept hs htexts hbefore).1
    -- whatever changed the source did so before the last batch
    have hopened : s.files.Stands p ∨ ∃ v ∈ before, v.Changes p :=
      hopen.imp_right fun ⟨v, hv, hchanges⟩ => by
        rcases List.mem_append.mp hv with hv | hv
        · exact ⟨v, hv, hchanges⟩
        · rcases List.mem_cons.mp hv with rfl | hv
          · exact absurd hchanges hw.not_changes
          · exact absurd hchanges.2 (hafter v hv)
    have hstands : s₁.files.Stands p :=
      (performAll_source hkept hs htexts hbefore hp (x := o.standing p s.files)
        (hopened.imp_left fun h => ⟨h, rfl⟩)).1
    have hstanding : o.standing p f.files = w.track o p (o.standing p s₁.files) :=
      ((performAll_tracks hkept hcalm htexts hrest).2 p hp hstands).trans
        (trackAll_of_not_named hafter _)
    rw [hw.track] at hstanding
    refine ⟨before, w, after, s₁, rfl, hw, hafter, hbefore.performed, ?_⟩
    have hsource : f.files.read? p = s₁.files.read? p := congrArg Prod.fst hstanding
    rw [hsource]
    exact congrArg Prod.snd hstanding
  refine ⟨hlast hl hopen hsettled, fun h' f' hl' hsettled' hchanges => ?_⟩
  have hopen' : s.files.Stands p ∨ ∃ w ∈ h', w.Changes p := by
    refine hopen.imp_right fun ⟨w, hw, hchange, hnames⟩ => ?_
    have hmem : w ∈ h'.filter isChange := hchanges ▸ List.mem_filter.mpr ⟨hw, hchange⟩
    exact ⟨w, (List.mem_filter.mp hmem).1, hchange, hnames⟩
  have hsource {h : List Work} {f : BuildState} (hl : Leads o sources texts h s f)
      (hopen : s.files.Stands p ∨ ∃ w ∈ h, w.Changes p) :
      f.files.read? p = (trackAll o p (h.filter isChange) (o.standing p s.files)).1 :=
    (performAll_source hkept hs htexts hl hp (hopen.imp_left fun h => ⟨h, rfl⟩)).2
  have hsame : f'.files.read? p = f.files.read? p := by
    rw [hsource hl' hopen', hsource hl hopen, hchanges]
  refine ⟨hsame, fun hkeeps => ?_⟩
  obtain ⟨-, -, -, s₁, -, -, -, -, hgenerated⟩ := hlast hl hopen hsettled
  obtain ⟨-, -, -, s₁', -, -, -, -, hgenerated'⟩ := hlast hl' hopen' hsettled'
  rw [hgenerated, hgenerated', hsame]
  exact BuildOptions.due_of_not_keeps hkeeps _ _

end Work

end Works

namespace Work

/-- Nothing but a working directory and a cache in memory. -/
def vacant : BuildState := ⟨FileTree.ofFiles ["p"] [], .memory {}⟩

/-- A source is written, damaged, and then replaced, and rebuilt every time. It is named
with a detour through the directory of another one. -/
def repair : List Work :=
  [.write "d/b.rs" "struct B;", .write "d/../a.rs" "#[derive(Default)] struct A;",
    .rebuild {} ["d/../a.rs"], .write "d/../a.rs" "#[derive(Default)] struct",
    .rebuild {} ["d/../a.rs"], .delete "d/../a.rs",
    .write "d/../a.rs" "#[derive(Default)] struct B;", .rebuild {} ["d/b.rs", "d/../a.rs"]]

/-- The same changes, rebuilt in the end. -/
def belated : List Work := repair.filter isChange ++ [.rebuild {} ["d/../a.rs"]]

/-- The sources of `repair`. -/
def repaired : Set Text := {p | p ∈ (["d/../a.rs", "d/b.rs"] : List Text)}

theorem mem_repaired {p : Text} :
    p ∈ repaired ↔ p ∈ (["d/../a.rs", "d/b.rs"] : List Text) :=
  Iff.rfl

/-- What is digested in both histories. -/
def versions : List Text :=
  askedAll { support := {} } repair vacant ++ askedAll { support := {} } belated vacant

/-- With the same changes the same file is generated, though one history has kept what the
damaged source had generated before. -/
theorem generated_upToDate_repair :
    ∃ f f', performAll { support := {} } repair vacant = some f ∧
      performAll { support := {} } belated vacant = some f' ∧
      Settled "d/../a.rs" repair ∧ Settled "d/../a.rs" belated ∧
      f.files.read? "a.derive.rs" ≠ none ∧
      f'.files.read? "a.derive.rs" = f.files.read? "a.derive.rs" := by
  have hkept : Kept { support := {} } vacant.files.cwd repaired := by
    refine ⟨rfl, ?_, ?_, ?_, ?_, ?_⟩ <;> simp only [mem_repaired] <;> decide +kernel
  have hcalm : Calm { support := {} } vacant.files.cwd versions vacant :=
    ⟨rfl, FileTree.grounded_of_entries (by decide) (by decide),
      .memory (List.forall_mem_nil _)⟩
  have hl : Leads { support := {} } repaired versions repair vacant
      ((performAll { support := {} } repair vacant).get (by decide +kernel)) :=
    ⟨by simp [repair, Within, mem_repaired], fun x hx => List.mem_append_left _ hx,
      (Option.some_get _).symm⟩
  have hl' : Leads { support := {} } repaired versions belated vacant
      ((performAll { support := {} } belated vacant).get (by decide +kernel)) :=
    ⟨fun w hw => (List.mem_append.mp hw).elim
        (fun hw => hl.within w (List.mem_of_mem_filter hw))
        (fun hw => hl.within w (List.mem_singleton.mp hw ▸ by simp [repair])),
      fun x hx => List.mem_append_right _ hx, (Option.some_get _).symm⟩
  have hchanges : ∃ w ∈ repair, w.Changes "d/../a.rs" :=
    ⟨repair[1], by simp [repair], rfl, List.mem_singleton_self _⟩
  have hsettled : Settled "d/../a.rs" repair :=
    ⟨repair.take 7, _, [], rfl, by simp [Rebuilds], List.forall_mem_nil _⟩
  have hsettled' : Settled "d/../a.rs" belated :=
    ⟨repair.filter isChange, _, [], rfl, List.mem_singleton_self _, List.forall_mem_nil _⟩
  obtain ⟨-, hgrouping⟩ := generated_upToDate hkept hcalm (by decide +kernel) hl
    (List.mem_cons_self ..) (Or.inr hchanges) hsettled
  obtain ⟨hsource, hgenerated⟩ := hgrouping belated _ hl' hsettled' rfl
  exact ⟨_, _, hl.performed, hl'.performed, hsettled, hsettled', by decide +kernel,
    hgenerated (by decide +kernel)⟩

end Work

end Deriver
