import Deriver.Proofs.Build.Cached
import Mathlib.Algebra.BigOperators.Fin
import Mathlib.Data.Set.Insert

/-!
# Workers

Main statement: `perform_schedule`. Every file of a run has a worker of its own, and the
workers take turns in any order, one step at a time: a file is read, looked up, expanded,
remembered, saved and counted. Files that stay out of each other's way come out as they do
one after another, and so do the files that are left and the numbers of the run.

A tree in which some files have been expanded is the tree it was in the beginning, with
what each of them changes when it is expanded alone laid over it: `Merged`. Any other file
reads there what it read in the beginning, and saving what it expands to adds what it
changes alone, whatever was expanded before (`Merged.runFile`). This needs files that stay
out of each other's way (`Apart`): no output may lead to where another file or its output is
found or passes, and no directory that is made for an output may be one that lets another
file be found. Two outputs can make the same directories, which is why what is laid over the
tree agrees where it overlaps.

The invariant says of every worker how far it is along the way that it would go alone
(`Stage.Fits`), of the files that what the workers that have saved change alone is laid
over them (`Merged`), and of the cache that its entries are worth what they stand for.
Two workers with one key may both miss or one may find what the other stored, so which
results come from the cache is left open.
-/

namespace Deriver

/-! ## Files expanded beside each other -/

namespace BuildOptions

open FileName (lead way trail Direct moves mem_trail)
open FileTree (Grounded Follows Near)

section Merging

variable {o o₀ : BuildOptions} {t v : FileTree} {path p : Text}
  {paths : List Text} {q : Place}
  {done : Set Text}

/-- What a file comes to and what it changes if it is the only one, and nothing is
remembered. -/
def alone (o : BuildOptions) (t : FileTree) (path : Text) : FileResult × FileTree :=
  ((o.runFile {} path ⟨t, .none⟩).1, (o.runFile {} path ⟨t, .none⟩).2.files)

theorem alone_unreadable {e : FileError} (h : t.read path = .error e) :
    o.alone t path = (o.unreadable path e, t) := by
  unfold alone runFile
  rw [h]

theorem alone_of_read {content : Text} (h : t.read path = .ok content) :
    o.alone t path = o.save (o.expandSource path content) t := by
  rw [alone, runFile_none o {} h]

/-- A file changes the place of its output, and makes directories on the way there. -/
theorem alone_others (hq : q ≠ lead t.cwd (o.outputPath path)) :
    (o.alone t path).2.at? q = t.at? q ∨ t.at? q = none ∧
    (o.alone t path).2.at? q = some .dir ∧ q ∈ way t.cwd (o.outputPath path) := by
  cases hread : t.read path with
  | error e =>
      rw [alone_unreadable hread]
      exact Or.inl rfl
  | ok content =>
      have hout := outputPath_expandSource o path content
      rw [alone_of_read hread, ← hout]
      exact save_others o (hout ▸ clean_outputPath o path) (hout ▸ hq)

/-- Files that stay out of each other's way. -/
structure Apart (o : BuildOptions) (t : FileTree) (paths : List Text) : Prop where
  nodup : paths.Nodup
  /-- No output leads to another file, or to where its name passes. -/
  input : ∀ p ∈ paths, ∀ p' ∈ paths, p ≠ p' → lead t.cwd (o.outputPath p') ∉ trail t.cwd p
  /-- No output leads to another output, or to where its name passes. -/
  output : ∀ p ∈ paths, ∀ p' ∈ paths, p ≠ p' →
    lead t.cwd (o.outputPath p') ∉ trail t.cwd (o.outputPath p)
  /-- No directory that is made for an output lies where the name of another file passes. -/
  missing : ∀ p ∈ paths, ∀ p' ∈ paths, p ≠ p' → ∀ q ∈ way t.cwd (o.outputPath p'),
    t.at? q = none → q ∉ trail t.cwd p
  /-- No output leads to the working directory. -/
  home : ∀ p ∈ paths, lead t.cwd (o.outputPath p) ≠ t.cwd

/-- The tree with what some files change alone laid over it. -/
structure Merged (o : BuildOptions) (t : FileTree) (done : Set Text) (v : FileTree) :
    Prop where
  cwd : v.cwd = t.cwd
  changed : ∀ p ∈ done, ∀ q, (o.alone t p).2.at? q ≠ t.at? q →
    v.at? q = (o.alone t p).2.at? q
  same : ∀ q, (∀ p ∈ done, (o.alone t p).2.at? q = t.at? q) → v.at? q = t.at? q

theorem Merged.nothing (o : BuildOptions) (t : FileTree) : Merged o t ∅ t :=
  ⟨rfl, fun _ h => absurd h (Set.notMem_empty _), fun _ _ => rfl⟩

theorem Merged.at?_eq {w : FileTree} (h : Merged o t done v)
    (h' : Merged o t done w) (q : Place) : v.at? q = w.at? q := by
  by_cases hsame : ∀ p ∈ done, (o.alone t p).2.at? q = t.at? q
  · rw [h.same q hsame, h'.same q hsame]
  · push Not at hsame
    obtain ⟨p, hp, hne⟩ := hsame
    rw [h.changed p hp q hne, h'.changed p hp q hne]

/-- What stands at a place is what stood there, or it was changed by one of the files:
the place is that of its output, or a directory made on the way there. -/
theorem Merged.cases (h : Merged o t done v) (q : Place) :
    v.at? q = t.at? q ∨ ∃ p ∈ done, q = lead t.cwd (o.outputPath p) ∨
      t.at? q = none ∧ v.at? q = some .dir ∧ q ∈ way t.cwd (o.outputPath p) := by
  by_cases hsame : ∀ p ∈ done, (o.alone t p).2.at? q = t.at? q
  · exact Or.inl (h.same q hsame)
  · push Not at hsame
    obtain ⟨p, hp, hne⟩ := hsame
    refine Or.inr ⟨p, hp, ?_⟩
    by_cases hq : q = lead t.cwd (o.outputPath p)
    · exact Or.inl hq
    · rcases alone_others hq with heq | ⟨hnone, hdir, hway⟩
      · exact absurd heq hne
      · exact Or.inr ⟨hnone, (h.changed p hp q hne).trans hdir, hway⟩

theorem Merged.read_eq (h : Merged o t done v) (ha : Apart o t paths)
    (hdone : done ⊆ {p | p ∈ paths})
    (hp : p ∈ paths) (hnew : p ∉ done) : v.read p = t.read p := by
  refine FileTree.read_congr h.cwd fun q hq => ?_
  rw [h.cwd] at hq
  rcases h.cases q with heq | ⟨p', hp', hchanged⟩
  · exact heq
  · have hne : p ≠ p' := fun heq => hnew (heq ▸ hp')
    rcases hchanged with rfl | ⟨hnone, -, hway⟩
    · exact absurd hq (ha.input p hp p' (hdone hp') hne)
    · exact absurd hq (ha.missing p hp p' (hdone hp') hne q hway hnone)

/-- Nothing is laid over the place of another output or below it, and on the way there
only directories. -/
theorem Merged.near (h : Merged o t done v) (ht : Grounded t) (ha : Apart o t paths)
    (hdone : done ⊆ {p | p ∈ paths}) (hp : p ∈ paths) (hnew : p ∉ done) :
    Near (o.outputPath p) t v := by
  have hne (p' : Text) (hp' : p' ∈ done) : p ≠ p' := fun heq => hnew (heq ▸ hp')
  have hmeet (p' : Text) (hp' : p' ∈ done) :
      lead t.cwd (o.outputPath p) ∉ trail t.cwd (o.outputPath p') :=
    ha.output p' (hdone hp') p hp (hne p' hp').symm
  have hdirect (p' : Text) : Direct (moves (o.outputPath p')) :=
    clean_outputPath o p' ▸ FileName.direct_clean _
  have hlead : v.at? (lead t.cwd (o.outputPath p)) =
      t.at? (lead t.cwd (o.outputPath p)) := by
    rcases h.cases (lead t.cwd (o.outputPath p)) with heq | ⟨p', hp', hq | ⟨-, -, hway⟩⟩
    · exact heq
    · exact absurd (mem_trail.mpr (Or.inr hq)) (hmeet p' hp')
    · exact absurd (mem_trail.mpr (Or.inl hway)) (hmeet p' hp')
  refine ⟨h.cwd, fun q hq => ?_, hlead, fun hdir => ?_⟩
  · rcases h.cases q with heq | ⟨p', hp', rfl | ⟨hnone, hdir, -⟩⟩
    · exact Or.inl heq
    · exact absurd (mem_trail.mpr (Or.inl hq)) (ha.output p hp p' (hdone hp') (hne p' hp'))
    · exact Or.inr ⟨hnone, hdir⟩
  · -- what is below the output and changes is on the way to the working directory, which
    -- is there before and after
    by_cases hhome : lead t.cwd (o.outputPath p) <+: t.cwd
    · have hcwd : v.at? t.cwd = t.at? t.cwd := by
        rcases h.cases t.cwd with heq | ⟨p', hp', hq | ⟨hnone, -, -⟩⟩
        · exact heq
        · exact absurd hq.symm (ha.home p' (hdone hp'))
        · rw [ht.cwd] at hnone
          cases hnone
      have hnonempty (u : FileTree) (hu : u.at? t.cwd = some .dir) :
          (u.below (lead t.cwd (o.outputPath p))).isEmpty = false := by
        rw [Bool.eq_false_iff, Ne, FileTree.isEmpty_below]
        intro hall
        rw [hall t.cwd hhome (ha.home p hp).symm] at hu
        cases hu
      rw [hnonempty t ht.cwd, hnonempty v (hcwd.trans ht.cwd)]
    · rw [Bool.eq_iff_iff, FileTree.isEmpty_below, FileTree.isEmpty_below]
      refine forall_congr' fun q => forall_congr' fun hbelow => forall_congr' fun _ => ?_
      rcases h.cases q with heq | ⟨p', hp', hchanged⟩
      · rw [heq]
      · have htrail : q ∈ trail t.cwd (o.outputPath p') :=
          mem_trail.mpr (hchanged.symm.imp_left fun hmade => hmade.2.2)
        have habove : lead t.cwd (o.outputPath p) <+: lead t.cwd (o.outputPath p') := by
          rcases FileName.prefix_of_mem_trail (hdirect p') htrail with hlead | hcwd
          · exact hbelow.trans hlead
          · exact absurd (hbelow.trans hcwd) hhome
        rcases FileName.mem_trail_of_prefix (hdirect p') habove with hmem | ⟨hcwd, -⟩
        · exact absurd hmem (hmeet p' hp')
        · exact absurd hcwd hhome

theorem Apart.both {p' : Text} (ha : Apart o t paths) (hp : p ∈ paths) (hp' : p' ∈ paths)
    (hne : p ≠ p') (hq : (o.alone t p).2.at? q ≠ t.at? q)
    (hq' : (o.alone t p').2.at? q ≠ t.at? q) :
    (o.alone t p).2.at? q = (o.alone t p').2.at? q := by
  have hplace {a b : Text} (hmem : a ∈ paths) (hmem' : b ∈ paths) (hab : a ≠ b)
      (hb : (o.alone t b).2.at? q ≠ t.at? q) : q ≠ lead t.cwd (o.outputPath a) := by
    rintro rfl
    by_cases heq : lead t.cwd (o.outputPath a) = lead t.cwd (o.outputPath b)
    · exact ha.output b hmem' a hmem hab.symm (mem_trail.mpr (Or.inr heq))
    · rcases alone_others heq with hsame | ⟨-, -, hway⟩
      · exact hb hsame
      · exact ha.output b hmem' a hmem hab.symm (mem_trail.mpr (Or.inl hway))
  have hdir {a b : Text} (hmem : a ∈ paths) (hmem' : b ∈ paths) (hab : a ≠ b)
      (ha' : (o.alone t a).2.at? q ≠ t.at? q) (hb : (o.alone t b).2.at? q ≠ t.at? q) :
      (o.alone t a).2.at? q = some .dir :=
    ((alone_others (hplace hmem hmem' hab hb)).resolve_left ha').2.1
  rw [hdir hp hp' hne hq hq', hdir hp' hp hne.symm hq' hq]

theorem Merged.insert {w : FileTree} (h : Merged o t done v) (ha : Apart o t paths)
    (hdone : done ⊆ {p | p ∈ paths}) (hp : p ∈ paths) (hnew : p ∉ done)
    (hw : Follows t (o.alone t p).2 v w) : Merged o t (insert p done) w := by
  refine ⟨hw.cwd.trans h.cwd, fun p' hp' q hq => ?_, fun q hq => ?_⟩
  · by_cases hown : (o.alone t p).2.at? q = t.at? q
    · have hp' : p' ∈ done := hp'.resolve_left fun heq => hq (heq ▸ hown)
      rw [hw.same q hown, h.changed p' hp' q hq]
    · rw [hw.changed q hown]
      rcases hp' with rfl | hp'
      · rfl
      · exact ha.both hp (hdone hp') (fun heq => hnew (heq ▸ hp')) hown hq
  · rw [hw.same q (hq p (Set.mem_insert p done))]
    exact h.same q fun p' hp' => hq p' (Set.mem_insert_of_mem p hp')

theorem Merged.unreadable {e : FileError} (h : Merged o t done v) (ha : Apart o t paths)
    (hdone : done ⊆ {p | p ∈ paths}) (hp : p ∈ paths) (hnew : p ∉ done)
    (hread : t.read p = .error e) : Merged o t (Insert.insert p done) v :=
  h.insert ha hdone hp hnew (by rw [alone_unreadable hread]; exact .refl t v)

theorem Merged.save {r : FileResult} {content : Text} (h : Merged o t done v)
    (ht : Grounded t)
    (ha : Apart o t paths) (hdone : done ⊆ {p | p ∈ paths}) (hp : p ∈ paths)
    (hnew : p ∉ done)
    (hread : t.read p = .ok content) (hr : r.plain = (o.expandSource p content).plain) :
    (o.save r v).1.plain = (o.alone t p).1.plain ∧
      Merged o t (Insert.insert p done) (o.save r v).2 := by
  have hout := outputPath_expandSource o p content
  obtain ⟨hresult, hfollows⟩ := save_follows (r := o.expandSource p content) o ht
    (hout ▸ clean_outputPath o p) (hout ▸ h.near ht ha hdone hp hnew)
  obtain ⟨hplain, htree⟩ := save_congr o hr v
  rw [hplain, htree, hresult, alone_of_read hread]
  exact ⟨rfl, h.insert ha hdone hp hnew (by rw [alone_of_read hread]; exact hfollows)⟩

end Merging

end BuildOptions

/-! ## The steps of a worker -/

/-- How far a worker has come with its file. -/
inductive Stage where
  | waiting
  | opened (content : Text)
  | missed (content : Text)
  | expanded (content : Text) (r : FileResult)
  | settled (r : FileResult)
  | saved (r : FileResult)
  | counted (r : FileResult)

namespace Stage

/-- The next step of a worker with its file. -/
def next (o : BuildOptions) (m : Moment) (path : Text) :
    Stage → BuildState → Stage × BuildState
  | .waiting, s =>
      match s.files.read path with
      | .error e => (.saved (o.unreadable path e), s)
      | .ok content => (.opened content, s)
  | .opened content, s =>
      match s.cache.lookup m (o.cacheKey path content) with
      | (some output, cache) =>
          (.settled { path := path, outputPath := o.outputPath path, output := output,
                      cached := true },
            { s with cache := cache })
      | (none, cache) => (.missed content, { s with cache := cache })
  | .missed content, s => (.expanded content (o.expandSource path content), s)
  | .expanded content r, s =>
      (.settled r,
        if BuildOptions.isClean r then
          { s with cache := s.cache.store m (o.cacheKey path content) r.output }
        else s)
  | .settled r, s => (.saved (o.save r s.files).1, { s with files := (o.save r s.files).2 })
  | .saved r, s => (.counted r, s)
  | .counted r, s => (.counted r, s)

/-- The result of a worker that has finished. -/
def result? : Stage → Option FileResult
  | .counted r => some r
  | _ => none

/-- Whether the generated file is as the worker leaves it. -/
def hasSaved : Stage → Bool
  | .saved _ => true
  | .counted _ => true
  | _ => false

/-- How many steps are left at most. -/
def left : Stage → Nat
  | .waiting => 6
  | .opened _ => 5
  | .missed _ => 4
  | .expanded .. => 3
  | .settled _ => 2
  | .saved _ => 1
  | .counted _ => 0

theorem next_runFile (o : BuildOptions) (m : Moment) (path : Text) (s : BuildState) :
    (fun w : Stage × BuildState => w.1.next o m path w.2)^[6] (.waiting, s) =
      (.counted (o.runFile m path s).1, (o.runFile m path s).2) := by
  simp only [Function.iterate_succ, Function.iterate_zero, Function.comp_apply, id]
  unfold BuildOptions.runFile
  cases hread : s.files.read path with
  | error e => simp only [next, hread]
  | ok content =>
      generalize hfound : s.cache.lookup m (o.cacheKey path content) = found
      obtain ⟨output, cache⟩ := found
      cases output with
      | some output => simp only [next, hread, hfound]
      | none =>
          simp only [next, hread, hfound]
          split <;> rfl

theorem left_next (o : BuildOptions) (m : Moment) (path : Text) (stage : Stage)
    (s : BuildState) : (stage.next o m path s).1.left ≤ stage.left - 1 := by
  cases stage with
  | waiting =>
      unfold next
      dsimp only
      split <;> simp only [left] <;> omega
  | opened content =>
      unfold next
      dsimp only
      split <;> simp only [left] <;> omega
  | missed content => exact Nat.le_refl _
  | expanded content r => exact Nat.le_refl _
  | settled r => exact Nat.le_refl _
  | saved r => exact Nat.le_refl _
  | counted r => exact Nat.le_refl _

end Stage

/-- The numbers of a run with one more result. -/
def Metrics.count (c : Metrics) (r : FileResult) : Metrics :=
  { c with
    hits := c.hits + if r.cached then 1 else 0
    misses := c.misses + if r.cached then 0 else 1
    expanded := c.expanded + if r.cached then 0 else 1
    written := c.written + if r.written then 1 else 0
    failed := c.failed + if r.failed then 1 else 0
    decls := c.decls + r.decls.length }

/-- The workers of a run and what they share. -/
structure Pool (n : Nat) where
  stages : Fin n → Stage
  state : BuildState
  metrics : Metrics

namespace Pool

/-- All workers before their first step. -/
def start (n : Nat) (s : BuildState) : Pool n :=
  ⟨fun _ => .waiting, s,
    { total := n, hits := 0, misses := 0, expanded := 0, written := 0,
      failed := 0, decls := 0 }⟩

/-- The results so far, in the order of the files. -/
def files {n : Nat} (w : Pool n) : List (Option FileResult) :=
  List.ofFn fun i => (w.stages i).result?

/-- Whether all workers have finished. -/
def Over {n : Nat} (w : Pool n) : Prop := ∀ i, (w.stages i).result?.isSome

variable (o : BuildOptions) (paths : List Text)

/-- One step of one worker. -/
def turn (w : Pool paths.length) (i : Fin paths.length) (now : Int) : Pool paths.length :=
  let (stage, state) := (w.stages i).next o { now := now } paths[i] w.state
  { stages := Function.update w.stages i stage
    state := state
    metrics := match w.stages i with
      | .saved r => w.metrics.count r
      | _ => w.metrics }

/-- The workers take turns; a schedule says whose turn it is, and when. -/
def perform (w : Pool paths.length) (schedule : List (Fin paths.length × Int)) :
    Pool paths.length :=
  schedule.foldl (fun w (i, now) => w.turn o paths i now) w

/-! ## Every worker comes to its end -/

variable {o paths} {w : Pool paths.length} {i : Fin paths.length}

theorem left_turn (j : Fin paths.length) (now : Int) :
    ((w.turn o paths j now).stages i).left ≤
    (w.stages i).left - if j = i then 1 else 0 := by
  by_cases h : j = i
  · subst h
    rw [if_pos rfl, turn]
    dsimp only
    rw [Function.update_self]
    exact Stage.left_next ..
  · rw [if_neg h, turn]
    dsimp only
    rw [Function.update_of_ne (Ne.symm h)]
    exact Nat.le_refl _

theorem left_perform (schedule : List (Fin paths.length × Int)) :
    ((w.perform o paths schedule).stages i).left ≤
      (w.stages i).left - schedule.countP (·.1 = i) := by
  induction schedule generalizing w with
  | nil => exact Nat.le_refl _
  | cons e schedule ih =>
      have hstep := left_turn (o := o) (w := w) (i := i) e.1 e.2
      have hrest := ih (w := w.turn o paths e.1 e.2)
      rw [List.countP_cons]
      simp only [decide_eq_true_eq]
      exact hrest.trans (by omega)

theorem over_of_turns {s : BuildState} {schedule : List (Fin paths.length × Int)}
    (h : ∀ i, 6 ≤ schedule.countP (·.1 = i)) :
    ((start paths.length s).perform o paths schedule).Over := by
  intro i
  have hleft := left_perform (o := o) (w := start paths.length s) (i := i) schedule
  have hzero : (((start paths.length s).perform o paths schedule).stages i).left = 0 :=
    Nat.eq_zero_of_le_zero (hleft.trans (Nat.sub_eq_zero_of_le (h i)).le)
  revert hzero
  cases ((start paths.length s).perform o paths schedule).stages i <;> intro hzero <;>
    first | rfl | cases hzero

end Pool

/-! ## What a worker has on its way -/

/-- What a worker has is what it has at this point on its way alone. -/
def Stage.Fits (o : BuildOptions) (t : FileTree) (path : Text) : Stage → Prop
  | .waiting => True
  | .opened content => t.read path = .ok content
  | .missed content => t.read path = .ok content
  | .expanded content r => t.read path = .ok content ∧ r = o.expandSource path content
  | .settled r => ∃ content, t.read path = .ok content ∧
      r.plain = (o.expandSource path content).plain
  | .saved r => r.plain = (o.alone t path).1.plain
  | .counted r => r.plain = (o.alone t path).1.plain

section Steps

open BuildOptions (Merged)
open FileTree (Grounded)

variable {o : BuildOptions} {t : FileTree} {path : Text} {paths texts : List Text}
  {done : Set Text} {s : BuildState}

/-- What the workers share while `done` are the files that are saved. -/
structure BuildState.Fits (o : BuildOptions) (t : FileTree) (texts : List Text)
    (done : Set Text) (s : BuildState) : Prop where
  files : Merged o t done s.files
  cache : s.cache.Sound o texts

/-- A step keeps a worker on its way, and lays what its file changes over the files when
it is saved. -/
theorem Stage.fits_next (ht : Grounded t) (ha : o.Apart t paths)
    (htexts : CollisionFree texts)
    (hasked : ∀ p ∈ paths, ∀ x ∈ o.asked p t, x ∈ texts) (hdone : done ⊆ {p | p ∈ paths})
    (hpath : path ∈ paths) {stage stage' : Stage} (hnew : path ∈ done ↔ stage.hasSaved)
    (hs : s.Fits o t texts done) (hstage : stage.Fits o t path) {m : Moment}
    {s' : BuildState}
    (hnext : stage.next o m path s = (stage', s')) : stage'.Fits o t path ∧
      s'.Fits o t texts (if stage'.hasSaved then insert path done else done) := by
  have hkey {content : Text} (hread : t.read path = .ok content) :
      0 ∉ FileName.base path ∧ o.digested path content ∈ texts := by
    refine ⟨not_mem_base (FileTree.read_eq_ok_iff.mp hread).1.2, hasked path hpath _ ?_⟩
    rw [BuildOptions.asked, hread]
    exact List.mem_singleton_self _
  unfold next at hnext
  cases stage with
  | waiting =>
      have hpending : path ∉ done := fun h => Bool.false_ne_true (hnew.mp h)
      dsimp only at hnext
      rw [hs.files.read_eq ha hdone hpath hpending] at hnext
      cases hfile : t.read path with
      | error e =>
          rw [hfile] at hnext
          cases hnext
          refine ⟨?_, hs.files.unreadable ha hdone hpath hpending hfile, hs.cache⟩
          rw [Fits, BuildOptions.alone_unreadable hfile]
      | ok content =>
          rw [hfile] at hnext
          cases hnext
          exact ⟨hfile, hs⟩
  | opened content =>
      obtain ⟨hbase, hmem⟩ := hkey hstage
      have hlookup := hs.cache.lookup m (o.cacheKey path content)
      dsimp only at hnext
      generalize hfound : s.cache.lookup m (o.cacheKey path content) =
        found at hlookup hnext
      obtain ⟨output, cache⟩ := found
      cases output with
      | some output =>
          cases hnext
          obtain ⟨houtput, hsilent⟩ :=
            hs.cache.output_eq htexts ⟨rfl, rfl⟩ hbase hmem hfound
          refine ⟨⟨content, hstage, ?_⟩, hs.files, hlookup⟩
          rw [FileResult.plain, FileResult.plain, houtput, hsilent,
            BuildOptions.outputPath_expandSource, BuildOptions.path_expandSource,
            BuildOptions.written_expandSource]
      | none =>
          cases hnext
          exact ⟨hstage, hs.files, hlookup⟩
  | missed content =>
      cases hnext
      exact ⟨⟨hstage, rfl⟩, hs⟩
  | expanded content r =>
      obtain ⟨hread, rfl⟩ := hstage
      obtain ⟨hbase, hmem⟩ := hkey hread
      cases hnext
      refine ⟨⟨content, hread, rfl⟩, ?_⟩
      by_cases hclean : BuildOptions.isClean (o.expandSource path content) = true
      · rw [if_pos hclean]
        exact ⟨hs.files,
          hs.cache.store m hbase hmem (BuildOptions.isClean_expandSource.mp hclean)⟩
      · rw [if_neg hclean]
        exact hs
  | settled r =>
      obtain ⟨content, hread, hr⟩ := hstage
      have hpending : path ∉ done := fun h => Bool.false_ne_true (hnew.mp h)
      obtain ⟨hresult, hfiles⟩ := hs.files.save ht ha hdone hpath hpending hread hr
      cases hnext
      exact ⟨hresult, hfiles, hs.cache⟩
  | saved r =>
      have hold : insert path done = done := Set.insert_eq_of_mem (hnew.mpr rfl)
      cases hnext
      exact ⟨hstage, by rw [hold, ite_self]; exact hs⟩
  | counted r =>
      have hold : insert path done = done := Set.insert_eq_of_mem (hnew.mpr rfl)
      cases hnext
      exact ⟨hstage, by rw [hold, ite_self]; exact hs⟩

theorem BuildState.Fits.runFile (hs : s.Fits o t texts done) (ht : Grounded t)
    (ha : o.Apart t paths) (htexts : CollisionFree texts)
    (hasked : ∀ p ∈ paths, ∀ x ∈ o.asked p t, x ∈ texts) (hdone : done ⊆ {p | p ∈ paths})
    (hpath : path ∈ paths) (hnew : path ∉ done) (m : Moment) :
    (o.runFile m path s).1.plain = (o.alone t path).1.plain ∧
      (o.runFile m path s).2.Fits o t texts (insert path done) := by
  have hread := hs.files.read_eq ha hdone hpath hnew
  cases hfile : t.read path with
  | error e =>
      unfold BuildOptions.runFile
      rw [hread, hfile]
      refine ⟨?_, hs.files.unreadable ha hdone hpath hnew hfile, hs.cache⟩
      rw [BuildOptions.alone_unreadable hfile]
  | ok content =>
      have hmem : o.digested path content ∈ texts := by
        refine hasked path hpath _ ?_
        rw [BuildOptions.asked, hfile]
        exact List.mem_singleton_self _
      obtain ⟨r, cache, hrun, hr, hcache⟩ := BuildOptions.runFile_remembers hs.cache htexts
        ⟨rfl, rfl⟩ (hread.trans hfile) hmem m
      obtain ⟨hresult, hfiles⟩ := hs.files.save ht ha hdone hpath hnew hfile hr
      rw [hrun]
      exact ⟨hresult, hfiles, hcache⟩

theorem BuildState.Fits.runFiles (ht : Grounded t) (ha : o.Apart t paths)
    (htexts : CollisionFree texts) (hasked : ∀ p ∈ paths, ∀ x ∈ o.asked p t, x ∈ texts)
    (m : Moment) {rest : List Text} (hrest : ∀ p ∈ rest, p ∈ paths) (hnodup : rest.Nodup)
    (hdone : done ⊆ {p | p ∈ paths}) (hnew : ∀ p ∈ rest, p ∉ done)
    (hs : s.Fits o t texts done) :
    (o.runFiles m rest s).1.map FileResult.plain =
    rest.map (fun p => (o.alone t p).1.plain) ∧
      (o.runFiles m rest s).2.Fits o t texts (done ∪ {p | p ∈ rest}) := by
  induction rest generalizing s done with
  | nil =>
      refine ⟨rfl, ?_⟩
      have hnone : done ∪ {p | p ∈ ([] : List Text)} = done := by simp
      rw [hnone]
      exact hs
  | cons p rest ih =>
      have hp := hrest p (List.mem_cons_self ..)
      obtain ⟨hresult, hstate⟩ := hs.runFile ht ha htexts hasked hdone hp
        (hnew p (List.mem_cons_self ..)) m
      obtain ⟨hpnew, hnodup⟩ := List.nodup_cons.mp hnodup
      obtain ⟨hresults, hfinal⟩ :=
        ih (fun q hq => hrest q (List.mem_cons_of_mem p hq)) hnodup
        (Set.insert_subset hp hdone)
        (fun q hq => fun hmem => hmem.elim (fun heq => hpnew (heq ▸ hq))
          (hnew q (List.mem_cons_of_mem p hq))) hstate
      have hunion : insert p done ∪ {q | q ∈ rest} = done ∪ {q | q ∈ p :: rest} := by
        ext q
        simp only [Set.mem_union, Set.mem_insert_iff, Set.mem_ofPred_eq, List.mem_cons]
        tauto
      rw [BuildOptions.runFiles_cons, List.map_cons, List.map_cons, hresult,
        hresults, ← hunion]
      exact ⟨rfl, hfinal⟩

end Steps

/-! ## What they all have together -/

namespace Pool

open BuildOptions (Merged)
open FileTree (Grounded)

section Turns

variable {o : BuildOptions} {t : FileTree} {paths texts : List Text}
  {w : Pool paths.length} {i : Fin paths.length}

/-- The files that are saved. -/
def done (paths : List Text) (w : Pool paths.length) : Set Text :=
  {p | ∃ i : Fin paths.length, paths[i] = p ∧ (w.stages i).hasSaved}

theorem done_subset : w.done paths ⊆ {p | p ∈ paths} := by
  rintro p ⟨i, rfl, -⟩
  exact List.getElem_mem i.isLt

theorem mem_done_iff (hnodup : paths.Nodup) :
    paths[i] ∈ w.done paths ↔ (w.stages i).hasSaved := by
  refine ⟨fun ⟨j, hj, hsaved⟩ => ?_, fun h => ⟨i, rfl, h⟩⟩
  have hij : j = i := Fin.ext ((hnodup.getElem_inj_iff).mp hj)
  exact hij ▸ hsaved

theorem hasSaved_next (o : BuildOptions) (m : Moment) (path : Text) {stage : Stage}
    (h : stage.hasSaved) (s : BuildState) : (stage.next o m path s).1.hasSaved := by
  cases stage with
  | saved r => rfl
  | counted r => rfl
  | _ => cases h

theorem stages_turn (now : Int) (j : Fin paths.length) : (w.turn o paths i now).stages j =
    if j = i then ((w.stages i).next o { now := now } paths[i] w.state).1
    else w.stages j := by
  by_cases h : j = i
  · subst h
    rw [if_pos rfl, turn]
    exact Function.update_self ..
  · rw [if_neg h, turn]
    exact Function.update_of_ne h ..

theorem done_turn (now : Int) : (w.turn o paths i now).done paths =
    if ((w.stages i).next o { now := now } paths[i] w.state).1.hasSaved
    then insert paths[i] (w.done paths) else w.done paths := by
  have hiff (p : Text) : p ∈ (w.turn o paths i now).done paths ↔ p ∈ w.done paths ∨
      p = paths[i] ∧ ((w.stages i).next o { now := now } paths[i] w.state).1.hasSaved := by
    constructor
    · rintro ⟨j, rfl, hj⟩
      rw [stages_turn] at hj
      split at hj
      · next h => exact Or.inr ⟨h ▸ rfl, hj⟩
      · exact Or.inl ⟨j, rfl, hj⟩
    · rintro (⟨j, rfl, hj⟩ | ⟨rfl, hsaved⟩)
      · refine ⟨j, rfl, ?_⟩
        rw [stages_turn]
        split
        · next h => exact hasSaved_next o _ _ (h ▸ hj) _
        · exact hj
      · exact ⟨i, rfl, by rw [stages_turn, if_pos rfl]; exact hsaved⟩
  ext p
  rw [hiff]
  split
  · next h => simp only [h, and_true, Set.mem_insert_iff, or_comm]
  · next h => exact ⟨fun hp => hp.resolve_right fun hr => h hr.2, Or.inl⟩

/-- What holds of the workers and what they share, whoever's turn it is. -/
structure Fits (o : BuildOptions) (t : FileTree) (texts : List Text)
    (w : Pool paths.length) : Prop where
  stages : ∀ i : Fin paths.length, (w.stages i).Fits o t paths[i]
  state : w.state.Fits o t texts (w.done paths)

theorem Fits.turn (h : w.Fits o t texts) (ht : Grounded t) (ha : o.Apart t paths)
    (htexts : CollisionFree texts) (hasked : ∀ p ∈ paths, ∀ x ∈ o.asked p t, x ∈ texts)
    (i : Fin paths.length) (now : Int) : (w.turn o paths i now).Fits o t texts := by
  obtain ⟨hstage, hstate⟩ := Stage.fits_next ht ha htexts hasked done_subset
    (List.getElem_mem i.isLt) (mem_done_iff ha.nodup) h.state (h.stages i)
    (m := { now := now }) rfl
  refine ⟨fun j => ?_, ?_⟩
  · rw [stages_turn]
    split
    · next heq => exact heq ▸ hstage
    · exact h.stages j
  · rw [done_turn]
    exact hstate

theorem Fits.perform (h : w.Fits o t texts) (ht : Grounded t) (ha : o.Apart t paths)
    (htexts : CollisionFree texts) (hasked : ∀ p ∈ paths, ∀ x ∈ o.asked p t, x ∈ texts)
    (schedule : List (Fin paths.length × Int)) :
    (w.perform o paths schedule).Fits o t texts := by
  induction schedule generalizing w with
  | nil => exact h
  | cons e schedule ih => exact ih (h.turn ht ha htexts hasked e.1 e.2)

end Turns

/-! ## The numbers -/

section Numbers

variable {o : BuildOptions} {paths : List Text} {w : Pool paths.length}
  {i : Fin paths.length}

/-- Each number of a run with what a result adds to it. -/
def tallies : List ((Metrics → Nat) × (FileResult → Nat)) :=
  [(Metrics.hits, fun r => if r.cached then 1 else 0),
    (Metrics.misses, fun r => if r.cached then 0 else 1),
    (Metrics.expanded, fun r => if r.cached then 0 else 1),
    (Metrics.written, fun r => if r.written then 1 else 0),
    (Metrics.failed, fun r => if r.failed then 1 else 0),
    (Metrics.decls, fun r => r.decls.length)]

theorem tally_count (c : Metrics) (r : FileResult) :
    ∀ e ∈ tallies, e.1 (c.count r) = e.1 c + e.2 r := by
  simp only [tallies, List.forall_mem_cons]
  exact ⟨rfl, rfl, rfl, rfl, rfl, rfl, List.forall_mem_nil _⟩

theorem length_filter_eq_sum {α : Type} (p : α → Bool) (as : List α) :
    (as.filter p).length = (as.map fun a => if p a then 1 else 0).sum := by
  induction as with
  | nil => rfl
  | cons a as ih =>
      rw [List.map_cons, List.sum_cons, ← ih]
      by_cases h : p a = true
      · rw [List.filter_cons_of_pos h, if_pos h, List.length_cons, Nat.add_comm]
      · rw [List.filter_cons_of_neg h, if_neg h, Nat.zero_add]

theorem tally_metrics (rs : List FileResult) :
    ∀ e ∈ tallies, e.1 (Report.mk rs).metrics = (rs.map e.2).sum := by
  have hmissed : (rs.filter (!·.cached)).length =
      (rs.map fun r => if r.cached then 0 else 1).sum := by
    rw [length_filter_eq_sum]
    congr 2
    funext r
    cases r.cached <;> rfl
  simp only [tallies, List.forall_mem_cons]
  refine ⟨length_filter_eq_sum _ rs, hmissed, hmissed, length_filter_eq_sum _ rs,
    length_filter_eq_sum _ rs, ?_, List.forall_mem_nil _⟩
  exact List.length_flatMap

/-- What a worker has added to a number. -/
def share (f : FileResult → Nat) (stage : Stage) : Nat := (stage.result?.map f).getD 0

/-- What a worker adds to a number with its next step. -/
def added (f : FileResult → Nat) : Stage → Nat
  | .saved r => f r
  | _ => 0

theorem share_next (f : FileResult → Nat) (o : BuildOptions) (m : Moment) (path : Text)
    (stage : Stage) (s : BuildState) :
    share f (stage.next o m path s).1 = share f stage + added f stage := by
  cases stage with
  | waiting =>
      unfold Stage.next
      dsimp only
      split <;> rfl
  | opened content =>
      unfold Stage.next
      dsimp only
      split <;> rfl
  | saved r => exact (Nat.zero_add _).symm
  | missed content => rfl
  | expanded content r => rfl
  | settled r => rfl
  | counted r => rfl

/-- The numbers of the workers are the sums of what they have added. -/
structure Numbered (w : Pool paths.length) : Prop where
  total : w.metrics.total = paths.length
  sum : ∀ e ∈ tallies, e.1 w.metrics = ∑ i, share e.2 (w.stages i)

theorem Numbered.turn (h : Numbered w) (i : Fin paths.length) (now : Int) :
    Numbered (w.turn o paths i now) := by
  have hmetrics : (w.turn o paths i now).metrics.total = w.metrics.total ∧
      ∀ e ∈ tallies, e.1 (w.turn o paths i now).metrics =
        e.1 w.metrics + added e.2 (w.stages i) := by
    unfold Pool.turn
    dsimp only
    split
    · next r hr =>
        refine ⟨rfl, fun e he => ?_⟩
        rw [hr]
        exact tally_count _ r e he
    · next hr =>
        refine ⟨rfl, fun e he => ?_⟩
        cases hstage : w.stages i with
        | saved r => exact absurd hstage (hr r)
        | _ => rfl
  refine ⟨hmetrics.1.trans h.total, fun e he => ?_⟩
  have hstages : (fun j => share e.2 ((w.turn o paths i now).stages j)) =
      Function.update (fun j => share e.2 (w.stages j)) i
        (share e.2 (w.stages i) + added e.2 (w.stages i)) := by
    funext j
    rw [stages_turn, Function.update_apply]
    split
    · exact share_next ..
    · rfl
  rw [hmetrics.2 e he, h.sum e he, hstages, Finset.sum_update_of_mem (Finset.mem_univ i),
    Finset.sum_eq_add_sum_sdiff_singleton_of_mem (Finset.mem_univ i)]
  omega

theorem Numbered.perform (h : Numbered w) (schedule : List (Fin paths.length × Int)) :
    Numbered (w.perform o paths schedule) := by
  induction schedule generalizing w with
  | nil => exact h
  | cons e schedule ih => exact ih (h.turn e.1 e.2)

theorem eq_of_tallies {c c' : Metrics} (htotal : c.total = c'.total)
    (h : ∀ e ∈ tallies, e.1 c = e.1 c') : c = c' := by
  simp only [tallies, List.forall_mem_cons] at h
  obtain ⟨hhits, hmisses, hexpanded, hwritten, hfailed, hdecls, -⟩ := h
  cases c
  cases c'
  cases htotal
  cases hhits
  cases hmisses
  cases hexpanded
  cases hwritten
  cases hfailed
  cases hdecls
  rfl

/-- When all have finished, the numbers are those of a report on their results. -/
theorem Numbered.metrics_eq (h : Numbered w) {rs : List FileResult}
    (hrs : w.files = rs.map some) : w.metrics = (Report.mk rs).metrics := by
  have hsum (f : FileResult → Nat) : ∑ i, share f (w.stages i) = (rs.map f).sum := by
    have hshare : (List.ofFn fun i => share f (w.stages i)) = rs.map f := by
      have hmap := congrArg (List.map fun r : Option FileResult => (r.map f).getD 0) hrs
      rw [files, List.map_ofFn, List.map_map] at hmap
      exact hmap
    rw [← hshare, List.sum_ofFn]
  have htally : ∀ e ∈ tallies, e.1 w.metrics = e.1 (Report.mk rs).metrics := fun e he => by
    rw [h.sum e he, tally_metrics rs e he, hsum]
  have htotal : w.metrics.total = (Report.mk rs).metrics.total := by
    have hlength := congrArg List.length hrs
    rw [files, List.length_ofFn, List.length_map] at hlength
    exact h.total.trans hlength
  exact eq_of_tallies htotal htally

end Numbers

end Pool

/-! ## The statement -/

/-- What the numbers of a run say of its results. -/
structure Metrics.Describes (c : Metrics) (rs : List FileResult) : Prop where
  total : c.total = rs.length
  looked : c.hits + c.misses = c.total
  expanded : c.expanded = c.misses
  written : c.written = (rs.filter (·.written)).length
  failed : c.failed = (rs.filter (·.failed)).length

theorem Report.describes (rs : List FileResult) : (Report.mk rs).metrics.Describes rs where
  total := rfl
  looked := (List.length_eq_length_filter_add _).symm
  expanded := rfl
  written := rfl
  failed := rfl

namespace Pool

open FileTree (Grounded)

theorem fits_start {paths : List Text} {o : BuildOptions} {texts : List Text}
    {s : BuildState}
    (hs : s.cache.Sound o texts) : (start paths.length s).Fits o s.files texts := by
  have hnone : (start paths.length s).done paths = ∅ :=
    Set.eq_empty_of_forall_notMem fun _ ⟨_, _, hsaved⟩ =>
      Bool.false_ne_true hsaved
  exact ⟨fun _ => trivial, hnone ▸ .nothing o s.files, hs⟩

theorem Over.exists_results {n : Nat} {w : Pool n} (h : w.Over) :
    ∃ rs : Fin n → FileResult, w.files = (List.ofFn rs).map some ∧
      ∀ i, (w.stages i).result? = some (rs i) := by
  refine ⟨fun i => (w.stages i).result?.get (h i), ?_,
    fun i => (Option.some_get (h i)).symm⟩
  rw [files, List.map_ofFn]
  congr 1
  funext i
  exact (Option.some_get (h i)).symm

/-- The workers of a run, whoever's turn it is at any time: with six turns each they all
come to their end; and when they have, the results are, file by file, those of expanding
the files one after another, the files that are left are the same, and the numbers are
those of the results.

The files have to stay out of each other's way. The cache may hold what runs with these
options have stored, and no two of the texts that are digested may have one digest. -/
theorem perform_schedule (o : BuildOptions) (paths : List Text) (s : BuildState)
    (ht : Grounded s.files) (ha : o.Apart s.files paths) (texts : List Text)
    (htexts : CollisionFree texts) (hs : s.cache.Sound o texts)
    (hasked : ∀ p ∈ paths, ∀ x ∈ o.asked p s.files, x ∈ texts)
    (schedule : List (Fin paths.length × Int)) (now : Int) :
    ((∀ i, 6 ≤ schedule.countP (·.1 = i)) →
        ((start paths.length s).perform o paths schedule).Over) ∧
      (((start paths.length s).perform o paths schedule).Over →
        ∃ results report final, o.run { now := now } paths s = (.ok report, final) ∧
          ((start paths.length s).perform o paths schedule).files = results.map some ∧
          results.map FileResult.plain = report.files.map FileResult.plain ∧
          ((start paths.length s).perform o paths schedule).metrics.Describes results ∧
          ((start paths.length s).perform o paths schedule).state.files.cwd =
            final.files.cwd ∧
          ∀ q, ((start paths.length s).perform o paths schedule).state.files.at? q =
            final.files.at? q) := by
  refine ⟨over_of_turns, fun hover => ?_⟩
  have hfits := (fits_start hs).perform ht ha htexts hasked schedule
  have hnumbers : Numbered ((start paths.length s).perform o paths schedule) :=
    Numbered.perform ⟨rfl, by simp [tallies, start, share, Stage.result?]⟩ schedule
  generalize (start paths.length s).perform o paths schedule = w at hover hfits hnumbers ⊢
  obtain ⟨rs, hfiles, hrs⟩ := hover.exists_results
  -- every worker has what its file comes to alone
  have hplain : (List.ofFn rs).map FileResult.plain =
      paths.map fun p => (o.alone s.files p).1.plain := by
    have hpaths : (List.ofFn fun i : Fin paths.length => paths[i]) = paths :=
      List.ofFn_getElem
    refine Eq.trans ?_ (congrArg (List.map fun p => (o.alone s.files p).1.plain) hpaths)
    rw [List.map_ofFn, List.map_ofFn]
    congr 1
    funext i
    have hstage := hfits.stages i
    have hresult := hrs i
    cases hi : w.stages i with
    | counted r =>
        rw [hi] at hstage hresult
        cases hresult
        exact hstage
    | _ =>
        rw [hi] at hresult
        cases hresult
  -- and so has every file when they are expanded one after another
  have hstart : s.Fits o s.files texts ∅ := ⟨.nothing o s.files, hs⟩
  obtain ⟨hresults, hfinal⟩ := hstart.runFiles ht ha htexts hasked { now := now }
    (fun _ hp => hp) ha.nodup (Set.empty_subset _) fun _ _ => Set.notMem_empty _
  have hdone : w.done paths = ∅ ∪ {p | p ∈ paths} := by
    rw [Set.empty_union]
    refine done_subset.antisymm fun p hp => ?_
    obtain ⟨i, hi, rfl⟩ := List.getElem_of_mem hp
    refine ⟨⟨i, hi⟩, rfl, ?_⟩
    have hresult := hrs ⟨i, hi⟩
    cases hstage : w.stages ⟨i, hi⟩ with
    | counted r => rfl
    | _ =>
        rw [hstage] at hresult
        cases hresult
  refine ⟨List.ofFn rs, ⟨(o.runFiles { now := now } paths s).1⟩,
    (o.runFiles { now := now } paths s).2, rfl, hfiles, hplain.trans hresults.symm,
    hnumbers.metrics_eq hfiles ▸ Report.describes _, ?_, fun q => ?_⟩
  · exact hfits.state.files.cwd.trans hfinal.files.cwd.symm
  · exact (hdone ▸ hfits.state.files).at?_eq hfinal.files q

/-- The sources of `copies`. -/
def copied : List Text := ["a/x.rs", "b/x.rs"]

/-- Two workers who take turns. -/
def alternating : List (Fin 2 × Int) := (List.replicate 6 [(0, 0), (1, 0)]).flatten

/-- Both workers miss, since neither has stored what it expands to when the other looks;
one after another, the second source would come from the cache. -/
theorem perform_schedule_alternating :
    ∃ (results : List FileResult) (report : Report) (final : BuildState),
      BuildOptions.run { support := {} } {} copied ⟨copies, .memory {}⟩ =
      (.ok report, final) ∧
      ((start 2 ⟨copies, .memory {}⟩).perform { support := {} } copied alternating).files =
        results.map some ∧
      results.map FileResult.plain = report.files.map FileResult.plain ∧
      results.map (·.cached) = [false, false] ∧
        report.files.map (·.cached) = [false, true] := by
  have happart : BuildOptions.Apart { support := {} } copies copied :=
    ⟨by decide, by decide +kernel, by decide +kernel, by decide +kernel, by decide +kernel⟩
  obtain ⟨hturns, hover⟩ := perform_schedule { support := {} } copied ⟨copies, .memory {}⟩
    (FileTree.grounded_of_entries (by decide +kernel) (by decide +kernel)) happart
    (copied.flatMap (BuildOptions.asked { support := {} } · copies))
    (by decide +kernel) (.memory (List.forall_mem_nil _))
    (fun p hp x hx => List.mem_flatMap.mpr ⟨p, hp, hx⟩) alternating 0
  obtain ⟨results, report, final, hrun, hfiles, hplain, -⟩ := hover (hturns (by decide))
  refine ⟨results, report, final, hrun, hfiles, hplain, ?_, ?_⟩
  · have hcached : (results.map some).map (Option.map FileResult.cached) =
        [some false, some false] := by
      rw [← hfiles]
      decide +kernel
    rw [List.map_map] at hcached
    refine List.map_injective_iff.mpr (Option.some_injective _) ?_
    rw [List.map_map]
    exact hcached
  · have hcached : (BuildOptions.run { support := {} } {} copied
        ⟨copies, .memory {}⟩).1.toOption.map (·.files.map (·.cached)) =
          some [false, true] := by
      decide +kernel
    rw [hrun] at hcached
    exact Option.some.inj hcached

/-- All outputs go to one directory. -/
def intoOut : BuildOptions := { support := {}, outputDir := "out" }

/-- A source that is named through the directory for outputs. -/
def detour : List Text := ["a.rs", "out/../b.rs"]

/-- The directory for outputs is not there yet. -/
def unbuilt : BuildState :=
  ⟨FileTree.ofFiles ["p"] [("a.rs", "#[derive(Default)] struct A;"),
    ("b.rs", "#[derive(Default)] struct B;")], .none⟩

/-- All turns of the second worker before those of the first. -/
def secondFirst : List (Fin 2 × Int) := List.replicate 6 (1, 0) ++ List.replicate 6 (0, 0)

/-- Outputs that differ, and that are no inputs, are not enough: the second source cannot
be read before the directory is made for the output of the first. -/
theorem secondFirst_detour :
    (detour.map intoOut.outputPath).Nodup ∧ (∀ p ∈ detour, intoOut.outputPath p ∉ detour) ∧
      (∀ i, 6 ≤ secondFirst.countP (·.1 = i)) ∧
      ((start 2 unbuilt).perform intoOut detour secondFirst).files.map
      (Option.map (·.failed)) = [some false, some true] ∧
      (intoOut.run {} detour unbuilt).1.toOption.map (·.files.map (·.failed)) =
      some [false, false] := by
  refine ⟨by decide +kernel, by decide +kernel, by decide, by decide +kernel, by
    decide +kernel⟩

end Pool

end Deriver
