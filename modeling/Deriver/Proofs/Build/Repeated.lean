import Deriver.Proofs.Build.Beside
import Deriver.Proofs.Text.Basic
import Deriver.Proofs.Watch.Watches

/-!
# Runs that are repeated

Main statement: `run_again`. The sources below a directory are expanded, each with its
generated file beside it, and expanded again. What a run does to a tree is known place by
place (`Reached`): in the places of generated files stands what each source leaves alone,
and anywhere else what stood there. No generated file is a source, so what is collected is
the same; and what a source left it leaves again, so the second run changes nothing.

One thing can get in the way. Where a source generates nothing its old generated file is
removed, and so is an empty directory in that place: `Clears`. The name of the root may pass
such a directory, or set out from it. It does not if and only if the second run finds the
same files.
-/

namespace Deriver

open FileName (lead way trail outset dir last Direct moves Ordinary Proper mem_trail)
open FileTree (Grounded Valid)

namespace Text

/-! ## Lists of the same texts -/

theorem le_antisymm {s t : Text} (hst : le s t = true) (hts : le t s = true) : s = t := by
  induction s generalizing t with
  | nil =>
      cases t with
      | nil => rfl
      | cons b t => cases hts
  | cons a s ih =>
      cases t with
      | nil => cases hst
      | cons b t =>
          have hrest := @ih t
          unfold le at hst hts
          grind

theorem sort_distinct_congr {ts us : List Text} (h : ∀ t, t ∈ ts ↔ t ∈ us) :
    sort (distinct ts) = sort (distinct us) := by
  have hperm : (distinct ts).Perm (distinct us) :=
    (List.perm_ext_iff_of_nodup (nodup_distinct ts) (nodup_distinct us)).mpr fun t => by
      rw [mem_distinct, mem_distinct, h]
  refine List.Perm.eq_of_pairwise (fun s t _ _ => le_antisymm) (pairwise_sort _)
    (pairwise_sort _) ?_
  exact (List.mergeSort_perm _ _).trans (hperm.trans (List.mergeSort_perm _ _).symm)

end Text

/-! ## What is collected below a directory -/

namespace FileName

variable {a part : Text} {rel : List Text}

/-- The name of what is below a directory ends with its last component. -/
theorem last_join (ha : a ≠ []) (rel : List Text) (hpart : Proper part)
    (hclear : 47 ∉ part) : last (join (a :: (rel ++ [part]))) = part := by
  have hlast : last (Text.join "/" (a :: (rel ++ [part]))) = part := by
    induction rel generalizing a with
    | nil =>
        change last (a ++ [47] ++ part) = part
        rw [List.append_assoc]
        exact last_slash hclear a
    | cons first rel ih =>
        rw [List.cons_append, text_join_cons]
        exact ih (by simp)
  rw [join_cons ha, last_clean (hlast.symm ▸ hpart), hlast]

end FileName

namespace FileName

theorem outset_mem_way (cwd : Place) (name : Text) : outset cwd name ∈ way cwd name := by
  obtain ⟨ps, hps⟩ := parts_last name
  rw [way, hps, passes_concat]
  exact head_mem_trailFrom _ _

end FileName

namespace FileTree

variable {t u : FileTree} {root p suffix : Text} {ignored files : List Text}

theorem collect_below (hdir : t.hasDir root = true) (suffix : Text) (ignored : List Text) :
    t.collect [root] suffix ignored =
      .ok (Text.sort
      (Text.distinct (t.sourcesBelow (orDefaultSuffix suffix) ignored root))) := by
  have hfind : t.find root = .ok .dir := by
    unfold hasDir at hdir
    split at hdir
    · next h => exact h
    · cases hdir
  have hsources : t.sourcesOf (orDefaultSuffix suffix) ignored root =
      .ok (t.sourcesBelow (orDefaultSuffix suffix) ignored root) := by
    unfold sourcesOf stat
    rw [hfind]
    rfl
  unfold collect
  rw [List.mapM_cons, hsources]
  change Except.ok (Text.sort (Text.distinct (_ ++ []))) = _
  rw [List.append_nil]

theorem mem_sourcesBelow (hdir : t.hasDir root = true) :
    p ∈ t.sourcesBelow suffix ignored root ↔
      ∃ rel content, (lead t.cwd root ++ rel, .file content) ∈ t.entries ∧ rel ≠ [] ∧
        rel.dropLast.any ignored.contains = false ∧
        isSource suffix (FileName.join (root :: rel)) = true ∧
        FileName.join (root :: rel) = p := by
  obtain ⟨hvalid, htrail⟩ := hasDir_iff.mp hdir
  have hplace : t.resolve root = .ok (lead t.cwd root) :=
    resolve_iff.mpr ⟨hvalid, fun q hq => htrail q (mem_trail.mpr (Or.inl hq)), rfl⟩
  unfold sourcesBelow
  rw [hplace]
  dsimp only
  rw [List.mem_filterMap]
  constructor
  · rintro ⟨⟨rel, e⟩, hwalk, hname⟩
    obtain ⟨hentry, hne⟩ := WatchOptions.mem_walk.mp hwalk
    dsimp only at hname
    split at hname
    · cases hname
    · next hkept =>
        rw [Bool.or_eq_true, Bool.or_eq_true, not_or, not_or] at hkept
        obtain ⟨⟨hfile, hignored⟩, hsource⟩ := hkept
        cases e with
        | dir => exact absurd rfl hfile
        | file content =>
            exact ⟨rel, content, hentry, hne, by simpa using hignored, by
              simpa using hsource, Option.some.inj hname⟩
  · rintro ⟨rel, content, hentry, hne, hignored, hsource, hname⟩
    refine ⟨(rel, .file content), WatchOptions.mem_walk.mpr ⟨hentry, hne⟩, ?_⟩
    dsimp only [Entry.isDir]
    rw [hignored, hsource, hname]
    rfl

end FileTree

namespace BuildOptions

section Repeating

variable {o : BuildOptions} {t v : FileTree} {root p p' : Text}
  {ignored files rest : List Text}
  {done : Set Text} {q : Place} {texts : List Text} {m : Moment} {s : BuildState}

/-! ## Sources and their generated files -/

/-- Sources that set out from one place, each at a place of its own where something
stands. -/
structure Gathered (o : BuildOptions) (t : FileTree) (start : Place) (files : List Text) :
    Prop where
  nodup : files.Nodup
  source : ∀ p ∈ files, isSource o.suffix p = true
  clean : ∀ p ∈ files, FileName.clean p = p
  valid : ∀ p ∈ files, Valid p
  outset : ∀ p ∈ files, outset t.cwd p = start
  stands : ∀ p ∈ files, (t.at? (lead t.cwd p)).isSome
  apart : ∀ p ∈ files, ∀ p' ∈ files, lead t.cwd p = lead t.cwd p' → p = p'

theorem Ending.orDefaultSuffix_eq {suffix : Text} (h : Ending suffix) :
    orDefaultSuffix suffix = suffix := by
  refine if_neg fun hempty => ?_
  have hlength := h.source.length_le
  rw [List.isEmpty_iff.mp hempty] at hlength
  revert hlength
  decide

theorem mem_collect (ho : Ending o.suffix) (hdir : t.hasDir root = true)
    (hfiles : t.collect [root] o.suffix ignored = .ok files) :
    p ∈ files ↔ p ∈ t.sourcesBelow o.suffix ignored root := by
  rw [FileTree.collect_below hdir, ho.orDefaultSuffix_eq] at hfiles
  cases hfiles
  exact (List.mergeSort_perm _ _).mem_iff.trans Text.mem_distinct

theorem lead_of_entry (ht : t.Plain) (hdir : t.hasDir root = true)
    {rel : List Text} {e : Entry}
    (hentry : (lead t.cwd root ++ rel, e) ∈ t.entries) (hne : rel ≠ []) :
    (t.at? (lead t.cwd root ++ rel)).isSome ∧ (∀ part ∈ rel, Ordinary part) ∧
      lead t.cwd (FileName.join (root :: rel)) = lead t.cwd root ++ rel := by
  have hroot : lead t.cwd root ++ rel ≠ [] := by simp [hne]
  have hstands : (t.at? (lead t.cwd root ++ rel)).isSome := by
    rw [FileTree.at?_of_ne hroot]
    exact Entries.lookup_of_mem hentry
  obtain ⟨e', he'⟩ := Option.isSome_iff_exists.mp hstands
  have hrel : ∀ part ∈ rel, Ordinary part := fun part hpart =>
    ht _ e' he' part (List.mem_append_right _ hpart)
  have hvalid := (FileTree.hasDir_iff.mp hdir).1
  exact ⟨hstands, hrel, FileName.lead_join t.cwd hvalid.ne hrel
    (FileName.clean_join hvalid.ne rel)⟩

theorem gathered_collect (ho : Ending o.suffix) (ht : t.Plain) (hdir : t.hasDir root = true)
    (hfiles : t.collect [root] o.suffix ignored = .ok files) :
    Gathered o t (FileName.outset t.cwd root) files ∧
      ∀ p ∈ files, ∃ rel, rel ≠ [] ∧ lead t.cwd p = lead t.cwd root ++ rel := by
  have hroot := (FileTree.hasDir_iff.mp hdir).1
  have hmem (p : Text) (hp : p ∈ files) : ∃ rel, rel ≠ [] ∧
      p = FileName.join (root :: rel) ∧
      (∀ part ∈ rel, Ordinary part) ∧ isSource o.suffix p = true ∧
      lead t.cwd p = lead t.cwd root ++ rel ∧ (t.at? (lead t.cwd root ++ rel)).isSome := by
    obtain ⟨rel, content, hentry, hne, -, hsource, rfl⟩ :=
      (FileTree.mem_sourcesBelow hdir).mp ((mem_collect ho hdir hfiles).mp hp)
    obtain ⟨hstands, hrel, hlead⟩ := lead_of_entry ht hdir hentry hne
    exact ⟨rel, hne, rfl, hrel, hsource, hlead, hstands⟩
  refine ⟨⟨(FileTree.collect_cases hfiles).1, fun p hp => ?_, fun p hp => ?_,
    fun p hp => ?_, fun p hp => ?_, fun p hp => ?_, fun p hp p' hp' heq => ?_⟩,
    fun p hp => ?_⟩
  · obtain ⟨rel, -, -, -, hsource, -⟩ := hmem p hp
    exact hsource
  · obtain ⟨rel, -, rfl, -⟩ := hmem p hp
    exact FileName.clean_join hroot.ne rel
  · obtain ⟨rel, -, rfl, hrel, -⟩ := hmem p hp
    exact FileTree.valid_join hroot hrel
  · obtain ⟨rel, -, rfl, hrel, -⟩ := hmem p hp
    rw [outset, (FileName.stackOf_join hroot.ne hrel).2, outset]
  · obtain ⟨rel, -, -, -, -, hlead, hstands⟩ := hmem p hp
    rwa [hlead]
  · obtain ⟨rel, -, hname, -, -, hlead, -⟩ := hmem p hp
    obtain ⟨rel', -, hname', -, -, hlead', -⟩ := hmem p' hp'
    rw [hlead, hlead'] at heq
    rw [hname, hname', List.append_cancel_left heq]
  · obtain ⟨rel, hne, -, -, -, hlead, -⟩ := hmem p hp
    exact ⟨rel, hne, hlead⟩

/-- A source that generates nothing, with an empty directory in the place of its generated
file. -/
structure Clears (o : BuildOptions) (t : FileTree) (p : Text) : Prop where
  writes : o.dryRun = false
  dir : t.hasDir (o.outputPath p) = true
  bare : (t.below (lead t.cwd (o.outputPath p))).isEmpty = true
  idle : ∃ content, t.read p = .ok content ∧ (o.expandSource p content).output = [] ∧
    (o.expandSource p content).failed = false

theorem hasDir_iff_look {name : Text} :
    t.hasDir name = true ↔ t.look name = .ok (some .dir) := by
  unfold FileTree.hasDir FileTree.find FileTree.look
  cases t.resolve name with
  | error f => exact ⟨nofun, nofun⟩
  | ok q =>
      rw [FileTree.ok_bind]
      simp only [Except.map, Except.ok.injEq]
      cases t.at? q with
      | none => exact ⟨nofun, nofun⟩
      | some e =>
          cases e with
          | dir => exact ⟨fun _ => rfl, fun _ => rfl⟩
          | file content => exact ⟨nofun, nofun⟩

theorem Clears.leaves (h : Clears o t p) : o.leaves t p = none := by
  obtain ⟨hdry, hdir, hbare, content, hread, houtput, hfailed⟩ := h
  unfold BuildOptions.leaves
  rw [hread, hasDir_iff_look.mp hdir]
  simp [left, hdry, houtput, hfailed, hbare]

theorem leaves_dir (h : t.at? (lead t.cwd (o.outputPath p)) = some .dir)
    (hclears : ¬ Clears o t p) : o.leaves t p = some .dir := by
  unfold leaves
  cases hread : t.read p with
  | error e => exact h
  | ok content =>
      cases hlook : t.look (o.outputPath p) with
      | error f => exact h
      | ok found =>
          obtain rfl : found = some .dir := (look_eq_ok hlook).2.symm.trans h
          have hdir := hasDir_iff_look.mpr hlook
          dsimp only
          unfold left
          split
          · rfl
          · next hdry =>
              split
              · next hempty =>
                  split
                  · rfl
                  · next hfailed =>
                      refine if_pos ⟨rfl, ?_⟩
                      rw [← Bool.not_eq_true]
                      exact fun hbare =>
                        hclears ⟨by simpa using hdry, hdir, hbare, content, hread,
                        by simpa using hempty, by simpa using hfailed⟩
              · rfl

theorem not_clears (hne : q ≠ lead t.cwd (o.outputPath p))
    (hbelow : lead t.cwd (o.outputPath p) <+: q)
    (hstands : (t.at? q).isSome) : ¬ Clears o t p := by
  intro h
  rw [FileTree.isEmpty_below.mp h.bare q hbelow hne] at hstands
  cases hstands

namespace Gathered

variable {start : Place}

theorem lead_eq (hg : Gathered o t start files) (hp : p ∈ files) :
    lead t.cwd p = lead t.cwd (dir p) ++ [last p] :=
  FileName.lead_eq_dir t.cwd (last_of_isSource (hg.source p hp)).1

/-- What is above the directory of a source is strictly above the source. -/
theorem above (hg : Gathered o t start files) (hp : p ∈ files)
    (hq : q <+: lead t.cwd (dir p)) : lead t.cwd p ≠ q ∧ q <+: lead t.cwd p := by
  rw [hg.lead_eq hp]
  refine ⟨fun heq => ?_, hq.trans (List.prefix_append _ _)⟩
  have hlength := hq.length_le
  rw [← heq, List.length_append] at hlength
  exact Nat.not_succ_le_self _ hlength

/-- The way to a source goes along the directories above it, and those above where it sets
out from. -/
theorem trail_dir (hg : Gathered o t start files) (hp : p ∈ files)
    (hq : q ∈ trail t.cwd (dir p)) : q <+: lead t.cwd (dir p) ∨ q <+: start := by
  have hdirect : Direct (moves (dir p)) := FileName.direct_of_clean (FileName.clean_dir p)
  have hq := hdirect.prefix_of_mem (FileName.mem_trail_moves.mpr hq)
  rwa [FileName.lead_moves, FileName.outset_dir, hg.outset p hp] at hq

theorem start_above (hg : Gathered o t start files) (hp : p ∈ files) : start <+: t.cwd :=
  hg.outset p hp ▸ FileName.prefix_outset _ _

theorem hasDir (hg : Gathered o t start files) (ht : Grounded t) (hp : p ∈ files) :
    t.hasDir (dir p) = true := by
  obtain ⟨e, he⟩ := Option.isSome_iff_exists.mp (hg.stands p hp)
  refine FileTree.hasDir_iff.mpr ⟨FileName.valid_dir (hg.valid p hp), fun q hq => ?_⟩
  rcases hg.trail_dir hp hq with habove | habove
  · obtain ⟨hne, habove⟩ := hg.above hp habove
    exact ht.above habove hne.symm he
  · exact ht.above_cwd (habove.trans (hg.start_above hp))

section Outputs

variable (hg : Gathered o t start files) (ho : Ending o.suffix) (hout : o.outputDir = [])

include hg ho hout

theorem lead_output (hp : p ∈ files) :
    lead t.cwd (o.outputPath p) = lead t.cwd (dir p) ++ [stem p ++ o.suffix] :=
  lead_outputPath ho hout (last_of_isSource (hg.source p hp)).1.1 t.cwd

theorem source_ne_output (hp : p ∈ files) (hp' : p' ∈ files) :
    lead t.cwd p ≠ lead t.cwd (o.outputPath p') := by
  intro heq
  rw [hg.lead_eq hp, hg.lead_output ho hout hp'] at heq
  refine (last_of_isSource (hg.source p hp)).2 ?_
  rw [List.head_eq_of_cons_eq (List.append_inj' heq rfl).2]
  exact List.suffix_append _ _

theorem output_inj (hp : p ∈ files) (hp' : p' ∈ files)
    (h : lead t.cwd (o.outputPath p) = lead t.cwd (o.outputPath p')) : p = p' := by
  rw [hg.lead_output ho hout hp, hg.lead_output ho hout hp'] at h
  obtain ⟨hdir, hname⟩ := List.append_inj' h rfl
  have hstem := List.append_cancel_right (List.head_eq_of_cons_eq hname)
  refine hg.apart p hp p' hp' ?_
  have hbase := (stem_eq_iff (hg.source p hp) (hg.source p' hp')).mp hstem
  rw [FileName.base_eq (last_of_isSource (hg.source p hp)).1.1,
    FileName.base_eq (last_of_isSource (hg.source p' hp')).1.1] at hbase
  rw [hg.lead_eq hp, hg.lead_eq hp', hdir, hbase]

/-- Where a generated file is below a place, so is its source. -/
theorem source_below (hp : p ∈ files) (hbelow : q <+: lead t.cwd (o.outputPath p))
    (hne : lead t.cwd (o.outputPath p) ≠ q) : lead t.cwd p ≠ q ∧ q <+: lead t.cwd p := by
  rw [hg.lead_output ho hout hp] at hbelow hne
  exact hg.above hp ((List.prefix_concat_iff.mp hbelow).resolve_left hne.symm)

end Outputs

end Gathered

/-! ## What a run reaches -/

/-- Some of the sources have been expanded: where their generated files go stands what they
leave alone, and elsewhere what stood there. -/
structure Reached (o : BuildOptions) (t : FileTree) (files : List Text) (done : Set Text)
    (v : FileTree) : Prop where
  cwd : v.cwd = t.cwd
  entries : ∀ q e, (∀ p ∈ files, q ≠ lead t.cwd (o.outputPath p)) →
    ((q, e) ∈ v.entries ↔ (q, e) ∈ t.entries)
  others : ∀ q, (∀ p ∈ done, q ≠ lead t.cwd (o.outputPath p)) → v.at? q = t.at? q
  own : ∀ p ∈ done, v.at? (lead t.cwd (o.outputPath p)) = o.leaves t p

theorem Reached.nothing (o : BuildOptions) (t : FileTree) (files : List Text) :
    Reached o t files ∅ t :=
  ⟨rfl, fun _ _ _ => Iff.rfl, fun _ _ => rfl, fun _ hp => absurd hp (Set.notMem_empty _)⟩

/-- A directory stays, unless it is empty and in the place of a generated file. -/
theorem Reached.dir (h : Reached o t files done v) (hq : t.at? q = some .dir)
    (hclears : ∀ p ∈ done, q = lead t.cwd (o.outputPath p) → ¬ Clears o t p) :
    v.at? q = some .dir := by
  by_cases hother : ∀ p ∈ done, q ≠ lead t.cwd (o.outputPath p)
  · rw [h.others q hother, hq]
  · push Not at hother
    obtain ⟨p, hp, rfl⟩ := hother
    rw [h.own p hp, leaves_dir hq (hclears p hp rfl)]

theorem runFiles_unreadable (h : ∀ p ∈ rest, ∀ content, s.files.read p ≠ .ok content)
    (m : Moment) : (o.runFiles m rest s).2 = s := by
  induction rest with
  | nil => rfl
  | cons p rest ih =>
      have hhere : (o.runFile m p s).2 = s := by
        unfold runFile
        cases hread : s.files.read p with
        | error e => rfl
        | ok content => exact absurd hread (h p (List.mem_cons_self ..) content)
      rw [runFiles_cons, hhere]
      exact ih fun q hq => h q (List.mem_cons_of_mem p hq)

section Step

variable {start : Place}

/-- The directories above a source stay, and those above the working directory. -/
theorem Reached.dir_above (h : Reached o t files done v) (hg : Gathered o t start files)
    (ht : Grounded t) (hp : p ∈ files) (hq : q <+: lead t.cwd (FileName.dir p)) :
    v.at? q = some .dir := by
  obtain ⟨hne, habove⟩ := hg.above hp hq
  obtain ⟨e, he⟩ := Option.isSome_iff_exists.mp (hg.stands p hp)
  refine h.dir (ht.above habove hne.symm he) fun p' _ heq => ?_
  exact not_clears (heq ▸ hne) (heq ▸ habove) (hg.stands p hp)

theorem Reached.dir_above_cwd (h : Reached o t files done v) (ht : Grounded t)
    (hq : q <+: t.cwd) (hne : q ≠ t.cwd) : v.at? q = some .dir := by
  refine h.dir (ht.above_cwd hq) fun p _ heq => not_clears (heq ▸ hne.symm) (heq ▸ hq) ?_
  rw [ht.cwd]
  rfl

/-- As long as the place is there that the sources set out from, they are let through. -/
theorem Reached.trail_dir (h : Reached o t files done v) (hg : Gathered o t start files)
    (ht : Grounded t) (hstart : v.at? start = some .dir) (hp : p ∈ files)
    (hq : q ∈ trail t.cwd (FileName.dir p)) : v.at? q = some .dir := by
  rcases hg.trail_dir hp hq with habove | habove
  · exact h.dir_above hg ht hp habove
  · by_cases heq : q = start
    · rw [heq, hstart]
    · have hcwd := hg.start_above hp
      refine h.dir_above_cwd ht (habove.trans hcwd) fun hq => heq ?_
      exact habove.eq_of_length_le (hq ▸ hcwd.length_le)

variable (hg : Gathered o t start files) (ho : Ending o.suffix) (hout : o.outputDir = [])
  (hdone : done ⊆ {p | p ∈ files})

include hg ho hout hdone

theorem Reached.stands (h : Reached o t files done v) (hp : p ∈ files) :
    v.at? (lead t.cwd p) = t.at? (lead t.cwd p) :=
  h.others _ fun _ hp' => hg.source_ne_output ho hout hp (hdone hp')

/-- Whether something is below the place of a generated file does not change. -/
theorem Reached.bare (h : Reached o t files done v) (p : Text) :
    (v.below (lead t.cwd (o.outputPath p))).isEmpty =
      (t.below (lead t.cwd (o.outputPath p))).isEmpty := by
  rw [Bool.eq_iff_iff, FileTree.isEmpty_below, FileTree.isEmpty_below]
  by_cases hin : ∃ p' ∈ done, lead t.cwd (o.outputPath p) <+: lead t.cwd (o.outputPath p') ∧
      lead t.cwd (o.outputPath p') ≠ lead t.cwd (o.outputPath p)
  · -- with another generated file its source is below, before and after
    obtain ⟨p', hp', hbelow, hne⟩ := hin
    obtain ⟨hne, hbelow⟩ := hg.source_below ho hout (hdone hp') hbelow hne
    have hstands := hg.stands p' (hdone hp')
    have hsome (u : FileTree) (hu : (u.at? (lead t.cwd p')).isSome) :
        ¬ ∀ q, lead t.cwd (o.outputPath p) <+: q → q ≠ lead t.cwd (o.outputPath p) →
          u.at? q = none := by
      intro hall
      rw [hall _ hbelow hne] at hu
      cases hu
    refine iff_of_false (hsome v ?_) (hsome t hstands)
    rwa [h.stands hg ho hout hdone (hdone hp')]
  · refine forall_congr' fun q => forall_congr' fun hbelow => forall_congr' fun hne => ?_
    rw [h.others q fun p' hp' heq => hin ⟨p', hp', heq ▸ hbelow, heq ▸ hne⟩]

theorem Reached.alongside (h : Reached o t files done v) (ht : Grounded t)
    (hstart : v.at? start = some .dir) (hp : p ∈ files) : Alongside o p t v where
  cwd := h.cwd
  dirs q hq := ⟨(FileTree.hasDir_iff.mp (hg.hasDir ht hp)).2 q hq,
    h.trail_dir hg ht hstart hp hq⟩
  source := h.stands hg ho hout hdone hp
  bare := h.bare hg ho hout hdone p

/-- The step of `runFiles_reached`: expanded after others, a source leaves what it leaves
alone. -/
theorem runFile_reached (h : Reached o t files done s.files) (ht : Grounded t)
    (hs : s.cache.Sound o texts) (htexts : CollisionFree texts)
    (hasked : ∀ x ∈ o.asked p t, x ∈ texts)
    (hstart : s.files.at? start = some .dir) (hp : p ∈ files) (hnew : p ∉ done)
    (m : Moment) : (o.runFile m p s).1.plain = (o.answer t p).plain ∧
      Reached o t files (insert p done) (o.runFile m p s).2.files ∧
      (o.runFile m p s).2.cache.Sound o texts := by
  have hlast := (last_of_isSource (hg.source p hp)).1.1
  have halong := h.alongside hg ho hout hdone ht hstart hp
  have hfound : s.files.at? (lead t.cwd (o.outputPath p)) =
      t.at? (lead t.cwd (o.outputPath p)) :=
    h.others _ fun p' hp' heq => hnew (hg.output_inj ho hout hp (hdone hp') heq ▸ hp')
  obtain ⟨hanswer, hleaves⟩ :=
    halong.same (hg.clean p hp) (dir_outputPath ho hout hlast) hfound
  obtain ⟨hresult, hfiles, hcache⟩ := halong.runFile ho hout hlast (hg.clean p hp)
    (FileName.valid_dir (hg.valid p hp)) hs htexts hasked m
  refine ⟨hresult.trans (by rw [hanswer]), ?_, hcache⟩
  rw [hfiles, hleaves]
  have hroot : lead t.cwd (o.outputPath p) ≠ [] := by
    rw [hg.lead_output ho hout hp]
    simp
  refine ⟨(FileTree.set_cwd ..).trans h.cwd, fun q e hq => ?_, fun q hq => ?_,
    fun p' hp' => ?_⟩
  · rw [FileTree.mem_set (hq p hp), h.entries q e hq]
  · rw [FileTree.at?_set (hq p (Set.mem_insert p done))]
    exact h.others q fun p' hp' => hq p' (Set.mem_insert_of_mem p hp')
  · by_cases heq : p' = p
    · rw [heq, FileTree.at?_set_self hroot]
    · have hp' := hp'.resolve_left heq
      rw [FileTree.at?_set fun hplace => heq (hg.output_inj ho hout (hdone hp') hp hplace),
        h.own p' hp']

/-- As long as none of them removes the place they set out from, sources leave what each
leaves alone. -/
theorem runFiles_reached (h : Reached o t files done s.files) (ht : Grounded t)
    (hs : s.cache.Sound o texts) (htexts : CollisionFree texts)
    (hasked : ∀ p ∈ files, ∀ x ∈ o.asked p t, x ∈ texts) (hrest : ∀ p ∈ rest, p ∈ files)
    (hnodup : rest.Nodup) (hnew : ∀ p ∈ rest, p ∉ done)
    (hstays : ∀ p ∈ files, start = lead t.cwd (o.outputPath p) → ¬ Clears o t p)
    (m : Moment) :
    (o.runFiles m rest s).1.map FileResult.plain =
    rest.map (fun p => (o.answer t p).plain) ∧
      Reached o t files (done ∪ {p | p ∈ rest}) (o.runFiles m rest s).2.files ∧
      (o.runFiles m rest s).2.cache.Sound o texts := by
  induction rest generalizing s done with
  | nil =>
      have hsame : done ∪ {p | p ∈ ([] : List Text)} = done := by simp
      exact ⟨rfl, hsame.symm ▸ h, hs⟩
  | cons p rest ih =>
      have hp := hrest p (List.mem_cons_self ..)
      obtain ⟨hpnew, hnodup⟩ := List.nodup_cons.mp hnodup
      have hstart : s.files.at? start = some .dir :=
        h.dir (ht.above_cwd (hg.start_above hp)) fun p' hp' => hstays p' (hdone hp')
      obtain ⟨hresult, hreached, hcache⟩ := runFile_reached hg ho hout hdone h ht hs htexts
        (hasked p hp) hstart hp (hnew p (List.mem_cons_self ..)) m
      obtain ⟨hresults, hfinal, hcache'⟩ := ih (Set.insert_subset hp hdone) hreached hcache
        (fun q hq => hrest q (List.mem_cons_of_mem p hq)) hnodup
        (fun q hq hin => hin.elim (fun heq => hpnew (heq ▸ hq))
          (hnew q (List.mem_cons_of_mem p hq)))
      have hunion : insert p done ∪ {q | q ∈ rest} = done ∪ {q | q ∈ p :: rest} := by
        ext q
        simp only [Set.mem_union, Set.mem_insert_iff, Set.mem_ofPred_eq, List.mem_cons]
        tauto
      rw [runFiles_cons]
      exact ⟨List.cons_eq_cons.mpr ⟨hresult, hresults⟩, hunion ▸ hfinal, hcache'⟩

/-- Once the place they set out from is removed, no source is read. -/
theorem runFiles_lost (h : Reached o t files done s.files) (ht : Grounded t)
    (hs : s.cache.Sound o texts) (htexts : CollisionFree texts)
    (hasked : ∀ p ∈ files, ∀ x ∈ o.asked p t, x ∈ texts) (hrest : ∀ p ∈ rest, p ∈ files)
    (hnodup : rest.Nodup) (hnew : ∀ p ∈ rest, p ∉ done) (hp : p ∈ rest)
    (hplace : start = lead t.cwd (o.outputPath p)) (hclears : Clears o t p) (m : Moment) :
    ∃ done' ⊆ {p | p ∈ files}, Reached o t files done' (o.runFiles m rest s).2.files ∧
      (o.runFiles m rest s).2.files.at? start = none := by
  induction rest generalizing s done with
  | nil => cases hp
  | cons p' rest ih =>
      have hp' := hrest p' (List.mem_cons_self ..)
      obtain ⟨hpnew, hnodup⟩ := List.nodup_cons.mp hnodup
      have hstart : s.files.at? start = some .dir := by
        refine h.dir (ht.above_cwd (hg.start_above hp')) fun q hq heq => ?_
        have heq := hg.output_inj ho hout (hrest p hp) (hdone hq) (hplace.symm.trans heq)
        exact absurd (heq ▸ hq) (hnew p hp)
      obtain ⟨-, hreached, hcache⟩ := runFile_reached hg ho hout hdone h ht hs htexts
        (hasked p' hp') hstart hp' (hnew p' (List.mem_cons_self ..)) m
      have hdone' : insert p' done ⊆ {p | p ∈ files} := Set.insert_subset hp' hdone
      rw [runFiles_cons]
      rcases List.mem_cons.mp hp with rfl | hp
      · have hgone : (o.runFile m p s).2.files.at? start = none := by
          rw [hplace, hreached.own p (Set.mem_insert p done), hclears.leaves]
        have hunread : ∀ q ∈ rest, ∀ content,
            (o.runFile m p s).2.files.read q ≠ .ok content := fun q hq content hread => ?_
        · rw [runFiles_unreadable hunread m]
          exact ⟨insert p done, hdone', hreached, hgone⟩
        · have hway := (FileTree.read_eq_ok_iff.mp hread).2.1 start ?_
          · rw [hgone] at hway
            cases hway
          · rw [hreached.cwd, ← hg.outset q (hrest q (List.mem_cons_of_mem p hq))]
            exact FileName.outset_mem_way t.cwd q
      · refine ih hdone' hreached hcache
          (fun q hq => hrest q (List.mem_cons_of_mem p' hq)) hnodup
          (fun q hq hin => hin.elim (fun heq => hpnew (heq ▸ hq))
            (hnew q (List.mem_cons_of_mem p' hq))) hp

omit hdone in
theorem runFiles_again (h : Reached o t files {p | p ∈ files} s.files) (ht : Grounded t)
    (hs : s.cache.Sound o texts) (htexts : CollisionFree texts)
    (hasked : ∀ p ∈ files, ∀ x ∈ o.asked p t, x ∈ texts) (hrest : ∀ p ∈ rest, p ∈ files)
    (hstart : s.files.at? start = some .dir) (m : Moment) :
    (o.runFiles m rest s).1.map FileResult.plain =
        rest.map (fun p => { (o.answer t p).plain with written := false }) ∧
      (o.runFiles m rest s).2.files = s.files := by
  induction rest generalizing s with
  | nil => exact ⟨rfl, rfl⟩
  | cons p rest ih =>
      have hp := hrest p (List.mem_cons_self ..)
      have hlast := (last_of_isSource (hg.source p hp)).1.1
      have halong := h.alongside hg ho hout subset_rfl ht hstart hp
      obtain ⟨hanswer, hleaves⟩ :=
        halong.again (hg.clean p hp) (dir_outputPath ho hout hlast)
        (h.own p hp)
      obtain ⟨hresult, hfiles, hcache⟩ := halong.runFile ho hout hlast (hg.clean p hp)
        (FileName.valid_dir (hg.valid p hp)) hs htexts (hasked p hp) m
      have hsame : (o.runFile m p s).2.files = s.files := by
        rw [hfiles, hleaves, ← h.own p hp, FileTree.set_at?]
      obtain ⟨hresults, hrest'⟩ := ih (hsame.symm ▸ h) hcache
        (fun q hq => hrest q (List.mem_cons_of_mem p hq)) (hsame.symm ▸ hstart)
      rw [runFiles_cons]
      refine ⟨List.cons_eq_cons.mpr ⟨hresult.trans ?_, hresults⟩, hrest'.trans hsame⟩
      rw [hanswer]
      rfl

end Step

/-! ## Collecting again -/

/-- If anything is collected below a directory, its name is let through. -/
theorem way_of_collect (hcwd : v.cwd = t.cwd)
    (h : v.collect [root] o.suffix ignored = .ok files)
    (hq : q ∈ way t.cwd root) : v.at? q = some .dir := by
  cases hfind : v.find root with
  | error f =>
      unfold FileTree.collect FileTree.sourcesOf FileTree.stat at h
      rw [List.mapM_cons, hfind] at h
      cases h
  | ok e => exact (FileTree.find_iff.mp hfind).2.1 q (hcwd ▸ hq)

/-- With its name let through, the same is collected below a directory. -/
theorem Reached.collect (h : Reached o t files {p | p ∈ files} v) (ho : Ending o.suffix)
    (hout : o.outputDir = []) (ht : t.Plain) (hdir : t.hasDir root = true)
    (hfiles : t.collect [root] o.suffix ignored = .ok files)
    (hstays : ∀ p ∈ files, lead t.cwd (o.outputPath p) ∈ way t.cwd root → ¬ Clears o t p) :
    v.collect [root] o.suffix ignored = .ok files := by
  obtain ⟨hg, hbelow⟩ := gathered_collect ho ht hdir hfiles
  obtain ⟨hvalid, htrail⟩ := FileTree.hasDir_iff.mp hdir
  have hdir' : v.hasDir root = true := by
    refine FileTree.hasDir_iff.mpr ⟨hvalid, fun q hq => ?_⟩
    rw [h.cwd] at hq
    refine h.dir (htrail q hq) fun p hp heq => ?_
    rcases mem_trail.mp hq with hq | rfl
    · exact hstays p hp (heq ▸ hq)
    · obtain ⟨rel, hne, hlead⟩ := hbelow p hp
      refine not_clears (q := lead t.cwd p) ?_ ?_ (hg.stands p hp)
      · rw [hlead, ← heq]
        simpa using hne
      · rw [hlead, ← heq]
        exact List.prefix_append _ _
  rw [FileTree.collect_below hdir] at hfiles
  rw [FileTree.collect_below hdir', ← hfiles, ho.orDefaultSuffix_eq]
  refine congrArg Except.ok (Text.sort_distinct_congr fun name => ?_)
  rw [FileTree.mem_sourcesBelow hdir', FileTree.mem_sourcesBelow hdir, h.cwd]
  refine exists_congr fun rel => exists_congr fun content => ?_
  -- only what is in the place of a generated file differs, and that is no source
  have hsame (hne : rel ≠ [])
      (hsource : isSource o.suffix (FileName.join (root :: rel)) = true) :
      (lead t.cwd root ++ rel, Entry.file content) ∈ v.entries ↔
        (lead t.cwd root ++ rel, Entry.file content) ∈ t.entries := by
    refine h.entries _ _ fun p hp heq => ?_
    have hlast := (last_of_isSource (hg.source p hp)).1.1
    obtain ⟨init, part, rfl⟩ : ∃ init part, rel = init ++ [part] :=
      ⟨_, _, (List.dropLast_append_getLast hne).symm⟩
    rw [hg.lead_output ho hout hp, ← List.append_assoc] at heq
    obtain rfl := List.head_eq_of_cons_eq (List.append_inj' heq rfl).2
    refine (last_of_isSource hsource).2 ?_
    rw [FileName.last_join hvalid.ne init (ho.proper _) (last_output ho hlast).2]
    exact List.suffix_append _ _
  constructor
  · rintro ⟨hentry, hne, hignored, hsource, hname⟩
    exact ⟨(hsame hne hsource).mp hentry, hne, hignored, hsource, hname⟩
  · rintro ⟨hentry, hne, hignored, hsource, hname⟩
    exact ⟨(hsame hne hsource).mpr hentry, hne, hignored, hsource, hname⟩

end Repeating

/-- Sources below a directory are expanded with their generated files beside them. Whatever
the tree is, a run leaves all of them as they are, and the same are found below the
directory afterwards, if and only if its name passes no empty directory that is in the place
of the generated file of a source that generates nothing. If they are found, a second run
changes nothing, and reports for each file what the first did, but that it was written.

The cache may hold what runs with these options have stored, and no two of the texts that
are digested may have one digest. -/
theorem run_again (o : BuildOptions) (ho : Ending o.suffix) (hout : o.outputDir = [])
    (s : BuildState) (ht : Grounded s.files) (hplain : s.files.Plain) (root : Text)
    (ignored : List Text) (hdir : s.files.hasDir root = true) (texts : List Text)
    (htexts : CollisionFree texts) (hs : s.cache.Sound o texts)
    (hasked : ∀ p ∈ s.files.sourcesBelow o.suffix ignored root,
    ∀ x ∈ o.asked p s.files, x ∈ texts)
    (m m' : Moment) (hm : m.cancelled = false) (hm' : m'.cancelled = false) :
    ∃ files report f, s.files.collect [root] o.suffix ignored = .ok files ∧
      o.run m files s = (.ok report, f) ∧
      (∀ p ∈ files, f.files.at? (lead s.files.cwd p) = s.files.at? (lead s.files.cwd p)) ∧
      (f.files.collect [root] o.suffix ignored = .ok files ↔
        ∀ p ∈ files, lead s.files.cwd (o.outputPath p) ∈ way s.files.cwd root →
          ¬ Clears o s.files p) ∧
      (f.files.collect [root] o.suffix ignored = .ok files →
        ∃ report' f', o.run m' files f = (.ok report', f') ∧ f'.files = f.files ∧
          (∀ p ∈ files, f.files.read p = s.files.read p) ∧
          report'.files.map FileResult.plain =
            report.files.map fun r => { r.plain with written := false }) := by
  have hfiles := FileTree.collect_below hdir o.suffix ignored
  generalize hsorted : Text.sort _ = files at hfiles
  obtain ⟨hg, -⟩ := gathered_collect ho hplain hdir hfiles
  have hasked' : ∀ p ∈ files, ∀ x ∈ o.asked p s.files, x ∈ texts := fun p hp =>
    hasked p ((mem_collect ho hdir hfiles).mp hp)
  have hrun (m : Moment) (hm : m.cancelled = false) (s : BuildState) :
      o.run m files s = (.ok ⟨(o.runFiles m files s).1⟩, (o.runFiles m files s).2) := by
    unfold run
    rw [hm]
    rfl
  refine ⟨files, _, _, hfiles, hrun m hm s, ?_⟩
  have hnothing := Reached.nothing o s.files files
  have hstart := FileName.outset_mem_way s.files.cwd root
  by_cases hstays : ∀ p ∈ files, outset s.files.cwd root =
    lead s.files.cwd (o.outputPath p) →
      ¬ Clears o s.files p
  · obtain ⟨hresults, hreached, hcache⟩ := runFiles_reached hg ho hout (Set.empty_subset _)
      hnothing ht hs htexts hasked' (fun _ hp => hp) hg.nodup
        (fun _ _ => Set.notMem_empty _)
      hstays m
    rw [Set.empty_union] at hreached
    refine ⟨fun p hp => hreached.stands hg ho hout subset_rfl hp,
      ⟨fun h p hp hq hclears => ?_, hreached.collect ho hout hplain hdir hfiles⟩,
      fun h => ?_⟩
    · have hplace := way_of_collect hreached.cwd h hq
      rw [hreached.own p hp, hclears.leaves] at hplace
      cases hplace
    · have hhome := way_of_collect hreached.cwd h hstart
      obtain ⟨hresults', hsame⟩ :=
        runFiles_again hg ho hout hreached ht hcache htexts hasked'
        (fun _ hp => hp) hhome m'
      refine ⟨_, _, hrun m' hm' _, hsame, fun p hp => ?_, ?_⟩
      · exact (hreached.alongside hg ho hout subset_rfl ht hhome hp).read_eq (hg.clean p hp)
      · rw [hresults']
        have hmap :=
            congrArg (List.map fun r : FileResult => { r with written := false }) hresults
        rw [List.map_map, List.map_map] at hmap
        exact hmap.symm
  · push Not at hstays
    obtain ⟨p, hp, hplace, hclears⟩ := hstays
    obtain ⟨done, hdone, hreached, hgone⟩ := runFiles_lost hg ho hout (Set.empty_subset _)
      hnothing ht hs htexts hasked' (fun _ hp => hp) hg.nodup
        (fun _ _ => Set.notMem_empty _)
      hp hplace hclears m
    have hlost : (o.runFiles m files s).2.files.collect [root] o.suffix ignored ≠
        .ok files := by
      intro h
      have hhome := way_of_collect hreached.cwd h hstart
      rw [hgone] at hhome
      cases hhome
    exact ⟨fun p hp => hreached.stands hg ho hout hdone hp,
      iff_of_false hlost fun h => h p hp (hplace ▸ hstart) hclears, fun h => absurd h hlost⟩

/-- A source without derives, and an empty directory in the place of its generated file. -/
def hollow : FileTree :=
  FileTree.ofFiles ["p"] [("a.derive.rs/", ""), ("a.rs", "struct S;")]

theorem clears_hollow : Clears { support := {} } hollow "a.rs" :=
  ⟨rfl, by decide +kernel, by decide +kernel, "struct S;", by decide +kernel, by
    decide +kernel, by decide +kernel⟩

theorem walk_hollow : hollow.walk ["p"] =
    ([(["a.derive.rs"], .dir), (["a.rs"], .file "struct S;")] : List
    (List Text × Entry)) := by
  unfold FileTree.walk
  rw [List.mergeSort_of_pairwise (by decide +kernel)]
  decide +kernel

/-- One source is found, by either name. -/
theorem sourcesBelow_hollow : ∀ root ∈ ([".", "a.derive.rs/.."] : List Text),
    hollow.sourcesBelow defaultSuffix defaultIgnored root = [Text.ofString "a.rs"] := by
  refine List.forall_mem_cons.mpr ⟨?_, List.forall_mem_singleton.mpr ?_⟩
  · unfold FileTree.sourcesBelow
    rw [show hollow.resolve "." = .ok ["p"] by decide +kernel]
    dsimp only
    rw [walk_hollow]
    decide +kernel
  · unfold FileTree.sourcesBelow
    rw [show hollow.resolve "a.derive.rs/.." = .ok ["p"] by decide +kernel]
    dsimp only
    rw [walk_hollow]
    decide +kernel

/-- The directory is removed with the first run. The source is found again below the working
directory, but not below a name that passes the directory. -/
theorem run_again_hollow :
    ∃ report f, BuildOptions.run { support := {} } {}
    [Text.ofString "a.rs"] ⟨hollow, .none⟩ =
        (.ok report, f) ∧
      (f.files.collect ["."] defaultSuffix defaultIgnored = .ok [Text.ofString "a.rs"] ∧
        ∃ report' f', BuildOptions.run { support := {} } {} [Text.ofString "a.rs"] f =
          (.ok report', f') ∧ f'.files = f.files ∧
          report'.files.map FileResult.plain =
            report.files.map fun r => { r.plain with written := false }) ∧
      f.files.collect ["a.derive.rs/.."] defaultSuffix defaultIgnored ≠
        .ok [Text.ofString "a.rs"] := by
  have hgrounded : Grounded hollow :=
    FileTree.grounded_of_entries (by decide +kernel) (by decide +kernel)
  have hplain : hollow.Plain := FileTree.plain_of_entries (by decide +kernel)
  have hending : Ending defaultSuffix := ⟨by decide +kernel, by decide +kernel⟩
  have happly (root : Text) (hdir : hollow.hasDir root = true)
      (hsources : hollow.sourcesBelow defaultSuffix defaultIgnored root =
        [Text.ofString "a.rs"]) :=
    run_again { support := {} } hending rfl ⟨hollow, .none⟩ hgrounded hplain root
      defaultIgnored hdir
      (asked { support := {} } "a.rs" hollow) (by decide +kernel) .none
      (fun p hp x hx => by
        rw [show ({ support := {} } : BuildOptions).suffix = defaultSuffix from rfl,
          hsources] at hp
        exact List.mem_singleton.mp hp ▸ hx) {} {} rfl rfl
  have hcollect (root : Text) (hdir : hollow.hasDir root = true)
      (hsources : hollow.sourcesBelow defaultSuffix defaultIgnored root =
        [Text.ofString "a.rs"]) :
      hollow.collect [root] defaultSuffix defaultIgnored = .ok [Text.ofString "a.rs"] := by
    rw [FileTree.collect_below hdir, hending.orDefaultSuffix_eq, hsources]
    exact congrArg Except.ok (List.mergeSort_singleton _)
  obtain ⟨files, report, f, hfiles, hrun, -, hiff, hagain⟩ :=
    happly "." (by decide +kernel) (sourcesBelow_hollow _ (by decide +kernel))
  obtain rfl := Except.ok.inj (hfiles.symm.trans
    (hcollect "." (by decide +kernel) (sourcesBelow_hollow _ (by decide +kernel))))
  obtain ⟨files, report', f', hfiles', hrun', -, hiff', -⟩ :=
    happly "a.derive.rs/.." (by decide +kernel) (sourcesBelow_hollow _ (by decide +kernel))
  obtain rfl := Except.ok.inj (hfiles'.symm.trans
    (hcollect "a.derive.rs/.." (by decide +kernel)
      (sourcesBelow_hollow _ (by decide +kernel))))
  obtain ⟨-, rfl⟩ := Prod.mk.inj (hrun.symm.trans hrun')
  have hfound :=
    hiff.mpr (List.forall_mem_singleton.mpr fun h => absurd h (by decide +kernel))
  obtain ⟨report'', f', hrun'', hsame, -, hplain'⟩ := hagain hfound
  refine ⟨report, f, hrun, ⟨hfound, report'', f', hrun'', hsame, hplain'⟩, fun h => ?_⟩
  exact hiff'.mp h _ (List.mem_singleton_self _) (by decide +kernel) clears_hollow

end BuildOptions

end Deriver
