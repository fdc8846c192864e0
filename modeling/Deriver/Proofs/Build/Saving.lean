import Deriver.Proofs.Build.Sources
import Deriver.Proofs.Files.Directories

/-!
# What saving a generated file changes

Saving touches the place of the generated file, and directories that were missing on
the way there: `save_others`. What it does depends on nothing else: `save_follows`, in
a tree that differs only elsewhere, or by directories on the way that it has already,
saving does the same and changes the same.
-/

namespace Deriver

namespace FileTree

open FileName (lead way)

/-- What is done to the second tree is what was done to the first: what changed there
is the same afterwards here, and what did not stays. -/
structure Follows (t t' v v' : FileTree) : Prop where
  cwd : v'.cwd = v.cwd
  changed : ∀ q, t'.at? q ≠ t.at? q → v'.at? q = t'.at? q
  same : ∀ q, t'.at? q = t.at? q → v'.at? q = v.at? q

theorem Follows.refl (t v : FileTree) : Follows t t v v :=
  ⟨rfl, fun _ h => absurd rfl h, fun _ _ => rfl⟩

theorem Follows.put {t t' v v' : FileTree} (h : Follows t t' v v') {p : Place}
    (hroot : p ≠ [])
    (hp : v.at? p = t.at? p) (e : Entry) : Follows t (t'.put p e) v (v'.put p e) := by
  refine ⟨h.cwd, fun q hq => ?_, fun q hq => ?_⟩
  · by_cases hqp : q = p
    · rw [hqp, at?_put_self hroot, at?_put_self hroot]
    · rw [at?_put hqp] at hq ⊢
      rw [at?_put hqp]
      exact h.changed q hq
  · by_cases hqp : q = p
    · rw [hqp, at?_put_self hroot] at hq
      rw [hqp, at?_put_self hroot, hp, hq]
    · rw [at?_put hqp] at hq ⊢
      exact h.same q hq

theorem Follows.without {t v : FileTree} {p : Place} (hp : v.at? p = t.at? p) :
    Follows t (t.without p) v (v.without p) := by
  by_cases hroot : p = []
  · have hsame (u : FileTree) (q : Place) : (u.without p).at? q = u.at? q := by
      by_cases hq : q = p
      · rw [hq, hroot]
        rfl
      · exact at?_without hq
    exact ⟨rfl, fun q hq => absurd (hsame t q) hq, fun q _ => hsame v q⟩
  · refine ⟨rfl, fun q hq => ?_, fun q hq => ?_⟩
    · obtain rfl : q = p := by
        by_contra hne
        exact hq (at?_without hne)
      rw [at?_without_self hroot, at?_without_self hroot]
    · by_cases hqp : q = p
      · rw [hqp, at?_without_self hroot] at hq
        rw [hqp, at?_without_self hroot, hp, hq]
      · exact at?_without hqp

/-- The second tree has the same where a name leads to as the first, and on the way
there the same or a directory where the first has nothing. -/
structure Near (name : Text) (t v : FileTree) : Prop where
  cwd : v.cwd = t.cwd
  way : ∀ q ∈ way t.cwd name, v.at? q = t.at? q ∨ t.at? q = none ∧ v.at? q = some .dir
  lead : v.at? (lead t.cwd name) = t.at? (lead t.cwd name)
  below : t.at? (FileName.lead t.cwd name) = some .dir →
    (v.below (FileName.lead t.cwd name)).isEmpty =
      (t.below (FileName.lead t.cwd name)).isEmpty

variable {t v : FileTree} {name : Text} {e : Entry} {q : Place}

/-- A name is let through to what stands there by both trees or by none. -/
theorem Near.open_iff (ht : Grounded t) (hname : FileName.Direct (FileName.moves name))
    (h : Near name t v) (he : t.at? (FileName.lead t.cwd name) = some e) :
    (∀ q ∈ FileName.way v.cwd name, v.at? q = some .dir) ↔
      ∀ q ∈ FileName.way t.cwd name, t.at? q = some .dir := by
  rw [h.cwd]
  constructor
  · intro hway q hq
    by_cases hlead : q = FileName.lead t.cwd name
    · rw [hlead, ← h.lead, ← hlead]
      exact hway q hq
    · exact ht.way_of_lead hname he hq hlead
  · intro hway q hq
    rcases h.way q hq with heq | ⟨-, hdir⟩
    · exact heq.trans (hway q hq)
    · exact hdir

theorem Near.read_iff (ht : Grounded t) (hname : FileName.Direct (FileName.moves name))
    (h : Near name t v) {content : Text} :
    v.read name = .ok content ↔ t.read name = .ok content := by
  rw [read_eq_ok_iff, read_eq_ok_iff, h.cwd, h.lead]
  constructor
  · rintro ⟨hvalid, hway, hfile⟩
    exact ⟨hvalid, (h.open_iff ht hname hfile).mp (h.cwd ▸ hway), hfile⟩
  · rintro ⟨hvalid, hway, hfile⟩
    exact ⟨hvalid, h.cwd ▸ (h.open_iff ht hname hfile).mpr hway, hfile⟩

theorem Near.remove_follows (ht : Grounded t)
    (hname : FileName.Direct (FileName.moves name)) (h : Near name t v) :
    Follows t ((t.remove name).toOption.getD t) v ((v.remove name).toOption.getD v) := by
  have hiff : v.remove name = .ok (v.without (FileName.lead t.cwd name)) ↔
      t.remove name = .ok (t.without (FileName.lead t.cwd name)) := by
    rw [remove_eq_ok_iff, remove_eq_ok_iff, h.cwd, h.lead]
    refine and_congr_right fun hvalid => ?_
    constructor
    · rintro ⟨hway, ⟨e, he, hempty⟩, -⟩
      refine ⟨(h.open_iff ht hname he).mp (h.cwd ▸ hway), ⟨e, he, fun hdir => ?_⟩, rfl⟩
      rw [← h.below (hdir ▸ he)]
      exact hempty hdir
    · rintro ⟨hway, ⟨e, he, hempty⟩, -⟩
      refine ⟨h.cwd ▸ (h.open_iff ht hname he).mpr hway, ⟨e, he, fun hdir => ?_⟩, rfl⟩
      rw [h.below (hdir ▸ he)]
      exact hempty hdir
  cases hremove : t.remove name with
  | ok u =>
      obtain rfl := (remove_eq_ok_iff.mp hremove).2.2.2
      rw [hiff.mpr hremove]
      exact .without h.lead
  | error f =>
      cases hremovev : v.remove name with
      | error f' => exact .refl t v
      | ok w =>
          have hw := (remove_eq_ok_iff.mp hremovev).2.2.2
          rw [h.cwd] at hw
          rw [hw] at hremovev
          rw [hiff.mp hremovev] at hremove
          cases hremove

end FileTree

namespace BuildOptions

open FileName (way lead trail Direct moves)
open FileTree (Grounded Made Wider Alike Follows Near at?_put at?_put_self at?_without)

variable {o : BuildOptions} {r : FileResult} {t u v : FileTree} {p q : Place}

/-! ## Writing -/

/-- The branch of saving that writes. -/
def deposit (r : FileResult) (t : FileTree) : FileResult × FileTree :=
  match t.makeDirs (FileName.dir r.outputPath) with
  | .error e => (r.notWritten e, t)
  | .ok u =>
      match u.write r.outputPath r.output with
      | .error e => (r.notWritten e, u)
      | .ok w => ({ r with written := true }, w)

theorem save_eq (o : BuildOptions) (r : FileResult) (t : FileTree) :
    o.save r t = if o.dryRun then (r, t)
      else if r.output.isEmpty then
        if r.failed then (r, t) else (r, (t.remove r.outputPath).toOption.getD t)
      else if (t.read r.outputPath).toOption == some r.output then (r, t)
      else deposit r t := by
  unfold save
  congr 3
  unfold deposit store
  cases hdirs : t.makeDirs (FileName.dir r.outputPath) with
  | error e => rfl
  | ok u =>
      dsimp only
      rw [FileTree.ok_bind]
      cases u.write r.outputPath r.output <;> rfl

theorem toOption_eq_some {ε α : Type} {x : Except ε α} {a : α} :
    x.toOption = some a ↔ x = .ok a := by
  cases x with
  | error e => exact ⟨nofun, nofun⟩
  | ok b =>
      exact ⟨fun h => congrArg _ (Option.some.inj h), fun h => congrArg _ (Except.ok.inj h)⟩

/-- Once its directories are made, the name of a generated file is let through. -/
theorem resolve_of_made (hclean : FileName.clean r.outputPath = r.outputPath)
    (hmade : Made (FileName.dir r.outputPath) t u) (hvalid : FileTree.Valid r.outputPath) :
    u.resolve r.outputPath = .ok (lead t.cwd r.outputPath) := by
  refine FileTree.resolve_iff.mpr ⟨hvalid, fun q hq => ?_, by rw [hmade.grows.cwd]⟩
  rw [hmade.grows.cwd] at hq
  exact hmade.dirs q ((FileName.mem_trail_dir (FileName.direct_of_clean hclean)).mpr hq)

theorem resolve_of_write {w : FileTree} {name content : Text}
    (hw : u.write name content = .ok w) : u.resolve name = .ok (lead u.cwd name) := by
  cases hp : u.resolve name with
  | error f =>
      have hw := FileTree.doing_ok hw
      rw [hp] at hw
      cases hw
  | ok p => rw [(FileTree.resolve_iff.mp hp).2.2]

/-- Writing fails, or puts a file into the place of the generated one. -/
theorem of_write {w : FileTree} {name content : Text} (hw : u.write name content = .ok w) :
    FileTree.Valid name ∧ w = u.put (lead u.cwd name) (.file content) ∧
      u.at? (lead u.cwd name) ≠ some .dir := by
  have hp := resolve_of_write hw
  refine ⟨(FileTree.resolve_iff.mp hp).1, ?_⟩
  rw [FileTree.write_of_resolve hp] at hw
  split at hw
  · cases hw
  · next hdir =>
      cases hw
      exact ⟨rfl, hdir⟩

/-! ## What else changes -/

theorem Made.others {name : Text} (hmade : Made name t u) (q : Place) :
    u.at? q = t.at? q ∨ t.at? q = none ∧ u.at? q = some .dir ∧ q ∈ trail t.cwd name := by
  by_cases hq : q ∈ trail t.cwd name
  · rcases hmade.at?_eq hq with hnone | hdir
    · exact Or.inr ⟨hnone, hmade.dirs q hq, hq⟩
    · exact Or.inl ((hmade.dirs q hq).trans hdir.symm)
  · exact Or.inl (hmade.others q hq)

theorem deposit_others (hname : Direct (moves r.outputPath))
    (hq : q ≠ lead t.cwd r.outputPath) :
    (deposit r t).2.at? q = t.at? q ∨
      t.at? q = none ∧ (deposit r t).2.at? q = some .dir ∧ q ∈ way t.cwd r.outputPath := by
  unfold deposit
  cases hdirs : t.makeDirs (FileName.dir r.outputPath) with
  | error e => exact Or.inl rfl
  | ok u =>
      have hmade := FileTree.made_of_makeDirs hdirs
      rw [← FileName.mem_trail_dir hname]
      dsimp only
      split
      · exact Made.others hmade q
      · next w hw =>
          rw [(of_write hw).2.1, hmade.grows.cwd, at?_put hq]
          exact Made.others hmade q

theorem remove_others {name : Text} (hq : q ≠ lead t.cwd name) :
    ((t.remove name).toOption.getD t).at? q = t.at? q := by
  cases hremove : t.remove name with
  | error e => rfl
  | ok u =>
      rw [(FileTree.remove_eq_ok_iff.mp hremove).2.2.2]
      exact at?_without hq

theorem remove_cwd (t : FileTree) (name : Text) :
    ((t.remove name).toOption.getD t).cwd = t.cwd := by
  cases hremove : t.remove name with
  | error e => rfl
  | ok u =>
      rw [(FileTree.remove_eq_ok_iff.mp hremove).2.2.2]
      rfl

/-- Saving changes what stands in the place of the generated file, and makes
directories on the way there. -/
theorem save_others (o : BuildOptions) (hclean : FileName.clean r.outputPath = r.outputPath)
    (hq : q ≠ lead t.cwd r.outputPath) :
    (o.save r t).2.at? q = t.at? q ∨
      t.at? q = none ∧ (o.save r t).2.at? q = some .dir ∧ q ∈ way t.cwd r.outputPath := by
  rw [save_eq]
  split
  · exact Or.inl rfl
  · split
    · split
      · exact Or.inl rfl
      · exact Or.inl (remove_others hq)
    · split
      · exact Or.inl rfl
      · exact deposit_others (FileName.direct_of_clean hclean) hq

/-! ## What stands there afterwards -/

theorem read_deposit (hname : Direct (moves r.outputPath))
    (hwritten : ∀ e, (deposit r t).1 ≠ r.notWritten e) :
    (deposit r t).2.read r.outputPath = .ok r.output := by
  unfold deposit at hwritten ⊢
  cases hdirs : t.makeDirs (FileName.dir r.outputPath) with
  | error e =>
      rw [hdirs] at hwritten
      exact absurd rfl (hwritten e)
  | ok u =>
      have hmade := FileTree.made_of_makeDirs hdirs
      rw [hdirs] at hwritten
      dsimp only at hwritten ⊢
      split
      · next e hw =>
          rw [hw] at hwritten
          exact absurd rfl (hwritten e)
      · next w hw =>
          obtain ⟨hvalid, rfl, hdir⟩ := of_write hw
          have hroot : lead u.cwd r.outputPath ≠ [] := fun hnil => hdir (hnil ▸ rfl)
          refine FileTree.read_eq_ok_iff.mpr ⟨hvalid, fun q hq => ?_, at?_put_self hroot _⟩
          have hq : q ∈ way u.cwd r.outputPath := hq
          have hmem : q ∈ trail t.cwd (FileName.dir r.outputPath) :=
            (FileName.mem_trail_dir hname).mpr (hmade.grows.cwd ▸ hq)
          have hne : q ≠ lead u.cwd r.outputPath := by
            rintro rfl
            exact hdir (hmade.dirs _ hmem)
          rw [at?_put hne, hmade.dirs q hmem]

theorem read_remove (t : FileTree) (name content : Text) :
    ((t.remove name).toOption.getD t).read name ≠ .ok content := by
  intro hread
  obtain ⟨hvalid, hway, hfile⟩ := FileTree.read_eq_ok_iff.mp hread
  rw [remove_cwd] at hway hfile
  cases hremove : t.remove name with
  | error e =>
      rw [hremove] at hway hfile
      have hok := FileTree.remove_eq_ok_iff.mpr ⟨hvalid, hway, ⟨_, hfile, nofun⟩, rfl⟩
      rw [hremove] at hok
      cases hok
  | ok u =>
      have hu := (FileTree.remove_eq_ok_iff.mp hremove).2.2.2
      rw [hremove, hu] at hfile
      have hfile : (t.without (lead t.cwd name)).at? (lead t.cwd name) =
          some (.file content) := hfile
      rw [FileTree.at?_without_self (FileTree.ne_nil_of_file hfile)] at hfile
      cases hfile

theorem read_save (hdry : o.dryRun = false)
    (hclean : FileName.clean r.outputPath = r.outputPath)
    (hne : r.output ≠ []) (hwritten : ∀ e, (o.save r t).1 ≠ r.notWritten e) :
    (o.save r t).2.read r.outputPath = .ok r.output := by
  rw [save_eq, hdry, if_neg (by decide), if_neg (by simpa using hne)] at hwritten ⊢
  by_cases hsame : ((t.read r.outputPath).toOption == some r.output) = true
  · rw [if_pos hsame]
    exact toOption_eq_some.mp (beq_iff_eq.mp hsame)
  · rw [if_neg hsame] at hwritten ⊢
    exact read_deposit (FileName.direct_of_clean hclean) hwritten

theorem read_save_empty (hdry : o.dryRun = false) (hempty : r.output = [])
    (hfailed : r.failed = false) (content : Text) :
    (o.save r t).2.read r.outputPath ≠ .ok content := by
  rw [save_eq, hdry, if_neg (by decide), if_pos (by simpa using hempty),
    if_neg (by simpa using hfailed)]
  exact read_remove t _ content

/-- A source that generates nothing because it failed leaves all as it is. -/
theorem save_failed (hempty : r.output = []) (hfailed : r.failed = true) :
    o.save r t = (r, t) := by
  have hempty : r.output.isEmpty = true := by simpa using hempty
  rw [save_eq, hempty, hfailed, if_pos rfl, if_pos rfl, ite_self]

/-! ## Saving in another tree -/

theorem Near.wider (hclean : FileName.clean r.outputPath = r.outputPath)
    (h : Near r.outputPath t v) : Wider (FileName.dir r.outputPath) t v :=
  ⟨h.cwd, fun q hq => h.way q
    ((FileName.mem_trail_dir (FileName.direct_of_clean hclean)).mp hq)⟩

/-- Where directories were made, the trees follow each other. -/
theorem follows_of_made (hclean : FileName.clean r.outputPath = r.outputPath)
    (h : Near r.outputPath t v) {v' : FileTree} (hu : Made (FileName.dir r.outputPath) t u)
    (hv' : Made (FileName.dir r.outputPath) v v') : Follows t u v v' := by
  refine ⟨hv'.grows.cwd, fun q hq => ?_, fun q hq => ?_⟩
  · have hmem : q ∈ trail t.cwd (FileName.dir r.outputPath) := by
      by_contra hout
      exact hq (hu.others q hout)
    rw [hu.dirs q hmem, hv'.dirs q (h.cwd ▸ hmem)]
  · by_cases hmem : q ∈ trail t.cwd (FileName.dir r.outputPath)
    · rw [hu.dirs q hmem] at hq
      rw [hv'.dirs q (h.cwd ▸ hmem)]
      rcases h.way q ((FileName.mem_trail_dir (FileName.direct_of_clean hclean)).mp hmem)
        with heq | ⟨hnone, -⟩
      · exact hq.trans heq.symm
      · rw [hnone] at hq
        cases hq
    · exact hv'.others q (h.cwd ▸ hmem)

theorem deposit_follows (ht : Grounded t)
    (hclean : FileName.clean r.outputPath = r.outputPath) (h : Near r.outputPath t v) :
    (deposit r v).1 = (deposit r t).1 ∧ Follows t (deposit r t).2 v (deposit r v).2 := by
  have hdirect : Direct (moves (FileName.dir r.outputPath)) := FileName.direct_clean _
  unfold deposit
  rcases FileTree.makeDirs_alike ht hdirect (Near.wider hclean h) with ⟨u, v', hu, hv'⟩
    | ⟨e, hu, hv'⟩
  · rw [hu, hv']
    have hu := FileTree.made_of_makeDirs hu
    have hv' := FileTree.made_of_makeDirs hv'
    have hfollows := follows_of_made hclean h hu hv'
    dsimp only
    -- the same stands in the place of the file, whether it lies on its own way or not
    have hlead : v'.at? (lead t.cwd r.outputPath) = u.at? (lead t.cwd r.outputPath) := by
      by_cases hsame : u.at? (lead t.cwd r.outputPath) = t.at? (lead t.cwd r.outputPath)
      · rw [hfollows.same _ hsame, h.lead, hsame]
      · exact hfollows.changed _ hsame
    by_cases hvalid : FileTree.Valid r.outputPath
    · have hresolve := resolve_of_made hclean hv' hvalid
      rw [h.cwd] at hresolve
      rw [FileTree.write_of_resolve (resolve_of_made hclean hu hvalid),
        FileTree.write_of_resolve hresolve, hlead]
      by_cases hdir : u.at? (lead t.cwd r.outputPath) = some .dir
      · rw [hdir]
        exact ⟨rfl, hfollows⟩
      · have hroot : lead t.cwd r.outputPath ≠ [] := fun hnil => hdir (hnil ▸ rfl)
        have hput := hfollows.put hroot h.lead (.file r.output)
        split
        · next he =>
            split at he
            · next hd => exact absurd hd hdir
            · cases he
        · next w he =>
            split at he
            · cases he
            · cases he
              exact ⟨rfl, hput⟩
    · have hresolve : v'.resolve r.outputPath = u.resolve r.outputPath := by
        refine FileTree.resolve_congr
          (hv'.grows.cwd.trans (h.cwd.trans hu.grows.cwd.symm)) fun q hq => ?_
        rw [hv'.grows.cwd, h.cwd, ← FileName.mem_trail_dir
          (FileName.direct_of_clean hclean)] at hq
        rw [hu.dirs q hq, hv'.dirs q (h.cwd ▸ hq)]
      cases hp : u.resolve r.outputPath with
      | ok p => exact absurd (FileTree.resolve_iff.mp hp).1 hvalid
      | error f =>
          rw [FileTree.write, FileTree.write, hresolve, hp]
          exact ⟨rfl, hfollows⟩
  · rw [hu, hv']
    exact ⟨rfl, .refl t v⟩

/-- Saving does the same in a tree that has the same in the place of the generated
file and lets its name through as well. -/
theorem save_follows (o : BuildOptions) (ht : Grounded t)
    (hclean : FileName.clean r.outputPath = r.outputPath) (h : Near r.outputPath t v) :
    (o.save r v).1 = (o.save r t).1 ∧ Follows t (o.save r t).2 v (o.save r v).2 := by
  have hdirect : Direct (moves r.outputPath) := hclean ▸ FileName.direct_clean _
  have hread : ((v.read r.outputPath).toOption == some r.output) =
      ((t.read r.outputPath).toOption == some r.output) := by
    rw [Bool.eq_iff_iff, beq_iff_eq, beq_iff_eq, toOption_eq_some, toOption_eq_some]
    exact h.read_iff ht hdirect
  rw [save_eq, save_eq, hread]
  split
  · exact ⟨rfl, .refl t v⟩
  · split
    · split
      · exact ⟨rfl, .refl t v⟩
      · exact ⟨rfl, h.remove_follows ht hdirect⟩
    · split
      · exact ⟨rfl, .refl t v⟩
      · exact deposit_follows ht hclean h

end BuildOptions

end Deriver
