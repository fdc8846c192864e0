import Deriver.Build.Basic
import Deriver.Proofs.Build.Outputs
import Deriver.Proofs.Watch.Watches

/-!
# What a watcher hears of

Main statement: `watch_covers`. A tree is changed while a watcher works: what happens is
told by the directories that are watched at that time, and the watcher looks at what it
was told when it comes to it, by a tree that may have changed again. Whenever it has
looked at everything, every visible directory below the root is watched; and a file that
is itself made, written or given its place in a directory that is watched becomes a
change, under a spelling of the name that a full build collects it by.

The invariant `Fits` says of a directory that is not watched that word of it is on the way
(`Covered`): something that appeared at it or above it was told, or is about to be. A
directory is told by its parent if that is watched, and if not, word of the parent is still
on the way. Files that are there already when a directory is first watched are never told
(`FileWatcher.changes_appear_dir`), and hidden files and those of an ignored name are left
out.
-/

namespace Deriver

open FileName (Ordinary Direct clean lead moves)
open FileTree (Valid Grounded)

/-- A watcher at work on a tree that others change: what happened in the last change and is
still to be told, and what was told and is still to be looked at. -/
structure Vigil where
  watcher : FileWatcher
  tree : FileTree
  happened : List Happening := []
  told : List Tiding := []

namespace Vigil

/-- What may happen next. -/
inductive Move where
  | change (c : Change)
  | tell
  | look

/-- The next thing happens. What happened in one change is told before the next. -/
def move (s : Vigil) : Move → Vigil
  | .change c =>
      if s.happened.isEmpty then
        { s with tree := (c.apply s.tree).1, happened := (c.apply s.tree).2 }
      else s
  | .tell =>
      match s.happened with
      | [] => s
      | x :: rest =>
          { s with
            watcher := s.watcher.follow x
            happened := rest
            told := s.told ++ s.watcher.tidings x }
  | .look =>
      match s.told with
      | [] => s
      | y :: rest => { s with watcher := s.watcher.handle s.tree y, told := rest }

/-- What moves lead to through states of a kind. -/
inductive Reaches (p : Vigil → Prop) (s : Vigil) : Vigil → Prop
  | refl (h : p s) : Reaches p s s
  | move {u : Vigil} (m : Move) (hr : Reaches p s u) (h : p (u.move m)) :
      Reaches p s (u.move m)

theorem Reaches.last {p : Vigil → Prop} {s u : Vigil} (h : Reaches p s u) : p u := by
  cases h with
  | refl h => exact h
  | move m _ h => exact h

/-- The root and the working directory are where they were. -/
def Rooted (top : Place) (s : Vigil) : Prop :=
  s.tree.at? s.tree.cwd = some .dir ∧ s.tree.at? top = some .dir

variable {o : WatchOptions} {s u : Vigil} {top : Place} {rel : List Text} {part name : Text}

/-- A directory below the root is watched, or word of it or of one above it is on the
way. -/
def Covered (o : WatchOptions) (top : Place) (s : Vigil) (rel : List Text) : Prop :=
  s.watcher.Watches o top rel ∨ ∃ q, q <+: rel ∧ q ≠ [] ∧
    ((∃ name, .appeared name ∈ s.told ∧ o.Spells q name) ∨
      ∃ x ∈ s.happened, x.Brings (top ++ q))

/-- What holds at all times. -/
structure Fits (o : WatchOptions) (top : Place) (s : Vigil) : Prop where
  options : s.watcher.options = o
  running : s.watcher.changes.stopped = false
  root : lead s.tree.cwd o.root = top
  rooted : s.Rooted top
  grounded : Grounded s.tree
  plain : s.tree.Plain
  ordinary : ∀ x ∈ s.happened, ∀ p ∈ x.places, ∀ part ∈ p, Ordinary part
  passed : ∀ x ∈ s.happened, x.Over s.tree
  named : s.watcher.Named o
  spelled : ∀ y ∈ s.told, ∃ rel, (∀ part ∈ rel, Ordinary part) ∧ o.Spells rel y.name
  covered : ∀ rel, o.Visible rel → s.tree.at? (top ++ rel) = some .dir → Covered o top s rel

/-- New directories are told by something that appeared at or above them. -/
theorem Fits.change (h : s.Fits o top) (hnone : s.happened = []) (c : Change)
    (hrooted : (s.move (.change c)).Rooted top) : (s.move (.change c)).Fits o top := by
  have heffect := effect_apply h.grounded h.plain c
  unfold Vigil.move at hrooted ⊢
  dsimp only at hrooted ⊢
  rw [if_pos (by rw [hnone]; rfl)] at hrooted ⊢
  refine { h with
    root := ?_, rooted := hrooted, grounded := heffect.grounded hrooted.1,
    plain := heffect.plain,
    ordinary := heffect.ordinary, passed := heffect.passed,
    covered := fun rel hvisible hdir => ?_ }
  · dsimp only
    rw [heffect.cwd, h.root]
  · rcases heffect.brought _ hdir with hold | ⟨x, hx, q, hq, hbrings, hnew⟩
    · refine (h.covered rel hvisible hold).imp_right ?_
      rintro ⟨q, hq, hne, htold | ⟨x, hx, -⟩⟩
      · exact ⟨q, hq, hne, Or.inl htold⟩
      · rw [hnone] at hx
        cases hx
    · -- what is new is strictly below the root
      have habove : ¬q <+: top := fun hpre => hnew (h.grounded.above_dir hpre h.rooted.2)
      obtain ⟨q, rfl⟩ : top <+: q :=
        (List.prefix_or_prefix_of_prefix hq (List.prefix_append top rel)).resolve_left
          habove
      refine Or.inr ⟨q, (List.prefix_append_right_inj top).mp hq, ?_,
        Or.inr ⟨x, hx, hbrings⟩⟩
      rintro rfl
      exact habove (by rw [List.append_nil])

/-- What appears in a watched directory is told, and word of it was on the way if the
directory is not watched. -/
theorem Fits.tell (hroot : Valid o.root) (h : s.Fits o top) {x : Happening}
    {rest : List Happening}
    (hx : s.happened = x :: rest) : (s.move .tell).Fits o top := by
  have hin : x ∈ s.happened := hx ▸ List.mem_cons_self
  unfold Vigil.move
  simp only [hx]
  obtain ⟨hoptions, hchanges⟩ := s.watcher.follow_rest x
  refine { h with
    options := hoptions.trans h.options, running := hchanges ▸ h.running,
    ordinary := fun x' hx' => h.ordinary x' (hx ▸ List.mem_cons_of_mem x hx'),
    passed := fun x' hx' => h.passed x' (hx ▸ List.mem_cons_of_mem x hx'),
    named := FileWatcher.named_follow h.named x,
    spelled := List.forall_mem_append.mpr
      ⟨h.spelled, FileWatcher.spelled_tidings hroot h.named (h.ordinary x hin)⟩
    covered := fun rel hvisible hdir => ?_ }
  -- word that is on the way stays so, unless it is told right now
  have hstays {q : List Text} (hq : q <+: rel) (hne : q ≠ [])
      (hword : (∃ name, .appeared name ∈ s.told ∧ o.Spells q name) ∨
        ∃ x' ∈ rest, x'.Brings (top ++ q)) :
      Covered o top ⟨s.watcher.follow x, s.tree, rest, s.told ++ s.watcher.tidings x⟩ rel :=
    Or.inr ⟨q, hq, hne, hword.imp_left fun ⟨name, hname, hspells⟩ =>
      ⟨name, List.mem_append_left _ hname, hspells⟩⟩
  rcases h.covered rel hvisible hdir with hw | ⟨q, hq, hne, hname | ⟨x', hx', hbrings⟩⟩
  · exact Or.inl (FileWatcher.watches_follow hw (h.passed x hin) hdir)
  · exact hstays hq hne (Or.inl hname)
  rcases List.mem_cons.mp (hx ▸ hx') with rfl | hx'
  swap
  · exact hstays hq hne (Or.inr ⟨x', hx', hbrings⟩)
  -- the directory above tells of it, or word of that is on the way
  obtain ⟨above, part, rfl⟩ := (List.eq_nil_or_concat' q).resolve_left hne
  have hpre : above <+: rel := (List.prefix_append above [part]).trans hq
  have hdir' : s.tree.at? (top ++ (above ++ [part])) = some .dir :=
    h.grounded.above_dir ((List.prefix_append_right_inj top).mpr hq) hdir
  have hordinary : ∀ a ∈ above ++ [part], Ordinary a := fun a ha =>
    h.plain _ .dir hdir' a (List.mem_append_right _ ha)
  obtain ⟨habove, hpart⟩ := List.forall_mem_append.mp hordinary
  have hdir'' : s.tree.at? (top ++ above) = some .dir :=
    h.grounded.above_dir ((List.prefix_append_right_inj top).mpr hpre) hdir
  rcases h.covered above (hvisible.of_prefix hpre) hdir'' with
    hw | ⟨q, hq', hne', hname | ⟨x'', hx'', hbrings'⟩⟩
  · refine Or.inr ⟨above ++ [part], hq, hne, Or.inl ⟨_, List.mem_append_right _
      (FileWatcher.appeared_mem_tidings hw hbrings), ?_⟩⟩
    exact WatchOptions.spells_slash hroot habove (hpart part (List.mem_singleton_self part))
  · exact hstays (hq'.trans hpre) hne' (Or.inl hname)
  · rcases List.mem_cons.mp (hx ▸ hx'') with rfl | hx''
    · have heq := List.append_cancel_left (hbrings.unique hbrings')
      have hlength := hq'.length_le
      rw [← heq, List.length_append, List.length_singleton] at hlength
      omega
    · exact hstays (hq'.trans hpre) hne' (Or.inr ⟨x'', hx'', hbrings'⟩)

theorem Fits.look (hroot : Valid o.root) (h : s.Fits o top) {y : Tiding}
    {rest : List Tiding} (hy : s.told = y :: rest) : (s.move .look).Fits o top := by
  obtain ⟨sub, hsub, hspells⟩ := h.spelled y (hy ▸ List.mem_cons_self)
  have hwidens :=
    FileWatcher.widens_handle hroot h.root h.grounded h.options h.plain hsub hspells
  unfold Vigil.move
  simp only [hy]
  refine { h with
    options := hwidens.options.trans h.options, running := hwidens.stopped.trans h.running,
    named := hwidens.named h.named,
    spelled := fun y' hy' => h.spelled y' (hy ▸ List.mem_cons_of_mem y hy'),
    covered := fun rel hvisible hdir => ?_ }
  rcases h.covered rel hvisible hdir with hw | ⟨q, hq, hne, ⟨name, hname, hspells'⟩ | hx⟩
  · exact Or.inl (hwidens.keeps rel hw)
  · rcases List.mem_cons.mp (hy ▸ hname) with rfl | hname
    · obtain ⟨r, rfl⟩ := hq
      have hdir' : s.tree.at? (top ++ q) = some .dir :=
        h.grounded.above_dir
          ((List.prefix_append_right_inj top).mpr (List.prefix_append q r)) hdir
      have hq : ∀ part ∈ q, Ordinary part := fun part hpart =>
        h.plain _ .dir hdir' part (List.mem_append_right _ hpart)
      have hvisible' : o.Visible q := hvisible.of_prefix (List.prefix_append q r)
      exact Or.inl
        ((FileWatcher.appear_dir hroot h.root h.grounded h.options h.plain hq hspells'
        hvisible' hdir').2 r hvisible hdir)
    · exact Or.inr ⟨q, hq, hne, Or.inl ⟨name, hname, hspells'⟩⟩
  · exact Or.inr ⟨q, hq, hne, Or.inr hx⟩

theorem Fits.move (hroot : Valid o.root) (h : s.Fits o top) (m : Move)
    (hrooted : (s.move m).Rooted top) : (s.move m).Fits o top := by
  cases m with
  | change c =>
      by_cases hnone : s.happened = []
      · exact h.change hnone c hrooted
      · have hsame : s.move (.change c) = s := if_neg (by simpa using hnone)
        rwa [hsame]
  | tell =>
      cases hx : s.happened with
      | nil =>
          have hsame : s.move .tell = s := by simp only [Vigil.move, hx]
          rwa [hsame]
      | cons x rest => exact h.tell hroot hx
  | look =>
      cases hy : s.told with
      | nil =>
          have hsame : s.move .look = s := by simp only [Vigil.move, hy]
          rwa [hsame]
      | cons y rest => exact h.look hroot hy

theorem Fits.reaches (hroot : Valid o.root) (h : s.Fits o top) {p : Vigil → Prop}
    (hp : ∀ u, p u → u.Rooted top) (hr : Reaches p s u) : u.Fits o top := by
  induction hr with
  | refl => exact h
  | move m _ hu ih => exact ih.move hroot m (hp _ hu)

/-! ## Files -/

/-- A name is a change, or what was told of it is still to be looked at. -/
def Reported (name : Text) (s : Vigil) : Prop :=
  name ∈ s.watcher.changes.pending ∨ ∃ y ∈ s.told, y.name = name

/-- While no directory takes its place, what was told of a file comes to be a change. -/
theorem Reported.move (hroot : Valid o.root) (h : s.Fits o top)
    (hrel : ∀ part ∈ rel, Ordinary part) (hvisible : o.Visible rel)
    (hspells : o.Spells rel name)
    (haccepts : o.accepts name = true) (hdir : s.tree.at? (top ++ rel) ≠ some .dir)
    (hr : Reported name s) (m : Move) : Reported name (s.move m) := by
  cases m with
  | change c =>
      unfold Vigil.move
      dsimp only
      split <;> exact hr
  | tell =>
      unfold Vigil.move
      dsimp only
      split
      · exact hr
      · next x rest hx =>
          refine hr.imp (fun hin => ?_) fun ⟨y, hy, hname⟩ =>
            ⟨y, List.mem_append_left _ hy, hname⟩
          rwa [(s.watcher.follow_rest x).2]
  | look =>
      unfold Vigil.move
      dsimp only
      split
      · exact hr
      · next y rest hy =>
          obtain ⟨sub, hsub, hspells'⟩ := h.spelled y (hy ▸ List.mem_cons_self)
          have hwidens :=
            FileWatcher.widens_handle hroot h.root h.grounded h.options
              h.plain hsub hspells'
          rcases hr with hin | ⟨y', hy', rfl⟩
          · exact Or.inl (hwidens.pending name hin)
          · rcases List.mem_cons.mp (hy ▸ hy') with rfl | hy'
            · exact Or.inl
                (FileWatcher.mem_handle hroot h.root h.grounded h.options hrel hspells
                hvisible hdir haccepts h.running)
            · exact Or.inr ⟨y', hy', rfl⟩

theorem Reported.reaches (hroot : Valid o.root) (h : s.Fits o top)
    (hrel : ∀ part ∈ rel, Ordinary part) (hvisible : o.Visible rel)
    (hspells : o.Spells rel name)
    (haccepts : o.accepts name = true) (hr : Reported name s)
    (hu : Reaches (fun v => v.Rooted top ∧ v.tree.at? (top ++ rel) ≠ some .dir) s u) :
    Reported name u := by
  have hboth : Reported name u ∧ u.Fits o top ∧ u.tree.at? (top ++ rel) ≠ some .dir := by
    induction hu with
    | refl hp => exact ⟨hr, h, hp.2⟩
    | move m _ hp ih =>
        obtain ⟨hr, hfits, hdir⟩ := ih
        exact ⟨hr.move hroot hfits hrel hvisible hspells haccepts hdir m,
          hfits.move hroot m hp.1, hp.2⟩
  exact hboth.1

/-- What happens to a file in a watched directory is told under its name. -/
theorem reported_tell {x : Happening} {rest : List Happening} (hx : s.happened = x :: rest)
    (hw : s.watcher.Watches o top rel) (htouches : x.Touches (top ++ (rel ++ [part]))) :
    Reported (Text.concat [o.nameOf rel, "/", part]) (s.move .tell) := by
  obtain ⟨y, hy, hname⟩ := FileWatcher.exists_mem_tidings hw htouches
  unfold Vigil.move
  simp only [hx]
  exact Or.inr ⟨y, List.mem_append_right _ hy, hname⟩

end Vigil

/-- Whether a file is a source shows in the last component of its name. -/
theorem isSource_congr {suffix a b : Text} (hsuffix : 47 ∉ suffix)
    (h : FileName.last a = FileName.last b) : isSource suffix a = isSource suffix b := by
  have hends (name : Text) : name.endsWith suffix =
      (FileName.last name).endsWith suffix := by
    unfold Text.endsWith
    rw [Bool.eq_iff_iff, List.isSuffixOf_iff_suffix, List.isSuffixOf_iff_suffix]
    refine ⟨fun hin => ?_, fun hin => hin.trans (FileName.last_suffix name)⟩
    obtain ⟨-, hname | ⟨d, hname⟩⟩ := FileName.eq_last name
    · exact hname ▸ hin
    · have hslash : 47 :: FileName.last name <:+ name := ⟨d, hname.symm⟩
      rcases List.suffix_or_suffix_of_suffix hin hslash with hin | hin
      · rcases List.suffix_cons_iff.mp hin with heq | hin
        · exact absurd (heq ▸ List.mem_cons_self) hsuffix
        · exact hin
      · exact absurd (hin.subset List.mem_cons_self) hsuffix
  unfold isSource
  rw [FileName.extension_eq, FileName.extension_eq, hends a, hends b, h]

namespace Vigil

variable {o : WatchOptions} {t after : FileTree} {w : FileWatcher} {s u : Vigil}
  {rel : List Text}
  {top : Place} {c : Change} {happened : List Happening}

theorem fits_start (hstart : FileWatcher.start o t = .ok w) (ht : Grounded t)
    (hplain : t.Plain) (hdir : t.hasDir w.options.root = true) :
    Valid w.options.root ∧
      Fits w.options (lead t.cwd w.options.root) { watcher := w, tree := t } := by
  obtain ⟨hroot, htrail⟩ := FileTree.hasDir_iff.mp hdir
  refine ⟨hroot, ?_⟩
  have hway : ∀ q ∈ FileName.way t.cwd w.options.root, t.at? q = some .dir := fun q hq =>
    htrail q (FileName.mem_trail.mpr (Or.inl hq))
  have htop : t.at? (lead t.cwd w.options.root) = some .dir :=
    htrail _ (FileName.mem_trail.mpr (Or.inr rfl))
  have hfind : t.find w.options.root = .ok .dir := FileTree.find_iff.mpr ⟨hroot, hway, htop⟩
  have hplace : t.resolve w.options.root = .ok (lead t.cwd w.options.root ++ []) := by
    rw [List.append_nil]
    exact FileTree.resolve_iff.mpr ⟨hroot, hway, rfl⟩
  have hclean : clean w.options.root = w.options.nameOf [] :=
    (FileName.join_singleton hroot.ne).symm
  obtain ⟨names, hnames, hw⟩ := FileWatcher.start_eq hstart
  obtain ⟨names', hnames', hwidens, hgains⟩ := FileWatcher.widens_directories
    { options := w.options } hroot rfl ht hplain
      (List.forall_mem_nil _) hclean hroot.ne hfind hplace
  obtain rfl : names = names' := Except.ok.inj (hnames.symm.trans hnames')
  rw [← hw] at hwidens hgains
  exact {
    options := rfl, running := hwidens.stopped, root := rfl, rooted := ⟨ht.cwd, htop⟩,
    grounded := ht, plain := hplain, ordinary := fun _ hx => (nomatch hx),
    passed := fun _ hx => (nomatch hx), named := hwidens.named fun _ hv => (nomatch hv),
    spelled := fun _ hy => (nomatch hy),
    covered := fun rel hvisible hdir => Or.inl (hgains rel hvisible hdir) }

/-! ## A watcher that looks at once -/

theorem Reaches.trans {p : Vigil → Prop} {v : Vigil} (hu : Reaches p s u)
    (hv : Reaches p u v) : Reaches p s v := by
  induction hv with
  | refl => exact hu
  | move m _ h ih => exact ih.move m h

theorem move_change (hs : s.happened = []) (happly : c.apply s.tree = (after, happened)) :
    s.move (.change c) = { s with tree := after, happened := happened } := by
  simp only [Vigil.move, hs, happly, List.isEmpty_nil, if_true]

/-- The watcher has looked at all that it was told. -/
def looked (s : Vigil) : Vigil :=
  { s with watcher := s.told.foldl (·.handle s.tree ·) s.watcher, told := [] }

theorem reaches_looked {p : Vigil → Prop} (s : Vigil)
    (hp : ∀ w told, p { s with watcher := w, told := told }) : Reaches p s s.looked := by
  obtain ⟨w, t, xs, ys⟩ := s
  induction ys generalizing w with
  | nil => exact .refl (hp w [])
  | cons y rest ih =>
      exact (Reaches.move .look (.refl (hp w _)) (hp _ rest)).trans (ih _ hp)

theorem reaches_hear {p : Vigil → Prop} (hp : ∀ w xs ys, p ⟨w, t, xs, ys⟩) (w : FileWatcher)
    (xs : List Happening) :
    Reaches p ⟨w, t, xs, []⟩ ⟨xs.foldl (·.hear t ·) w, t, [], []⟩ := by
  induction xs generalizing w with
  | nil => exact .refl (hp _ _ _)
  | cons x rest ih =>
      have htell := Reaches.move .tell (.refl (hp w (x :: rest) [])) (hp _ _ _)
      exact (htell.trans (reaches_looked _ fun _ _ => hp _ _ _)).trans (ih _)

/-- A watcher that is told at once, and looks at once, is one of those that may be. -/
theorem reaches_observe (hrun : w.stopped = false) (happly : c.apply t = (after, happened))
    (hbefore : Rooted top { watcher := w, tree := t })
    (hafter : Rooted top { watcher := w, tree := after }) :
    Reaches (Rooted top) { watcher := w, tree := t }
      { watcher := (w.observe t c).1, tree := after } := by
  have hchange := move_change (s := { watcher := w, tree := t }) rfl happly
  have hr := Reaches.move (.change c) (.refl hbefore) (hchange ▸ hafter)
  rw [hchange] at hr
  rw [FileWatcher.observe_eq hrun happly]
  exact hr.trans (reaches_hear (fun _ _ _ => hafter) w happened)

/-! ## What is heard of -/

/-- A watcher hears of what a full build would collect. Whenever it has looked at all that
it was told, it watches every visible directory below the root; and a visible source that is
itself made, written or given its place in a directory that is watched becomes a change,
if no directory takes its place before the watcher has looked. -/
theorem watch_covers (hstart : FileWatcher.start o t = .ok w) (ht : Grounded t)
    (hplain : t.Plain) (hdir : t.hasDir w.options.root = true)
    (htop : lead t.cwd w.options.root = top)
    (hs : Reaches (Rooted top) { watcher := w, tree := t } s) :
    (s.happened = [] → s.told = [] → ∀ rel, w.options.Visible rel →
      s.tree.at? (top ++ rel) = some .dir → s.watcher.Watches w.options top rel) ∧
    ∀ suffix, 47 ∉ suffix → w.options.accepts = isSource (orDefaultSuffix suffix) →
      ∀ x rest rel, s.happened = x :: rest → x.Touches (top ++ rel) →
      s.watcher.Watches w.options top rel.dropLast → w.options.Visible rel →
      ∀ u, Reaches (fun v => v.Rooted top ∧ v.tree.at? (top ++ rel) ≠ some .dir)
        (s.move .tell) u →
      u.told = [] → ∀ files, u.tree.collect [w.options.root] suffix w.options.ignored =
        .ok files →
      w.options.nameOf rel ∈ files →
      ∃ name ∈ u.watcher.changes.pending, clean name = w.options.nameOf rel := by
  subst htop
  obtain ⟨hroot, hfits⟩ := fits_start hstart ht hplain hdir
  have h : s.Fits w.options _ := hfits.reaches hroot (fun _ hr => hr) hs
  refine ⟨fun hhappened htold rel hvisible hdir => ?_, ?_⟩
  · rcases h.covered rel hvisible hdir with hw | ⟨q, -, -, ⟨name, hname, -⟩ | ⟨x, hx, -⟩⟩
    · exact hw
    · rw [htold] at hname
      cases hname
    · rw [hhappened] at hx
      cases hx
  · intro suffix hsuffix haccepts x rest rel hx htouches hw hvisible u hu htold
      files hfiles hin
    have htell := h.tell hroot hx
    have hu' := htell.reaches hroot (fun _ hr => hr.1) hu
    -- what is collected is a source below the root
    obtain ⟨-, hcollected⟩ := FileTree.collect_cases hfiles
    obtain ⟨arg, harg, found, hfound, hmem⟩ := hcollected _ hin
    obtain rfl := List.mem_singleton.mp harg
    have hsource : isSource (orDefaultSuffix suffix) (w.options.nameOf rel) = true := by
      rcases FileTree.of_mem_sourcesOf hfound hmem with ⟨content, hfile, harg⟩
        | ⟨-, hsource, -⟩
      · rw [harg] at hfile
        obtain ⟨-, -, hfile⟩ := FileTree.find_iff.mp hfile
        rw [hu'.root, hu'.rooted.2] at hfile
        cases hfile
      · exact hsource
    have hne : rel ≠ [] := by
      rintro rfl
      rw [List.append_nil] at hu
      exact hu.last.2 hu.last.1.2
    obtain ⟨above, part, rfl⟩ := (List.eq_nil_or_concat' rel).resolve_left hne
    rw [List.dropLast_concat] at hw
    have hordinary : ∀ a ∈ above ++ [part], Ordinary a := fun a ha =>
      h.ordinary x (hx ▸ List.mem_cons_self) _ htouches.mem_places a
        (List.mem_append_right _ ha)
    obtain ⟨habove, hpart⟩ := List.forall_mem_append.mp hordinary
    have hpart := hpart part (List.mem_singleton_self part)
    have hspells := WatchOptions.spells_slash hroot habove hpart
    have hsame : isSource (orDefaultSuffix suffix)
        (Text.concat [w.options.nameOf above, "/", part]) = true := by
      have hclear : 47 ∉ orDefaultSuffix suffix := by
        unfold orDefaultSuffix
        split
        · decide
        · exact hsuffix
      have hlast : FileName.last (Text.concat [w.options.nameOf above, "/", part]) =
          part := by
        rw [WatchOptions.concat_slash, FileName.last_slash hpart.clear]
      rw [← hsource, ← hspells.clean]
      exact isSource_congr hclear (FileName.last_clean (hlast.symm ▸ hpart.proper)).symm
    have hreported :=
      (reported_tell hx hw htouches).reaches hroot htell hordinary hvisible hspells
      (haccepts ▸ hsame) hu
    refine ⟨_, hreported.resolve_right ?_, hspells.clean⟩
    rintro ⟨y, hy, -⟩
    rw [htold] at hy
    cases hy

/-- A directory to watch, and one beside it. -/
def besides : FileTree := FileTree.ofFiles ["p"] [("src/", ""), ("new/a.rs", "")]

/-- The one has been moved into the other. -/
def inside : FileTree :=
  { cwd := ["p"]
    entries := [(["p"], .dir), (["p", "src"], .dir), (["p", "src", "new"], .dir),
      (["p", "src", "new", "a.rs"], .file "")] }

def atSource : FileWatcher :=
  { options := { root := "src", accepts := isSource defaultSuffix }
    watches := [⟨["p", "src"], "src"⟩] }

theorem start_besides : FileWatcher.start atSource.options besides = .ok atSource := by cbv

theorem apply_rename : (Change.rename "new" "src/new").apply besides =
    (inside, [.renamed ["p", "new"] ["p", "src", "new"]]) := by cbv

/-- A file that is written in a directory that was moved below the root before. -/
theorem watch_covers_moved :
    FileWatcher.start atSource.options besides = .ok atSource ∧
      ∃ u, Reaches (Rooted ["p", "src"]) { watcher := atSource, tree := besides } u ∧
        u.told = [] ∧
        u.tree.collect ["src"] defaultSuffix [] = .ok ["src/new/a.rs", "src/new/b.rs"] ∧
        ∃ name ∈ u.watcher.changes.pending, clean name = "src/new/b.rs" := by
  let more := inside.put ["p", "src", "new", "b.rs"] (.file "")
  have hwrite : (Change.write "src/new/b.rs" "").apply inside = (more,
      [.created ["p", "src", "new", "b.rs"], .written ["p", "src", "new", "b.rs"]]) := by
        cbv
  have hcollect : more.collect ["src"] defaultSuffix [] =
      .ok ["src/new/a.rs", "src/new/b.rs"] := by cbv
  have hrooted : more.at? more.cwd = some .dir ∧ more.at? ["p", "src"] = some .dir := by
    decide +kernel
  have hfile : more.at? ["p", "src", "new", "b.rs"] ≠ some .dir := by decide +kernel
  have hvisible (rel : List Text) (h : ∀ part ∈ rel, part.startsWith "." = false) :
      atSource.options.Visible rel := fun part hpart => ⟨rfl, h part hpart⟩
  have htop : lead besides.cwd atSource.options.root = ["p", "src"] := by decide +kernel
  have hcovers {s : Vigil} := watch_covers (s := s) start_besides
    (FileTree.grounded_of_entries (by decide +kernel) (by decide +kernel))
    (FileTree.plain_of_entries (by decide +kernel)) (by decide +kernel) htop
  -- the directory is moved, and watched from then on
  have hbefore : Rooted ["p", "src"] { watcher := atSource, tree := besides } :=
    ⟨by decide +kernel, by decide +kernel⟩
  have hmoved := reaches_observe (w := atSource) rfl apply_rename hbefore
    ⟨by decide +kernel, by decide +kernel⟩
  have hwatches := (hcovers hmoved).1 rfl rfl ["new"] (hvisible _ (by decide +kernel))
    (by decide +kernel)
  -- the file is written, and the watcher looks at what it is told of that
  have hchange := move_change
    (s := {
      watcher := (atSource.observe besides (.rename "new" "src/new")).1, tree := inside })
    rfl hwrite
  have hwritten :=
    Reaches.move (.change (.write "src/new/b.rs" "")) hmoved (hchange ▸ hrooted)
  rw [hchange] at hwritten
  have htold := hwritten.move .tell hrooted
  refine ⟨start_besides, _, htold.trans (reaches_looked _ fun _ _ => hrooted),
    rfl, hcollect, ?_⟩
  exact (hcovers hwritten).2 defaultSuffix (by decide +kernel) rfl _ _
    ["new", "b.rs"] rfl rfl
    hwatches (hvisible _ (by decide +kernel)) _
      (reaches_looked _ fun _ _ => ⟨hrooted, hfile⟩) rfl
    _ hcollect (by decide +kernel)

end Vigil

end Deriver
