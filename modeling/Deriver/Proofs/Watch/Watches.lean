import Deriver.Proofs.Watch.Change
import Deriver.Proofs.Watch.Debounce
import Deriver.Watch.Watcher

/-!
# What a watcher watches

Every watch of a watcher has a name from the root, and so has whatever it is told: the name
of the watched directory and one component more (`spells_slash`). Such a name leads to the
place below the root that it names, whatever its spelling, and it is ignored just if
something on the way is not visible (`ignores_eq_false_iff`). So looking at what was told
only ever adds watches under the names of their places: a directory that appeared is watched
with all that is below it (`appear_dir`), no watch is lost (`widens_handle`), and what is
told of a file is a change (`mem_handle`).
-/

namespace Deriver

open FileName (Ordinary Direct clean lead moves)
open FileTree (Valid Grounded)

/-- The name that is told. -/
def Tiding.name : Tiding → Text
  | .appeared name => name
  | .noted name => name

namespace WatchOptions

variable {o : WatchOptions} {t : FileTree} {rel sub : List Text} {name part : Text}
  {place : Place}

/-- The name of what is below the root. -/
def nameOf (o : WatchOptions) (rel : List Text) : Text := FileName.join (o.root :: rel)

/-- Whether nothing on the way down from the root is hidden or of an ignored name. -/
def Visible (o : WatchOptions) (rel : List Text) : Prop :=
  ∀ part ∈ rel, o.ignored.contains part = false ∧ part.startsWith "." = false

/-- A spelling of the name of what is below the root. -/
structure Spells (o : WatchOptions) (rel : List Text) (name : Text) : Prop where
  valid : Valid name
  direct : Direct (moves name)
  clean : clean name = o.nameOf rel

theorem Visible.of_prefix (h : o.Visible rel) (hsub : sub <+: rel) : o.Visible sub :=
  fun part hpart => h part (hsub.subset hpart)

theorem spells_nameOf (hroot : Valid o.root) (hrel : ∀ part ∈ rel, Ordinary part) :
    o.Spells rel (o.nameOf rel) where
  valid := FileTree.valid_join hroot hrel
  direct := FileName.direct_of_clean (FileName.clean_join hroot.ne rel)
  clean := FileName.clean_join hroot.ne rel

theorem concat_slash (name part : Text) :
    Text.concat [name, "/", part] = name ++ 47 :: part := by
  simp only [Text.concat, List.flatten_cons, List.flatten_nil, List.append_nil]
  rfl

/-- A watched directory tells of what is in it by a spelling of its name. -/
theorem spells_slash (hroot : Valid o.root) (hrel : ∀ part ∈ rel, Ordinary part)
    (hpart : Ordinary part) :
    o.Spells (rel ++ [part]) (Text.concat [o.nameOf rel, "/", part]) := by
  obtain ⟨hvalid, hdirect, hclean⟩ := spells_nameOf hroot hrel
  have hparts : FileName.parts (o.nameOf rel ++ 47 :: part) =
      FileName.parts (o.nameOf rel) ++ [part] := by
    rw [FileName.parts_slash, FileName.parts_of_clear hpart.clear]
  rw [concat_slash]
  refine ⟨FileTree.valid_iff.mpr ⟨by simp, ?_⟩, ?_, ?_⟩
  · rw [hparts]
    exact List.forall_mem_append.mpr ⟨(FileTree.valid_iff.mp hvalid).2,
      List.forall_mem_singleton.mpr ⟨hpart.zero, hpart.short⟩⟩
  · have hmoves : moves (o.nameOf rel ++ 47 :: part) = moves (o.nameOf rel) ++ [part] := by
      unfold FileName.moves
      rw [hparts, List.filter_append,
        List.filter_cons_of_pos (FileName.moving_of_proper hpart.proper), List.filter_nil]
    rw [hmoves]
    obtain ⟨n, down, heq, hdown⟩ := hdirect
    exact ⟨n, down ++ [part], by rw [heq, List.append_assoc],
      List.forall_mem_append.mpr ⟨hdown, List.forall_mem_singleton.mpr hpart.proper⟩⟩
  · exact FileName.clean_slash_join hroot.ne hrel hpart hvalid.ne hclean

theorem lead_of_clean (cwd : Place) (hroot : Valid o.root)
    (hrel : ∀ part ∈ rel, Ordinary part)
    (h : clean name = o.nameOf rel) : lead cwd name = lead cwd o.root ++ rel :=
  FileName.lead_join cwd hroot.ne hrel h

theorem Spells.find (h : o.Spells rel name) (ht : Grounded t) (hroot : Valid o.root)
    (hrel : ∀ part ∈ rel, Ordinary part)
    (hdir : t.at? (lead t.cwd o.root ++ rel) = some .dir) :
    t.find name = .ok .dir ∧ t.resolve name = .ok (lead t.cwd o.root ++ rel) := by
  have hlead := lead_of_clean t.cwd hroot hrel h.clean
  rw [← hlead] at hdir ⊢
  have hway : ∀ q ∈ FileName.way t.cwd name, t.at? q = some .dir := by
    intro q hq
    by_cases hne : q = lead t.cwd name
    · rwa [hne]
    · exact ht.way_of_lead h.direct hdir hq hne
  exact ⟨FileTree.find_iff.mpr ⟨h.valid, hway, hdir⟩,
    FileTree.resolve_iff.mpr ⟨h.valid, hway, rfl⟩⟩

theorem Spells.hasDir_iff (h : o.Spells rel name) (ht : Grounded t) (hroot : Valid o.root)
    (hrel : ∀ part ∈ rel, Ordinary part) :
    t.hasDir name = true ↔ t.at? (lead t.cwd o.root ++ rel) = some .dir := by
  constructor
  · intro hdir
    rw [← lead_of_clean t.cwd hroot hrel h.clean]
    exact (FileTree.hasDir_iff.mp hdir).2 _ (FileName.mem_trail.mpr (Or.inr rfl))
  · intro hdir
    unfold FileTree.hasDir
    rw [(h.find ht hroot hrel hdir).1]

theorem ignores_eq_false_iff (hroot : Valid o.root) (hrel : ∀ part ∈ rel, Ordinary part)
    (h : clean name = o.nameOf rel) : o.ignores name = false ↔ o.Visible rel := by
  unfold ignores
  rw [FileName.relative?_join hroot.ne hrel h]
  dsimp only [Option.getD_some]
  by_cases hnil : rel = []
  · subst hnil
    exact ⟨fun _ part hpart => (nomatch hpart), fun _ => rfl⟩
  · rw [if_neg hnil, FileName.parts_join hnil fun part hpart => (hrel part hpart).clear,
      List.any_eq_false]
    refine forall₂_congr fun part hpart => ?_
    obtain ⟨hne, hdot, hdots⟩ := (hrel part hpart).proper
    simp [hne, hdot, hdots]

/-! ## Directories to watch -/

theorem directories_eq (hfind : t.find name = .ok .dir)
    (hplace : t.resolve name = .ok place) :
    o.directories t name = .ok (name :: ((t.walk place).filterMap fun e =>
      if e.2.isDir then some (FileName.join (name :: e.1)) else none).filter
      (!o.ignores ·)) := by
  unfold directories
  rw [hfind, hplace]
  rfl

theorem mem_walk {e : Entry} :
    (sub, e) ∈ t.walk place ↔ (place ++ sub, e) ∈ t.entries ∧ sub ≠ [] := by
  unfold FileTree.walk
  rw [List.mem_mergeSort, List.mem_map]
  constructor
  · rintro ⟨⟨p, e'⟩, hin, heq⟩
    obtain ⟨rfl, rfl⟩ := Prod.mk.inj heq
    obtain ⟨hin, hbelow⟩ := List.mem_filter.mp hin
    obtain ⟨hpre, hne⟩ := Bool.and_eq_true_iff.mp hbelow
    obtain ⟨r, rfl⟩ := FileTree.isBelow_iff.mp hpre
    rw [List.drop_left]
    exact ⟨hin, fun hnil => bne_iff_ne.mp hne (by rw [hnil, List.append_nil])⟩
  · rintro ⟨hin, hne⟩
    refine ⟨(place ++ sub, e), List.mem_filter.mpr ⟨hin, ?_⟩, by simp⟩
    exact Bool.and_eq_true_iff.mpr ⟨FileTree.isBelow_iff.mpr (List.prefix_append place sub),
      bne_iff_ne.mpr fun heq => hne (List.append_right_eq_self.mp heq)⟩

end WatchOptions

/-! ## What is watched -/

namespace FileWatcher

variable {o : WatchOptions} {w u : FileWatcher} {t : FileTree} {top place : Place}
  {rel sub : List Text} {name part : Text} {x : Happening}

/-- A directory below the root is watched, under its name from there. -/
def Watches (w : FileWatcher) (o : WatchOptions) (top : Place) (rel : List Text) : Prop :=
  ⟨top ++ rel, o.nameOf rel⟩ ∈ w.watches

/-- Every watch has a name from the root. -/
def Named (w : FileWatcher) (o : WatchOptions) : Prop :=
  ∀ v ∈ w.watches, ∃ rel, (∀ part ∈ rel, Ordinary part) ∧ v.name = o.nameOf rel

/-- No watch and no change is lost, and all watches have names from the root. -/
structure Widens (o : WatchOptions) (top : Place) (w u : FileWatcher) : Prop where
  options : u.options = w.options
  stopped : u.changes.stopped = w.changes.stopped
  pending : ∀ name ∈ w.changes.pending, name ∈ u.changes.pending
  keeps : ∀ rel, w.Watches o top rel → u.Watches o top rel
  named : w.Named o → u.Named o

theorem Widens.refl (o : WatchOptions) (top : Place) (w : FileWatcher) : Widens o top w w :=
  ⟨rfl, rfl, fun _ h => h, fun _ h => h, id⟩

theorem Widens.trans {v : FileWatcher} (h : Widens o top w u) (h' : Widens o top u v) :
    Widens o top w v :=
  ⟨h'.options.trans h.options, h'.stopped.trans h.stopped,
    fun name hin => h'.pending name (h.pending name hin),
    fun rel hw => h'.keeps rel (h.keeps rel hw), fun hn => h'.named (h.named hn)⟩

theorem widens_add (w : FileWatcher) (hroot : Valid o.root) (htop : lead t.cwd o.root = top)
    (hrel : ∀ part ∈ rel, Ordinary part) (h : clean name = o.nameOf rel) :
    Widens o top w (w.add t name) ∧
      (t.resolve name = .ok (top ++ rel) → (w.add t name).Watches o top rel) := by
  unfold add
  cases hplace : t.resolve name with
  | error f => exact ⟨Widens.refl o top w, fun heq => nomatch heq⟩
  | ok place =>
      have hlead : place = top ++ rel := by
        rw [← htop, ← WatchOptions.lead_of_clean t.cwd hroot hrel h]
        exact (FileTree.resolve_iff.mp hplace).2.2
      subst hlead
      dsimp only
      rw [h]
      refine ⟨⟨rfl, rfl, fun _ hin => hin, fun rel' hw => ?_, fun hn v hv => ?_⟩,
        fun _ => ?_⟩
      · by_cases heq : top ++ rel' = top ++ rel
        · obtain rfl := List.append_cancel_left heq
          exact List.mem_append_right _ (List.mem_singleton_self _)
        · exact List.mem_append_left _ (List.mem_filter.mpr ⟨hw, bne_iff_ne.mpr heq⟩)
      · rcases List.mem_append.mp hv with hv | hv
        · exact hn v (List.mem_filter.mp hv).1
        · exact ⟨rel, hrel, by rw [List.mem_singleton.mp hv]⟩
      · exact List.mem_append_right _ (List.mem_singleton_self _)

theorem widens_foldl (w : FileWatcher) (hroot : Valid o.root)
    (htop : lead t.cwd o.root = top) {names : List Text}
    (h : ∀ name ∈ names, ∃ rel, (∀ part ∈ rel, Ordinary part) ∧ clean name = o.nameOf rel) :
    Widens o top w (names.foldl (·.add t ·) w) ∧
      ∀ name ∈ names, ∀ rel, (∀ part ∈ rel, Ordinary part) → clean name = o.nameOf rel →
        t.resolve name = .ok (top ++ rel) →
        (names.foldl (·.add t ·) w).Watches o top rel := by
  induction names generalizing w with
  | nil => exact ⟨Widens.refl o top w, fun name hname => nomatch hname⟩
  | cons first names ih =>
      obtain ⟨⟨rel, hrel, hclean⟩, hrest⟩ := List.forall_mem_cons.mp h
      obtain ⟨hwidens, hgains⟩ := ih (w.add t first) hrest
      refine ⟨(widens_add w hroot htop hrel hclean).1.trans hwidens,
        List.forall_mem_cons.mpr ⟨fun rel hrel hclean hplace => ?_, hgains⟩⟩
      exact hwidens.keeps rel ((widens_add w hroot htop hrel hclean).2 hplace)

theorem widens_directories (w : FileWatcher) (hroot : Valid o.root)
    (htop : lead t.cwd o.root = top) (ht : Grounded t) (hplain : t.Plain)
    (hrel : ∀ part ∈ rel, Ordinary part) (hclean : clean name = o.nameOf rel)
    (hne : name ≠ [])
    (hfind : t.find name = .ok .dir) (hplace : t.resolve name = .ok (top ++ rel)) :
    ∃ names, o.directories t name = .ok names ∧ Widens o top w (names.foldl (·.add t ·) w) ∧
      ∀ sub, o.Visible (rel ++ sub) → t.at? (top ++ (rel ++ sub)) = some .dir →
        (names.foldl (·.add t ·) w).Watches o top (rel ++ sub) := by
  refine ⟨_, WatchOptions.directories_eq hfind hplace, ?_⟩
  -- every name that is listed is one from the root
  have hsub {sub : List Text} {e : Entry} (hin : (sub, e) ∈ t.walk (top ++ rel)) :
      ∀ part ∈ rel ++ sub, Ordinary part := by
    obtain ⟨hentry, hnil⟩ := WatchOptions.mem_walk.mp hin
    obtain ⟨e', he'⟩ := Option.isSome_iff_exists.mp (Entries.lookup_of_mem hentry)
    have hat := (FileTree.at?_of_ne (List.append_ne_nil_of_right_ne_nil _ hnil)).trans he'
    refine List.forall_mem_append.mpr ⟨hrel, fun part hpart => ?_⟩
    exact hplain _ e' hat part (List.mem_append_right _ hpart)
  have hnames : ∀ x ∈ name :: ((t.walk (top ++ rel)).filterMap fun e =>
      if e.2.isDir then some (FileName.join (name :: e.1)) else none).filter (!o.ignores ·),
      ∃ rel, (∀ part ∈ rel, Ordinary part) ∧ clean x = o.nameOf rel := by
    refine List.forall_mem_cons.mpr ⟨⟨rel, hrel, hclean⟩, fun x hx => ?_⟩
    obtain ⟨⟨sub, e⟩, hin, hif⟩ := List.mem_filterMap.mp (List.mem_filter.mp hx).1
    dsimp only at hif
    split at hif
    · have hall := hsub hin
      have hordinary : ∀ part ∈ sub, Ordinary part := fun part hpart =>
        hall part (List.mem_append_right _ hpart)
      refine ⟨rel ++ sub, hall, ?_⟩
      rw [← Option.some.inj hif, FileName.clean_join hne]
      exact FileName.join_join hroot.ne hrel hordinary hne hclean
    · cases hif
  obtain ⟨hwidens, hgains⟩ := widens_foldl w hroot htop hnames
  refine ⟨hwidens, fun sub hvisible hdir => ?_⟩
  by_cases hnil : sub = []
  · subst hnil
    rw [List.append_nil]
    exact hgains name List.mem_cons_self rel hrel hclean hplace
  · have hall : ∀ part ∈ rel ++ sub, Ordinary part := fun part hpart =>
      hplain _ .dir hdir part (List.mem_append_right _ hpart)
    have hordinary : ∀ part ∈ sub, Ordinary part := fun part hpart =>
      hall part (List.mem_append_right _ hpart)
    have hjoin : FileName.join (name :: sub) = o.nameOf (rel ++ sub) :=
      FileName.join_join hroot.ne hrel hordinary hne hclean
    have hspells := WatchOptions.spells_nameOf hroot hall
    have hplace' : t.resolve (o.nameOf (rel ++ sub)) = .ok (top ++ (rel ++ sub)) := by
      rw [← htop] at hdir ⊢
      exact (hspells.find ht hroot hall hdir).2
    refine hgains _ (List.mem_cons_of_mem _ (List.mem_filter.mpr ⟨?_, ?_⟩)) _ hall
      hspells.clean hplace'
    · refine List.mem_filterMap.mpr ⟨(sub, .dir), WatchOptions.mem_walk.mpr ⟨?_, hnil⟩, ?_⟩
      · rw [List.append_assoc]
        refine Entries.mem_of_lookup ((FileTree.at?_of_ne ?_).symm.trans hdir)
        exact List.append_ne_nil_of_right_ne_nil _
          (List.append_ne_nil_of_right_ne_nil _ hnil)
      · rw [hjoin]
        rfl
    · rw [(WatchOptions.ignores_eq_false_iff hroot hall hspells.clean).mpr hvisible]
      rfl

theorem start_eq (h : start o t = .ok w) :
    ∃ names, w.options.directories t w.options.root = .ok names ∧
      w = names.foldl (·.add t ·) { options := w.options } := by
  have hoptions (names : List Text) (w : FileWatcher) :
      (names.foldl (·.add t ·) w).options = w.options := by
    induction names generalizing w with
    | nil => rfl
    | cons name names ih =>
        rw [List.foldl_cons, ih]
        unfold add
        split <;> rfl
  unfold start at h
  dsimp only at h
  split at h
  · next names hnames =>
      obtain rfl := Except.ok.inj h
      rw [hoptions]
      exact ⟨names, hnames, rfl⟩
  · cases h

/-! ## What is told -/

theorem mem_namesIn (hw : w.Watches o top rel) (part : Text) :
    Text.concat [o.nameOf rel, "/", part] ∈ w.namesIn (top ++ (rel ++ [part])) := by
  refine List.mem_filterMap.mpr ⟨_, hw, ?_⟩
  rw [← List.append_assoc]
  simp

theorem appeared_mem_tidings (hw : w.Watches o top rel)
    (hx : x.Brings (top ++ (rel ++ [part]))) :
    .appeared (Text.concat [o.nameOf rel, "/", part]) ∈ w.tidings x := by
  have hname := mem_namesIn hw part
  cases x with
  | created p =>
      obtain rfl : p = _ := hx
      exact List.mem_map_of_mem hname
  | renamed s d =>
      obtain rfl : d = _ := hx
      exact List.mem_append_right _ (List.mem_map_of_mem hname)
  | written p => cases hx
  | removed p => cases hx

theorem exists_mem_tidings (hw : w.Watches o top rel)
    (hx : x.Touches (top ++ (rel ++ [part]))) :
    ∃ y ∈ w.tidings x, y.name = Text.concat [o.nameOf rel, "/", part] := by
  cases x with
  | created p => exact ⟨_, appeared_mem_tidings hw hx, rfl⟩
  | renamed s d => exact ⟨_, appeared_mem_tidings hw hx, rfl⟩
  | written p =>
      obtain rfl : p = _ := hx
      exact ⟨_, List.mem_map_of_mem (mem_namesIn hw part), rfl⟩
  | removed p => cases hx

theorem spelled_namesIn (hroot : Valid o.root) (hn : w.Named o)
    (hplace : ∀ part ∈ place, Ordinary part) :
    ∀ name ∈ w.namesIn place, ∃ rel, (∀ part ∈ rel, Ordinary part) ∧ o.Spells rel name := by
  intro name hname
  obtain ⟨v, hv, hif⟩ := List.mem_filterMap.mp hname
  split at hif
  · cases hif
  · next hin =>
      rw [Bool.or_eq_true, not_or] at hin
      obtain ⟨rel, hrel, hvname⟩ := hn v hv
      have hlast : Ordinary (place.getLastD []) := by
        have hne : place ≠ [] := by simpa using hin.1
        rw [List.getLastD_eq_getLast?, List.getLast?_eq_some_getLast hne]
        exact hplace _ (List.getLast_mem hne)
      refine ⟨rel ++ [place.getLastD []], ?_, ?_⟩
      · exact List.forall_mem_append.mpr ⟨hrel, List.forall_mem_singleton.mpr hlast⟩
      · rw [← Option.some.inj hif, hvname]
        exact WatchOptions.spells_slash hroot hrel hlast

theorem spelled_namesOf (hroot : Valid o.root) (hn : w.Named o) (place : Place) :
    ∀ name ∈ w.namesOf place, ∃ rel, (∀ part ∈ rel, Ordinary part) ∧ o.Spells rel name := by
  intro name hname
  obtain ⟨v, hv, rfl⟩ := List.mem_map.mp hname
  obtain ⟨rel, hrel, hvname⟩ := hn v (List.mem_filter.mp hv).1
  exact ⟨rel, hrel, hvname ▸ WatchOptions.spells_nameOf hroot hrel⟩

theorem spelled_tidings (hroot : Valid o.root) (hn : w.Named o)
    (hx : ∀ p ∈ x.places, ∀ part ∈ p, Ordinary part) :
    ∀ y ∈ w.tidings x, ∃ rel, (∀ part ∈ rel, Ordinary part) ∧ o.Spells rel y.name := by
  have hin {p : Place} (hp : p ∈ x.places) := spelled_namesIn hroot hn (hx p hp)
  have hof (p : Place) := spelled_namesOf hroot hn p
  intro y hy
  cases x with
  | created p =>
      obtain ⟨name, hname, rfl⟩ := List.mem_map.mp hy
      exact hin (List.mem_singleton_self p) name hname
  | written p =>
      obtain ⟨name, hname, rfl⟩ := List.mem_map.mp hy
      exact hin (List.mem_singleton_self p) name hname
  | removed p =>
      obtain ⟨name, hname, rfl⟩ := List.mem_map.mp hy
      rcases List.mem_append.mp hname with hname | hname
      · exact hin (List.mem_singleton_self p) name hname
      · exact hof p name hname
  | renamed s d =>
      rcases List.mem_append.mp hy with hy | hy
      · obtain ⟨name, hname, rfl⟩ := List.mem_map.mp hy
        rcases List.mem_append.mp hname with hname | hname
        · exact hin List.mem_cons_self name hname
        · exact hof s name hname
      · obtain ⟨name, hname, rfl⟩ := List.mem_map.mp hy
        exact hin (List.mem_cons_of_mem _ (List.mem_singleton_self d)) name hname

theorem watches_follow (hw : w.Watches o top rel) (hover : x.Over t)
    (hdir : t.at? (top ++ rel) = some .dir) : (w.follow x).Watches o top rel := by
  cases x with
  | created p => exact hw
  | written p => exact hw
  | removed p =>
      refine List.mem_filter.mpr ⟨hw, bne_iff_ne.mpr fun heq => ?_⟩
      obtain rfl : top ++ rel = p := heq
      cases hdir.symm.trans hover
  | renamed s d =>
      have hnot : ¬s <+: top ++ rel := fun hpre => by cases hdir.symm.trans (hover.1 _ hpre)
      refine List.mem_map.mpr
        ⟨_, List.mem_filter.mpr ⟨hw, bne_iff_ne.mpr fun heq => ?_⟩, ?_⟩
      · exact hnot (heq ▸ List.prefix_refl _)
      · dsimp only
        rw [FileTree.moved_of_not hnot]

theorem named_follow (hn : w.Named o) (x : Happening) : (w.follow x).Named o := by
  intro v hv
  cases x with
  | created p => exact hn v hv
  | written p => exact hn v hv
  | removed p => exact hn v (List.mem_filter.mp hv).1
  | renamed s d =>
      obtain ⟨v', hv', rfl⟩ := List.mem_map.mp hv
      exact hn v' (List.mem_filter.mp hv').1

theorem follow_rest (w : FileWatcher) (x : Happening) :
    (w.follow x).options = w.options ∧ (w.follow x).changes = w.changes := by
  cases x <;> exact ⟨rfl, rfl⟩

/-! ## What is looked at -/

theorem widens_note (w : FileWatcher) (name : Text) : Widens o top w (w.note name) := by
  unfold note
  split
  · exact Widens.refl o top w
  · refine ⟨rfl, ?_, fun n hin => (Tells.mem_add name n).mpr (Or.inl hin),
      fun rel hw => hw, id⟩
    unfold Debouncer.add
    split <;> rfl

theorem mem_note (hignored : w.options.ignores name = false)
    (haccepts : w.options.accepts name = true) (hstopped : w.changes.stopped = false) :
    name ∈ (w.note name).changes.pending := by
  unfold note
  rw [hignored, haccepts]
  exact (Tells.mem_add name name).mpr (Or.inr ⟨rfl, hstopped⟩)

section Look

variable (hroot : Valid o.root) (htop : lead t.cwd o.root = top) (ht : Grounded t)
  (ho : w.options = o)
include hroot htop ht ho

theorem appear_dir (hplain : t.Plain) (hrel : ∀ part ∈ rel, Ordinary part)
    (h : o.Spells rel name)
    (hvisible : o.Visible rel) (hdir : t.at? (top ++ rel) = some .dir) :
    Widens o top w (w.appear t name) ∧
      ∀ sub, o.Visible (rel ++ sub) → t.at? (top ++ (rel ++ sub)) = some .dir →
        (w.appear t name).Watches o top (rel ++ sub) := by
  subst htop
  obtain ⟨hfind, hplace⟩ := h.find ht hroot hrel hdir
  obtain ⟨names, hnames, hwidens⟩ :=
    widens_directories w hroot rfl ht hplain hrel h.clean h.valid.ne hfind hplace
  unfold appear
  rw [ho, (WatchOptions.ignores_eq_false_iff hroot hrel h.clean).mpr hvisible,
    (h.hasDir_iff ht hroot hrel).mpr hdir, if_neg Bool.false_ne_true, if_pos rfl, hnames]
  exact hwidens

theorem appear_other (hrel : ∀ part ∈ rel, Ordinary part) (h : o.Spells rel name)
    (hvisible : o.Visible rel) (hdir : t.at? (top ++ rel) ≠ some .dir) :
    w.appear t name = w.note name := by
  subst htop
  unfold appear
  rw [ho, (WatchOptions.ignores_eq_false_iff hroot hrel h.clean).mpr hvisible,
    if_neg Bool.false_ne_true, if_neg fun hd => hdir ((h.hasDir_iff ht hroot hrel).mp hd)]

/-- Whatever is looked at, no watch is lost. -/
theorem widens_handle (hplain : t.Plain) (hrel : ∀ part ∈ rel, Ordinary part) {y : Tiding}
    (h : o.Spells rel y.name) : Widens o top w (w.handle t y) := by
  cases y with
  | noted name => exact widens_note w name
  | appeared name =>
      by_cases hvisible : o.Visible rel
      · by_cases hdir : t.at? (top ++ rel) = some .dir
        · exact (appear_dir hroot htop ht ho hplain hrel h hvisible hdir).1
        · have hsame : w.handle t (.appeared name) = w.note name :=
            appear_other hroot htop ht ho hrel h hvisible hdir
          rw [hsame]
          exact widens_note w name
      · have hignored : w.options.ignores name = true := by
          have hclean : clean name = o.nameOf rel := h.clean
          rw [ho, ← Bool.not_eq_false, WatchOptions.ignores_eq_false_iff hroot hrel hclean]
          exact hvisible
        have hsame : w.handle t (.appeared name) = w := if_pos hignored
        rw [hsame]
        exact Widens.refl o top w

theorem mem_handle (hrel : ∀ part ∈ rel, Ordinary part) {y : Tiding}
    (h : o.Spells rel y.name)
    (hvisible : o.Visible rel) (hdir : t.at? (top ++ rel) ≠ some .dir)
    (haccepts : o.accepts y.name = true) (hstopped : w.changes.stopped = false) :
    y.name ∈ (w.handle t y).changes.pending := by
  have hignored : w.options.ignores y.name = false := by
    rw [ho]
    exact (WatchOptions.ignores_eq_false_iff hroot hrel h.clean).mpr hvisible
  have hnote := mem_note hignored (ho ▸ haccepts) hstopped
  cases y with
  | noted name => exact hnote
  | appeared name =>
      have hsame : w.handle t (.appeared name) = w.note name :=
        appear_other hroot htop ht ho hrel h hvisible hdir
      rw [hsame]
      exact hnote

end Look

/-- A directory that appears is watched with those below it, but no file that is in it
already becomes a change. -/
theorem changes_appear_dir (w : FileWatcher) (h : t.hasDir name = true) :
    (w.appear t name).changes = w.changes := by
  have hadd (dirs : List Text) (w : FileWatcher) :
      (dirs.foldl (·.add t ·) w).changes = w.changes := by
    induction dirs generalizing w with
    | nil => rfl
    | cons dir rest ih =>
        rw [List.foldl_cons, ih]
        unfold add
        split <;> rfl
  unfold appear
  rw [h]
  split
  · rfl
  · cases w.options.directories t name with
    | ok dirs => exact hadd dirs w
    | error e => rfl

theorem observe_eq {c : Change} {after : FileTree} {happened : List Happening}
    (hrun : w.stopped = false) (happly : c.apply t = (after, happened)) :
    w.observe t c = (happened.foldl (·.hear after ·) w, after) := by
  unfold observe
  rw [happly, hrun]
  rfl

end FileWatcher

end Deriver
