import Deriver.Proofs.Files.Content
import Deriver.Watch.Watcher

/-!
# What a change of a tree does

Main statement: `effect_apply`. Whatever is done to a tree, what stands somewhere still
stands in a directory and has an ordinary name, and no directory comes into being but that
one happening tells of it, or of a directory above it that was not there either. What is
told to be gone is gone.

The trees are compared place by place: `at?_removeAll` and `at?_rename` say what stands
where afterwards, and for new directories `Made` does.
-/

namespace Deriver

open FileName (Ordinary lead trail)

namespace FileTree

variable {t u : FileTree} {p q s d : Place} {name source target content : Text}

/-- Every place that something stands at has ordinary components. -/
def Plain (t : FileTree) : Prop := ∀ p e, t.at? p = some e → ∀ part ∈ p, Ordinary part

theorem plain_of_entries (h : ∀ e ∈ t.entries, ∀ part ∈ e.1, Ordinary part) : t.Plain := by
  intro p e hp part hpart
  unfold at? at hp
  split at hp
  · next hnil =>
      rw [List.isEmpty_iff.mp hnil] at hpart
      cases hpart
  · exact h (p, e) (Entries.mem_of_lookup hp) part hpart

theorem isBelow_iff : isBelow p q = true ↔ p <+: q := List.isPrefixOf_iff_prefix

theorem at?_of_ne (h : p ≠ []) : t.at? p = t.entries.lookup p := if_neg (by simpa using h)

/-! ## What stands where afterwards -/

theorem at?_removeAll (hp : t.resolve name = .ok p) (hne : p ≠ []) (q : Place) :
    (t.removeAll name).at? q = if p <+: q then none else t.at? q := by
  by_cases hq : q = []
  · subst hq
    rw [if_neg fun hpre => hne (List.prefix_nil.mp hpre)]
    rfl
  · unfold removeAll
    rw [hp, at?_of_ne hq, at?_of_ne hq]
    dsimp only
    rw [Entries.lookup_filter_key t.entries (!isBelow p ·)]
    by_cases hpre : p <+: q
    · rw [if_pos hpre, if_neg (by simpa using isBelow_iff.mpr hpre)]
    · rw [if_neg hpre, if_pos (by simpa [← isBelow_iff] using hpre)]

/-- What can be given another place is not above that or below it. -/
structure Movable (t : FileTree) (s d : Place) : Prop where
  some : (t.at? s).isSome = true
  dir : t.at? d ≠ .some .dir
  down : ¬s <+: d
  up : ¬d <+: s

theorem movable_of_canMove (ht : Grounded t) (h : t.canMove s d = true) :
    Movable t s d := by
  have hdown (hdir : t.at? d ≠ some .dir) (hs : (t.at? s).isSome = true) (hne : d ≠ s) :
      ¬d <+: s := by
    intro hpre
    obtain ⟨e, he⟩ := Option.isSome_iff_exists.mp hs
    exact hdir (ht.above hpre hne he)
  unfold canMove at h
  cases hs : t.at? s with
  | none => simp [hs] at h
  | some e =>
      cases hd : t.at? d with
      | none =>
          have hpre : ¬s <+: d := by
            rw [hs, hd] at h
            simpa [← isBelow_iff] using h
          have hdir : t.at? d ≠ some .dir := by simp [hd]
          have hsome : (t.at? s).isSome = true := by rw [hs]; rfl
          exact ⟨hsome, hdir, hpre, hdown hdir hsome fun heq =>
            hpre (heq ▸ List.prefix_refl _)⟩
      | some e' =>
          rw [hs, hd] at h
          cases e with
          | dir => cases e' <;> cases h
          | file content =>
              cases e' with
              | dir => cases h
              | file content' =>
                  have hne : s ≠ d := bne_iff_ne.mp h
                  have hdir : t.at? d ≠ some .dir := by simp [hd]
                  have hsome : (t.at? s).isSome = true := by rw [hs]; rfl
                  refine ⟨hsome, hdir, fun hpre => ?_, hdown hdir hsome hne.symm⟩
                  -- a file has nothing below it
                  cases hs.symm.trans (ht.above hpre hne hd)

theorem moved_append (s d r : Place) : moved s d (s ++ r) = d ++ r := by
  unfold moved
  rw [if_pos (isBelow_iff.mpr (List.prefix_append s r)), List.drop_left]

theorem moved_of_not (h : ¬s <+: p) : moved s d p = p :=
  if_neg fun hbelow => h (isBelow_iff.mp hbelow)

/-- Only what stood at or below `s` gets to a place at or below `d` that `p` is not at. -/
theorem moved_eq_append_iff (hp : ¬d <+: p) {r : Place} :
    moved s d p = d ++ r ↔ p = s ++ r := by
  by_cases hin : s <+: p
  · obtain ⟨r', rfl⟩ := hin
    rw [moved_append, List.append_right_inj, List.append_right_inj]
  · rw [moved_of_not hin]
    exact ⟨fun heq => absurd (heq ▸ List.prefix_append d r) hp,
      fun heq => absurd (heq ▸ List.prefix_append s r) hin⟩

/-- Only what stayed where it was is at a place not below `d`. -/
theorem moved_eq_iff {q : Place} (hq : ¬d <+: q) : moved s d p = q ↔ p = q ∧ ¬s <+: p := by
  by_cases hin : s <+: p
  · obtain ⟨r, rfl⟩ := hin
    rw [moved_append]
    exact ⟨fun heq => absurd (heq ▸ List.prefix_append d r) hq,
      fun h => absurd (List.prefix_append s r) h.2⟩
  · rw [moved_of_not hin, and_iff_left hin]

theorem at?_rename (hs : t.resolve source = .ok s) (hd : t.resolve target = .ok d)
    (h : Movable t s d) (q : Place) :
    (t.rename source target).at? q =
      if d <+: q then t.at? (s ++ q.drop d.length) else
      if s <+: q then none else t.at? q := by
  have hsne : s ≠ [] := fun heq => h.down (heq ▸ List.nil_prefix)
  have hdne : d ≠ [] := fun heq => h.up (heq ▸ List.nil_prefix)
  have hne : ¬(s == d || (t.at? s).isNone) = true := by
    rw [Bool.or_eq_true, beq_iff_eq, not_or, ← Option.not_isSome, h.some]
    exact ⟨fun heq => h.down (heq ▸ List.prefix_refl _), by simp⟩
  unfold rename
  rw [hs, hd]
  dsimp only
  rw [if_neg hne]
  -- what is kept does not stand where the new name leads
  have hkept : ∀ e ∈ t.entries.filter (!isBelow d ·.1), ¬d <+: e.1 := fun e he hpre => by
    have hnot := (List.mem_filter.mp he).2
    rw [isBelow_iff.mpr hpre] at hnot
    cases hnot
  by_cases hq : q = []
  · subst hq
    rw [if_neg fun hpre => hdne (List.prefix_nil.mp hpre),
      if_neg fun hpre => hsne (List.prefix_nil.mp hpre)]
    rfl
  rw [at?_of_ne hq, at?_of_ne hq]
  dsimp only
  by_cases hpre : d <+: q
  · obtain ⟨r, rfl⟩ := hpre
    have hclear : ¬d <+: s ++ r := fun hpre =>
      (List.prefix_or_prefix_of_prefix hpre (List.prefix_append s r)).elim h.up h.down
    rw [if_pos (List.prefix_append d r), List.drop_left,
      at?_of_ne (List.append_ne_nil_of_left_ne_nil hsne r)]
    refine (Entries.lookup_map fun e he => moved_eq_append_iff (hkept e he)).trans
      ((Entries.lookup_filter_key t.entries (!isBelow d ·)).trans (if_pos ?_))
    simpa [← isBelow_iff] using hclear
  · rw [if_neg hpre]
    by_cases hin : s <+: q
    · rw [if_pos hin]
      refine List.lookup_eq_none_iff.mpr fun e he => bne_iff_ne.mpr fun heq => ?_
      obtain ⟨x, hx, rfl⟩ := List.mem_map.mp he
      obtain ⟨rfl, hnot⟩ := (moved_eq_iff hpre).mp heq.symm
      exact hnot hin
    · rw [if_neg hin]
      refine (Entries.lookup_map fun e he => ?_).trans
        ((Entries.lookup_filter_key t.entries (!isBelow d ·)).trans (if_pos ?_))
      · rw [moved_eq_iff hpre]
        exact and_iff_left_of_imp fun heq => heq ▸ hin
      · simpa [← isBelow_iff] using hpre

/-! ## Ways -/

/-- Where a name comes by has ordinary components if the working directory has. -/
theorem ordinary_trail {cwd : Place} (hcwd : ∀ part ∈ cwd, Ordinary part)
    (hname : Valid name) : ∀ q ∈ trail cwd name, ∀ part ∈ q, Ordinary part := by
  have hparts : ∀ part ∈ FileName.parts name, 47 ∉ part ∧ 0 ∉ part ∧
      part.length ≤ maxName :=
    fun part hpart => ⟨FileName.not_mem_of_mem_parts hpart,
      (valid_iff.mp hname).2 part hpart⟩
  have houtset : ∀ part ∈ FileName.outset cwd name, Ordinary part := fun part hpart =>
    hcwd part ((FileName.prefix_outset cwd name).subset hpart)
  unfold FileName.trail
  generalize FileName.parts name = ps at hparts
  generalize FileName.outset cwd name = p at houtset
  induction ps generalizing p with
  | nil =>
      intro q hq
      rw [List.mem_singleton.mp hq]
      exact houtset
  | cons first ps ih =>
      obtain ⟨hfirst, hparts⟩ := List.forall_mem_cons.mp hparts
      refine List.forall_mem_cons.mpr ⟨houtset, ih hparts _ fun part hpart => ?_⟩
      unfold FileName.onward at hpart
      split at hpart
      · exact houtset part hpart
      · next hstay =>
          split at hpart
          · exact houtset part ((List.dropLast_prefix p).subset hpart)
          · next hup =>
              rcases List.mem_append.mp hpart with hpart | hpart
              · exact houtset part hpart
              · rw [List.mem_singleton.mp hpart]
                obtain ⟨hclear, hzero, hshort⟩ := hfirst
                refine ⟨⟨fun h => ?_, fun h => ?_, fun h => ?_⟩, hclear, hzero, hshort⟩
                · exact hstay (by rw [h]; rfl)
                · exact hstay (by rw [h]; rfl)
                · exact hup (by rw [h]; rfl)

/-- What a name leads to, if that is no directory, is in one. -/
theorem Grounded.parent_of_resolve (ht : Grounded t) (hp : t.resolve name = .ok p)
    (hdir : t.at? p ≠ some .dir) : t.at? p.dropLast = some .dir := by
  obtain ⟨-, hway, rfl⟩ := resolve_iff.mp hp
  obtain ⟨ps, hps⟩ := FileName.parts_last name
  have hlast : t.at? (ps.foldl FileName.onward (FileName.outset t.cwd name)) =
      some .dir := by
    refine hway _ ?_
    rw [FileName.way, hps, FileName.passes_concat]
    exact List.mem_append_right _ (List.mem_singleton_self _)
  rw [FileName.lead, hps, List.foldl_concat] at hdir ⊢
  generalize ps.foldl FileName.onward (FileName.outset t.cwd name) = r at hlast hdir
  unfold FileName.onward at hdir ⊢
  split at hdir
  · exact absurd hlast hdir
  · next hstay =>
      split at hdir
      · exact absurd (ht.above_dir (List.dropLast_prefix r) hlast) hdir
      · next hup => rwa [if_neg hstay, if_neg hup, List.dropLast_concat]

end FileTree

/-! ## What happens -/

namespace Happening

/-- The places that something happens at. -/
def places : Happening → List Place
  | .created p => [p]
  | .written p => [p]
  | .removed p => [p]
  | .renamed s d => [s, d]

/-- Something appears at a place. -/
def Brings (p : Place) : Happening → Prop
  | .created q => q = p
  | .renamed _ q => q = p
  | _ => False

theorem Brings.unique {p q : Place} {x : Happening} (hp : x.Brings p) (hq : x.Brings q) :
    p = q := by
  cases x with
  | created r => exact Eq.trans (Eq.symm hp) hq
  | renamed r r' => exact Eq.trans (Eq.symm hp) hq
  | written r => cases hp
  | removed r => cases hp

/-- What happens at a place itself leaves something there. -/
def Touches (p : Place) : Happening → Prop
  | .created q => q = p
  | .written q => q = p
  | .removed _ => False
  | .renamed _ q => q = p

theorem Touches.mem_places {p : Place} {x : Happening} (h : x.Touches p) :
    p ∈ x.places := by
  cases x with
  | created q => exact List.mem_singleton.mpr (Eq.symm h)
  | written q => exact List.mem_singleton.mpr (Eq.symm h)
  | renamed q r => exact List.mem_cons_of_mem _ (List.mem_singleton.mpr (Eq.symm h))
  | removed q => cases h

/-- What is told to be gone is gone. -/
def Over (t : FileTree) : Happening → Prop
  | .removed p => t.at? p = none
  | .renamed s d => (∀ q, s <+: q → t.at? q = none) ∧ ¬s <+: d
  | _ => True

end Happening

open FileTree

/-- What a change does to a tree, and what happens with it. -/
structure Effect (t u : FileTree) (hs : List Happening) : Prop where
  cwd : u.cwd = t.cwd
  grounded : u.at? u.cwd = some .dir → Grounded u
  plain : u.Plain
  ordinary : ∀ h ∈ hs, ∀ p ∈ h.places, ∀ part ∈ p, Ordinary part
  passed : ∀ h ∈ hs, h.Over u
  brought : ∀ p, u.at? p = some .dir →
    t.at? p = some .dir ∨ ∃ h ∈ hs, ∃ q, q <+: p ∧ h.Brings q ∧ t.at? q ≠ some .dir

variable {t u v : FileTree} {hs : List Happening} {name content : Text} {p s d : Place}

theorem effect_none (ht : Grounded t) (hplain : t.Plain) : Effect t t [] where
  cwd := rfl
  grounded _ := ht
  plain := hplain
  ordinary _ hh := nomatch hh
  passed _ hh := nomatch hh
  brought _ hp := Or.inl hp

theorem mem_newDirs {h : Happening} :
    h ∈ Change.newDirs t u ↔ ∃ p, h = .created p ∧ (p, Entry.dir) ∈ u.entries ∧
    t.at? p = none := by
  unfold Change.newDirs
  rw [List.mem_filterMap]
  constructor
  · rintro ⟨⟨p, e⟩, he, hif⟩
    dsimp only at hif
    split at hif
    · next hnew =>
        obtain ⟨hdir, hnone⟩ := Bool.and_eq_true_iff.mp hnew
        cases e with
        | dir =>
            exact ⟨p, (Option.some.inj hif).symm, he, Option.isNone_iff_eq_none.mp hnone⟩
        | file content => cases hdir
    · cases hif
  · rintro ⟨p, rfl, he, hnone⟩
    exact ⟨(p, .dir), he, by simp [Entry.isDir, hnone]⟩

theorem effect_grows (hg : Grows t u) (hu : Grounded u) (hplain : u.Plain) :
    Effect t u (Change.newDirs t u) where
  cwd := hg.cwd
  grounded _ := hu
  plain := hplain
  ordinary h hh := by
    obtain ⟨p, rfl, hin, hnone⟩ := mem_newDirs.mp hh
    have hne : p ≠ [] := fun heq => by
      subst heq
      cases hnone
    obtain ⟨e, he⟩ := Option.isSome_iff_exists.mp (Entries.lookup_of_mem hin)
    exact List.forall_mem_singleton.mpr (hplain p e ((at?_of_ne hne).trans he))
  passed h hh := by
    obtain ⟨p, rfl, -⟩ := mem_newDirs.mp hh
    trivial
  brought p hp := by
    by_cases hold : t.at? p = some .dir
    · exact Or.inl hold
    · refine Or.inr ⟨.created p, mem_newDirs.mpr ⟨p, rfl, ?_, ?_⟩, p,
        List.prefix_refl p, rfl, hold⟩
      · have hne : p ≠ [] := fun heq => hold (heq ▸ at?_nil t)
        exact Entries.mem_of_lookup ((at?_of_ne hne).symm.trans hp)
      · refine Option.eq_none_iff_forall_ne_some.mpr fun e he => hold ?_
        rw [he, ← hg.at? p e he, hp]

theorem plain_made (ht : Grounded t) (hplain : t.Plain) (h : Made name t u) : u.Plain := by
  intro p e hp
  by_cases hmem : p ∈ trail t.cwd name
  · exact ordinary_trail (hplain t.cwd .dir ht.cwd) h.valid p hmem
  · exact hplain p e ((h.others p hmem).symm.trans hp)

theorem effect_makeDirs (ht : Grounded t) (hplain : t.Plain) (name : Text) :
    Effect t ((t.makeDirs name).toOption.getD t)
      (Change.newDirs t ((t.makeDirs name).toOption.getD t)) := by
  cases h : t.makeDirs name with
  | error e => exact effect_grows (Grows.refl t) ht hplain
  | ok u =>
      have hmade := made_of_makeDirs h
      exact effect_grows hmade.grows (hmade.grounded ht) (plain_made ht hplain hmade)

theorem Effect.write (h : Effect t v (Change.newDirs t v)) (hv : Grounded v)
    (hp : v.resolve name = .ok p) (hdir : v.at? p ≠ some .dir) {more : List Happening}
    (hmore : ∀ x ∈ more, x = .created p ∨ x = .written p) :
    Effect t (v.put p (.file content)) (Change.newDirs t v ++ more) := by
  have hne : p ≠ [] := fun heq => hdir (heq ▸ at?_nil v)
  have hordinary : ∀ part ∈ p, Ordinary part := by
    obtain ⟨hvalid, -, rfl⟩ := resolve_iff.mp hp
    exact ordinary_trail (h.plain v.cwd .dir hv.cwd) hvalid _
      (FileName.mem_trail.mpr (Or.inr rfl))
  have hold {q : Place} (hq : (v.put p (.file content)).at? q = some .dir) :
      v.at? q = some .dir := by
    have hqp : q ≠ p := by
      rintro rfl
      cases (at?_put_self hne _).symm.trans hq
    exact (at?_put hqp _).symm.trans hq
  constructor
  case cwd => exact h.cwd
  case grounded =>
    exact fun _ => hv.put (hv.parent_of_resolve hp hdir) fun hd => absurd hd hdir
  case plain =>
    intro q e hq
    by_cases hqp : q = p
    · exact hqp ▸ hordinary
    · exact h.plain q e ((at?_put hqp _).symm.trans hq)
  case ordinary =>
    refine List.forall_mem_append.mpr ⟨h.ordinary, fun x hx => ?_⟩
    rcases hmore x hx with rfl | rfl <;> exact List.forall_mem_singleton.mpr hordinary
  case passed =>
    refine List.forall_mem_append.mpr ⟨fun x hx => ?_, fun x hx => ?_⟩
    · obtain ⟨q, rfl, -⟩ := mem_newDirs.mp hx
      trivial
    · rcases hmore x hx with rfl | rfl <;> trivial
  case brought =>
    intro q hq
    refine (h.brought q (hold hq)).imp_right fun ⟨x, hx, r, hr⟩ =>
      ⟨x, List.mem_append_left _ hx, r, hr⟩

/-- What is removed is gone with all that was below it, and everything else stays. -/
theorem effect_remove (ht : Grounded t) (hplain : t.Plain) (hp : t.resolve name = .ok p)
    (hne : p ≠ []) (hsome : (t.at? p).isSome = true) :
    Effect t (t.removeAll name)
      (((t.below p).reverse.map fun e => .removed e.1) ++ [.removed p]) := by
  have hat := at?_removeAll hp hne
  have hcwd : (t.removeAll name).cwd = t.cwd := by
    unfold removeAll
    rw [hp]
  have hold {q : Place} {e : Entry} (hq : (t.removeAll name).at? q = some e) :
      ¬p <+: q ∧ t.at? q = some e := by
    rw [hat] at hq
    split at hq
    · cases hq
    · next hpre => exact ⟨hpre, hq⟩
  have hhappened : ∀ x ∈ ((t.below p).reverse.map fun e => Happening.removed e.1) ++
      [.removed p],
      ∃ q, x = .removed q ∧ p <+: q ∧ (t.at? q).isSome = true := by
    refine List.forall_mem_append.mpr ⟨fun x hx => ?_, ?_⟩
    · obtain ⟨⟨q, e⟩, he, rfl⟩ := List.mem_map.mp hx
      obtain ⟨hin, hbelow⟩ := List.mem_filter.mp (List.mem_reverse.mp he)
      have hpre : p <+: q := isBelow_iff.mp (Bool.and_eq_true_iff.mp hbelow).1
      have hqne : q ≠ [] := fun heq => hne (List.prefix_nil.mp (heq ▸ hpre))
      refine ⟨q, rfl, hpre, ?_⟩
      rw [at?_of_ne hqne]
      exact Entries.lookup_of_mem hin
    · exact List.forall_mem_singleton.mpr ⟨p, rfl, List.prefix_refl p, hsome⟩
  constructor
  case cwd => exact hcwd
  case grounded =>
    intro h
    refine ⟨h, fun q part e hq => ?_⟩
    obtain ⟨hpre, hq⟩ := hold hq
    rw [hat, if_neg fun hpre' => hpre (hpre'.trans (List.prefix_append q [part]))]
    exact ht.parent q part e hq
  case plain => exact fun q e hq => hplain q e (hold hq).2
  case ordinary =>
    intro x hx
    obtain ⟨q, rfl, -, hq⟩ := hhappened x hx
    obtain ⟨e, he⟩ := Option.isSome_iff_exists.mp hq
    exact List.forall_mem_singleton.mpr (hplain q e he)
  case passed =>
    intro x hx
    obtain ⟨q, rfl, hpre, -⟩ := hhappened x hx
    exact (hat q).trans (if_pos hpre)
  case brought => exact fun q hq => Or.inl (hold hq).2

theorem of_at?_rename {source target : Text} (hs : t.resolve source = .ok s)
    (hd : t.resolve target = .ok d) (h : Movable t s d) {q : Place} {e : Entry}
    (hq : (t.rename source target).at? q = some e) :
    (∃ r, q = d ++ r ∧ t.at? (s ++ r) = some e) ∨ ¬d <+: q ∧ ¬s <+: q ∧
    t.at? q = some e := by
  rw [at?_rename hs hd h] at hq
  split at hq
  · next hpre =>
      obtain ⟨r, rfl⟩ := hpre
      rw [List.drop_left] at hq
      exact Or.inl ⟨r, rfl, hq⟩
  · next hpre =>
      split at hq
      · cases hq
      · next hin => exact Or.inr ⟨hpre, hin, hq⟩

theorem parent_rename (ht : Grounded t) {source target : Text}
    (hs : t.resolve source = .ok s)
    (hd : t.resolve target = .ok d) (h : Movable t s d) {q : Place}
    {part : Text} {e : Entry} (hq : (t.rename source target).at? (q ++ [part]) = some e) :
    (t.rename source target).at? q = some .dir := by
  have hat := at?_rename hs hd h
  rcases of_at?_rename hs hd h hq with ⟨r, hqr, hr⟩ | ⟨hpre, hin, hq⟩
  · rcases List.eq_nil_or_concat' r with rfl | ⟨r, last, rfl⟩
    · -- the place itself is in a directory that stayed
      have hparent : t.at? d.dropLast = some .dir := ht.parent_of_resolve hd h.dir
      rw [List.append_nil] at hqr
      rw [← hqr, List.dropLast_concat] at hparent
      rw [hat, if_neg, if_neg, hparent]
      · exact fun hpre => h.down (hqr ▸ hpre.trans (List.prefix_append q [part]))
      · intro hpre
        have := hpre.length_le
        rw [← hqr, List.length_append, List.length_singleton] at this
        omega
    · rw [← List.append_assoc] at hqr hr
      obtain ⟨rfl, hpart⟩ := List.append_inj' hqr rfl
      rw [hat, if_pos (List.prefix_append d r), List.drop_left]
      exact ht.parent _ last e hr
  · rw [hat, if_neg, if_neg]
    · exact ht.parent q part e hq
    · exact fun hpre' => hin (hpre'.trans (List.prefix_append q [part]))
    · exact fun hpre' => hpre (hpre'.trans (List.prefix_append q [part]))

theorem effect_rename (ht : Grounded t) (hplain : t.Plain) {source target : Text}
    (hs : t.resolve source = .ok s) (hd : t.resolve target = .ok d) (h : Movable t s d) :
    Effect t (t.rename source target) [.renamed s d] := by
  have hcwd : (t.rename source target).cwd = t.cwd := by
    unfold rename
    rw [hs, hd]
    dsimp only
    split <;> rfl
  have hordinary : ∀ part ∈ d, Ordinary part := by
    obtain ⟨hvalid, -, rfl⟩ := resolve_iff.mp hd
    exact ordinary_trail (hplain t.cwd .dir ht.cwd) hvalid _
      (FileName.mem_trail.mpr (Or.inr rfl))
  constructor
  case cwd => exact hcwd
  case grounded => exact fun hdir => ⟨hdir, fun q part e => parent_rename ht hs hd h⟩
  case plain =>
    intro q e hq part hpart
    rcases of_at?_rename hs hd h hq with ⟨r, rfl, hr⟩ | ⟨-, -, hq⟩
    · rcases List.mem_append.mp hpart with hpart | hpart
      · exact hordinary part hpart
      · exact hplain _ e hr part (List.mem_append_right _ hpart)
    · exact hplain q e hq part hpart
  case ordinary =>
    obtain ⟨e, he⟩ := Option.isSome_iff_exists.mp h.some
    refine List.forall_mem_singleton.mpr (List.forall_mem_cons.mpr ⟨hplain s e he, ?_⟩)
    exact List.forall_mem_singleton.mpr hordinary
  case passed =>
    refine List.forall_mem_singleton.mpr ⟨fun q hpre => ?_, h.down⟩
    rw [at?_rename hs hd h, if_neg, if_pos hpre]
    intro hpre'
    exact (List.prefix_or_prefix_of_prefix hpre hpre').elim h.down h.up
  case brought =>
    intro q hq
    rcases of_at?_rename hs hd h hq with ⟨r, rfl, hr⟩ | ⟨-, -, hq⟩
    · exact Or.inr ⟨_, List.mem_singleton_self _, d, List.prefix_append d r, rfl, h.dir⟩
    · exact Or.inl hq

theorem effect_apply (ht : Grounded t) (hplain : t.Plain) (c : Change) :
    Effect t (c.apply t).1 (c.apply t).2 := by
  cases c with
  | makeDir name =>
      have h := effect_makeDirs ht hplain name
      unfold Change.apply
      dsimp only
      split
      · next u hmake =>
          rw [hmake] at h
          exact h
      · exact effect_none ht hplain
  | write name content =>
      have h := effect_makeDirs ht hplain (FileName.dir name)
      have hgrounded : Grounded ((t.makeDirs (FileName.dir name)).toOption.getD t) := by
        cases hmake : t.makeDirs (FileName.dir name) with
        | error e => exact ht
        | ok u => exact (made_of_makeDirs hmake).grounded ht
      unfold Change.apply
      dsimp only
      generalize (t.makeDirs (FileName.dir name)).toOption.getD t = v at h hgrounded
      split
      · next place after hp hafter =>
          rw [write_of_resolve hp] at hafter
          split at hafter
          · cases hafter
          · next hdir =>
              obtain rfl := Except.ok.inj hafter
              rw [List.append_assoc]
              refine h.write hgrounded hp hdir fun x hx => ?_
              rcases List.mem_append.mp hx with hx | hx
              · split at hx
                · exact Or.inl (List.mem_singleton.mp hx)
                · cases hx
              · exact Or.inr (List.mem_singleton.mp hx)
      · exact effect_none ht hplain
  | remove name =>
      unfold Change.apply
      dsimp only
      split
      · next place hp =>
          split
          · exact effect_none ht hplain
          · next hne =>
              rw [Bool.or_eq_true, not_or] at hne
              exact effect_remove ht hplain hp (by simpa using hne.1)
                (by simpa [Option.isSome_iff_ne_none] using hne.2)
      · exact effect_none ht hplain
  | rename source target =>
      unfold Change.apply
      dsimp only
      split
      · next s d hs hd =>
          split
          · next hmove => exact effect_rename ht hplain hs hd (movable_of_canMove ht hmove)
          · exact effect_none ht hplain
      · exact effect_none ht hplain

end Deriver
