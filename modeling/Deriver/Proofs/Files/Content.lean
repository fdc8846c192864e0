import Deriver.Proofs.Files.Directories

/-!
# What files hold

In a tree that stands on directories, a name reads what the file at its place holds if it is
straight, or if what it passes are directories: `Grounded.read_iff_content`. So what an
operation does to what names read can be told place by place: `Touches.read?`. Making
directories, writing and removing leave a tree standing on directories.
-/

namespace Deriver

namespace FileName

variable {cwd : Place} {name : Text} {p q : Place}

/-- A clean name ends with an ordinary component, or leads upward only. -/
theorem proper_last_or_above (hclean : clean name = name) :
    Proper (last name) ∨ lead cwd name <+: cwd := by
  have hmoves : moves name = (stackOf name).reverse :=
    hclean ▸ (stackOf_clean name).1 ▸ moves_clean name
  obtain ⟨n, down, hdown, hproper⟩ := hclean ▸ direct_clean name
  rcases List.eq_nil_or_concat down with rfl | ⟨init, top, rfl⟩
  · refine Or.inr ?_
    rw [← lead_moves, hdown, List.append_nil]
    exact (foldl_onward_up n _).trans (prefix_outset cwd name)
  · refine Or.inl ?_
    have hstack : stackOf name = top ::
        (List.replicate n (".." : Text) ++ init).reverse := by
      rw [← List.reverse_reverse (stackOf name), ← hmoves, hdown, List.concat_eq_append,
        ← List.append_assoc, List.reverse_append]
      rfl
    rw [← hclean, last_clean_of_stack hstack]
    exact hproper top (by simp)

theorem foldl_onward_push {rooted : Bool} {stack : List Text} (h : Normal rooted stack)
    (hrooted : rooted = true → p = []) (part : Text) :
    (push rooted stack part).reverse.foldl onward p =
      onward (stack.reverse.foldl onward p) part := by
  have hput (stack : List Text) : (part :: stack).reverse.foldl onward p =
      onward (stack.reverse.foldl onward p) part := by
    rw [List.reverse_cons, List.foldl_append]
    rfl
  cases hmoving : moving part with
  | false => rw [push_of_not_moving hmoving, onward_of_not_moving hmoving]
  | true =>
      have hstay : (part.isEmpty || part == ".") = false := Bool.not_eq_eq_eq_not.mp hmoving
      by_cases hup : part = ".."
      · subst hup
        cases h with
        | nil =>
            cases rooted with
            | true => rw [hrooted rfl]; rfl
            | false => rfl
        | @proper top stack hp hclear h =>
            have hne : (top == "..") = false := by simpa using hp.2.2
            have hpush : push rooted (top :: stack) ".." = stack := by
              rw [push, if_neg (by decide), if_pos (by decide), hne]
              rfl
            rw [hpush, List.reverse_cons, List.foldl_append, List.foldl_cons,
              List.foldl_nil, onward_proper hp]
            exact (List.dropLast_concat).symm
        | up _ _ _ => exact hput _
      · rw [push_proper ⟨by simpa using (Bool.or_eq_false_iff.mp hstay).1,
          by simpa using (Bool.or_eq_false_iff.mp hstay).2, hup⟩]
        exact hput stack

theorem lead_clean (cwd : Place) (name : Text) : lead cwd (clean name) = lead cwd name := by
  have houtset : outset cwd (clean name) = outset cwd name := by
    rw [outset, (stackOf_clean name).2, outset]
  have hrooted (habs : isAbsolute name = true) : outset cwd name = [] := if_pos habs
  have hpush (ps : List Text) (hps : ∀ part ∈ ps, 47 ∉ part) (stack : List Text)
      (h : Normal (isAbsolute name) stack) :
      (ps.foldl (push (isAbsolute name)) stack).reverse.foldl onward (outset cwd name) =
        ps.foldl onward (stack.reverse.foldl onward (outset cwd name)) := by
    induction ps generalizing stack with
    | nil => rfl
    | cons part ps ih =>
        rw [List.foldl_cons, ih (fun q hq => hps q (List.mem_cons_of_mem part hq)) _
          (h.push (hps part (List.mem_cons_self ..))),
          foldl_onward_push h hrooted]
        rfl
  rw [← lead_moves, houtset, moves_clean, lead]
  exact hpush _ (fun part => not_mem_of_mem_parts) [] .nil

/-- The place of a name with an ordinary last component is in that of its directory. -/
theorem lead_eq_dir (cwd : Place) (hlast : Proper (last name)) :
    lead cwd name = lead cwd (dir name) ++ [last name] := by
  obtain ⟨ps, hps⟩ := parts_last name
  have houtset : outset cwd (front name) = outset cwd name := by
    rw [outset, isAbsolute_front, outset]
  rw [dir_eq, lead_clean, lead, lead, hps, parts_front hps, List.foldl_append,
    List.foldl_append, houtset]
  exact onward_proper hlast _

/-- A name of a place in a directory or above the working directory, with no way up from
a directory that was gone down to. -/
structure Straight (cwd : Place) (name : Text) : Prop where
  direct : Direct (moves name)
  ending : Proper (last name) ∨ lead cwd name <+: cwd

theorem straight_of_clean (cwd : Place) (hclean : clean name = name) : Straight cwd name :=
  ⟨direct_of_clean hclean, proper_last_or_above hclean⟩

end FileName

namespace FileTree

open FileName (way lead trail Direct moves Straight mem_trail)

variable {t u : FileTree} {p q : Place} {name content : Text}

/-! ## Reading -/

/-- The content of the file at a place, if there is one. -/
def content? (t : FileTree) (p : Place) : Option Text :=
  match t.at? p with
  | some (.file content) => some content
  | _ => none

theorem content?_eq_some : t.content? p = some content ↔
    t.at? p = some (.file content) := by
  unfold content?
  cases t.at? p with
  | none => exact ⟨nofun, nofun⟩
  | some e =>
      cases e with
      | dir => exact ⟨nofun, nofun⟩
      | file c => exact ⟨fun h => by cases h; rfl, fun h => by cases h; rfl⟩

theorem Grounded.way_of_file (ht : Grounded t) (hname : Straight t.cwd name)
    (hfile : t.at? (lead t.cwd name) = some (.file content)) (hq : q ∈ way t.cwd name) :
    t.at? q = some .dir := by
  have hdir (hcwd : q <+: t.cwd) : t.at? q = some .dir := ht.above_cwd hcwd
  by_cases hlead : q = lead t.cwd name
  · refine hdir ?_
    rcases hname.ending with hproper | habove
    · have hmem := (FileName.mem_trail_dir hname.direct).mpr hq
      have hdirect : Direct (moves (FileName.dir name)) := FileName.direct_clean _
      rcases FileName.prefix_of_mem_trail hdirect hmem with hbelow | hcwd
      · have hlength := hbelow.length_le
        rw [hlead, FileName.lead_eq_dir t.cwd hproper, List.length_append] at hlength
        exact absurd hlength (Nat.not_succ_le_self _)
      · exact hcwd
    · exact hlead ▸ habove
  · exact ht.way_of_lead hname.direct hfile hq hlead

/-- A name that reads what is at its place: it is straight, or every place it passes is
that of a directory. -/
def Stands (t : FileTree) (name : Text) : Prop :=
  Straight t.cwd name ∨ ∀ q ∈ way t.cwd name, t.at? q = some .dir

theorem Grounded.read_iff_content (ht : Grounded t) (hname : t.Stands name) :
    t.read name = .ok content ↔ Valid name ∧
    t.content? (lead t.cwd name) = some content := by
  rw [read_eq_ok_iff, content?_eq_some]
  refine ⟨fun ⟨hvalid, _, hfile⟩ => ⟨hvalid, hfile⟩,
    fun ⟨hvalid, hfile⟩ => ⟨hvalid, ?_, hfile⟩⟩
  exact hname.elim (fun hname _ hq => ht.way_of_file hname hfile hq) id

/-- What a name reads, if it reads anything. -/
def read? (t : FileTree) (name : Text) : Option Text := (t.read name).toOption

theorem read?_eq_some : t.read? name = some content ↔ t.read name = .ok content := by
  unfold read?
  cases t.read name with
  | error e => exact ⟨nofun, nofun⟩
  | ok c => exact ⟨fun h => by cases h; rfl, fun h => by cases h; rfl⟩

theorem read?_eq_none : t.read? name = none ↔ ∀ content, t.read name ≠ .ok content := by
  rw [Option.eq_none_iff_forall_ne_some]
  simp only [ne_eq, read?_eq_some]

/-- Something is done at one place. Elsewhere all stays, but for directories that are made
where there was nothing. -/
structure Touches (p : Place) (t u : FileTree) : Prop where
  cwd : u.cwd = t.cwd
  grounded : Grounded u
  others : ∀ q, q ≠ p → u.at? q = t.at? q ∨ t.at? q = none ∧ u.at? q = some .dir

theorem Touches.refl (p : Place) (ht : Grounded t) : Touches p t t :=
  ⟨rfl, ht, fun _ _ => Or.inl rfl⟩

theorem Touches.content? (h : Touches p t u) (hq : q ≠ p) :
    u.content? q = t.content? q := by
  rcases h.others q hq with hsame | ⟨hnone, hdir⟩
  · rw [FileTree.content?, hsame, FileTree.content?]
  · rw [FileTree.content?, hdir, FileTree.content?, hnone]

/-- Whether a name stands after something was done at a place: unless it is straight, no
directory on its way may be at that place. -/
def Spared (p : Place) (t : FileTree) (name : Text) : Prop :=
  Straight t.cwd name ∨ t.at? p ≠ some .dir ∨ p ∉ way t.cwd name

theorem Touches.stands (h : Touches p t u) (hname : t.Stands name)
    (hspared : Spared p t name) : u.Stands name := by
  unfold Stands
  rw [h.cwd]
  rcases hname with hstraight | hway
  · exact Or.inl hstraight
  refine hspared.imp id fun hspared q hq => ?_
  have hdir := hway q hq
  have hne : q ≠ p := by
    rintro rfl
    exact hspared.elim (fun h => h hdir) (fun h => h hq)
  rcases h.others q hne with hsame | ⟨-, hmade⟩
  · exact hsame.trans hdir
  · exact hmade

/-- What is done at another place makes no difference to what a name reads. -/
theorem Touches.read? (h : Touches p t u) (ht : Grounded t) (hname : t.Stands name)
    (hspared : Spared p t name) (hne : lead t.cwd name ≠ p) :
    u.read? name = t.read? name := by
  refine Option.ext fun content => ?_
  rw [read?_eq_some, read?_eq_some, h.grounded.read_iff_content (h.stands hname hspared),
    ht.read_iff_content hname, h.cwd, h.content? hne]

/-! ## Operations on a tree that stands on directories -/

/-- What holds above the place that components set out from, and wherever they come by,
holds above every place they come by. -/
theorem above_trailFrom {D : Place → Prop} {ps : List Text} (hp : ∀ r, r <+: p → D r)
    (hall : ∀ q ∈ FileName.trailFrom p ps, D q) :
    ∀ q ∈ FileName.trailFrom p ps, ∀ r, r <+: q → D r := by
  induction ps generalizing p with
  | nil =>
      intro q hq
      rw [List.mem_singleton.mp hq]
      exact hp
  | cons part ps ih =>
      have honward : ∀ r, r <+: FileName.onward p part → D r := by
        have hself : D (FileName.onward p part) :=
          hall _ (List.mem_cons_of_mem _ (FileName.head_mem_trailFrom _ _))
        intro r hr
        unfold FileName.onward at hr hself
        split at hr
        · exact hp r hr
        · split at hr
          · exact hp r (hr.trans (List.dropLast_prefix p))
          · next hstay hup =>
              rw [if_neg hstay, if_neg hup] at hself
              rcases List.prefix_concat_iff.mp hr with rfl | hr
              · exact hself
              · exact hp r hr
      intro q hq
      rcases List.mem_cons.mp hq with rfl | hq
      · exact hp
      · exact ih honward (fun q hq => hall q (List.mem_cons_of_mem _ hq)) q hq

theorem Made.grounded (ht : Grounded t) (h : Made name t u) : Grounded u := by
  have hdir {p : Place} (hp : t.at? p = some .dir) : u.at? p = some .dir := by
    by_cases hmem : p ∈ trail t.cwd name
    · exact h.dirs p hmem
    · exact (h.others p hmem).trans hp
  have habove : ∀ q ∈ trail t.cwd name, ∀ r, r <+: q → u.at? r = some .dir :=
    above_trailFrom (fun r hr =>
      hdir (ht.above_cwd (hr.trans (FileName.prefix_outset _ _)))) h.dirs
  refine ⟨by rw [h.grows.cwd]; exact hdir ht.cwd, fun p part e hp => ?_⟩
  by_cases hmem : p ++ [part] ∈ trail t.cwd name
  · exact habove _ hmem p (List.prefix_append _ _)
  · rw [h.others _ hmem] at hp
    exact hdir (ht.parent p part e hp)

/-- What is removed is not the working directory and has nothing below. -/
theorem Grounded.remove (ht : Grounded t) (hcwd : lead t.cwd name ≠ t.cwd)
    (h : t.remove name = .ok u) : Grounded u := by
  obtain ⟨-, -, ⟨e, he, hempty⟩, rfl⟩ := remove_eq_ok_iff.mp h
  refine ht.without hcwd fun part => ?_
  cases e with
  | dir => exact isEmpty_below.mp (hempty rfl) _ (List.prefix_append _ _) (by simp)
  | file content =>
      refine Option.eq_none_iff_forall_ne_some.mpr fun e hpart => ?_
      rw [ht.parent _ part e hpart] at he
      cases he

end FileTree

end Deriver

/-!
## Names of what is below a directory

What a walk finds below a directory has the name of the directory with the components from
there put behind it. Such a name leads to where the directory is and then down
(`lead_join`), and it says from the directory which way to go (`relative?_join`). Both go by
the stack of components, on which ordinary components are just laid (`stackOf_join`), so it
does not matter which of its spellings the directory is given by.
-/

namespace Deriver

namespace FileName

variable {a b name part : Text} {cwd p q : Place} {rel sub : List Text}

/-- A component as there are in a directory. -/
structure Ordinary (part : Text) : Prop where
  proper : Proper part
  clear : 47 ∉ part
  zero : 0 ∉ part
  short : part.length ≤ FileTree.maxName

instance (part : Text) : Decidable (Ordinary part) :=
  decidable_of_iff (Proper part ∧ 47 ∉ part ∧ 0 ∉ part ∧ part.length ≤ FileTree.maxName)
    ⟨fun ⟨h1, h2, h3, h4⟩ => ⟨h1, h2, h3, h4⟩, fun ⟨h1, h2, h3, h4⟩ => ⟨h1, h2, h3, h4⟩⟩

theorem join_cons (ha : a ≠ []) (rel : List Text) :
    join (a :: rel) = clean (Text.join "/" (a :: rel)) := by
  unfold join
  rw [List.dropWhile_cons_of_neg (by simpa using ha)]

theorem clean_join (ha : a ≠ []) (rel : List Text) :
    clean (join (a :: rel)) = join (a :: rel) := by
  rw [join_cons ha, clean_clean]

theorem join_singleton (ha : a ≠ []) : join [a] = clean a := join_cons ha []

theorem text_join_cons (a part : Text) (rel : List Text) :
    Text.join "/" (a :: part :: rel) = Text.join "/" ((a ++ 47 :: part) :: rel) := by
  cases rel with
  | nil => exact List.append_assoc a [47] part
  | cons next rel =>
      simp only [Text.join, List.append_assoc]
      rfl

theorem stackOf_join (ha : a ≠ []) (hrel : ∀ part ∈ rel, Ordinary part) :
    stackOf (join (a :: rel)) = rel.reverse ++ stackOf a ∧
      isAbsolute (join (a :: rel)) = isAbsolute a := by
  rw [join_cons ha, (stackOf_clean _).1, (stackOf_clean _).2]
  induction rel generalizing a with
  | nil => exact ⟨rfl, rfl⟩
  | cons part rel ih =>
      obtain ⟨hpart, hrel⟩ := List.forall_mem_cons.mp hrel
      obtain ⟨hstack, habs⟩ := stackOf_slash ha hpart.proper hpart.clear
      obtain ⟨hstacks, habss⟩ := ih (List.append_ne_nil_of_left_ne_nil ha _) hrel
      rw [text_join_cons, hstacks, habss, hstack, habs, List.reverse_cons,
        List.append_assoc]
      exact ⟨rfl, rfl⟩

theorem join_eq_iff (ha : a ≠ []) (hrel : ∀ part ∈ rel, Ordinary part) :
    clean name = join (a :: rel) ↔
      stackOf name = rel.reverse ++ stackOf a ∧ isAbsolute name = isAbsolute a := by
  rw [← clean_join ha, clean_eq_clean_iff, (stackOf_join ha hrel).1,
    (stackOf_join ha hrel).2]

theorem clean_slash_join (ha : a ≠ []) (hrel : ∀ part ∈ rel, Ordinary part)
    (hpart : Ordinary part) (hname : name ≠ []) (h : clean name = join (a :: rel)) :
    clean (name ++ 47 :: part) = join (a :: (rel ++ [part])) := by
  have hall : ∀ x ∈ rel ++ [part], Ordinary x := by
    simpa [or_imp, forall_and] using ⟨hrel, hpart⟩
  obtain ⟨hstack, habs⟩ := (join_eq_iff ha hrel).mp h
  obtain ⟨hstack', habs'⟩ := stackOf_slash hname hpart.proper hpart.clear
  rw [join_eq_iff ha hall, hstack', habs', hstack, habs]
  simp

theorem join_join (ha : a ≠ []) (hrel : ∀ part ∈ rel, Ordinary part)
    (hsub : ∀ part ∈ sub, Ordinary part) (hname : name ≠ [])
    (h : clean name = join (a :: rel)) :
    join (name :: sub) = join (a :: (rel ++ sub)) := by
  have hall : ∀ part ∈ rel ++ sub, Ordinary part := by
    simpa [or_imp, forall_and] using ⟨hrel, hsub⟩
  obtain ⟨hstack, habs⟩ := (join_eq_iff ha hrel).mp h
  obtain ⟨hstack', habs'⟩ := stackOf_join hname hsub
  rw [← clean_join hname, join_eq_iff ha hall, hstack', habs', hstack, habs]
  simp

theorem lead_stackOf (cwd : Place) (name : Text) :
    lead cwd name = (stackOf name).reverse.foldl onward (outset cwd name) := by
  rw [← lead_clean, ← lead_moves, moves_clean, outset, (stackOf_clean name).2, outset]

/-- The name of what is below a directory leads to the directory and then down. -/
theorem lead_join (cwd : Place) (ha : a ≠ []) (hrel : ∀ part ∈ rel, Ordinary part)
    (h : clean name = join (a :: rel)) : lead cwd name = lead cwd a ++ rel := by
  obtain ⟨hstack, habs⟩ := (join_eq_iff ha hrel).mp h
  rw [lead_stackOf, hstack, outset, habs, List.reverse_append, List.reverse_reverse,
    List.foldl_append, foldl_onward_proper fun part hpart => (hrel part hpart).proper,
    lead_stackOf cwd a, outset]

theorem mem_parts_of_mem_stackOf (h : part ∈ stackOf name) : part ∈ parts name := by
  have hall (rooted : Bool) (ps stack : List Text)
      (hin : part ∈ ps.foldl (push rooted) stack) :
      part ∈ ps ∨ part ∈ stack := by
    induction ps generalizing stack with
    | nil => exact Or.inr hin
    | cons first ps ih =>
        rcases ih _ hin with hps | hstack
        · exact Or.inl (List.mem_cons_of_mem _ hps)
        · unfold push at hstack
          split at hstack
          · exact Or.inr hstack
          · split at hstack
            · split at hstack
              · split at hstack
                · cases hstack
                · rw [List.mem_singleton.mp hstack]
                  exact Or.inl List.mem_cons_self
              · split at hstack
                · rcases List.mem_cons.mp hstack with rfl | hstack
                  · exact Or.inl List.mem_cons_self
                  · exact Or.inr hstack
                · exact Or.inr (List.mem_cons_of_mem _ hstack)
            · rcases List.mem_cons.mp hstack with rfl | hstack
              · exact Or.inl List.mem_cons_self
              · exact Or.inr hstack
  exact (hall _ _ _ h).resolve_right (List.not_mem_nil)

/-! ## From the directory -/

theorem splitCommon_append (xs ys : List Text) : splitCommon xs (xs ++ ys) = ([], ys) := by
  induction xs with
  | nil => unfold splitCommon; rfl
  | cons x xs ih => rw [List.cons_append, splitCommon, if_pos (beq_self_eq_true x), ih]

theorem filter_parts_clean (h : stackOf name ≠ []) :
    (parts (clean name)).filter (!·.isEmpty) = (stackOf name).reverse := by
  have hall : (stackOf name).reverse.filter (!·.isEmpty) = (stackOf name).reverse := by
    refine List.filter_eq_self.mpr fun part hpart => ?_
    have hne := (normal_stackOf name).ne_nil part (List.mem_reverse.mp hpart)
    simpa using hne
  rw [clean_eq]
  split
  · have hslash : parts ("/" ++ Text.join "/" (stackOf name).reverse) =
        [] :: parts (Text.join "/" (stackOf name).reverse) :=
          parts_cons (List.not_mem_nil) _
    rw [hslash, List.filter_cons_of_neg (by simp), parts_join_stack h, hall]
  · rw [if_neg (by simpa using join_stack_ne_nil h), parts_join_stack h, hall]

theorem below_clean (name : Text) :
    (if clean name == "." then [] else (parts (clean name)).filter (!·.isEmpty)) =
      (stackOf name).reverse := by
  by_cases h : stackOf name = []
  · rw [clean_eq, h]
    cases isAbsolute name <;> rfl
  · rw [filter_parts_clean h, if_neg]
    intro hdot
    have hmoves := moves_clean name
    rw [beq_iff_eq.mp hdot] at hmoves
    exact h (List.reverse_eq_nil_iff.mp hmoves.symm)

theorem relative?_join (ha : a ≠ []) (hrel : ∀ part ∈ rel, Ordinary part)
    (h : clean name = join (a :: rel)) :
    relative? a name = some (if rel = [] then (Text.ofString ".") else
    Text.join "/" rel) := by
  obtain ⟨hstack, habs⟩ := (join_eq_iff ha hrel).mp h
  unfold relative?
  dsimp only
  by_cases hnil : rel = []
  · subst hnil
    rw [if_pos rfl,
      if_pos (beq_iff_eq.mpr (clean_eq_clean_iff.mpr ⟨hstack.symm, habs.symm⟩))]
  · have hne : ¬(clean a == clean name) = true := by
      intro heq
      obtain ⟨hsame, -⟩ := clean_eq_clean_iff.mp (beq_iff_eq.mp heq)
      rw [hstack] at hsame
      exact hnil (List.reverse_eq_nil_iff.mp (List.append_left_eq_self.mp hsame.symm))
    have hside : ¬(isAbsolute (clean a) != isAbsolute (clean name)) = true := by
      rw [(stackOf_clean a).2, (stackOf_clean name).2, habs]
      simp
    have hstack' : stackOf name ≠ [] := by
      rw [hstack]
      simp [hnil]
    rw [if_neg hne, if_neg hside, below_clean, filter_parts_clean hstack', hstack,
      List.reverse_append, List.reverse_reverse, splitCommon_append, if_neg hnil]

end FileName

namespace FileTree

open FileName

variable {t : FileTree} {a name part : Text} {rel : List Text}

/-- The bytes of a name are those of its components, and slashes. -/
theorem mem_iff_parts {b : UInt8} (hb : b ≠ 47) :
    b ∈ name ↔ ∃ part ∈ parts name, b ∈ part := by
  induction name using parts_induction with
  | clear u hu => simp [parts_of_clear hu]
  | slash u t hu ih =>
      rw [parts_cons hu, List.mem_append, List.mem_cons, ih]
      simp [hb]

theorem valid_iff : Valid name ↔
    name ≠ [] ∧ ∀ part ∈ parts name, 0 ∉ part ∧ part.length ≤ maxName := by
  have hzero : 0 ∈ name ↔ ∃ part ∈ parts name, 0 ∈ part := mem_iff_parts (by decide)
  constructor
  · intro h
    exact ⟨h.ne, fun part hpart =>
      ⟨fun hin => h.zero (hzero.mpr ⟨part, hpart, hin⟩), h.short part hpart⟩⟩
  · rintro ⟨hne, hall⟩
    refine ⟨hne, fun hin => ?_, fun part hpart => (hall part hpart).2⟩
    obtain ⟨part, hpart, hin⟩ := hzero.mp hin
    exact (hall part hpart).1 hin

/-- A clean name is one for the system if the components that were kept are. -/
theorem valid_clean (h : ∀ part ∈ stackOf name, 0 ∉ part ∧ part.length ≤ maxName) :
    Valid (clean name) := by
  refine valid_iff.mpr ⟨clean_ne_nil name, ?_⟩
  by_cases hstack : stackOf name = []
  · rw [clean_eq, hstack]
    split
    · decide
    · decide
  · have hall : ∀ part ∈ parts (Text.join "/" (stackOf name).reverse),
        0 ∉ part ∧ part.length ≤ maxName := by
      rw [parts_join_stack hstack]
      exact fun part hpart => h part (List.mem_reverse.mp hpart)
    rw [clean_eq]
    split
    · have hslash : parts ("/" ++ Text.join "/" (stackOf name).reverse) =
          [] :: parts (Text.join "/" (stackOf name).reverse) :=
            parts_cons (List.not_mem_nil) _
      rw [hslash]
      exact List.forall_mem_cons.mpr ⟨by decide, hall⟩
    · rw [if_neg (by simpa using join_stack_ne_nil hstack)]
      exact hall

theorem valid_join (ha : Valid a) (hrel : ∀ part ∈ rel, Ordinary part) :
    Valid (join (a :: rel)) := by
  rw [← clean_join ha.ne]
  refine valid_clean fun part hpart => ?_
  rw [(stackOf_join ha.ne hrel).1, List.mem_append, List.mem_reverse] at hpart
  rcases hpart with hpart | hpart
  · exact ⟨(hrel part hpart).zero, (hrel part hpart).short⟩
  · exact (valid_iff.mp ha).2 part (mem_parts_of_mem_stackOf hpart)

end FileTree

end Deriver
