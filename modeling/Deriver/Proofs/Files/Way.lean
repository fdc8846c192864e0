import Deriver.Proofs.Files.Tree

/-!
# The way a name goes

A name leads to one place, whatever stands where, and passes the same places on
its way there; a tree decides only whether it gets there. It does if a directory
stands at every place it passes. Main statements: `resolve_iff`, `find_congr`, and
for clean names, which go up before they go down, `prefix_of_mem_trail` and
`mem_trail_of_prefix`: what such a name passes is above the place it leads to or
above the working directory.
-/

namespace Deriver

namespace FileName

variable {cwd p q : Place} {name : Text} {ps qs : List Text}

/-! ## Places on the way -/

/-- One component further, whatever stands there. -/
def onward (p : Place) (part : Text) : Place :=
  if part.isEmpty || part == "." then p
  else if part == ".." then p.dropLast
  else p ++ [part]

/-- Where a name sets out from. -/
def outset (cwd : Place) (name : Text) : Place := if isAbsolute name then [] else cwd

/-- The places that components pass, each before the component that leaves it. -/
def passes : Place → List Text → List Place
  | _, [] => []
  | p, part :: ps => p :: passes (onward p part) ps

/-- The places that a name passes. -/
def way (cwd : Place) (name : Text) : List Place := passes (outset cwd name) (parts name)

/-- The place that a name leads to. -/
def lead (cwd : Place) (name : Text) : Place := (parts name).foldl onward (outset cwd name)

/-- The places that components pass, and the one they lead to. -/
def trailFrom (p : Place) (ps : List Text) : List Place :=
  passes p ps ++ [ps.foldl onward p]

/-- The places that a name passes, and the one it leads to. -/
def trail (cwd : Place) (name : Text) : List Place :=
  trailFrom (outset cwd name) (parts name)

theorem trail_eq (cwd : Place) (name : Text) :
    trail cwd name = way cwd name ++ [lead cwd name] := rfl

theorem mem_trail : q ∈ trail cwd name ↔ q ∈ way cwd name ∨ q = lead cwd name := by
  rw [trail_eq, List.mem_append, List.mem_singleton]

theorem trailFrom_nil (p : Place) : trailFrom p [] = [p] := rfl

theorem trailFrom_cons (p : Place) (part : Text) (ps : List Text) :
    trailFrom p (part :: ps) = p :: trailFrom (onward p part) ps := rfl

theorem passes_append (p : Place) (ps qs : List Text) :
    passes p (ps ++ qs) = passes p ps ++ passes (ps.foldl onward p) qs := by
  induction ps generalizing p with
  | nil => rfl
  | cons part ps ih => exact congrArg (p :: ·) (ih _)

theorem passes_concat (p : Place) (ps : List Text) (part : Text) :
    passes p (ps ++ [part]) = trailFrom p ps := passes_append p ps [part]

/-! ## Components that move -/

/-- Whether a component leads away from where it is met. -/
def moving (part : Text) : Bool := !(part.isEmpty || part == ".")

/-- The components of a name that lead away. -/
def moves (name : Text) : List Text := (parts name).filter moving

theorem onward_of_not_moving {part : Text} (h : moving part = false) (p : Place) :
    onward p part = p := if_pos (Bool.not_eq_eq_eq_not.mp h)

theorem foldl_onward_moves (p : Place) (ps : List Text) :
    (ps.filter moving).foldl onward p = ps.foldl onward p := by
  induction ps generalizing p with
  | nil => rfl
  | cons part ps ih =>
      cases h : moving part with
      | true => rw [List.filter_cons_of_pos h, List.foldl_cons, List.foldl_cons, ih]
      | false =>
          rw [List.filter_cons_of_neg (by simp [h]), List.foldl_cons,
            onward_of_not_moving h, ih]

theorem head_mem_trailFrom (p : Place) (ps : List Text) : p ∈ trailFrom p ps := by
  cases ps with
  | nil => exact List.mem_singleton_self p
  | cons part ps => exact List.mem_cons_self ..

theorem mem_trailFrom_moves (p : Place) (ps : List Text) :
    q ∈ trailFrom p (ps.filter moving) ↔ q ∈ trailFrom p ps := by
  induction ps generalizing p with
  | nil => exact Iff.rfl
  | cons part ps ih =>
      cases h : moving part with
      | true =>
          rw [List.filter_cons_of_pos h, trailFrom_cons, trailFrom_cons, List.mem_cons,
            List.mem_cons, ih]
      | false =>
          rw [List.filter_cons_of_neg (by simp [h]), trailFrom_cons, onward_of_not_moving h,
            List.mem_cons, ih]
          exact ⟨Or.inr, fun hq => hq.elim (fun hq => hq ▸ head_mem_trailFrom p ps) id⟩

theorem mem_trailFrom_append {p : Place} {ps qs : List Text} :
    q ∈ trailFrom p (ps ++ qs) ↔ q ∈ trailFrom p ps ∨
    q ∈ trailFrom (ps.foldl onward p) qs := by
  induction ps generalizing p with
  | nil =>
      rw [trailFrom_nil, List.mem_singleton]
      exact ⟨Or.inr, fun hq => hq.elim (fun hq => hq ▸ head_mem_trailFrom p qs) id⟩
  | cons part ps ih =>
      rw [List.cons_append, trailFrom_cons, trailFrom_cons, List.mem_cons,
        List.mem_cons, ih, List.foldl_cons, or_assoc]

/-! ## Names that go up and then down -/

/-- Components that go up, if at all, before they go down. -/
def Direct (ps : List Text) : Prop :=
  ∃ n, ∃ down : List Text,
    ps = List.replicate n (".." : Text) ++ down ∧ ∀ part ∈ down, Proper part

theorem direct_iff :
    Direct ps ↔ ∀ part ∈ ps.dropWhile (· == (".." : Text)), Proper part := by
  constructor
  · rintro ⟨n, down, rfl, hdown⟩
    induction n with
    | zero => exact fun part hpart => hdown part ((List.dropWhile_suffix _).subset hpart)
    | succ n ih => exact ih
  · intro h
    refine ⟨(ps.takeWhile (· == (".." : Text))).length,
      ps.dropWhile (· == (".." : Text)), ?_, h⟩
    have hup : ∀ part ∈ ps.takeWhile (· == (".." : Text)), part = ".." := fun part hpart =>
      beq_iff_eq.mp (List.all_eq_true.mp List.all_takeWhile part hpart)
    rw [← List.eq_replicate_of_mem hup, List.takeWhile_append_dropWhile]

instance (ps : List Text) : Decidable (Direct ps) := decidable_of_iff' _ direct_iff

theorem Direct.of_prefix (h : Direct qs) (hps : ps <+: qs) : Direct ps := by
  obtain ⟨n, down, rfl, hdown⟩ := h
  obtain ⟨k, rfl⟩ : ∃ k, ps = (List.replicate n (".." : Text) ++ down).take k :=
    ⟨_, List.prefix_iff_eq_take.mp hps⟩
  rw [List.take_append, List.take_replicate]
  exact ⟨_, _, rfl, fun part hpart => hdown part (List.mem_of_mem_take hpart)⟩

theorem onward_proper {part : Text} (h : Proper part) (p : Place) :
    onward p part = p ++ [part] := by
  obtain ⟨hne, hdot, hdots⟩ := h
  have hstay : (part.isEmpty || part == ".") = false := by simpa using ⟨hne, hdot⟩
  have hup : (part == "..") = false := by simpa using hdots
  rw [onward, hstay, hup]
  rfl

theorem foldl_onward_proper {down : List Text}
    (hdown : ∀ part ∈ down, Proper part) (p : Place) :
    down.foldl onward p = p ++ down := by
  induction down generalizing p with
  | nil => exact (List.append_nil p).symm
  | cons part down ih =>
      have h := List.forall_mem_cons.mp hdown
      rw [List.foldl_cons, onward_proper h.1, ih h.2, List.append_assoc]
      rfl

theorem foldl_onward_up (n : Nat) (p : Place) :
    (List.replicate n (".." : Text)).foldl onward p <+: p := by
  induction n generalizing p with
  | zero => exact List.prefix_refl p
  | succ n ih => exact (ih p.dropLast).trans (List.dropLast_prefix p)

theorem mem_trailFrom_up {n : Nat} {p : Place}
    (hq : q ∈ trailFrom p (List.replicate n "..")) : q <+: p := by
  induction n generalizing p with
  | zero => exact List.mem_singleton.mp hq ▸ List.prefix_refl p
  | succ n ih =>
      rcases List.mem_cons.mp hq with rfl | hq
      · exact List.prefix_refl q
      · exact (ih hq).trans (List.dropLast_prefix p)

/-- On the way down lie the place it begins at and those between it and the end. -/
theorem mem_trailFrom_proper {down : List Text} (hdown : ∀ part ∈ down, Proper part) :
    q ∈ trailFrom p down ↔ p <+: q ∧ q <+: p ++ down := by
  induction down generalizing p with
  | nil =>
      rw [trailFrom_nil, List.mem_singleton, List.append_nil]
      exact ⟨fun h => h ▸ ⟨List.prefix_refl _, List.prefix_refl _⟩,
        fun h => h.2.eq_of_length (Nat.le_antisymm h.2.length_le h.1.length_le)⟩
  | cons part down ih =>
      have h := List.forall_mem_cons.mp hdown
      rw [trailFrom_cons, List.mem_cons, onward_proper h.1, ih h.2, List.append_assoc,
        List.singleton_append]
      constructor
      · rintro (rfl | ⟨hbelow, habove⟩)
        · exact ⟨List.prefix_refl _, List.prefix_append _ _⟩
        · exact ⟨(List.prefix_append _ _).trans hbelow, habove⟩
      · rintro ⟨⟨tail, rfl⟩, habove⟩
        cases tail with
        | nil => exact Or.inl (List.append_nil p)
        | cons part' tail =>
            obtain ⟨rest, hrest⟩ := habove
            rw [List.append_assoc, List.append_right_inj, List.cons_append,
              List.cons.injEq] at hrest
            obtain ⟨rfl, hrest⟩ := hrest
            refine Or.inr ⟨⟨tail, by simp⟩, ⟨rest, ?_⟩⟩
            rw [List.append_assoc, List.cons_append, hrest]

/-- Such components pass nothing but what is above the place they lead to or above
the place they set out from. -/
theorem Direct.prefix_of_mem (h : Direct ps) (hq : q ∈ trailFrom p ps) :
    q <+: ps.foldl onward p ∨ q <+: p := by
  obtain ⟨n, down, rfl, hdown⟩ := h
  rw [List.foldl_append, foldl_onward_proper hdown]
  rcases mem_trailFrom_append.mp hq with hq | hq
  · exact Or.inr (mem_trailFrom_up hq)
  · exact Or.inl ((mem_trailFrom_proper hdown).mp hq).2

/-- What is above the place they lead to lies on the way or above the place they set
out from. -/
theorem Direct.mem_of_prefix (h : Direct ps) (hq : q <+: ps.foldl onward p) :
    q ∈ trailFrom p ps ∨ q <+: p ∧ q ≠ p := by
  obtain ⟨n, down, rfl, hdown⟩ := h
  rw [List.foldl_append, foldl_onward_proper hdown] at hq
  have htop := foldl_onward_up n p
  rcases List.prefix_or_prefix_of_prefix hq (List.prefix_append _ down) with hqtop | hqtop
  · by_cases heq : q = (List.replicate n (".." : Text)).foldl onward p
    · exact Or.inl (mem_trailFrom_append.mpr (Or.inr (heq ▸ head_mem_trailFrom _ down)))
    · refine Or.inr ⟨hqtop.trans htop, fun hqp => heq ?_⟩
      exact hqtop.eq_of_length (Nat.le_antisymm hqtop.length_le (hqp ▸ htop.length_le))
  · exact Or.inl (mem_trailFrom_append.mpr
      (Or.inr ((mem_trailFrom_proper hdown).mpr ⟨hqtop, hq⟩)))

/-! ## The names of places -/

theorem prefix_outset (cwd : Place) (name : Text) : outset cwd name <+: cwd := by
  unfold outset
  split
  · exact List.nil_prefix
  · exact List.prefix_refl cwd

theorem lead_moves (cwd : Place) (name : Text) :
    (moves name).foldl onward (outset cwd name) = lead cwd name := foldl_onward_moves _ _

theorem mem_trail_moves : q ∈ trailFrom (outset cwd name) (moves name) ↔
    q ∈ trail cwd name :=
  mem_trailFrom_moves _ _

/-- What a direct name passes is above the place it leads to or above the working
directory. -/
theorem prefix_of_mem_trail (h : Direct (moves name)) (hq : q ∈ trail cwd name) :
    q <+: lead cwd name ∨ q <+: cwd := by
  have hq := h.prefix_of_mem (mem_trail_moves.mpr hq)
  rw [lead_moves] at hq
  exact hq.imp_right fun hq => hq.trans (prefix_outset cwd name)

/-- What is above the place a direct name leads to lies on its way, or strictly
above the working directory. -/
theorem mem_trail_of_prefix (h : Direct (moves name)) (hq : q <+: lead cwd name) :
    q ∈ trail cwd name ∨ q <+: cwd ∧ q ≠ cwd := by
  rw [← lead_moves] at hq
  refine (h.mem_of_prefix hq).imp mem_trail_moves.mp fun ⟨habove, hne⟩ => ?_
  unfold outset at habove hne
  split at habove
  · next habs =>
      rw [if_pos habs] at hne
      exact absurd (List.prefix_nil.mp habove) hne
  · next habs =>
      rw [if_neg habs] at hne
      exact ⟨habove, hne⟩

/-! ## Clean names -/

theorem moving_of_proper {part : Text} (h : Proper part) : moving part = true := by
  simpa [moving] using ⟨h.1, h.2.1⟩

theorem push_of_not_moving {part : Text} (h : moving part = false) (rooted : Bool)
    (stack : List Text) : push rooted stack part = stack :=
    if_pos (Bool.not_eq_eq_eq_not.mp h)

theorem foldl_push_moves (rooted : Bool) (ps stack : List Text) :
    (ps.filter moving).foldl (push rooted) stack = ps.foldl (push rooted) stack := by
  induction ps generalizing stack with
  | nil => rfl
  | cons part ps ih =>
      cases h : moving part with
      | true => rw [List.filter_cons_of_pos h, List.foldl_cons, List.foldl_cons, ih]
      | false =>
          rw [List.filter_cons_of_neg (by simp [h]), List.foldl_cons,
            push_of_not_moving h, ih]

theorem Normal.moving {rooted : Bool} {stack : List Text} (h : Normal rooted stack) :
    ∀ part ∈ stack, moving part = true := by
  induction h with
  | nil => nofun
  | proper hp _ _ ih => exact List.forall_mem_cons.mpr ⟨moving_of_proper hp, ih⟩
  | up _ _ _ ih => exact List.forall_mem_cons.mpr ⟨rfl, ih⟩

theorem Normal.direct {rooted : Bool} {stack : List Text} (h : Normal rooted stack) :
    Direct stack.reverse := by
  induction h with
  | nil => exact ⟨0, [], rfl, nofun⟩
  | @proper part stack hp _ _ ih =>
      obtain ⟨n, down, hstack, hdown⟩ := ih
      refine ⟨n, down ++ [part], by rw [List.reverse_cons, hstack, List.append_assoc], ?_⟩
      simpa [or_imp, forall_and] using ⟨hdown, hp⟩
  | @up stack _ hall _ _ =>
      refine ⟨stack.length + 1, [], ?_, nofun⟩
      rw [List.append_nil, List.reverse_cons, List.replicate_succ',
        List.eq_replicate_of_mem hall]
      simp

theorem filter_moving_stackOf (name : Text) :
    (stackOf name).reverse.filter moving = (stackOf name).reverse :=
  List.filter_eq_self.mpr fun part hpart =>
    (normal_stackOf name).moving part (List.mem_reverse.mp hpart)

theorem moves_clean (name : Text) : moves (clean name) = (stackOf name).reverse := by
  have hjoin : moves (Text.join "/" (stackOf name).reverse) = (stackOf name).reverse := by
    by_cases h : stackOf name = []
    · rw [h]
      rfl
    · rw [moves, parts_join_stack h, filter_moving_stackOf]
  rw [clean_eq]
  split
  · exact hjoin
  · split
    · next h =>
        have hnil : stackOf name = [] :=
          Classical.not_not.mp fun hne => join_stack_ne_nil hne (List.isEmpty_iff.mp h)
        rw [hnil]
        rfl
    · exact hjoin

theorem direct_clean (name : Text) : Direct (moves (clean name)) := by
  rw [moves_clean]
  exact (normal_stackOf name).direct

theorem direct_of_clean (h : clean name = name) : Direct (moves name) :=
  h ▸ direct_clean name

/-! ## Directories of names -/

theorem parts_front {n : Text} (h : parts name = ps ++ [n]) :
    parts (front name) = ps ++ [[]] := by
  obtain ⟨hclear, hname | ⟨d, hname⟩⟩ := eq_last name
  · rw [hname, parts_of_clear hclear] at h
    obtain rfl : ps = [] := by
      cases ps with
      | nil => rfl
      | cons part ps => simp at h
    rw [hname, front_clear hclear]
    rfl
  · rw [hname, parts_slash, parts_of_clear hclear] at h
    rw [hname, front_slash hclear]
    exact (parts_slash d []).trans (congrArg (· ++ [[]]) (List.append_inj' h rfl).1)

theorem isAbsolute_front (name : Text) : isAbsolute (front name) = isAbsolute name := by
  obtain ⟨hclear, hname | ⟨d, hname⟩⟩ := eq_last name
  · rw [hname, front_clear hclear, isAbsolute_clear hclear]
    rfl
  · rw [hname, front_slash hclear, ← isAbsolute_append (by simp) (last name),
      List.append_assoc]
    rfl

theorem outset_dir (cwd : Place) (name : Text) :
    outset cwd (dir name) = outset cwd name := by
  rw [outset, dir_eq, (stackOf_clean _).2, isAbsolute_front, outset]

theorem foldl_push_proper {down : List Text} (hdown : ∀ part ∈ down, Proper part)
    (rooted : Bool)
    (stack : List Text) : down.foldl (push rooted) stack = down.reverse ++ stack := by
  induction down generalizing stack with
  | nil => rfl
  | cons part down ih =>
      have h := List.forall_mem_cons.mp hdown
      rw [List.foldl_cons, push_proper h.1, ih h.2, List.reverse_cons, List.append_assoc]
      rfl

/-- At the root there is no way up, and elsewhere all ways up are kept. -/
theorem foldl_push_up (rooted : Bool) (n : Nat) :
    (List.replicate n (".." : Text)).foldl (push rooted) [] =
      if rooted then [] else List.replicate n (".." : Text) := by
  induction n with
  | zero => cases rooted <;> rfl
  | succ n ih =>
      rw [List.replicate_succ', List.foldl_append, ih, ← List.replicate_succ']
      cases rooted with
      | true => rfl
      | false => cases n <;> rfl

/-- What components pass is what their stack passes, if they are direct. -/
theorem Direct.mem_pushed (h : Direct ps) {rooted : Bool}
    (hrooted : rooted = true → p = []) :
    q ∈ trailFrom p (ps.foldl (push rooted) []).reverse ↔ q ∈ trailFrom p ps := by
  obtain ⟨n, down, rfl, hdown⟩ := h
  rw [List.foldl_append, foldl_push_proper hdown, List.reverse_append, List.reverse_reverse,
    foldl_push_up]
  cases rooted with
  | false => rw [if_neg Bool.false_ne_true, List.reverse_replicate]
  | true =>
      obtain rfl := hrooted rfl
      have hroot : (List.replicate n (".." : Text)).foldl onward [] = [] :=
        List.prefix_nil.mp (foldl_onward_up n [])
      rw [if_pos rfl, List.reverse_nil, List.nil_append, mem_trailFrom_append, hroot]
      exact ⟨Or.inr, fun hq => hq.elim (fun hq =>
        List.prefix_nil.mp (mem_trailFrom_up hq) ▸ head_mem_trailFrom [] down) id⟩

/-- What a direct name passes is what its directory passes, and the place that leads
to. -/
theorem mem_trail_dir (hname : Direct (moves name)) :
    q ∈ trail cwd (dir name) ↔ q ∈ way cwd name := by
  obtain ⟨ps, hps⟩ := parts_last name
  have hprefix : ps.filter moving <+: moves name := by
    rw [moves, hps, List.filter_append]
    exact List.prefix_append _ _
  have hmoves : moves (dir name) =
      ((ps.filter moving).foldl (push (isAbsolute name)) []).reverse := by
    rw [dir_eq, moves_clean, stackOf, parts_front hps, isAbsolute_front, List.foldl_append,
      foldl_push_moves]
    rfl
  have hrooted (habs : isAbsolute name = true) : outset cwd name = [] := if_pos habs
  rw [← mem_trail_moves, hmoves, outset_dir, (hname.of_prefix hprefix).mem_pushed hrooted,
    mem_trailFrom_moves, way, hps, passes_concat]

end FileName

/-! ## Whether a tree lets a name through -/

namespace FileTree

open FileName (onward outset passes way lead trail)

variable {t u : FileTree} {p q : Place} {name : Text} {ps : List Text}

/-- A name that a tree can know, apart from what stands in it. -/
structure Valid (name : Text) : Prop where
  ne : name ≠ []
  zero : 0 ∉ name
  short : ∀ part ∈ FileName.parts name, part.length ≤ maxName

theorem descend_dir (h : t.at? p = some .dir) (part : Text) :
    t.descend p part =
      if maxName < part.length then .error .nameTooLong else .ok (onward p part) := by
  unfold descend onward
  rw [h]
  dsimp only
  split
  · next hstay =>
      rw [if_neg]
      rcases Bool.or_eq_true_iff.mp hstay with hstay | hstay
      · rw [List.isEmpty_iff.mp hstay]
        decide
      · rw [beq_iff_eq.mp hstay]
        decide
  · split
    · next hup =>
        rw [if_neg]
        rw [beq_iff_eq.mp hup]
        decide
    · rfl

theorem foldlM_descend_iff :
    ps.foldlM t.descend p = .ok q ↔
      (∀ r ∈ passes p ps, t.at? r = some .dir) ∧ (∀ part ∈ ps, part.length ≤ maxName) ∧
        q = ps.foldl onward p := by
  induction ps generalizing p with
  | nil => simp [passes, pure, Except.pure, eq_comm]
  | cons part ps ih =>
      rw [List.foldlM_cons, passes, List.forall_mem_cons, List.forall_mem_cons,
        List.foldl_cons]
      by_cases hdir : t.at? p = some .dir
      · rw [descend_dir hdir]
        by_cases hlong : maxName < part.length
        · rw [if_pos hlong]
          exact ⟨nofun, fun h => absurd h.2.1.1 (by omega)⟩
        · rw [if_neg hlong, ok_bind, ih]
          have hshort : part.length ≤ maxName := by omega
          simp only [hdir, hshort, true_and]
      · refine ⟨fun h => ?_, fun h => absurd h.1.1 hdir⟩
        unfold descend at h
        split at h
        · cases h
        · cases h
        · next h' => exact absurd h' hdir

/-- A name leads somewhere if a directory stands at every place it passes. -/
theorem resolve_iff :
    t.resolve name = .ok p ↔
      Valid name ∧ (∀ q ∈ way t.cwd name, t.at? q = some .dir) ∧ p = lead t.cwd name := by
  unfold resolve
  by_cases hne : name = []
  · rw [hne]
    exact ⟨nofun, fun h => absurd rfl h.1.ne⟩
  · rw [if_neg (by simpa using hne)]
    by_cases hzero : 0 ∈ name
    · rw [if_pos (by simpa using hzero)]
      exact ⟨nofun, fun h => absurd hzero h.1.zero⟩
    · rw [if_neg (by simpa using hzero), foldlM_descend_iff]
      exact ⟨fun ⟨hdirs, hshort, hp⟩ => ⟨⟨hne, hzero, hshort⟩, hdirs, hp⟩,
        fun ⟨hvalid, hdirs, hp⟩ => ⟨hdirs, hvalid.short, hp⟩⟩

theorem foldlM_descend_congr (h : ∀ q ∈ passes p ps, t.at? q = u.at? q) :
    ps.foldlM t.descend p = ps.foldlM u.descend p := by
  induction ps generalizing p with
  | nil => rfl
  | cons part ps ih =>
      rw [passes, List.forall_mem_cons] at h
      have hhere : t.descend p part = u.descend p part := by
        unfold descend
        rw [h.1]
      rw [List.foldlM_cons, List.foldlM_cons, hhere]
      by_cases hdir : u.at? p = some .dir
      · rw [descend_dir hdir]
        split
        · rfl
        · exact ih h.2
      · unfold descend
        split
        · rfl
        · rfl
        · next h' => exact absurd h' hdir

/-- Trees in which the same stands on the way let a name through alike. -/
theorem resolve_congr (hcwd : t.cwd = u.cwd) (h : ∀ q ∈ way t.cwd name, t.at? q = u.at? q) :
    t.resolve name = u.resolve name := by
  unfold resolve
  rw [← hcwd]
  exact if_congr Iff.rfl rfl (if_congr Iff.rfl rfl (foldlM_descend_congr h))

theorem find_congr (hcwd : t.cwd = u.cwd) (h : ∀ q ∈ trail t.cwd name, t.at? q = u.at? q) :
    t.find name = u.find name := by
  have hresolve := resolve_congr hcwd fun q hq => h q (FileName.mem_trail.mpr (Or.inl hq))
  unfold find
  rw [hresolve]
  cases hu : u.resolve name with
  | error e => rfl
  | ok p =>
      rw [← hresolve] at hu
      rw [ok_bind, ok_bind, h p (FileName.mem_trail.mpr (Or.inr (resolve_iff.mp hu).2.2))]

theorem read_congr (hcwd : t.cwd = u.cwd) (h : ∀ q ∈ trail t.cwd name, t.at? q = u.at? q) :
    t.read name = u.read name := by
  unfold read
  rw [find_congr hcwd h]

/-- What a name leads to is what stands there, if the name is let through. -/
theorem find_iff {e : Entry} : t.find name = .ok e ↔
    Valid name ∧ (∀ q ∈ way t.cwd name, t.at? q = some .dir) ∧
    t.at? (lead t.cwd name) = some e := by
  unfold find
  cases hp : t.resolve name with
  | error f =>
      refine ⟨nofun, fun ⟨hvalid, hdirs, _⟩ => ?_⟩
      rw [resolve_iff.mpr ⟨hvalid, hdirs, rfl⟩] at hp
      cases hp
  | ok p =>
      obtain ⟨hvalid, hdirs, rfl⟩ := resolve_iff.mp hp
      rw [ok_bind]
      cases t.at? (lead t.cwd name) with
      | none => exact ⟨nofun, nofun⟩
      | some e' =>
          refine ⟨fun h => ⟨hvalid, hdirs, ?_⟩, fun h => ?_⟩
          · cases h
            rfl
          · cases h.2.2
            rfl

/-! ## Operations on what a name leads to -/

variable {content : Text}

theorem read_eq_ok_iff : t.read name = .ok content ↔
    Valid name ∧ (∀ q ∈ way t.cwd name, t.at? q = some .dir) ∧
      t.at? (lead t.cwd name) = some (.file content) := by
  rw [← find_iff]
  unfold read
  cases t.find name with
  | error f => exact ⟨nofun, nofun⟩
  | ok e =>
      cases e with
      | dir => exact ⟨nofun, nofun⟩
      | file content' =>
          refine ⟨fun h => ?_, fun h => ?_⟩
          · cases h
            rfl
          · cases h
            rfl

theorem write_of_resolve (hp : t.resolve name = .ok p) (content : Text) :
    t.write name content = match t.at? p with
      | some .dir => .error ⟨"open", name, .isDirectory⟩
      | _ => .ok (t.put p (.file content)) := by
  unfold write
  rw [hp, ok_bind]
  cases t.at? p with
  | none => rfl
  | some e => cases e <;> rfl

theorem isEmpty_below : (t.below p).isEmpty = true ↔
    ∀ q, p <+: q → q ≠ p → t.at? q = none := by
  rw [List.isEmpty_iff, below, List.filter_eq_nil_iff]
  constructor
  · intro h q hpq hne
    have hroot : q ≠ [] := by
      rintro rfl
      exact hne (List.prefix_nil.mp hpq).symm
    unfold at?
    rw [if_neg (by simpa using hroot), List.lookup_eq_none_iff]
    intro e he
    have := h e he
    rw [Bool.and_eq_true, not_and, isBelow, List.isPrefixOf_iff_prefix, bne_iff_ne] at this
    refine bne_iff_ne.mpr fun heq => ?_
    subst heq
    exact this hpq hne
  · intro h e he hbelow
    rw [Bool.and_eq_true, isBelow, List.isPrefixOf_iff_prefix, bne_iff_ne] at hbelow
    have hnone := h e.1 hbelow.1 hbelow.2
    have hroot : e.1 ≠ [] := by
      intro hnil
      rw [hnil] at hnone
      cases hnone
    unfold at? at hnone
    rw [if_neg (by simpa using hroot), List.lookup_eq_none_iff] at hnone
    exact bne_iff_ne.mp (hnone e he) rfl

/-- What is removed is a file, or a directory with nothing below. -/
theorem remove_eq_ok_iff : t.remove name = .ok u ↔
    Valid name ∧ (∀ q ∈ way t.cwd name, t.at? q = some .dir) ∧
      (∃ e, t.at? (lead t.cwd name) = some e ∧
        (e = .dir → (t.below (lead t.cwd name)).isEmpty = true)) ∧
      u = t.without (lead t.cwd name) := by
  unfold remove
  cases hp : t.resolve name with
  | error f =>
      refine ⟨nofun, fun ⟨hvalid, hdirs, _⟩ => ?_⟩
      rw [resolve_iff.mpr ⟨hvalid, hdirs, rfl⟩] at hp
      cases hp
  | ok p =>
      obtain ⟨hvalid, hdirs, rfl⟩ := resolve_iff.mp hp
      rw [ok_bind]
      cases t.at? (lead t.cwd name) with
      | none => exact ⟨nofun, fun ⟨_, _, ⟨_, he, _⟩, _⟩ => nomatch he⟩
      | some e =>
          cases e with
          | file content =>
              refine ⟨fun h => ⟨hvalid, hdirs, ⟨_, rfl, nofun⟩, ?_⟩, fun h => ?_⟩
              · cases h
                rfl
              · rw [h.2.2.2]
                rfl
          | dir =>
              dsimp only
              by_cases hempty : (t.below (lead t.cwd name)).isEmpty = true
              · rw [if_pos hempty]
                refine ⟨fun h => ⟨hvalid, hdirs, ⟨_, rfl, fun _ => hempty⟩, ?_⟩,
                  fun h => ?_⟩
                · cases h
                  rfl
                · rw [h.2.2.2]
                  rfl
              · rw [if_neg hempty]
                refine ⟨nofun, fun ⟨_, _, ⟨e, he, hdir⟩, _⟩ => ?_⟩
                cases he
                exact absurd (hdir rfl) hempty

end FileTree

end Deriver
