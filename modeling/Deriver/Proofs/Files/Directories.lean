import Mathlib.Data.List.Induction
import Deriver.Proofs.Files.Way

/-!
# Directories on the way

Making the directories of a name puts a directory at every place the name passes
and at the one it leads to, and changes nothing else: `Made`. Whether that works
does not depend on which of them are there: `makeDirs_alike`. That rests on what
every tree of files has, `Grounded`: what stands somewhere stands in a directory.
-/

namespace Deriver

namespace FileName

variable {cwd q : Place} {name : Text}

/-! ## Names that end in slashes -/

/-- A name without the slashes it ends in. -/
def trimmed (name : Text) : Text := (name.reverse.dropWhile (· == 47)).reverse

/-- A name without the slashes it ends in, if there is anything else. -/
def bare (name : Text) : Text := if (trimmed name).isEmpty then name else trimmed name

theorem eq_trimmed (name : Text) : ∃ k, name = trimmed name ++ List.replicate k 47 := by
  have hsplit :=
      congrArg List.reverse (List.takeWhile_append_dropWhile (p := (· == 47))
        (l := name.reverse))
  rw [List.reverse_append, List.reverse_reverse] at hsplit
  refine ⟨_, hsplit.symm.trans
    (congrArg (trimmed name ++ ·) (List.eq_replicate_of_mem fun b hb => ?_))⟩
  have := List.all_eq_true.mp (List.all_takeWhile (p := (· == 47)) (l := name.reverse)) b
    (List.mem_reverse.mp hb)
  exact beq_iff_eq.mp this

theorem parts_slashes (s : Text) (k : Nat) :
    parts (s ++ List.replicate k 47) = parts s ++ List.replicate k [] := by
  induction k generalizing s with
  | zero => rw [List.replicate_zero, List.replicate_zero, List.append_nil, List.append_nil]
  | succ k ih =>
      have h : s ++ List.replicate (k + 1) 47 = (s ++ [47]) ++ List.replicate k 47 := by
        rw [List.replicate_succ, List.append_assoc]
        rfl
      rw [h, ih, parts_slash s [], List.append_assoc]
      rfl

theorem moves_slashes (s : Text) (k : Nat) :
    moves (s ++ List.replicate k 47) = moves s := by
  have hnone : (List.replicate k ([] : Text)).filter moving = [] := by
    rw [List.filter_eq_nil_iff]
    intro part hpart
    rw [List.eq_of_mem_replicate hpart]
    decide
  rw [moves, parts_slashes, List.filter_append, hnone, List.append_nil, moves]

theorem bare_cases (name : Text) :
    trimmed name = [] ∧ bare name = name ∨ trimmed name ≠ [] ∧
    bare name = trimmed name := by
  unfold bare
  by_cases h : trimmed name = []
  · exact Or.inl ⟨h, if_pos (by simpa using h)⟩
  · exact Or.inr ⟨h, if_neg (by simpa using h)⟩

theorem eq_bare (name : Text) : ∃ k, name = bare name ++ List.replicate k 47 := by
  rcases bare_cases name with ⟨-, h⟩ | ⟨-, h⟩
  · exact ⟨0, by rw [h, List.replicate_zero, List.append_nil]⟩
  · rw [h]
    exact eq_trimmed name

theorem moves_bare (name : Text) : moves (bare name) = moves name := by
  obtain ⟨k, hk⟩ := eq_bare name
  generalize bare name = s at hk
  rw [hk, moves_slashes]

theorem outset_bare (cwd : Place) (name : Text) :
    outset cwd (bare name) = outset cwd name := by
  rcases bare_cases name with ⟨-, h⟩ | ⟨hne, h⟩
  · rw [h]
  · obtain ⟨k, hk⟩ := eq_trimmed name
    rw [h]
    generalize trimmed name = s at hne hk
    rw [outset, hk, outset, isAbsolute_append hne]

theorem mem_trail_bare : q ∈ trail cwd (bare name) ↔ q ∈ trail cwd name := by
  rw [← mem_trail_moves, moves_bare, outset_bare, mem_trail_moves]

theorem lead_bare (cwd : Place) (name : Text) : lead cwd (bare name) = lead cwd name := by
  rw [← lead_moves, moves_bare, outset_bare, lead_moves]

/-! ## The directory above -/

/-- The name of the directory above is what stands in front of the last component. -/
theorem parentName_eq (name : Text) : FileTree.parentName name = front (trimmed name) := by
  rw [front, trimmed, List.reverse_reverse]
  rfl

theorem parentName_cases (name : Text) :
    FileTree.parentName name = [] ∨ FileTree.parentName name = front (bare name) := by
  rw [parentName_eq]
  rcases bare_cases name with ⟨h, -⟩ | ⟨-, h⟩
  · exact Or.inl (by rw [h]; rfl)
  · exact Or.inr (by rw [h])

theorem parentName_length (h : name ≠ []) :
    (FileTree.parentName name).length < name.length := by
  obtain ⟨b, s, hs⟩ := List.exists_cons_of_ne_nil (List.reverse_ne_nil_iff.mpr h)
  have hlength : name.length = s.length + 1 := by
    rw [← List.length_reverse, hs, List.length_cons]
  rw [FileTree.parentName, List.length_reverse, hs, hlength]
  have hshort (u : Text) : (u.dropWhile (· ≠ 47)).length ≤ u.length :=
    (List.dropWhile_suffix _).length_le
  by_cases hb : b = 47
  · rw [List.dropWhile_cons_of_pos (by simpa using hb)]
    exact Nat.lt_succ_of_le (Nat.le_trans (hshort _) (List.dropWhile_suffix _).length_le)
  · rw [List.dropWhile_cons_of_neg (by simpa using hb),
      List.dropWhile_cons_of_pos (by simpa using hb)]
    exact Nat.lt_succ_of_le (hshort s)

theorem prefix_moves_front (name : Text) : moves (front name) <+: moves name := by
  obtain ⟨ps, hps⟩ := parts_last name
  rw [moves, moves, parts_front hps, hps, List.filter_append, List.filter_append]
  rw [List.filter_cons_of_neg (by decide), List.filter_nil, List.append_nil]
  exact List.prefix_append _ _

theorem prefix_moves_parent (name : Text) :
    moves (FileTree.parentName name) <+: moves name := by
  rcases parentName_cases name with h | h
  · rw [h]
    exact List.nil_prefix
  · rw [h, ← moves_bare name]
    exact prefix_moves_front _

theorem mem_trail_parent (h : FileTree.parentName name ≠ []) :
    q ∈ trail cwd (FileTree.parentName name) ↔ q ∈ way cwd (bare name) := by
  obtain ⟨ps, hps⟩ := parts_last (bare name)
  have hfront : moves (front (bare name)) = ps.filter moving := by
    rw [moves, parts_front hps, List.filter_append, List.filter_cons_of_neg (by decide),
      List.filter_nil, List.append_nil]
  rw [(parentName_cases name).resolve_left h, ← mem_trail_moves, hfront,
    mem_trailFrom_moves, way, hps, passes_concat, outset, isAbsolute_front, outset]

/-- A name with no directory above it passes the place it sets out from only. -/
theorem of_mem_way_bare (h : FileTree.parentName name = []) (hq : q ∈ way cwd (bare name)) :
    q = outset cwd name := by
  rcases bare_cases name with ⟨htrim, -⟩ | ⟨htrim, hbare⟩
  · have hmoves : moves name = [] := by
      obtain ⟨k, hk⟩ := eq_trimmed name
      rw [htrim] at hk
      rw [hk, moves_slashes]
      rfl
    have hq := mem_trail_bare.mp (mem_trail.mpr (Or.inl hq))
    rw [← mem_trail_moves, hmoves] at hq
    exact List.mem_singleton.mp hq
  · rw [parentName_eq, ← hbare] at h
    obtain ⟨hclear, hlast | ⟨d, hlast⟩⟩ := eq_last (bare name)
    · rw [way, hlast, parts_of_clear hclear, ← hlast] at hq
      exact (List.mem_singleton.mp hq).trans (outset_bare cwd name)
    · rw [hlast, front_slash hclear] at h
      simp at h

end FileName

namespace FileTree

open FileName (bare outset way lead trail Direct moves mem_trail mem_trail_bare lead_bare)

variable {t u v : FileTree} {p q : Place} {name : Text}

/-! ## Trees that stand on directories -/

/-- What stands somewhere stands in a directory, and so does the working directory. -/
structure Grounded (t : FileTree) : Prop where
  cwd : t.at? t.cwd = some .dir
  parent : ∀ p part e, t.at? (p ++ [part]) = some e → t.at? p = some .dir

theorem Grounded.above (ht : Grounded t) {e : Entry} (hpq : p <+: q) (hne : p ≠ q)
    (hq : t.at? q = some e) : t.at? p = some .dir := by
  obtain ⟨s, rfl⟩ := hpq
  induction s using List.reverseRecOn generalizing e with
  | nil => exact absurd (List.append_nil p).symm hne
  | append_singleton s part ih =>
      rw [← List.append_assoc] at hq
      have hparent := ht.parent _ _ _ hq
      by_cases hs : s = []
      · rwa [hs, List.append_nil] at hparent
      · exact ih (by simpa using hs) hparent

theorem Grounded.above_dir (ht : Grounded t) (hpq : p <+: q) (hq : t.at? q = some .dir) :
    t.at? p = some .dir := by
  by_cases h : p = q
  · rw [h, hq]
  · exact ht.above hpq h hq

theorem Grounded.above_cwd (ht : Grounded t) (hp : p <+: t.cwd) : t.at? p = some .dir :=
  ht.above_dir hp ht.cwd

/-- If something stands where a direct name leads to, everything it passes before is
a directory. -/
theorem Grounded.way_of_lead (ht : Grounded t) (hname : Direct (moves name)) {e : Entry}
    (h : t.at? (lead t.cwd name) = some e) (hq : q ∈ way t.cwd name)
    (hne : q ≠ lead t.cwd name) : t.at? q = some .dir := by
  rcases FileName.prefix_of_mem_trail hname (mem_trail.mpr (Or.inl hq)) with habove | habove
  · exact ht.above habove hne h
  · exact ht.above_cwd habove

theorem grounded_of_entries (hcwd : t.at? t.cwd = some .dir)
    (h : ∀ e ∈ t.entries, t.at? e.1.dropLast = some .dir) : Grounded t := by
  refine ⟨hcwd, fun p part e hp => ?_⟩
  unfold at? at hp
  rw [if_neg (by simp)] at hp
  obtain ⟨entry, hentry, heq⟩ : ∃ entry ∈ t.entries, entry.1 = p ++ [part] := by
    by_contra hnone
    rw [List.lookup_eq_none_iff.mpr] at hp
    · cases hp
    · exact fun entry hmem => bne_iff_ne.mpr fun heq => hnone ⟨entry, hmem, heq.symm⟩
  have := h entry hentry
  rwa [heq, List.dropLast_concat] at this

/-- An entry in a directory, in the place of no directory. -/
theorem Grounded.put (ht : Grounded t) {e : Entry} (hparent : t.at? p.dropLast = some .dir)
    (hdir : t.at? p = some .dir → e = .dir) : Grounded (t.put p e) := by
  have hself (h : t.at? p = some .dir) : (t.put p e).at? p = some .dir := by
    by_cases hroot : p = []
    · rw [hroot]
      rfl
    · rw [at?_put_self hroot, hdir h]
  have hothers {q : Place} (h : t.at? q = some .dir) : (t.put p e).at? q = some .dir := by
    by_cases hq : q = p
    · exact hq ▸ hself (hq ▸ h)
    · rw [at?_put hq, h]
  refine ⟨hothers ht.cwd, fun q part e' hq => hothers ?_⟩
  by_cases hqp : q ++ [part] = p
  · rwa [← hqp, List.dropLast_concat] at hparent
  · rw [at?_put hqp] at hq
    exact ht.parent q part e' hq

theorem Grounded.without (ht : Grounded t) (hcwd : p ≠ t.cwd)
    (hbelow : ∀ part, t.at? (p ++ [part]) = none) : Grounded (t.without p) := by
  refine ⟨by rw [← ht.cwd]; exact at?_without hcwd.symm, fun q part e hq => ?_⟩
  have hold : t.at? (q ++ [part]) = some e := by
    by_cases hqp : q ++ [part] = p
    · rw [hqp, at?_without_self (by simp [← hqp])] at hq
      cases hq
    · rwa [at?_without hqp] at hq
  have hqp : q ≠ p := by
    rintro rfl
    rw [hbelow part] at hold
    cases hold
  rw [at?_without hqp]
  exact ht.parent q part e hold

/-! ## One directory -/

theorem valid_of_bare (h : Valid (bare name)) : Valid name := by
  obtain ⟨k, hk⟩ := FileName.eq_bare name
  generalize bare name = s at h hk
  subst hk
  refine ⟨by simp [h.ne], ?_, fun part hpart => ?_⟩
  · rw [List.mem_append, not_or]
    exact ⟨h.zero, fun hmem => absurd (List.eq_of_mem_replicate hmem) (by decide)⟩
  · rw [FileName.parts_slashes, List.mem_append] at hpart
    rcases hpart with hpart | hpart
    · exact h.short part hpart
    · rw [List.eq_of_mem_replicate hpart]
      exact Nat.zero_le _

theorem makeDir_eq (t : FileTree) (name : Text) :
    t.makeDir name = doing "mkdir" name (t.resolve (bare name) >>= fun place =>
      if (t.at? place).isSome then .error .exists else .ok (t.put place .dir)) := rfl

/-- A new directory stands where nothing stood, and the way there is open. -/
theorem of_makeDir (h : t.makeDir name = .ok u) :
    Valid name ∧ (∀ q ∈ way t.cwd (bare name), t.at? q = some .dir) ∧
      t.at? (lead t.cwd name) = none ∧ u = t.put (lead t.cwd name) .dir := by
  rw [makeDir_eq] at h
  have h := doing_ok h
  cases hp : t.resolve (bare name) with
  | error f => rw [hp] at h; cases h
  | ok p =>
      obtain ⟨hvalid, hdirs, rfl⟩ := resolve_iff.mp hp
      rw [hp, ok_bind, lead_bare] at h
      split at h
      · cases h
      · next hnone =>
          cases h
          exact ⟨valid_of_bare hvalid, hdirs, by simpa using hnone, rfl⟩

/-! ## All directories of a name -/

/-- Makes a directory, unless it is there. -/
def makeDirHere (t : FileTree) (name : Text) : Except FileError FileTree :=
  match t.makeDir name with
  | .ok u => .ok u
  | .error e => if t.hasDir name then .ok t else .error e

/-- Makes the directories above a name, if there are any. -/
def makeParents (t : FileTree) (depth : Nat) (name : Text) : Except FileError FileTree :=
  if (parentName name).isEmpty then .ok t else t.makeDirsLoop depth (parentName name)

theorem makeDirsLoop_succ (t : FileTree) (depth : Nat) (name : Text) :
    t.makeDirsLoop (depth + 1) name = match t.find name with
      | .ok .dir => .ok t
      | .ok (.file _) => .error ⟨"mkdir", name, .notDirectory⟩
      | .error _ => t.makeParents depth name >>= (·.makeDirHere name) := by
  rw [makeDirsLoop]
  cases hfind : t.find name with
  | ok e => cases e <;> rfl
  | error f =>
      dsimp only
      unfold makeParents makeDirHere
      split <;> rfl

theorem hasDir_iff : t.hasDir name = true ↔
    Valid name ∧ ∀ q ∈ trail t.cwd name, t.at? q = some .dir := by
  have hfind : t.hasDir name = true ↔ t.find name = .ok .dir := by
    unfold hasDir
    split
    · next h => exact ⟨fun _ => h, fun _ => rfl⟩
    · next h => exact ⟨nofun, fun h' => absurd h' h⟩
  rw [hfind, find_iff]
  constructor
  · rintro ⟨hvalid, hway, hlead⟩
    exact ⟨hvalid, fun q hq => (mem_trail.mp hq).elim (hway q) fun hq => hq ▸ hlead⟩
  · rintro ⟨hvalid, h⟩
    exact ⟨hvalid, fun q hq => h q (mem_trail.mpr (Or.inl hq)),
      h _ (mem_trail.mpr (Or.inr rfl))⟩

/-- The second tree is the first with directories all along a name. -/
structure Made (name : Text) (t u : FileTree) : Prop where
  grows : Grows t u
  valid : Valid name
  dirs : ∀ q ∈ trail t.cwd name, u.at? q = some .dir
  others : ∀ q, q ∉ trail t.cwd name → u.at? q = t.at? q

theorem mem_trail_of_parent (hparent : parentName name ≠ []) {cwd : Place}
    (hq : q ∈ trail cwd (parentName name)) : q ∈ trail cwd name :=
  mem_trail_bare.mp (mem_trail.mpr (Or.inl ((FileName.mem_trail_parent hparent).mp hq)))

theorem made_of_hasDir (h : t.hasDir name = true) : Made name t t :=
  have h := hasDir_iff.mp h
  ⟨.refl t, h.1, h.2, fun _ _ => rfl⟩

theorem made_of_here (h : t.makeDirHere name = .ok u) : Made name t u := by
  unfold makeDirHere at h
  split at h
  · next w hw =>
      cases h
      obtain ⟨hvalid, hway, hnone, rfl⟩ := of_makeDir hw
      have hne : lead t.cwd name ≠ [] := by
        intro hroot
        rw [hroot] at hnone
        cases hnone
      refine ⟨Grows.makeDir hw, hvalid, fun q hq => ?_, fun q hq => ?_⟩
      · by_cases heq : q = lead t.cwd name
        · rw [heq, at?_put_self hne]
        · rw [at?_put heq]
          rw [← mem_trail_bare, mem_trail, lead_bare] at hq
          exact hway q (hq.resolve_right heq)
      · exact at?_put (fun heq => hq (mem_trail.mpr (Or.inr heq))) _
  · split at h
    · next hdir =>
        cases h
        exact made_of_hasDir hdir
    · cases h

theorem Made.after {w : FileTree} (hcwd : v.cwd = t.cwd) (hgrows : Grows t v)
    (hothers : ∀ q, q ∉ trail t.cwd name → v.at? q = t.at? q) (h : Made name v w) :
    Made name t w := by
  refine ⟨hgrows.trans h.grows, h.valid, fun q hq => h.dirs q (hcwd ▸ hq), fun q hq => ?_⟩
  rw [h.others q (hcwd ▸ hq), hothers q hq]

theorem made_loop {depth : Nat} (hdepth : name.length < depth)
    (h : t.makeDirsLoop depth name = .ok u) : Made name t u := by
  induction depth generalizing name u with
  | zero => exact absurd hdepth (Nat.not_lt_zero _)
  | succ depth ih =>
      rw [makeDirsLoop_succ] at h
      split at h
      · next hfind =>
          cases h
          refine made_of_hasDir ?_
          rw [hasDir, hfind]
      · cases h
      · cases hv : t.makeParents depth name with
        | error e => rw [hv] at h; cases h
        | ok v =>
            rw [hv, ok_bind] at h
            unfold makeParents at hv
            split at hv
            · cases hv
              exact made_of_here h
            · next hparent =>
                have hparent : parentName name ≠ [] := by simpa using hparent
                have hname : name ≠ [] := by
                  rintro rfl
                  exact hparent rfl
                have hlength := FileName.parentName_length hname
                have hv := ih (by omega) hv
                exact (made_of_here h).after hv.grows.cwd hv.grows fun q hq =>
                  hv.others q fun hq' => hq (mem_trail_of_parent hparent hq')

/-- Making the directories of a name puts directories there, and nothing else. -/
theorem made_of_makeDirs (h : t.makeDirs name = .ok u) : Made name t u :=
  made_loop (Nat.lt_succ_self _) h

theorem Made.at?_eq (h : Made name t u) (hq : q ∈ trail t.cwd name) :
    t.at? q = none ∨ t.at? q = some .dir := by
  cases ht : t.at? q with
  | none => exact Or.inl rfl
  | some e =>
      have := h.grows.at? q e ht
      rw [h.dirs q hq] at this
      exact Or.inr this.symm

/-! ## Directories that are there already -/

theorem valid_bare (h : Valid name) : Valid (bare name) := by
  rcases FileName.bare_cases name with ⟨-, hbare⟩ | ⟨hne, hbare⟩
  · rwa [hbare]
  · obtain ⟨k, hk⟩ := FileName.eq_trimmed name
    rw [hbare]
    generalize FileName.trimmed name = s at hk hne
    subst hk
    refine ⟨hne, fun hzero => h.zero (List.mem_append_left _ hzero), fun part hpart => ?_⟩
    refine h.short part ?_
    rw [FileName.parts_slashes]
    exact List.mem_append_left _ hpart

theorem valid_parent (h : Valid name) (hparent : parentName name ≠ []) :
    Valid (parentName name) := by
  have hbare := valid_bare h
  have hfront := (FileName.parentName_cases name).resolve_left hparent
  obtain ⟨ps, hps⟩ := FileName.parts_last (bare name)
  refine ⟨hparent, fun hzero => ?_, fun part hpart => ?_⟩
  · rw [hfront, FileName.front, List.mem_reverse] at hzero
    exact hbare.zero (List.mem_reverse.mp ((List.dropWhile_suffix _).subset hzero))
  · rw [hfront, FileName.parts_front hps, List.mem_append, List.mem_singleton] at hpart
    rcases hpart with hpart | rfl
    · exact hbare.short part (hps ▸ List.mem_append_left _ hpart)
    · exact Nat.zero_le _

/-- A name that is made to lead to a directory, where everything on the way is one. -/
theorem makeDirHere_eq (hvalid : Valid name)
    (hway : ∀ q ∈ way t.cwd (bare name), t.at? q = some .dir) :
    t.makeDirHere name = match t.at? (lead t.cwd name) with
      | none => .ok (t.put (lead t.cwd name) .dir)
      | some .dir => .ok t
      | some (.file _) => .error ⟨"mkdir", name, .exists⟩ := by
  have hresolve : t.resolve (bare name) = .ok (lead t.cwd name) :=
    resolve_iff.mpr ⟨valid_bare hvalid, hway, (lead_bare t.cwd name).symm⟩
  have htrail (hdir : t.at? (lead t.cwd name) = some .dir) :
      ∀ q ∈ trail t.cwd name, t.at? q = some .dir := by
    intro q hq
    rw [← mem_trail_bare, mem_trail, lead_bare] at hq
    exact hq.elim (hway q) fun hq => hq ▸ hdir
  rw [makeDirHere, makeDir_eq, hresolve, ok_bind]
  cases h : t.at? (lead t.cwd name) with
  | none => rfl
  | some e =>
      cases e with
      | dir =>
          have hdir := hasDir_iff.mpr ⟨hvalid, htrail h⟩
          exact if_pos hdir
      | file content =>
          refine if_neg fun hdir => ?_
          have := (hasDir_iff.mp hdir).2 _ (mem_trail.mpr (Or.inr rfl))
          rw [h] at this
          cases this

theorem makeDirHere_invalid (hinvalid : ¬ Valid name) {f : FileFault}
    (hf : t.resolve (bare name) = .error f) :
    t.makeDirHere name = .error ⟨"mkdir", name, f⟩ := by
  rw [makeDirHere, makeDir_eq, hf]
  exact if_neg fun hdir => hinvalid (hasDir_iff.mp hdir).1

/-- Both work, or both fail for the same reason. -/
def Alike (r s : Except FileError FileTree) : Prop :=
  (∃ a b, r = .ok a ∧ s = .ok b) ∨ ∃ e, r = .error e ∧ s = .error e

/-- The second tree has the same on the way as the first, or a directory where that
has nothing. -/
structure Wider (name : Text) (t v : FileTree) : Prop where
  cwd : v.cwd = t.cwd
  at? : ∀ q ∈ trail t.cwd name, v.at? q = t.at? q ∨ t.at? q = none ∧ v.at? q = some .dir

theorem makeDirHere_alike (hcwd : v.cwd = t.cwd)
    (hway : ∀ q ∈ way t.cwd (bare name), t.at? q = some .dir ∧ v.at? q = some .dir)
    (hlead : v.at? (lead t.cwd name) = t.at? (lead t.cwd name) ∨
      t.at? (lead t.cwd name) = none ∧ v.at? (lead t.cwd name) = some .dir) :
    Alike (t.makeDirHere name) (v.makeDirHere name) := by
  have hwayt : ∀ q ∈ way t.cwd (bare name), t.at? q = some .dir := fun q hq => (hway q hq).1
  have hwayv : ∀ q ∈ way v.cwd (bare name), v.at? q = some .dir :=
    fun q hq => (hway q (hcwd ▸ hq)).2
  by_cases hvalid : Valid name
  · rw [makeDirHere_eq hvalid hwayt, makeDirHere_eq hvalid hwayv, hcwd]
    rcases hlead with heq | ⟨hnone, hdir⟩
    · rw [heq]
      cases t.at? (lead t.cwd name) with
      | none => exact Or.inl ⟨_, _, rfl, rfl⟩
      | some e =>
          cases e with
          | dir => exact Or.inl ⟨_, _, rfl, rfl⟩
          | file content => exact Or.inr ⟨_, rfl, rfl⟩
    · rw [hnone, hdir]
      exact Or.inl ⟨_, _, rfl, rfl⟩
  · have hresolve : t.resolve (bare name) = v.resolve (bare name) :=
      resolve_congr hcwd.symm fun q hq => (hwayt q hq).trans (hway q hq).2.symm
    cases hf : v.resolve (bare name) with
    | ok p => exact absurd (valid_of_bare (resolve_iff.mp hf).1) hvalid
    | error f =>
        rw [makeDirHere_invalid hvalid hf, makeDirHere_invalid hvalid (hresolve.trans hf)]
        exact Or.inr ⟨_, rfl, rfl⟩

theorem Wider.parent (h : Wider name t v) (hparent : parentName name ≠ []) :
    Wider (parentName name) t v :=
  ⟨h.cwd, fun q hq => h.at? q (mem_trail_of_parent hparent hq)⟩

theorem at?_nil (t : FileTree) : t.at? [] = some .dir := rfl

theorem Grounded.way_bare (ht : Grounded t) (hparent : parentName name = [])
    (hq : q ∈ way t.cwd (bare name)) : t.at? q = some .dir := by
  rw [FileName.of_mem_way_bare hparent hq]
  exact ht.above_cwd (FileName.prefix_outset _ _)

/-- Making the last directory goes alike once those above it were made alike. -/
theorem makeParents_alike (ht : Grounded t) (h : Wider name t v) {depth : Nat}
    (hdepth : name.length ≤ depth)
    (ih : parentName name ≠ [] → Alike (t.makeDirsLoop depth (parentName name))
      (v.makeDirsLoop depth (parentName name))) :
    Alike (t.makeParents depth name >>= (·.makeDirHere name))
      (v.makeParents depth name >>= (·.makeDirHere name)) := by
  have hlead := h.at? _ (mem_trail.mpr (Or.inr rfl))
  unfold makeParents
  by_cases hparent : parentName name = []
  · rw [if_pos (by simpa using hparent), if_pos (by simpa using hparent), ok_bind, ok_bind]
    refine makeDirHere_alike h.cwd (fun q hq => ?_) hlead
    have hdir := ht.way_bare hparent hq
    rcases h.at? q (mem_trail_bare.mp (mem_trail.mpr (Or.inl hq))) with heq | ⟨hnone, -⟩
    · exact ⟨hdir, heq.trans hdir⟩
    · rw [hdir] at hnone
      cases hnone
  · rw [if_neg (by simpa using hparent), if_neg (by simpa using hparent)]
    have hname : name ≠ [] := by
      rintro rfl
      exact hparent rfl
    have hlength := FileName.parentName_length hname
    rcases ih hparent with ⟨t', v', ht', hv'⟩ | ⟨e, ht', hv'⟩
    · rw [ht', hv', ok_bind, ok_bind]
      have hmadet := made_loop (by omega) ht'
      have hmadev := made_loop (by omega) hv'
      have htrail (q : Place) : q ∈ way t'.cwd (bare name) →
          q ∈ trail t.cwd (parentName name) := by
        rw [hmadet.grows.cwd]
        exact (FileName.mem_trail_parent hparent).mpr
      refine makeDirHere_alike (hmadev.grows.cwd.trans (h.cwd.trans hmadet.grows.cwd.symm))
        (fun q hq => ⟨hmadet.dirs q (htrail q hq), hmadev.dirs q (h.cwd ▸ htrail q hq)⟩) ?_
      rw [hmadet.grows.cwd]
      by_cases hlast : lead t.cwd name ∈ trail t.cwd (parentName name)
      · exact Or.inl ((hmadev.dirs _ (h.cwd ▸ hlast)).trans (hmadet.dirs _ hlast).symm)
      · rwa [hmadet.others _ hlast, hmadev.others _ (h.cwd ▸ hlast)]
    · rw [ht', hv']
      exact Or.inr ⟨e, rfl, rfl⟩

theorem makeDirsLoop_of_hasDir (h : t.hasDir name = true) {depth : Nat}
    (hdepth : name.length < depth) : t.makeDirsLoop depth name = .ok t := by
  obtain ⟨depth, rfl⟩ := Nat.exists_eq_add_of_lt hdepth
  rw [makeDirsLoop_succ]
  unfold hasDir at h
  split at h
  · next hfind => rw [hfind]
  · cases h

theorem makeParents_of_hasDir (h : t.hasDir name = true) {depth : Nat}
    (hdepth : name.length ≤ depth) :
    t.makeParents depth name >>= (·.makeDirHere name) = .ok t := by
  obtain ⟨hvalid, hdirs⟩ := hasDir_iff.mp h
  have hparents : t.makeParents depth name = .ok t := by
    unfold makeParents
    by_cases hparent : parentName name = []
    · exact if_pos (by simpa using hparent)
    · have hlength := FileName.parentName_length hvalid.ne
      rw [if_neg (by simpa using hparent)]
      refine makeDirsLoop_of_hasDir
        (hasDir_iff.mpr ⟨valid_parent hvalid hparent, fun q hq => ?_⟩) (by omega)
      exact hdirs q (mem_trail_of_parent hparent hq)
  rw [hparents, ok_bind, makeDirHere_eq hvalid fun q hq =>
    hdirs q (mem_trail_bare.mp (mem_trail.mpr (Or.inl hq))),
    hdirs _ (mem_trail.mpr (Or.inr rfl))]

/-- What stands at the end of a direct name in the wider tree stands there in the
other, if it is a file. -/
theorem Wider.find_file (ht : Grounded t) (hname : Direct (moves name)) (h : Wider name t v)
    {content : Text} (hfind : v.find name = .ok (.file content)) :
    t.find name = .ok (.file content) := by
  obtain ⟨hvalid, hway, hlead⟩ := find_iff.mp hfind
  rw [h.cwd] at hway hlead
  have hfile : t.at? (lead t.cwd name) = some (.file content) := by
    rcases h.at? _ (mem_trail.mpr (Or.inr rfl)) with heq | ⟨-, hdir⟩
    · exact heq.symm.trans hlead
    · rw [hlead] at hdir
      cases hdir
  refine find_iff.mpr ⟨hvalid, fun q hq => ht.way_of_lead hname hfile hq ?_, hfile⟩
  rintro rfl
  rw [hway _ hq] at hlead
  cases hlead

theorem Wider.find_some (h : Wider name t v) {e : Entry} (hfind : t.find name = .ok e) :
    v.find name = .ok e := by
  have hsame {q : Place} (hq : q ∈ trail t.cwd name) {e : Entry} (he : t.at? q = some e) :
      v.at? q = some e := by
    rcases h.at? q hq with heq | ⟨hnone, -⟩
    · exact heq.trans he
    · rw [he] at hnone
      cases hnone
  obtain ⟨hvalid, hway, hlead⟩ := find_iff.mp hfind
  refine find_iff.mpr ⟨hvalid, fun q hq => ?_, ?_⟩
  · rw [h.cwd] at hq
    exact hsame (mem_trail.mpr (Or.inl hq)) (hway q hq)
  · rw [h.cwd]
    exact hsame (mem_trail.mpr (Or.inr rfl)) hlead

theorem makeDirsLoop_alike (ht : Grounded t) {depth : Nat} (hdepth : name.length < depth)
    (hname : Direct (moves name)) (h : Wider name t v) :
    Alike (t.makeDirsLoop depth name) (v.makeDirsLoop depth name) := by
  induction depth generalizing name with
  | zero => exact absurd hdepth (Nat.not_lt_zero _)
  | succ depth ih =>
      have hbranch := makeParents_alike ht h (Nat.le_of_lt_succ hdepth) fun hparent => by
        have hne : name ≠ [] := by
          rintro rfl
          exact hparent rfl
        have hlength := FileName.parentName_length hne
        exact ih (by omega) (hname.of_prefix (FileName.prefix_moves_parent name))
          (h.parent hparent)
      rw [makeDirsLoop_succ, makeDirsLoop_succ]
      cases hfind : t.find name with
      | ok e =>
          rw [h.find_some hfind]
          cases e with
          | dir => exact Or.inl ⟨_, _, rfl, rfl⟩
          | file content => exact Or.inr ⟨_, rfl, rfl⟩
      | error f =>
          cases hfindv : v.find name with
          | error f' => exact hbranch
          | ok e =>
              cases e with
              | file content =>
                  rw [h.find_file ht hname hfindv] at hfind
                  cases hfind
              | dir =>
                  have hdir : v.hasDir name = true := by rw [hasDir, hfindv]
                  rwa [makeParents_of_hasDir hdir (Nat.le_of_lt_succ hdepth)] at hbranch

/-- Whether the directories of a name can be made does not depend on which of them
are there. -/
theorem makeDirs_alike (ht : Grounded t) (hname : Direct (moves name))
    (h : Wider name t v) : Alike (t.makeDirs name) (v.makeDirs name) :=
  makeDirsLoop_alike ht (Nat.lt_succ_self _) hname h

end FileTree

end Deriver
