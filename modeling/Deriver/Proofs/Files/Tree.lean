import Mathlib.Data.List.Basic
import Deriver.Files.Name
import Deriver.Files.Tree
import Deriver.Proofs.Entries

/-!
# What file operations leave alone

An operation on a name changes nothing but what stands at the place the name
leads to, and making directories replaces nothing. Main statements: `Keeps.write`,
`Keeps.remove`, `Grows.makeDirs`, and `getLast?_resolve`: the place a name leads to
ends with the last component of the name.
-/

/-!
## Components of file names

A name is its components with slashes between them, and cleaning it works on the
components alone. Main statements: `parts_join`, `clean_clean`, and `parts_clean`,
by which the last component of a clean name is that of the name, if it is an
ordinary one.
-/

namespace Deriver.FileName

variable {u v : Text}

/-! ### Components -/

theorem splitLoop_slash (piece t : Text) :
    Text.splitLoop "/" 0 piece (47 :: t) = piece.reverse :: Text.splitLoop "/" 0 [] t := rfl

theorem splitLoop_other {b : UInt8} (hb : b ≠ 47) (piece t : Text) :
    Text.splitLoop "/" 0 piece (b :: t) = Text.splitLoop "/" 0 (b :: piece) t := by
  rw [Text.splitLoop, if_neg]
  change ¬ (47 == b && true) = true
  simpa using hb.symm

theorem splitLoop_clear (hu : 47 ∉ u) (piece t : Text) :
    Text.splitLoop "/" 0 piece (u ++ t) = Text.splitLoop "/" 0 (u.reverse ++ piece) t := by
  induction u generalizing piece with
  | nil => rfl
  | cons b u ih =>
      rw [List.mem_cons, not_or] at hu
      rw [List.cons_append, splitLoop_other (Ne.symm hu.1), ih hu.2, List.reverse_cons,
        List.append_assoc]
      rfl

theorem parts_of_clear (hu : 47 ∉ u) : parts u = [u] := by
  have h := splitLoop_clear hu [] []
  rw [List.append_nil, List.append_nil] at h
  rw [parts, Text.splitOn, h, Text.splitLoop, List.reverse_reverse]

theorem parts_cons (hu : 47 ∉ u) (t : Text) : parts (u ++ 47 :: t) = u :: parts t := by
  rw [parts, Text.splitOn, splitLoop_clear hu, splitLoop_slash, List.append_nil,
    List.reverse_reverse]
  rfl

/-- Every name is one component, or one and a slash and a name behind it. -/
theorem parts_induction {motive : Text → Prop} (clear : ∀ u, 47 ∉ u → motive u)
    (slash : ∀ u t, 47 ∉ u → motive t → motive (u ++ 47 :: t)) (t : Text) : motive t := by
  induction hn : t.length using Nat.strongRecOn generalizing t with
  | _ n ih =>
      by_cases h : 47 ∈ t
      · obtain ⟨u, v, rfl, hu⟩ := List.eq_append_cons_of_mem h
        exact slash u v hu (ih v.length (by rw [← hn]; simp; omega) v rfl)
      · exact clear t h

theorem not_mem_of_mem_parts {t p : Text} (h : p ∈ parts t) : 47 ∉ p := by
  induction t using parts_induction with
  | clear u hu =>
      rw [parts_of_clear hu, List.mem_singleton] at h
      exact h ▸ hu
  | slash u t hu ih =>
      rw [parts_cons hu, List.mem_cons] at h
      rcases h with rfl | h
      · exact hu
      · exact ih h

theorem parts_slash (s t : Text) : parts (s ++ 47 :: t) = parts s ++ parts t := by
  induction s using parts_induction with
  | clear u hu => rw [parts_of_clear hu, parts_cons hu]; rfl
  | slash u s hu ih =>
      rw [List.append_assoc, List.cons_append, parts_cons hu, parts_cons hu, ih]
      rfl

theorem parts_append_clear (hv : 47 ∉ v) (t : Text) :
    ∃ ps p, parts t = ps ++ [p] ∧ parts (t ++ v) = ps ++ [p ++ v] := by
  induction t using parts_induction with
  | clear u hu =>
      refine ⟨[], u, parts_of_clear hu, parts_of_clear ?_⟩
      simp [hu, hv]
  | slash u t hu ih =>
      obtain ⟨ps, p, ht, htv⟩ := ih
      refine ⟨u :: ps, p, ?_, ?_⟩
      · rw [parts_cons hu, ht]
        rfl
      · rw [List.append_assoc, List.cons_append, parts_cons hu, htv]
        rfl

theorem parts_join {ps : List Text} (hne : ps ≠ []) (hps : ∀ p ∈ ps, 47 ∉ p) :
    parts (Text.join "/" ps) = ps := by
  induction ps with
  | nil => exact absurd rfl hne
  | cons p ps ih =>
      have hp := hps p (List.mem_cons_self ..)
      cases ps with
      | nil => exact parts_of_clear hp
      | cons q ps =>
          have htail :=
            ih (List.cons_ne_nil _ _) fun r hr => hps r (List.mem_cons_of_mem p hr)
          rw [Text.join, List.append_assoc]
          exact (parts_cons hp _).trans (congrArg _ htail)

/-! ### Clean names -/

/-- A component that is a name by itself, and not a way to go. -/
def Proper (p : Text) : Prop := p ≠ [] ∧ p ≠ "." ∧ p ≠ ".."

instance (p : Text) : Decidable (Proper p) := inferInstanceAs (Decidable (_ ∧ _ ∧ _))

theorem push_proper {p : Text} (hp : Proper p) (rooted : Bool) (stack : List Text) :
    push rooted stack p = p :: stack := by
  obtain ⟨hne, hdot, hdots⟩ := hp
  have h1 : (p.isEmpty || p == ".") = false := by simpa using ⟨hne, hdot⟩
  have h2 : (p == "..") = false := by simpa using hdots
  rw [push.eq_def, h1, h2]
  rfl

/-- The stacks of components that cleaning makes: a way up stands on ways up only,
and not at the root. -/
inductive Normal (rooted : Bool) : List Text → Prop
  | nil : Normal rooted []
  | proper {p : Text} {stack : List Text} (hp : Proper p) (hclear : 47 ∉ p)
    (h : Normal rooted stack) :
      Normal rooted (p :: stack)
  | up {stack : List Text} (hrooted : rooted = false) (hall : ∀ q ∈ stack, q = "..")
      (h : Normal rooted stack) : Normal rooted (".." :: stack)

theorem Normal.push {rooted : Bool} {stack : List Text} (h : Normal rooted stack) {p : Text}
    (hp : 47 ∉ p) : Normal rooted (push rooted stack p) := by
  unfold FileName.push
  split
  · exact h
  · next hskip =>
      rw [Bool.or_eq_true, not_or] at hskip
      split
      · next hup =>
          obtain rfl : p = ".." := beq_iff_eq.mp hup
          split
          · split
            · exact .nil
            · next hrooted => exact .up (by simpa using hrooted) nofun .nil
          · next top rest =>
              split
              · next htop =>
                  obtain rfl : top = ".." := beq_iff_eq.mp htop
                  cases h with
                  | proper hp => exact absurd rfl hp.2.2
                  | up hrooted hall h =>
                      refine .up hrooted ?_ (.up hrooted hall h)
                      simpa using hall
              · cases h with
                | proper _ _ h => exact h
                | up _ _ h => exact h
      · next hup =>
          refine .proper ⟨?_, ?_, ?_⟩ hp h
          · simpa using hskip.1
          · simpa using hskip.2
          · simpa using hup

theorem Normal.clear {rooted : Bool} {stack : List Text} (h : Normal rooted stack) :
    ∀ p ∈ stack, 47 ∉ p := by
  induction h with
  | nil => nofun
  | proper _ hclear _ ih => exact List.forall_mem_cons.mpr ⟨hclear, ih⟩
  | up _ _ _ ih => exact List.forall_mem_cons.mpr ⟨by decide, ih⟩

theorem Normal.ne_nil {rooted : Bool} {stack : List Text} (h : Normal rooted stack) :
    ∀ p ∈ stack, p ≠ [] := by
  induction h with
  | nil => nofun
  | proper hp _ _ ih => exact List.forall_mem_cons.mpr ⟨hp.1, ih⟩
  | up _ _ _ ih => exact List.forall_mem_cons.mpr ⟨by decide, ih⟩

theorem Normal.foldl_push {rooted : Bool} {stack : List Text} (h : Normal rooted stack) :
    stack.reverse.foldl (FileName.push rooted) [] = stack := by
  induction h with
  | nil => rfl
  | proper hp _ _ ih =>
      rw [List.reverse_cons, List.foldl_append, ih]
      exact push_proper hp rooted _
  | up hrooted hall h ih =>
      rw [List.reverse_cons, List.foldl_append, ih, hrooted]
      cases h with
      | nil => rfl
      | proper hp => exact absurd (hall _ (List.mem_cons_self ..)) hp.2.2
      | up => rfl

/-- The stack that the components of a name make. -/
def stackOf (name : Text) : List Text := (parts name).foldl (push (isAbsolute name)) []

theorem normal_foldl {rooted : Bool} {stack : List Text} (h : Normal rooted stack)
    {ps : List Text}
    (hps : ∀ p ∈ ps, 47 ∉ p) : Normal rooted (ps.foldl (push rooted) stack) := by
  induction ps generalizing stack with
  | nil => exact h
  | cons p ps ih =>
      exact ih (h.push (hps p (List.mem_cons_self ..))) fun q hq =>
        hps q (List.mem_cons_of_mem p hq)

theorem normal_stackOf (name : Text) : Normal (isAbsolute name) (stackOf name) :=
  normal_foldl .nil fun _ => not_mem_of_mem_parts

theorem clean_eq (name : Text) :
    clean name = if isAbsolute name then "/" ++ Text.join "/" (stackOf name).reverse
      else if (Text.join "/" (stackOf name).reverse).isEmpty then "."
      else Text.join "/" (stackOf name).reverse := rfl

theorem parts_join_stack {name : Text} (h : stackOf name ≠ []) :
    parts (Text.join "/" (stackOf name).reverse) = (stackOf name).reverse := by
  refine parts_join ?_ ?_
  · simpa using h
  · intro p hp
    exact (normal_stackOf name).clear p (List.mem_reverse.mp hp)

theorem isAbsolute_cons (t : Text) : isAbsolute (47 :: t) = true := by
  cases t <;> rfl

theorem isAbsolute_iff {t : Text} : isAbsolute t = true ↔ ∃ u, t = 47 :: u := by
  refine ⟨fun h => ?_, fun ⟨u, hu⟩ => hu ▸ isAbsolute_cons u⟩
  obtain ⟨u, rfl⟩ := List.isPrefixOf_iff_prefix.mp h
  exact ⟨u, rfl⟩

theorem nil_not_mem_parts_join {name : Text} (h : stackOf name ≠ []) :
    [] ∉ parts (Text.join "/" (stackOf name).reverse) := by
  rw [parts_join_stack h, List.mem_reverse]
  exact fun hmem => (normal_stackOf name).ne_nil _ hmem rfl

theorem join_stack_ne_nil {name : Text} (h : stackOf name ≠ []) :
    Text.join "/" (stackOf name).reverse ≠ [] := by
  intro hnil
  refine nil_not_mem_parts_join h ?_
  rw [hnil, parts_of_clear (by simp)]
  exact List.mem_singleton.mpr rfl

theorem not_absolute_join (name : Text) :
    isAbsolute (Text.join "/" (stackOf name).reverse) = false := by
  by_cases h : stackOf name = []
  · rw [h]
    rfl
  · rw [Bool.eq_false_iff]
    intro habs
    obtain ⟨u, hu⟩ := isAbsolute_iff.mp habs
    refine nil_not_mem_parts_join h ?_
    rw [hu, ← List.nil_append (47 :: u), parts_cons (by simp)]
    exact List.mem_cons_self ..

theorem push_nil (rooted : Bool) (stack : List Text) : push rooted stack [] = stack := rfl

theorem foldl_parts_join {name : Text} (rooted : Bool)
    (hrooted : rooted = isAbsolute name) :
    (parts (Text.join "/" (stackOf name).reverse)).foldl (push rooted) [] =
    stackOf name := by
  subst hrooted
  by_cases h : stackOf name = []
  · rw [h]
    exact push_nil (isAbsolute name) []
  · rw [parts_join_stack h]
    exact (normal_stackOf name).foldl_push

theorem stackOf_clean (name : Text) :
    stackOf (clean name) = stackOf name ∧ isAbsolute (clean name) = isAbsolute name := by
  rw [clean_eq]
  cases habs : isAbsolute name with
  | true =>
      have habs' (t : Text) : isAbsolute ("/" ++ t) = true := isAbsolute_cons t
      rw [if_pos rfl]
      refine ⟨?_, habs' _⟩
      have hparts (t : Text) : parts ("/" ++ t) = [] :: parts t :=
          parts_cons (u := []) (by simp) t
      rw [stackOf, habs', hparts]
      exact foldl_parts_join true habs.symm
  | false =>
      rw [if_neg (by decide)]
      by_cases h : stackOf name = []
      · rw [h]
        exact ⟨rfl, rfl⟩
      · rw [if_neg (by simpa using join_stack_ne_nil h)]
        refine ⟨?_, not_absolute_join name⟩
        rw [stackOf, not_absolute_join name]
        exact foldl_parts_join false habs.symm

theorem clean_clean (name : Text) : clean (clean name) = clean name := by
  obtain ⟨hstack, habs⟩ := stackOf_clean name
  rw [clean_eq (clean name), hstack, habs, clean_eq name]

/-! ### The last component -/

/-- What stands behind the last slash. -/
def last (name : Text) : Text := (name.reverse.takeWhile (· ≠ 47)).reverse

theorem clear_reverse (hv : 47 ∉ v) : ∀ b ∈ v.reverse, decide (b ≠ 47) = true := by
  intro b hb
  rw [List.mem_reverse] at hb
  exact decide_eq_true fun h => hv (h ▸ hb)

theorem last_clear (hv : 47 ∉ v) : last v = v := by
  have h : (v.reverse ++ []).takeWhile (· ≠ 47) = v.reverse ++ [] :=
    List.takeWhile_append_of_pos (clear_reverse hv)
  rw [List.append_nil] at h
  rw [last, h, List.reverse_reverse]

theorem reverse_slash (d v : Text) :
    (d ++ 47 :: v).reverse = v.reverse ++ 47 :: d.reverse := by
  simp

theorem last_slash (hv : 47 ∉ v) (d : Text) : last (d ++ 47 :: v) = v := by
  rw [last, reverse_slash, List.takeWhile_append_of_pos (clear_reverse hv),
    List.takeWhile_cons_of_neg (by decide), List.append_nil, List.reverse_reverse]

/-- A name is its last component, or has a slash in front of it. -/
theorem eq_last (t : Text) :
    47 ∉ last t ∧ (t = last t ∨ ∃ d, t = d ++ 47 :: last t) := by
  by_cases h : 47 ∈ t
  · obtain ⟨v, d, hsplit, hv⟩ := List.eq_append_cons_of_mem (List.mem_reverse.mpr h)
    have ht : t = d.reverse ++ 47 :: v.reverse := by
      rw [← List.reverse_reverse t, hsplit]
      simp
    have hlast := last_slash (v := v.reverse) (by simpa using hv) d.reverse
    rw [ht, hlast]
    exact ⟨by simpa using hv, Or.inr ⟨_, rfl⟩⟩
  · rw [last_clear h]
    exact ⟨h, Or.inl rfl⟩

theorem last_suffix (t : Text) : last t <:+ t := by
  rcases (eq_last t).2 with h | ⟨d, h⟩
  · exact h ▸ List.suffix_refl t
  · exact ⟨d ++ [47], by rw [List.append_assoc]; exact h.symm⟩

theorem parts_last (t : Text) : ∃ ps, parts t = ps ++ [last t] := by
  obtain ⟨hclear, h | ⟨d, h⟩⟩ := eq_last t
  · exact ⟨[], by rw [← h]; exact parts_of_clear (h ▸ hclear)⟩
  · refine ⟨parts d, ?_⟩
    rw [h, last_slash hclear, parts_slash, parts_of_clear hclear]

theorem last_of_parts {t n : Text} {ps : List Text} (h : parts t = ps ++ [n]) :
    last t = n := by
  obtain ⟨qs, hqs⟩ := parts_last t
  rw [hqs] at h
  simpa using (List.append_inj' h rfl).2

theorem last_append_clear (hv : 47 ∉ v) (t : Text) : last (t ++ v) = last t ++ v := by
  obtain ⟨ps, p, ht, htv⟩ := parts_append_clear hv t
  rw [last_of_parts htv, last_of_parts ht]

/-- An ordinary last component stays when a name is cleaned, and what stands in
front of it is cleaned by itself. -/
theorem stackOf_of_parts {t n : Text} {ps : List Text} (h : parts t = ps ++ [n])
    (hn : Proper n) : stackOf t = n :: ps.foldl (push (isAbsolute t)) [] := by
  rw [stackOf, h, List.foldl_append]
  exact push_proper hn _ _

theorem last_clean_of_stack {t n : Text} {rest : List Text} (h : stackOf t = n :: rest) :
    last (clean t) = n := by
  have hfull : stackOf t ≠ [] := by
    rw [h]
    exact List.cons_ne_nil _ _
  have hparts := parts_join_stack hfull
  have hne := join_stack_ne_nil hfull
  rw [h, List.reverse_cons] at hparts
  rw [clean_eq]
  split
  · have hbody (u : Text) : parts ("/" ++ u) = [] :: parts u :=
        parts_cons (u := []) (by simp) u
    have hwhole : parts ("/" ++ Text.join "/" (stackOf t).reverse) =
        ([] :: rest.reverse) ++ [n] := by
      rw [hbody, h, List.reverse_cons, hparts]
      rfl
    exact last_of_parts hwhole
  · rw [if_neg (by simpa using hne), h, List.reverse_cons]
    exact last_of_parts hparts

theorem last_clean {t : Text} (hn : Proper (last t)) : last (clean t) = last t := by
  obtain ⟨ps, hps⟩ := parts_last t
  exact last_clean_of_stack (stackOf_of_parts hps hn)

/-! ### A name taken apart -/

/-- What stands in front of the last component, with the slash. -/
def front (name : Text) : Text := (name.reverse.dropWhile (· ≠ 47)).reverse

theorem dir_eq (name : Text) : dir name = clean (front name) := rfl

theorem front_clear (hv : 47 ∉ v) : front v = [] := by
  have h : (v.reverse ++ []).dropWhile (· ≠ 47) = [] :=
    List.dropWhile_append_of_pos (clear_reverse hv)
  rw [List.append_nil] at h
  rw [front, h, List.reverse_nil]

theorem front_slash (hv : 47 ∉ v) (d : Text) : front (d ++ 47 :: v) = d ++ [47] := by
  rw [front, reverse_slash, List.dropWhile_append_of_pos (clear_reverse hv),
    List.dropWhile_cons_of_neg (by decide), List.reverse_cons, List.reverse_reverse]

theorem base_eq {name : Text} (h : last name ≠ []) : base name = last name := by
  have hhead : name.reverse.dropWhile (· == 47) = name.reverse := by
    cases hr : name.reverse with
    | nil => rfl
    | cons b t =>
        refine List.dropWhile_cons_of_neg fun hb => h ?_
        rw [last, hr, List.takeWhile_cons_of_neg (by simpa using hb)]
        rfl
  have hne : name ≠ [] := by
    rintro rfl
    exact h rfl
  have hempty : name.isEmpty = false := by simpa using hne
  unfold base
  simp only [hhead, List.reverse_reverse, hempty, Bool.false_eq_true, if_false]
  rfl

theorem isAbsolute_append {s : Text} (h : s ≠ []) (t : Text) :
    isAbsolute (s ++ t) = isAbsolute s := by
  obtain ⟨b, s, rfl⟩ := List.exists_cons_of_ne_nil h
  cases s <;> rfl

theorem isAbsolute_clear (hv : 47 ∉ v) : isAbsolute v = false := by
  rw [Bool.eq_false_iff]
  intro h
  obtain ⟨u, rfl⟩ := isAbsolute_iff.mp h
  exact hv (List.mem_cons_self ..)

theorem clean_ne_nil (name : Text) : clean name ≠ [] := by
  rw [clean_eq]
  split
  · nofun
  · split
    · nofun
    · next h => simpa using h

/-- What stands in front of the last component leads as far as all the others. -/
theorem stackOf_front {t : Text} (hn : Proper (last t)) :
    stackOf t = last t :: stackOf (front t) ∧ isAbsolute (front t) = isAbsolute t := by
  obtain ⟨hclear, h⟩ := eq_last t
  generalize last t = n at hn hclear h
  rcases h with rfl | ⟨d, rfl⟩
  · have hparts : parts t = [] ++ [t] := parts_of_clear hclear
    rw [front_clear hclear, isAbsolute_clear hclear, stackOf_of_parts hparts hn]
    exact ⟨rfl, rfl⟩
  · have hparts : parts (d ++ 47 :: n) = parts d ++ [n] := by
      rw [parts_slash, parts_of_clear hclear]
    have hfront : parts (d ++ [47]) = parts d ++ [[]] := parts_slash d []
    have habs : isAbsolute (d ++ [47]) = isAbsolute (d ++ 47 :: n) := by
      rw [← isAbsolute_append (by simp) n, List.append_assoc]
      rfl
    rw [front_slash hclear, stackOf_of_parts hparts hn, stackOf, hfront,
      List.foldl_append, habs]
    exact ⟨rfl, rfl⟩

theorem clean_dir_last {t : Text} (hn : Proper (last t)) :
    clean (dir t ++ 47 :: last t) = clean t := by
  obtain ⟨hclear, -⟩ := eq_last t
  obtain ⟨hstack, habs⟩ := stackOf_front hn
  obtain ⟨hdir, habsDir⟩ := stackOf_clean (front t)
  have hparts : parts (dir t ++ 47 :: last t) = parts (dir t) ++ [last t] := by
    rw [parts_slash, parts_of_clear hclear]
  have habs' : isAbsolute (dir t ++ 47 :: last t) = isAbsolute (dir t) :=
    isAbsolute_append (clean_ne_nil _) _
  have hwhole : stackOf (dir t ++ 47 :: last t) = stackOf t := by
    rw [stackOf_of_parts hparts hn, habs', hstack, ← hdir]
    rfl
  rw [clean_eq, clean_eq t, hwhole, habs', dir_eq, habsDir, habs]

/-! ### Extensions -/

theorem extension_eq (name : Text) :
    extension name = match (last name).findLast? "." with
      | some n => (last name).drop n
      | none => [] := rfl

theorem extension_suffix (name : Text) : extension name <:+ last name := by
  rw [extension_eq]
  split
  · exact List.drop_suffix _ _
  · exact List.nil_suffix

theorem proper_of_suffix {n : Text} (h : Text.ofString ".rs" <:+ n) : Proper n := by
  have hlen : 3 ≤ n.length := h.length_le
  refine ⟨?_, ?_, ?_⟩
  all_goals
    rintro rfl
    revert hlen
    decide

/-! ### Spellings of a name -/

theorem clean_eq_clean_iff :
    clean u = clean v ↔ stackOf u = stackOf v ∧ isAbsolute u = isAbsolute v := by
  constructor
  · intro h
    rw [← (stackOf_clean u).1, ← (stackOf_clean u).2, h, (stackOf_clean v).1,
      (stackOf_clean v).2]
    exact ⟨rfl, rfl⟩
  · rintro ⟨hstack, habs⟩
    rw [clean_eq, clean_eq, hstack, habs]

theorem stackOf_slash (hu : u ≠ []) (hv : Proper v) (hclear : 47 ∉ v) :
    stackOf (u ++ 47 :: v) = v :: stackOf u ∧ isAbsolute (u ++ 47 :: v) = isAbsolute u := by
  have habs := isAbsolute_append hu (47 :: v)
  have hparts : parts (u ++ 47 :: v) = parts u ++ [v] := by
    rw [parts_slash, parts_of_clear hclear]
  rw [stackOf_of_parts hparts hv, habs, stackOf]
  exact ⟨rfl, rfl⟩

end Deriver.FileName

namespace Deriver.FileTree

variable {t u : FileTree} {p q : Place} {name content : Text}

/-! ## Entries -/

theorem at?_without (h : q ≠ p) : (t.without p).at? q = t.at? q := by
  unfold at?
  rw [show (t.without p).entries.lookup q = t.entries.lookup q
    from Entries.lookup_filter_ne _ h]

theorem at?_without_self (h : p ≠ []) : (t.without p).at? p = none := by
  unfold at?
  rw [if_neg (by simpa using h)]
  exact Entries.lookup_filter_self t.entries

theorem at?_put (h : q ≠ p) (e : Entry) : (t.put p e).at? q = t.at? q := by
  have hq : (q == p) = false := by simpa using h
  unfold at?
  rw [put, List.lookup_append]
  have : (t.without p).entries.lookup q = t.entries.lookup q := Entries.lookup_filter_ne _ h
  rw [this, List.lookup_cons, hq]
  simp

theorem at?_put_self (h : p ≠ []) (e : Entry) : (t.put p e).at? p = some e := by
  unfold at?
  rw [if_neg (by simpa using h), put, List.lookup_append]
  have : (t.without p).entries.lookup p = none := Entries.lookup_filter_self t.entries
  rw [this]
  simp

/-! ## Files that stay -/

/-- A file at the place stays what it is. -/
def Keeps (p : Place) (t u : FileTree) : Prop :=
  ∀ content, t.at? p = some (.file content) → u.at? p = some (.file content)

theorem Keeps.refl (p : Place) (t : FileTree) : Keeps p t t := fun _ h => h

theorem Keeps.trans {v : FileTree} (h : Keeps p t u) (h' : Keeps p u v) : Keeps p t v :=
  fun content hp => h' content (h content hp)

theorem Keeps.of_at? (h : u.at? p = t.at? p) : Keeps p t u := fun _ hp => h.trans hp

theorem doing_ok {α : Type} {action : Text} {r : Except FileFault α} {v : α}
    (h : doing action name r = .ok v) : r = .ok v := by
  cases r with
  | error e => cases h
  | ok w => cases h; rfl

theorem ok_bind {ε α β : Type} (v : α) (f : α → Except ε β) : (Except.ok v >>= f) = f v :=
  rfl

theorem Keeps.write (hp : t.resolve name ≠ .ok p) (h : t.write name content = .ok u) :
    Keeps p t u := by
  have h := doing_ok h
  cases hq : t.resolve name with
  | error e => rw [hq] at h; cases h
  | ok q =>
      rw [hq] at h
      have hne : p ≠ q := fun heq => hp (heq ▸ hq)
      rw [ok_bind] at h
      split at h
      · cases h
      · cases h
        exact .of_at? (at?_put hne _)

theorem Keeps.remove (hp : t.resolve name ≠ .ok p) (h : t.remove name = .ok u) :
    Keeps p t u := by
  have h := doing_ok h
  cases hq : t.resolve name with
  | error e => rw [hq] at h; cases h
  | ok q =>
      rw [hq] at h
      have hne : p ≠ q := fun heq => hp (heq ▸ hq)
      rw [ok_bind] at h
      split at h
      · cases h
      · cases h
        exact .of_at? (at?_without hne)
      · split at h
        · cases h
          exact .of_at? (at?_without hne)
        · cases h

/-! ## Trees that grow -/

/-- Nothing is lost from the first tree to the second. -/
structure Grows (t u : FileTree) : Prop where
  cwd : u.cwd = t.cwd
  at? : ∀ p e, t.at? p = some e → u.at? p = some e

theorem Grows.refl (t : FileTree) : Grows t t := ⟨rfl, fun _ _ h => h⟩

theorem Grows.trans {v : FileTree} (h : Grows t u) (h' : Grows u v) : Grows t v :=
  ⟨h'.cwd.trans h.cwd, fun p e hp => h'.at? p e (h.at? p e hp)⟩

theorem Grows.keeps (h : Grows t u) : Keeps p t u := fun _ hp => h.at? p _ hp

theorem Grows.makeDir (h : t.makeDir name = .ok u) : Grows t u := by
  have h := doing_ok h
  dsimp only at h
  generalize t.resolve _ = r at h
  cases r with
  | error e => cases h
  | ok q =>
      change (if (t.at? q).isSome then throw _ else _) = _ at h
      split at h
      · cases h
      · next hnone =>
          cases h
          refine ⟨rfl, fun p e hp => ?_⟩
          have hne : p ≠ q := by
            rintro rfl
            rw [hp] at hnone
            exact hnone rfl
          rw [at?_put hne, hp]

theorem Grows.makeDirHere
    (h : (match t.makeDir name with
      | .ok v => (.ok v : Except FileError FileTree)
      | .error e => if t.hasDir name then .ok t else .error e) = .ok u) : Grows t u := by
  split at h
  · next v hv =>
      cases h
      exact Grows.makeDir hv
  · split at h
    · cases h
      exact .refl t
    · cases h

theorem Grows.makeDirsLoop {depth : Nat} (h : t.makeDirsLoop depth name = .ok u) :
    Grows t u := by
  induction depth generalizing name u with
  | zero => cases h; exact .refl t
  | succ depth ih =>
      unfold FileTree.makeDirsLoop at h
      split at h
      · cases h
        exact .refl t
      · cases h
      · by_cases hparent : (parentName name).isEmpty
        · rw [if_pos hparent] at h
          exact Grows.makeDirHere h
        · rw [if_neg hparent] at h
          cases hv : t.makeDirsLoop depth (parentName name) with
          | error e => rw [hv] at h; cases h
          | ok v =>
              rw [hv] at h
              exact (ih hv).trans (Grows.makeDirHere h)

theorem Grows.makeDirs (h : t.makeDirs name = .ok u) : Grows t u := Grows.makeDirsLoop h

theorem Grows.descend (h : Grows t u) {part : Text} (hd : t.descend p part = .ok q) :
    u.descend p part = .ok q := by
  unfold FileTree.descend at hd ⊢
  split at hd
  · cases hd
  · cases hd
  · next hdir =>
      rw [h.at? p _ hdir]
      exact hd

theorem Grows.foldlM (h : Grows t u) {parts : List Text}
    (hd : parts.foldlM t.descend p = .ok q) : parts.foldlM u.descend p = .ok q := by
  induction parts generalizing p with
  | nil => exact hd
  | cons part parts ih =>
      rw [List.foldlM_cons] at hd ⊢
      cases hr : t.descend p part with
      | error e => rw [hr] at hd; cases hd
      | ok r =>
          rw [hr] at hd
          rw [h.descend hr]
          exact ih hd

theorem Grows.resolve (h : Grows t u) (hp : t.resolve name = .ok p) :
    u.resolve name = .ok p := by
  unfold FileTree.resolve at hp ⊢
  rw [h.cwd]
  split at hp
  · cases hp
  · next hne =>
      rw [if_neg hne]
      split at hp
      · cases hp
      · next hzero =>
          rw [if_neg hzero]
          exact h.foldlM hp

/-! ## Where a name leads -/

theorem descend_proper {part : Text} (hpart : FileName.Proper part) {place : Place}
    (h : t.descend p part = .ok place) : place = p ++ [part] := by
  obtain ⟨hne, hdot, hdots⟩ := hpart
  unfold descend at h
  split at h
  · cases h
  · cases h
  · split at h
    · next hstay =>
        rw [Bool.or_eq_true] at hstay
        rcases hstay with hstay | hstay
        · exact absurd (List.isEmpty_iff.mp hstay) hne
        · exact absurd (beq_iff_eq.mp hstay) hdot
    · split at h
      · next hup => exact absurd (beq_iff_eq.mp hup) hdots
      · split at h
        · cases h
        · cases h
          rfl

/-- A name leads to a place that ends with its last component, if that is an
ordinary one. -/
theorem getLast?_resolve (hname : FileName.Proper (FileName.last name))
    (h : t.resolve name = .ok p) : p.getLast? = some (FileName.last name) := by
  unfold resolve at h
  split at h
  · cases h
  · split at h
    · cases h
    · obtain ⟨ps, hps⟩ := FileName.parts_last name
      rw [hps, List.foldlM_append] at h
      generalize List.foldlM t.descend _ ps = r at h
      cases r with
      | error e => cases h
      | ok q =>
          have h : t.descend q (FileName.last name) >>= pure = .ok p := h
          rw [bind_pure] at h
          rw [descend_proper hname h, List.getLast?_concat]

/-! ## What stands there afterwards -/

theorem ne_nil_of_file (h : t.at? p = some (.file content)) : p ≠ [] := by
  rintro rfl
  cases h

/-- A file is read where it stands, and nothing else is. -/
theorem read_iff (hp : t.resolve name = .ok p) :
    t.read name = .ok content ↔ t.at? p = some (.file content) := by
  unfold read find
  rw [hp, ok_bind]
  cases t.at? p with
  | none => exact ⟨nofun, nofun⟩
  | some e =>
      cases e with
      | dir => exact ⟨nofun, nofun⟩
      | file content' =>
          refine ⟨fun h => ?_, fun h => ?_⟩
          · cases h
            rfl
          · cases h
            rfl

theorem remove_file (hp : t.resolve name = .ok p) (h : t.at? p = some (.file content)) :
    t.remove name = .ok (t.without p) := by
  unfold remove
  rw [hp, ok_bind, h]
  rfl

theorem write_file (hp : t.resolve name = .ok p) (h : t.at? p = some (.file content))
    (content' : Text) : t.write name content' = .ok (t.put p (.file content')) := by
  unfold write
  rw [hp, ok_bind, h]
  rfl

end Deriver.FileTree
