import Mathlib.Data.List.Nodup
import Deriver.Proofs.Bounds.Header
import Deriver.Proofs.Format.Arguments
import Deriver.Proofs.Format.Grammar

/-!
# What placeholders stand for

Main statement: `placeholders_resolved`. A format string with its arguments is a call: its
holes take arguments by number, by name or in order, a precision `.*` one more in order and
in front. What the code finds for a placeholder is compared with that, and so are the
predicates it adds for the fields that are formatted directly.
-/

namespace Deriver.Format

open Placeholder (traits trait)

/-! ## Traits -/

/-- Whether the last byte of a text, if it has one, selects no trait. -/
def Silent (t : Text) : Prop := ∀ b, t.getLast? = some b → traits.lookup b = none

theorem silent_nil : Silent [] := nofun

theorem silent_append {s t : Text} (hs : Silent s) (ht : Silent t) : Silent (s ++ t) := by
  intro b hb
  rw [List.getLast?_append] at hb
  cases hlast : t.getLast? with
  | none => exact hs b (by rwa [hlast, Option.none_or] at hb)
  | some c =>
      rw [hlast, Option.some_or] at hb
      exact ht b (hlast.trans hb)

theorem silent_concat (s : Text) {b : UInt8} (h : traits.lookup b = none) :
    Silent (s ++ [b]) := by
  intro c hc
  rw [List.getLast?_concat] at hc
  exact Option.some.inj hc ▸ h

theorem silent_digits (n : Digits) : Silent (Text.ofChars n.chars) := by
  have hascii : ∀ c, c.toNat < 128 → c.isDigit = true →
      ∀ b ∈ Text.ofChar c, traits.lookup b = none :=
    forall_ascii (by decide +kernel)
  intro b hb
  obtain ⟨c, hc, hb⟩ := List.mem_flatMap.mp (List.mem_of_getLast? hb)
  have hdigit := n.digits c hc
  have hlt := toNat_lt_of_digit hdigit
  exact hascii c (by omega) hdigit b hb

theorem silent_count (c : Count) : Silent c.text := by
  cases c with
  | literal n => exact silent_digits n
  | parameter a => exact silent_concat _ (by decide)

theorem silent_precision (p : Precision) : Silent p.text := by
  cases p with
  | count c =>
      exact silent_append (s := [46]) (silent_concat [] (by decide)) (silent_count c)
  | star => exact silent_concat [46] (by decide)

theorem silent_getD {α : Type} (o : Option α) {text : α → Text} (h : ∀ a, Silent (text a)) :
    Silent ((o.map text).getD []) := by
  cases o with
  | none => exact silent_nil
  | some a => exact h a

theorem silent_when (c : Bool) {t : Text} (h : Silent t) : Silent (Text.when c t) := by
  cases c with
  | false => exact silent_nil
  | true => exact h

theorem silent_flags (s : Spec) : Silent s.flags := by
  have hside (side : Side) : Silent [side.byte] := by
    refine silent_concat [] ?_
    cases side <;> decide
  have hsign (plus : Bool) : Silent (if plus then [43] else [45]) := by
    cases plus <;> exact silent_concat [] (by decide)
  simp only [Spec.flags, Text.concat, List.flatten_cons, List.flatten_nil, List.append_nil]
  exact silent_append (silent_getD _ fun a => hside a.2) <|
    silent_append (silent_getD _ hsign) <|
    silent_append (silent_when _ (silent_concat [] (by decide))) <|
    silent_append (silent_when _ (silent_concat [] (by decide))) <|
    silent_append (silent_getD _ silent_count) (silent_getD _ silent_precision)

/-- A character to fill up with never stands last: a side follows. -/
theorem silent_filled (s : Spec) :
    Silent ((s.fill.map Text.ofChar).getD [] ++ s.flags) := by
  cases hfill : s.fill with
  | none => exact silent_flags s
  | some c =>
      obtain ⟨⟨_, side⟩, halign, -⟩ := Option.bind_eq_some_iff.mp hfill
      have hne : s.flags ≠ [] := by
        rw [Spec.flags, halign]
        exact List.cons_ne_nil _ _
      intro b hb
      rw [List.getLast?_append, List.getLast?_eq_some_getLast hne, Option.some_or] at hb
      exact silent_flags s b ((List.getLast?_eq_some_getLast hne).trans hb)

theorem silent_blanks {cs : List Char} (h : ∀ c ∈ cs, Text.isBlank c = true) :
    Silent (Text.ofChars cs) := by
  have hall : Text.blanks.all
      (fun c => (Text.ofChar c).all fun b => (traits.lookup b).isNone) = true := by
    decide +kernel
  intro b hb
  obtain ⟨c, hc, hb⟩ := List.mem_flatMap.mp (List.mem_of_getLast? hb)
  have hc := List.all_eq_true.mp hall c (List.contains_iff_mem.mp (h c hc))
  exact Option.isNone_iff_eq_none.mp (List.all_eq_true.mp hc b hb)

theorem trait_of_silent {a t : Text} (h : Silent t) : trait ⟨a, t⟩ = "Display" := by
  unfold trait
  cases hlast : t.getLast? with
  | none => rfl
  | some b =>
      dsimp only
      rw [h b hlast]
      rfl

theorem trait_append_kind (a t : Text) (ht : Silent t) (k : Kind) :
    trait ⟨a, t ++ k.text⟩ = k.trait := by
  cases k with
  | display => 
      rw [show Kind.display.text = [] from rfl, List.append_nil]
      exact trait_of_silent ht
  | _ => 
      unfold trait
      rw [List.getLast?_append_of_ne_nil _ (by decide)]
      rfl

/-- The trait of a placeholder is that of its kind, unless white space stands behind it. -/
theorem trait_placeholder (h : Hole) :
    h.placeholder.trait = if h.blanks = [] then h.kind.trait else "Display" := by
  unfold Hole.placeholder Hole.kind
  cases h.spec with
  | none => exact (ite_self _).symm
  | some s =>
      change trait ⟨h.argText, s.text ++ h.blankText⟩ =
        if h.blanks = [] then s.kind.trait else _
      by_cases hb : h.blanks = []
      · rw [if_pos hb, Hole.blankText, hb]
        change trait ⟨_, s.text ++ []⟩ = _
        rw [List.append_nil, Spec.text, ← List.append_assoc]
        exact trait_append_kind _ _ (silent_filled s) s.kind
      · rw [if_neg hb]
        have hne : h.blankText ≠ [] := by
          obtain ⟨c, cs, hcs⟩ := List.exists_cons_of_ne_nil hb
          rw [Hole.blankText, hcs, Text.ofChars_cons]
          exact List.append_ne_nil_of_left_ne_nil (Text.ofChar_ne_nil c) _
        refine trait_of_silent fun b hlast => ?_
        rw [List.getLast?_append_of_ne_nil _ hne] at hlast
        exact silent_blanks h.blank b hlast

/-! ## Numbers and names -/

theorem digits_step {c : Char} (h : c.isDigit = true) : ∃ b, Text.ofChar c = [b] ∧
    Text.isDigitByte b = true ∧ Text.hexDigit? b = some (c.toNat - 48) := by
  have hascii : ∀ c, c.toNat < 128 → c.isDigit = true →
      Text.ofChar c = [UInt8.ofNat c.toNat] ∧
        Text.isDigitByte (UInt8.ofNat c.toNat) = true ∧
        Text.hexDigit? (UInt8.ofNat c.toNat) = some (c.toNat - 48) :=
    forall_ascii (by decide +kernel)
  have hlt := toNat_lt_of_digit h
  exact ⟨_, hascii c (by omega) h⟩

theorem digits?_ofChars {cs : List Char} (h : ∀ c ∈ cs, c.isDigit = true) (m : Nat) :
    Text.digits? 10 m (Text.ofChars cs) =
      some (cs.foldl (fun m c => m * 10 + (c.toNat - 48)) m) := by
  induction cs generalizing m with
  | nil => rfl
  | cons c cs ih =>
      obtain ⟨hc, hcs⟩ := List.forall_mem_cons.mp h
      obtain ⟨b, hb, -, hvalue⟩ := digits_step hc
      have hlt := toNat_lt_of_digit hc
      rw [Text.ofChars_cons, hb, List.singleton_append, Text.digits?, hvalue]
      dsimp only
      rw [if_pos (by omega), ih hcs, List.foldl_cons]

theorem text_ne_nil (a : Argument) : a.text ≠ [] := by
  obtain ⟨c, cs, hcs⟩ := List.exists_cons_of_ne_nil a.chars_ne_nil
  rw [Argument.text, hcs, Text.ofChars_cons]
  exact List.append_ne_nil_of_left_ne_nil (Text.ofChar_ne_nil c) _

theorem toNat?_index (n : Digits) : (Argument.index n).text.toNat? 10 = some n.value := by
  rw [Text.toNat?, List.isEmpty_eq_false_iff.mpr (text_ne_nil _)]
  exact digits?_ofChars n.digits 0

theorem isIndex_index (n : Digits) : FormatSpec.isIndex (Argument.index n).text = true := by
  rw [FormatSpec.isIndex, List.isEmpty_eq_false_iff.mpr (text_ne_nil _), Bool.not_false,
    Bool.true_and, List.all_eq_true]
  intro b hb
  obtain ⟨c, hc, hb⟩ := List.mem_flatMap.mp hb
  obtain ⟨d, hd, hdigit, -⟩ := digits_step (n.digits c hc)
  rw [hd, List.mem_singleton] at hb
  exact hb ▸ hdigit

theorem isIndex_name (n : Name) : FormatSpec.isIndex (Argument.name n).text = false := by
  have hascii : ∀ c, c.toNat < 128 → isNameChar c = true → c.isDigit = false →
      (Text.ofChar c).all Text.isDigitByte = false :=
    forall_ascii (by decide +kernel)
  have hfirst : (Text.ofChar n.first).all Text.isDigitByte = false := by
    obtain ⟨hname, hdigit⟩ := n.begins
    by_cases hc : n.first.toNat < 128
    · exact hascii n.first hc hname hdigit
    · obtain ⟨b, t, hb⟩ := List.exists_cons_of_ne_nil (Text.ofChar_ne_nil n.first)
      have hhigh :=
        Text.high_of_mem_ofChar (Nat.le_of_not_lt hc) (hb ▸ List.mem_cons_self ..)
      have hnot : Text.isDigitByte b = false := by
        rw [Text.isDigitByte, Bool.and_eq_false_iff, decide_eq_false_iff_not,
          decide_eq_false_iff_not]
        exact .inr fun hle => absurd (UInt8.le_trans hhigh hle) (by decide)
      rw [hb, List.all_cons, hnot, Bool.false_and]
  change (_ && (Text.ofChars (n.first :: n.rest)).all Text.isDigitByte) = false
  rw [Text.ofChars_cons, List.all_append, hfirst, Bool.false_and, Bool.and_false]



/-! ## What a call formats -/

/-- The expressions of arguments, in order. -/
def exprs (args : List Text) : List Text :=
  args.map fun a => ((nameAndExpr? a).map (·.2)).getD a

/-- Whether arguments are those of a call: those with a name stand last, and no name is
given twice. -/
structure WellFormed (args : List Text) : Prop where
  last : args.Pairwise fun a b => (nameAndExpr? a).isSome = true →
    (nameAndExpr? b).isSome = true
  distinct : ((args.filterMap nameAndExpr?).map (·.1)).Nodup

/-- How many arguments a hole takes in front of the one it formats. -/
def Hole.stars (h : Hole) : Nat := if h.star then 1 else 0

/-- Whether a hole takes the one it formats in order, as a number. -/
def Hole.implicit (h : Hole) : Nat := if h.argument.isNone then 1 else 0

/-- How many arguments holes take in order, a precision in front of what it is for. -/
def taken : List Hole → Nat
  | [] => 0
  | h :: hs => h.stars + h.implicit + taken hs

/-- How many of these are not precisions. -/
def implicits : List Hole → Nat
  | [] => 0
  | h :: hs => h.implicit + implicits hs

/-- What a hole formats that stands behind others. -/
def formatted? (args : List Text) (before : List Hole) (h : Hole) : Option Text :=
  match h.argument with
  | none => (exprs args)[taken before + h.stars]?
  | some (.index n) => (exprs args)[n.value]?
  | some (.name n) =>
      some (((args.filterMap nameAndExpr?).lookup (Argument.name n).text).getD
        (Argument.name n).text)

/-! ## What the code formats -/

section

variable {f : FormatSpec} {uses : List FormatUse} {next : Nat}

/-- The expression that is found for a hole when some arguments were taken. -/
def found? (f : FormatSpec) (next : Nat) (h : Hole) : Option Text :=
  match h.argument with
  | none => f.positional[next]?
  | some (.index n) => f.positional[min n.value FormatSpec.maxIndex]?
  | some (.name n) => some ((f.named? (Argument.name n).text).getD (Argument.name n).text)

theorem resolve_cons {h : Hole} {ps : List Placeholder}
    (hok : f.resolve next (h.placeholder :: ps) = .ok uses) :
    ∃ e us, found? f next h = some e ∧
      uses = ⟨e, h.placeholder.trait, h.placeholder.spec⟩ :: us ∧
      f.resolve (next + h.implicit) ps = .ok us := by
  have htext (a : Argument) (ha : h.argument = some a) : h.placeholder.arg = a.text := by
    change (h.argument.map Argument.text).getD [] = a.text
    rw [ha]
    rfl
  have hcons {m : Nat} {e : Text} (hok : (do
      return (⟨e, h.placeholder.trait, h.placeholder.spec⟩ : FormatUse) ::
        (← f.resolve m ps)) =
        Except.ok uses) : ∃ us, uses = ⟨e, h.placeholder.trait, h.placeholder.spec⟩ :: us ∧
          f.resolve m ps = .ok us := by
    cases hps : f.resolve m ps with
    | error e => rw [hps] at hok; cases hok
    | ok us =>
        rw [hps] at hok
        exact ⟨us, (Except.ok.inj hok).symm, rfl⟩
  rw [FormatSpec.resolve] at hok
  unfold found? Hole.implicit
  cases harg : h.argument with
  | none =>
      have hempty : h.placeholder.arg = [] := by
        change (h.argument.map Argument.text).getD [] = []
        rw [harg]
        rfl
      rw [if_pos (by rw [hempty]; rfl)] at hok
      split at hok
      next e he =>
        obtain ⟨us, huses, hus⟩ := hcons hok
        exact ⟨e, us, he, huses, hus⟩
      · cases hok
  | some a =>
      rw [htext a harg, if_neg (by simpa using text_ne_nil a)] at hok
      cases a with
      | index n =>
          rw [if_pos (isIndex_index n), toNat?_index, Option.getD_some] at hok
          dsimp only at hok
          split at hok
          next e he =>
            obtain ⟨us, huses, hus⟩ := hcons hok
            exact ⟨e, us, he, huses, hus⟩
          · cases hok
      | name n =>
          rw [if_neg (by rw [isIndex_name]; exact Bool.false_ne_true)] at hok
          obtain ⟨us, huses, hus⟩ := hcons hok
          exact ⟨_, us, rfl, huses, hus⟩

/-- What is found for holes, one after the other. -/
theorem resolve_holes {hs : List Hole}
    (hok : f.resolve next (hs.map Hole.placeholder) = .ok uses) :
    uses.length = hs.length ∧ ∀ before h after, hs = before ++ h :: after →
      ∃ u, uses[before.length]? = some u ∧ u.trait = h.placeholder.trait ∧
        found? f (next + implicits before) h = some u.expr := by
  induction hs generalizing next uses with
  | nil =>
      obtain rfl := Except.ok.inj hok
      exact ⟨rfl, fun before h after hsplit => by simp at hsplit⟩
  | cons g hs ih =>
      obtain ⟨e, us, he, rfl, hus⟩ := resolve_cons hok
      obtain ⟨hlength, hall⟩ := ih hus
      refine ⟨congrArg (· + 1) hlength, fun before h after hsplit => ?_⟩
      cases before with
      | nil =>
          obtain ⟨rfl, -⟩ := List.cons.inj hsplit
          exact ⟨_, rfl, rfl, he⟩
      | cons g' before =>
          obtain ⟨rfl, htail⟩ := List.cons.inj hsplit
          obtain ⟨u, hu, htrait, hexpr⟩ := hall before h after htail
          refine ⟨u, hu, htrait, ?_⟩
          rwa [implicits, ← Nat.add_assoc]

variable (hlegible : ∀ a ∈ f.args, Legible a) (hform : WellFormed f.args)

include hlegible in
theorem positional_eq : f.positional = f.args.filter fun a => (nameAndExpr? a).isNone := by
  unfold FormatSpec.positional
  exact List.filter_congr fun a ha => by rw [namedArg?_eq (hlegible a ha)]

include hlegible hform in
theorem positional_prefix : f.positional <+: exprs f.args := by
  rw [positional_eq hlegible]
  have hlast := hform.last
  generalize f.args = args at hlast
  induction args with
  | nil => exact List.prefix_refl _
  | cons a args ih =>
      obtain ⟨ha, hargs⟩ := List.pairwise_cons.mp hlast
      cases hread : nameAndExpr? a with
      | none =>
          rw [List.filter_cons_of_pos (by rw [hread]; rfl), exprs, List.map_cons, hread]
          exact (List.prefix_cons_inj a).mpr (ih hargs)
      | some ne =>
          rw [List.filter_eq_nil_iff.mpr]
          · exact List.nil_prefix
          · refine List.forall_mem_cons.mpr
              ⟨by rw [hread]; exact Bool.false_ne_true, fun b hb => ?_⟩
            rw [Option.isNone_iff_eq_none, ← ne_eq, Option.ne_none_iff_isSome]
            exact ha b hb (by rw [hread]; rfl)

theorem find?_reverse_eq_lookup {xs : List (Text × Text)}
    (h : (xs.map (·.1)).Nodup) (n : Text) :
    (xs.reverse.find? (·.1 == n)).map (·.2) = xs.lookup n := by
  induction xs with
  | nil => rfl
  | cons x xs ih =>
      obtain ⟨k, e⟩ := x
      obtain ⟨hk, hxs⟩ := List.nodup_cons.mp h
      rw [List.reverse_cons, List.find?_append, List.lookup_cons]
      by_cases hn : n = k
      · subst hn
        have hnone : xs.reverse.find? (·.1 == n) = none := by
          refine List.find?_eq_none.mpr fun x hx hxn => hk ?_
          exact List.mem_map.mpr ⟨x, List.mem_reverse.mp hx, beq_iff_eq.mp hxn⟩
        rw [hnone, beq_self_eq_true]
        simp
      · have hkn : (k == n) = false := beq_eq_false_iff_ne.mpr (Ne.symm hn)
        rw [beq_eq_false_iff_ne.mpr hn, List.find?_singleton, hkn, ← ih hxs]
        simp

include hlegible hform in
theorem named?_eq (n : Text) : f.named? n = (f.args.filterMap nameAndExpr?).lookup n := by
  have hread : f.args.filterMap FormatSpec.namedArg? = f.args.filterMap nameAndExpr? :=
    List.filterMap_congr fun a ha => namedArg?_eq (hlegible a ha)
  rw [FormatSpec.named?, hread]
  exact find?_reverse_eq_lookup hform.distinct n

include hlegible hform in
/-- An explicit argument is found as it is meant; the next one in order is, unless
precisions were taken in front of it. -/
theorem formatted?_iff {before : List Hole} {h : Hole} {e : Text}
    (hsize : f.args.length ≤ FormatSpec.maxIndex)
    (hfound : found? f (implicits before) h = some e) :
    formatted? f.args before h = some e ↔ (h.argument = none →
      (exprs f.args)[taken before + h.stars]? = (exprs f.args)[implicits before]?) := by
  have hprefix := positional_prefix hlegible hform
  have hpositional {i : Nat} (hi : f.positional[i]? = some e) :
      (exprs f.args)[i]? = some e :=
    by
    obtain ⟨t, ht⟩ := hprefix
    rw [← ht, List.getElem?_append_left (List.getElem?_eq_some_iff.mp hi).1, hi]
  unfold found? at hfound
  unfold formatted?
  cases harg : h.argument with
  | none =>
      rw [harg] at hfound
      rw [hpositional hfound]
      exact ⟨fun he _ => he, fun he => he rfl⟩
  | some a =>
      rw [harg] at hfound
      refine iff_of_true ?_ nofun
      cases a with
      | index n =>
          dsimp only at hfound ⊢
          have hlt : min n.value FormatSpec.maxIndex < f.positional.length :=
            (List.getElem?_eq_some_iff.mp hfound).1
          have hle : f.positional.length ≤ f.args.length := List.length_filter_le _ _
          rw [Nat.min_eq_left (by omega)] at hfound
          exact hpositional hfound
      | name n =>
          dsimp only at hfound ⊢
          rwa [named?_eq hlegible hform] at hfound

end

theorem taken_eq_implicits {hs : List Hole} (h : ∀ g ∈ hs, g.star = false) :
    taken hs = implicits hs := by
  induction hs with
  | nil => rfl
  | cons g hs ih =>
      obtain ⟨hg, hhs⟩ := List.forall_mem_cons.mp h
      rw [taken, implicits, ih hhs, Hole.stars, hg, if_neg Bool.false_ne_true, Nat.zero_add]

/-! ## Predicates for what is formatted -/

theorem mem_fieldPredicates_singleton {t : Ty} {subject : Ty} {g : Generics}
    {bound : Ty → Text} {p : Text} : p ∈ fieldPredicates [t] subject g bound ↔
      (t.mentions g = true ∧ t.containsSubject subject = false) ∧
      p = t.predicate (bound t) := by
  change p ∈ (([t] : List Ty).filter _).map _ ↔ _
  rw [List.mem_map]
  simp only [List.mem_filter, List.mem_singleton, Bool.and_eq_true, Bool.not_eq_true']
  constructor
  · rintro ⟨u, ⟨rfl, hu⟩, rfl⟩
    exact ⟨hu, rfl⟩
  · rintro ⟨ht, rfl⟩
    exact ⟨t, ⟨rfl, ht⟩, rfl⟩

/-- The field of a name is the last of that name, and there is no other. -/
theorem find?_formatName {fields : List FieldView}
    (h : (fields.map FieldView.formatName).Nodup) {x : Text} {field : FieldView} :
    fields.reverse.find? (·.formatName == x) = some field ↔
    field ∈ fields ∧ field.formatName = x := by
  constructor
  · intro hfind
    exact ⟨List.mem_reverse.mp (List.mem_of_find?_eq_some hfind),
      beq_iff_eq.mp (List.find?_some (p := fun f : FieldView => f.formatName == x) hfind)⟩
  · rintro ⟨hmem, rfl⟩
    cases hfind : fields.reverse.find? (·.formatName == field.formatName) with
    | none =>
        exact absurd (beq_self_eq_true _)
          (List.find?_eq_none.mp hfind field (List.mem_reverse.mpr hmem))
    | some g =>
        have hg := List.mem_reverse.mp (List.mem_of_find?_eq_some hfind)
        have hname := beq_iff_eq.mp
          (List.find?_some (p := fun f : FieldView =>
            f.formatName == field.formatName) hfind)
        exact congrArg some (List.inj_on_of_nodup_map h hg hmem hname)

/-- The predicates that are added for what is formatted: one for each field that is so
directly, behind any number of ampersands, and needs one. -/
theorem mem_boundUses {v : FieldsView} {subject : Ty} {uses : List FormatUse}
    {g : ImplGenerics} {p : Text} (h : (v.all.map FieldView.formatName).Nodup) :
    p ∈ (v.boundUses subject uses g).predicates ↔ p ∈ g.predicates ∨
      ∃ u ∈ uses, ∃ field ∈ v.all, field.formatName = u.expr.dropWhile (· == 38) ∧
        (field.ty.mentions g.declared = true ∧ field.ty.containsSubject subject = false) ∧
        p = field.ty.predicate (Core.fmt u.trait) := by
  unfold FieldsView.boundUses
  induction uses generalizing g with
  | nil => simp
  | cons u uses ih =>
      rw [List.foldl_cons, ih]
      simp only [List.mem_cons, exists_eq_or_imp]
      cases hfind : v.all.reverse.find? fun f =>
        f.formatName == u.expr.dropWhile (· == 38) with
      | none =>
          have hno : ∀ field ∈ v.all, field.formatName ≠ u.expr.dropWhile (· == 38) := by
            intro field hfield hname
            rw [(find?_formatName h).mpr ⟨hfield, hname⟩] at hfind
            cases hfind
          dsimp only
          constructor
          · rintro (hp | hp)
            · exact .inl hp
            · exact .inr (.inr hp)
          · rintro (hp | ⟨field, hfield, hname, -⟩ | hp)
            · exact .inl hp
            · exact absurd hname (hno field hfield)
            · exact .inr hp
      | some field =>
          dsimp only
          rw [ImplGenerics.mem_addFieldBounds, ImplGenerics.declared_addFieldBounds,
            mem_fieldPredicates_singleton, or_assoc]
          have hfield := (find?_formatName h).mp hfind
          have honly : (∃ other ∈ v.all, other.formatName = u.expr.dropWhile (· == 38) ∧
              (other.ty.mentions g.declared = true ∧
                other.ty.containsSubject subject = false) ∧
              p = other.ty.predicate (Core.fmt u.trait)) ↔
              (field.ty.mentions g.declared = true ∧
                field.ty.containsSubject subject = false) ∧
              p = field.ty.predicate (Core.fmt u.trait) := by
            constructor
            · rintro ⟨other, hother, hname, hp⟩
              have hsame := (find?_formatName h).mpr ⟨hother, hname⟩
              rw [hfind] at hsame
              obtain rfl := Option.some.inj hsame
              exact hp
            · exact fun hp => ⟨field, hfield.1, hfield.2, hp⟩
          rw [honly]

/-! ## The statement -/

theorem display_iff {k : Kind} : k.trait = "Display" ↔ k = .display := by
  cases k <;> decide

/-- Where a format string with its arguments is understood, its holes are found one for
one. The trait is that of the hole, unless white space stands behind a kind. The expression
is the one that the hole formats, unless precisions in front of it took arguments. The
predicates added are those of the fields that were found, through the traits that were. -/
theorem placeholders_resolved {f : FormatSpec} {attr : Text} {uses : List FormatUse}
    {ps : List Piece} (hok : f.uses attr = .ok uses) (hvalue : f.value = render ps)
    (hlegible : ∀ a ∈ f.args, Legible a) (hform : WellFormed f.args)
    (hsize : f.args.length ≤ FormatSpec.maxIndex) :
    uses.length = (holes ps).length ∧
    (∀ before h after, holes ps = before ++ h :: after →
    ∃ u, uses[before.length]? = some u ∧
      (u.trait = h.kind.trait ↔ h.blanks = [] ∨ h.kind = .display) ∧
      (formatted? f.args before h = some u.expr ↔ (h.argument = none →
        (exprs f.args)[taken before + h.stars]? = (exprs f.args)[implicits before]?)) ∧
      ((∀ g ∈ before ++ [h], g.star = false) → formatted? f.args before h = some u.expr)) ∧
    ∀ (v : FieldsView) (subject : Ty) (g : ImplGenerics) (p : Text),
      (v.all.map FieldView.formatName).Nodup →
      (p ∈ (v.boundUses subject uses g).predicates ↔ p ∈ g.predicates ∨
        ∃ u ∈ uses, ∃ field ∈ v.all, field.formatName = u.expr.dropWhile (· == 38) ∧
          (field.ty.mentions g.declared = true ∧ field.ty.containsSubject subject = false) ∧
          p = field.ty.predicate (Core.fmt u.trait)) := by
  obtain ⟨found, hall, hresolve⟩ : ∃ found, Placeholder.all (render ps) = .ok found ∧
      f.resolve 0 found = .ok uses := by
    rw [FormatSpec.uses, hvalue] at hok
    split at hok
    · cases hok
    next found hfound =>
      refine ⟨found, hfound, ?_⟩
      cases hres : f.resolve 0 found with
      | error e => rw [hres] at hok; cases hok
      | ok us => rw [hres] at hok; exact congrArg Except.ok (Except.ok.inj hok)
  rw [placeholders_of_all hall] at hresolve
  obtain ⟨hlength, hholes⟩ := resolve_holes hresolve
  refine ⟨hlength, fun before h after hsplit => ?_,
    fun v subject g p hnames => mem_boundUses hnames⟩
  obtain ⟨u, hu, htrait, hfound⟩ := hholes before h after hsplit
  rw [Nat.zero_add] at hfound
  have hexpr := formatted?_iff hlegible hform hsize hfound
  refine ⟨u, hu, ?_, hexpr, fun hstar => hexpr.mpr fun _ => ?_⟩
  · rw [htrait, trait_placeholder]
    by_cases hb : h.blanks = []
    · rw [if_pos hb]
      exact iff_of_true rfl (.inl hb)
    · rw [if_neg hb, eq_comm, display_iff]
      exact ⟨.inr, fun hk => hk.resolve_left hb⟩
  · rw [taken_eq_implicits fun g hg => hstar g (List.mem_append_left _ hg), Hole.stars,
      hstar h (List.mem_append_right _ (List.mem_singleton_self h))]
    rfl

/-- A precision `.*` and nothing else. -/
def starredHole : Hole where
  spec := some { precision := some .star }
  blank := List.forall_mem_nil _

/-- A format string of one such hole, with a precision and a value. -/
def starred : FormatSpec := ⟨"\"\x7b:.*\x7d\"", "\x7b:.*\x7d", ["p", "x"], .start⟩

/-- The precision is found for the hole, where its value is formatted. -/
theorem placeholders_resolved_starred :
    starred.uses "display" = .ok [⟨"p", "Display", ".*"⟩] ∧
    starred.value = render [.hole starredHole] ∧ (∀ a ∈ starred.args, Legible a) ∧
    WellFormed starred.args ∧ starred.args.length ≤ FormatSpec.maxIndex ∧
    formatted? starred.args [] starredHole = some "x" ∧
    ∃ u, [(⟨"p", "Display", ".*"⟩ : FormatUse)][0]? = some u ∧
      (formatted? starred.args [] starredHole = some u.expr ↔ (starredHole.argument = none →
        (exprs starred.args)[taken [] + starredHole.stars]? =
          (exprs starred.args)[implicits []]?)) := by
  have hok : starred.uses "display" = .ok [⟨"p", "Display", ".*"⟩] := by decide +kernel
  have hvalue : starred.value = render [.hole starredHole] := by decide +kernel
  have hlegible : ∀ a ∈ starred.args, Legible a := by decide +kernel
  have hform : WellFormed starred.args := ⟨by decide +kernel, by decide +kernel⟩
  have hsize : starred.args.length ≤ FormatSpec.maxIndex := by decide +kernel
  obtain ⟨-, hholes, -⟩ := placeholders_resolved hok hvalue hlegible hform hsize
  obtain ⟨u, hu, -, hexpr, -⟩ := hholes [] starredHole [] rfl
  exact ⟨hok, hvalue, hlegible, hform, hsize, by decide +kernel, u, hu, hexpr⟩

end Deriver.Format
