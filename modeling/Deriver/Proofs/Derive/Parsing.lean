import Deriver.Proofs.Derive.Values
import Deriver.Proofs.Select.Resolution
import Deriver.Proofs.Token.Quoted
import Mathlib.Data.List.Find

/-!
# Which variant a string is parsed as

Main statement: `fromStr_parses`. The arms that are emitted for an enum are read as a list
of which the first that fits is taken. The arms for names in any case exclude each other,
so that their order does not matter; of the arms for names in a convention the first one
with a literal is the only one.
-/

namespace Deriver

/-! ## Reading the arms -/

/-- What a string is matched as: itself, or its lower-case form. -/
def scrutinized? (scrutinee s : Text) : Option Text :=
  if scrutinee = "s" then some s
  else if scrutinee = "s.to_lowercase().as_str()" then some s.fold
  else none

/-- Whether an arm fits a string `s` that is matched as `t`. Literals are compared as they
are written, which for texts that are read back is to compare what they stand for
(`Derive.LiteralArm.fits_iff_reads`). -/
def Arm.fits (s t : Text) : Arm → Bool
  | .yields .wild _ => true
  | .yields (.const literal) _ => literal == t.quoted
  | .guarded (.const literal) guard _ => literal == t.quoted && guard == "s == " ++ s.quoted
  | _ => false

/-- The value of an arm. -/
def Arm.value : Arm → Text
  | .yields _ value | .guarded _ _ value => value
  | _ => []

/-- What is matched with what in the function `from_str`, if a piece of code is it. -/
def Code.fromStr? : Code → Option (Text × List Arm)
  | .block head [.choose scrutinee arms] =>
      if (head.dropStart? "fn from_str(s: &str)").isSome then some (scrutinee, arms)
        else none
  | _ => none

/-- What is matched with what in the function `from_str` of an implementation. -/
def Impl.fromStr? : Impl → Option (Text × List Arm)
  | .block _ body => body.findSome? Code.fromStr?
  | .marker _ => none

/-- What the function `from_str` of an implementation answers on a string. -/
def Impl.parsed? (i : Impl) (s : Text) : Option Text := do
  let (scrutinee, arms) ← i.fromStr?
  let t ← scrutinized? scrutinee s
  (arms.find? (·.fits s t)).map Arm.value

namespace Derive

/-- The value of a string that is a variant. -/
def parsedAs (name : Text) : Text := Text.concat [Core.ok, "(Self::", name, ")"]

/-- The value of a string that is no variant. -/
def notParsed (support : Support) (decl : Decl) : Text :=
  Text.concat [Core.err, "(", support.item "FromStrError", "::new(", decl.name.quoted, "))"]

theorem parsedAs_injective : Function.Injective parsedAs := by
  intro s t h
  simpa [parsedAs, Text.concat] using h

theorem notParsed_ne_parsedAs (support : Support) (decl : Decl) (name : Text) :
    notParsed support decl ≠ parsedAs name := by
  intro h
  have hbyte : some (69 : UInt8) = some 79 := congrArg (·[24]?) h
  cases hbyte

namespace LiteralArm

/-- Whether an arm fits a string `s` that is matched as `t`. -/
def Fits (s t : Text) (a : LiteralArm) : Prop :=
  a.literal = t ∧ ∀ exact ∈ a.guard, exact = s

instance (s t : Text) (a : LiteralArm) : Decidable (a.Fits s t) :=
  inferInstanceAs (Decidable (_ ∧ _))

theorem fits_arm (s t : Text) (a : LiteralArm) : a.arm.fits s t = true ↔ a.Fits s t := by
  unfold arm Fits
  cases a.guard with
  | none => simp [Arm.fits, Text.quoted_injective.eq_iff]
  | some exact => simp [Arm.fits, Text.quoted_injective.eq_iff]

/-- The text that a literal is read as, if it is scanned without error as one string. -/
def readString? (literal : Text) : Option Text :=
  match scan literal with
  | ⟨[⟨.str, _, some (.str t), _, _⟩, _], []⟩ => some t
  | _ => none

theorem readString?_quoted {t : Text} (h : t.Readable) : readString? t.quoted = some t := by
  rw [readString?, (scan_quoted_iff t).mpr h]

/-- If the literals of an arm are read back, it fits by what they are read as. -/
theorem fits_iff_reads (s t : Text) {a : LiteralArm}
    (hread : ∀ u ∈ a.literal :: a.guard.toList, u.Readable) :
    a.arm.fits s t = true ↔ readString? a.literal.quoted = some t ∧
      ∀ exact ∈ a.guard, readString? exact.quoted = some s := by
  obtain ⟨hliteral, hguard⟩ := List.forall_mem_cons.mp hread
  rw [fits_arm, Fits, readString?_quoted hliteral, Option.some_inj]
  refine and_congr_right fun _ => forall₂_congr fun exact hexact => ?_
  rw [readString?_quoted (hguard exact (Option.mem_toList.mpr hexact)), Option.some_inj]

theorem value_arm (a : LiteralArm) : a.arm.value = parsedAs a.variant := by
  unfold arm
  cases a.guard <;> rfl

/-- What a list of arms answers if the last one fits whatever the others leave over. -/
theorem find?_arms (s t : Text) (arms : List LiteralArm) (error : Text) :
    ((arms.map arm ++ [Arm.yields .wild error]).find? (·.fits s t)).map Arm.value =
      some ((((arms.find? fun a => decide (a.Fits s t)).map (·.variant)).map
      parsedAs).getD error) := by
  induction arms with
  | nil => rfl
  | cons a arms ih =>
      rw [List.map_cons, List.cons_append, List.find?_cons, List.find?_cons]
      by_cases hfits : a.Fits s t
      · rw [(fits_arm s t a).mpr hfits, decide_eq_true hfits]
        exact congrArg some (value_arm a)
      · rw [Bool.eq_false_iff.mpr (mt (fits_arm s t a).mp hfits), decide_eq_false hfits]
        exact ih

/-! ## Names in any case -/

/-- Whether a string `s` that is matched as `t` is parsed as the name `n`. -/
def Denotes (names : List Text) (s t n : Text) : Prop :=
  t = n.fold ∧ ((∃ m ∈ names, m ≠ n ∧ m.fold = n.fold) → s = n)

/-- Whether a string is parsed as the name `n`, where names are parsed in any case. -/
def AnyCase (names : List Text) (s n : Text) : Prop :=
  s.fold = n.fold ∧ ((∃ m ∈ names, m ≠ n ∧ m.fold = n.fold) → s = n)

instance (names : List Text) (s n : Text) : Decidable (AnyCase names s n) :=
  inferInstanceAs (Decidable (_ ∧ (_ → _)))

section AnyCase

variable {names : List Text} {s t n : Text}

theorem Denotes.unique {m : Text} (hn : n ∈ names) (hm : m ∈ names)
    (h : Denotes names s t n) (h' : Denotes names s t m) : n = m := by
  by_contra hne
  have hfold : n.fold = m.fold := h.1.symm.trans h'.1
  exact hne ((h.2 ⟨m, hm, Ne.symm hne, hfold.symm⟩).symm.trans (h'.2 ⟨n, hn, hne, hfold⟩))

theorem eq_singleton_iff {l : List Text} (hnodup : l.Nodup) :
    l = [n] ↔ n ∈ l ∧ ∀ m ∈ l, m = n := by
  rw [← List.perm_singleton, List.perm_ext_iff_of_nodup hnodup (List.nodup_singleton n)]
  constructor
  · intro h
    exact ⟨(h n).mpr (List.mem_singleton_self n),
      fun m hm => List.mem_singleton.mp ((h m).mp hm)⟩
  · rintro ⟨hn, hall⟩ m
    exact ⟨fun hm => List.mem_singleton.mpr (hall m hm),
      fun hm => List.mem_singleton.mp hm ▸ hn⟩

/-- The arms that are made for the names of one form. -/
def group (literal : Text) : List Text → List LiteralArm
  | [name] => [⟨literal, none, name⟩]
  | shared => shared.map fun name => ⟨literal, some name, name⟩

theorem mem_group {literal : Text} {shared : List Text} (hnodup : shared.Nodup)
    {a : LiteralArm} :
    a ∈ group literal shared ↔ a.variant ∈ shared ∧ a.literal = literal ∧
      ((a.guard = none ∧ ∀ m ∈ shared, m = a.variant) ∨
        (a.guard = some a.variant ∧ ∃ m ∈ shared, m ≠ a.variant)) := by
  obtain ⟨l, guard, n⟩ := a
  have hsingle := eq_singleton_iff (n := n) hnodup
  unfold group
  split
  · next name =>
      simp only [List.mem_singleton, LiteralArm.mk.injEq, forall_eq, exists_eq_left]
      constructor
      · rintro ⟨rfl, rfl, rfl⟩
        exact ⟨rfl, rfl, .inl ⟨rfl, rfl⟩⟩
      · rintro ⟨rfl, rfl, ⟨rfl, -⟩ | ⟨-, hne⟩⟩
        · exact ⟨rfl, rfl, rfl⟩
        · exact absurd rfl hne
  · next hshared =>
      simp only [List.mem_map, LiteralArm.mk.injEq]
      constructor
      · rintro ⟨name, hname, rfl, rfl, rfl⟩
        refine ⟨hname, rfl, .inr ⟨rfl, ?_⟩⟩
        by_contra hall
        exact hshared name
          (hsingle.mpr ⟨hname, fun m hm => by_contra fun hne => hall ⟨m, hm, hne⟩⟩)
      · rintro ⟨hname, rfl, ⟨-, hall⟩ | ⟨rfl, -⟩⟩
        · exact absurd (hsingle.mpr ⟨hname, hall⟩) (hshared n)
        · exact ⟨n, hname, rfl, rfl, rfl⟩

/-- The arm of each name has its lower-case form, and asks for the name itself if there is
another name with that form. -/
theorem mem_anyCase (hnodup : names.Nodup) {a : LiteralArm} : a ∈ anyCase names ↔
    a.variant ∈ names ∧ a.literal = a.variant.fold ∧
      ((a.guard = none ∧ ∀ m ∈ names, m.fold = a.variant.fold → m = a.variant) ∨
        (a.guard = some a.variant ∧ ∃ m ∈ names, m ≠ a.variant ∧
        m.fold = a.variant.fold)) := by
  have hgroup (literal : Text) :
      a ∈ group literal (names.filter fun n => n.fold == literal) ↔
        a.variant ∈ names ∧ a.variant.fold = literal ∧ a.literal = literal ∧
        ((a.guard = none ∧ ∀ m ∈ names, m.fold = literal → m = a.variant) ∨
          (a.guard = some a.variant ∧ ∃ m ∈ names, m ≠ a.variant ∧ m.fold = literal)) := by
    rw [mem_group (hnodup.filter _)]
    simp only [List.mem_filter, beq_iff_eq, and_imp, and_assoc,
      and_comm (b := _ ≠ a.variant), and_left_comm (a := _ ≠ a.variant)]
  change a ∈ (Text.distinct (names.map Text.fold)).flatMap
    (fun literal => group literal (names.filter fun n => n.fold == literal)) ↔ _
  simp only [List.mem_flatMap, Text.mem_distinct, hgroup]
  constructor
  · rintro ⟨_, -, hname, rfl, hliteral, hguard⟩
    exact ⟨hname, hliteral, hguard⟩
  · rintro ⟨hname, hliteral, hguard⟩
    exact ⟨_, List.mem_map_of_mem hname, hname, rfl, hliteral, hguard⟩

theorem exists_arm (hnodup : names.Nodup) (hn : n ∈ names) :
    ∃ a ∈ anyCase names, a.variant = n := by
  by_cases hother : ∃ m ∈ names, m ≠ n ∧ m.fold = n.fold
  · exact ⟨⟨n.fold, some n, n⟩, (mem_anyCase hnodup).mpr ⟨hn, rfl, .inr ⟨rfl, hother⟩⟩, rfl⟩
  · refine ⟨⟨n.fold, none, n⟩, (mem_anyCase hnodup).mpr
      ⟨hn, rfl, .inl ⟨rfl, fun m hm hfold => ?_⟩⟩, rfl⟩
    by_contra hne
    exact hother ⟨m, hm, hne, hfold⟩

theorem fits_of_mem_anyCase (hnodup : names.Nodup) {a : LiteralArm}
    (ha : a ∈ anyCase names) : a.Fits s t ↔ Denotes names s t a.variant := by
  obtain ⟨hname, hliteral, hguard⟩ := (mem_anyCase hnodup).mp ha
  unfold Fits Denotes
  rw [hliteral, eq_comm]
  refine and_congr_right fun _ => ?_
  rcases hguard with ⟨hguard, hall⟩ | ⟨hguard, hother⟩
  · rw [hguard]
    exact iff_of_true nofun fun ⟨m, hm, hne, hfold⟩ => absurd (hall m hm hfold) hne
  · simp [hguard, hother, eq_comm]

theorem find?_anyCase (hnodup : names.Nodup) (hn : n ∈ names) :
    ((anyCase names).find? fun a => decide (a.Fits s t)).map (·.variant) = some n ↔
      Denotes names s t n := by
  constructor
  · intro h
    obtain ⟨a, hfind, rfl⟩ := Option.map_eq_some_iff.mp h
    exact (fits_of_mem_anyCase hnodup (List.mem_of_find?_eq_some hfind)).mp
      (by simpa using List.find?_some hfind)
  · intro h
    obtain ⟨a, ha, hvariant⟩ := exists_arm hnodup hn
    have hsome : ((anyCase names).find? fun a => decide (a.Fits s t)).isSome = true :=
      List.find?_isSome.mpr ⟨a, ha, decide_eq_true
        ((fits_of_mem_anyCase hnodup ha).mpr (hvariant ▸ h))⟩
    obtain ⟨b, hfind⟩ := Option.isSome_iff_exists.mp hsome
    have hb := List.mem_of_find?_eq_some hfind
    have hfits : b.Fits s t := by simpa using List.find?_some hfind
    rw [hfind, Option.map_some, Denotes.unique ((mem_anyCase hnodup).mp hb).1 hn
      ((fits_of_mem_anyCase hnodup hb).mp hfits) h]

end AnyCase

/-! ## Names in a convention -/

section Renamed

variable {casing : Casing} {s : Text}

/-- What is already an arm keeps its literal; of the variants the first one with a literal
gets it. -/
theorem find?_renamed (arms : List LiteralArm) (vs : List VariantView) :
    ((renamed casing arms vs).1.find? (·.literal == s)).map (·.variant) =
      ((arms.find? (·.literal == s)).map (·.variant)).or
        ((vs.find? fun v => casing.apply v.name == s).map (·.name)) := by
  induction vs generalizing arms with
  | nil => rw [renamed, List.find?_nil, Option.map_none, Option.or_none]
  | cons v vs ih =>
      rw [renamed]
      dsimp only
      cases hfind : arms.find? (·.literal == casing.apply v.name) with
      | some kept =>
          dsimp only
          rw [ih, List.find?_cons]
          split
          · next heq =>
              rw [beq_iff_eq] at heq
              rw [← heq, hfind]
              rfl
          · rfl
      | none =>
          rw [ih, List.find?_append, List.find?_singleton, List.find?_cons]
          cases arms.find? (·.literal == s) <;> cases casing.apply v.name == s <;> rfl

theorem length_renamed (arms : List LiteralArm) (vs : List VariantView) :
    (renamed casing arms vs).1.length + (renamed casing arms vs).2.length =
      arms.length + vs.length := by
  induction vs generalizing arms with
  | nil => rfl
  | cons v vs ih =>
      rw [renamed]
      dsimp only
      split
      · next kept hfind =>
          dsimp only
          rw [List.length_cons, List.length_cons, ← Nat.add_assoc, ih, Nat.add_assoc]
      · rw [ih, List.length_append, List.length_singleton, List.length_cons]
        omega

theorem guard_renamed {arms : List LiteralArm} (harms : ∀ a ∈ arms, a.guard = none)
    (vs : List VariantView) : ∀ a ∈ (renamed casing arms vs).1, a.guard = none := by
  induction vs generalizing arms with
  | nil => exact harms
  | cons v vs ih =>
      rw [renamed]
      dsimp only
      split
      · exact ih harms
      · refine ih fun a ha => ?_
        rcases List.mem_append.mp ha with ha | ha
        · exact harms a ha
        · rw [List.mem_singleton.mp ha]

/-- Whether a string is the literal of the name `n`, and of no name in front of it. -/
def FirstWith (casing : Casing) (names : List Text) (t n : Text) : Prop :=
  t = casing.apply n ∧ ∃ before after, names = before ++ n :: after ∧
    ∀ m ∈ before, casing.apply m ≠ casing.apply n

/-- The arms answer with the first name that has the string as its literal. -/
theorem find?_firstWith (vs : List VariantView) :
    ((renamed casing [] vs).1.find? fun a => decide (a.Fits s s)).map (·.variant) =
      (vs.map (·.name)).find? fun n => casing.apply n == s := by
  have hguard : ∀ a ∈ (renamed casing [] vs).1, a.guard = none :=
    guard_renamed (List.forall_mem_nil _) vs
  have hfits : ∀ a ∈ (renamed casing [] vs).1, decide (a.Fits s s) = (a.literal == s) := by
    intro a ha
    rw [Bool.eq_iff_iff]
    simp [Fits, hguard a ha]
  rw [List.find?_congr hfits, find?_renamed, List.find?_map]
  rfl

theorem find?_eq_some_iff {names : List Text} {n : Text} :
    names.find? (fun n => casing.apply n == s) = some n ↔ FirstWith casing names s n := by
  unfold FirstWith
  rw [List.find?_eq_some_iff_append, beq_iff_eq, eq_comm (a := s)]
  refine and_congr_right fun heq => ?_
  simp [heq]

end Renamed

end LiteralArm

/-! ## The implementation for an enum -/

section

variable {support : Support} {decl : Decl} {spec : TraitSpec}

/-- What a string is matched as, by whether names are in a convention. -/
def scrutineeOf (casing : Option Casing) : String :=
  if casing.isSome then "s" else "s.to_lowercase().as_str()"

/-- The implementation whose function `from_str` has some arms for literals. -/
def parserOf (support : Support) (decl : Decl) (header scrutinee : Text)
    (arms : List LiteralArm) : Impl :=
  .block header
    [.line (Text.concat ["type Err = ", support.item "FromStrError", ";"]), .blank, .inline,
      .block (Text.concat ["fn from_str(s: &str) -> ", Core.result, "<Self, Self::Err>"])
        [.choose scrutinee
          (arms.map LiteralArm.arm ++ [Arm.yields .wild (notParsed support decl)])]]

theorem fromStr?_parserOf (header scrutinee : Text) (arms : List LiteralArm) :
    (parserOf support decl header scrutinee arms).fromStr? =
      some (scrutinee, arms.map LiteralArm.arm ++
      [Arm.yields .wild (notParsed support decl)]) := rfl

theorem parsed?_parserOf {header scrutinee : Text} {arms : List LiteralArm} {s t : Text}
    (ht : scrutinized? scrutinee s = some t) :
    (parserOf support decl header scrutinee arms).parsed? s =
      some ((((arms.find? fun a => decide (a.Fits s t)).map (·.variant)).map parsedAs).getD
        (notParsed support decl)) := by
  rw [Impl.parsed?, fromStr?_parserOf, ← LiteralArm.find?_arms]
  simp only [Option.bind_eq_bind, Option.bind_some, ht]

/-- Whether an implementation parses each string as the one of some names that is the answer
for it, and as an error if there is none. -/
def Answers (support : Support) (decl : Decl) (i : Impl) (names : List Text)
    (answer : Text → Text → Prop) : Prop :=
  (∀ t, ∀ n ∈ names, i.parsed? t = some (parsedAs n) ↔ answer t n) ∧
    ∀ t, (∀ n ∈ names, ¬ answer t n) → i.parsed? t = some (notParsed support decl)

theorem answers_of_parsed? {i : Impl} {names : List Text} {answer : Text → Text → Prop}
    {found? : Text → Option Text}
    (hparsed : ∀ t, i.parsed? t =
    some (((found? t).map parsedAs).getD (notParsed support decl)))
    (hmem : ∀ t n, found? t = some n → n ∈ names)
    (hanswer : ∀ t, ∀ n ∈ names, found? t = some n ↔ answer t n) :
    Answers support decl i names answer := by
  refine ⟨fun t n hn => ?_, fun t hnone => ?_⟩
  · rw [hparsed, Option.some_inj, ← hanswer t n hn]
    cases found? t with
    | none => exact iff_of_false (notParsed_ne_parsedAs support decl n) nofun
    | some m =>
        rw [Option.map_some, Option.getD_some, parsedAs_injective.eq_iff, Option.some_inj]
  · rw [hparsed]
    cases hfound : found? t with
    | none => rfl
    | some m =>
        have hm := hmem t m hfound
        exact absurd ((hanswer t m hm).mp hfound) (hnone m hm)

theorem answers_anyCase (header : Text) {names : List Text} (hnodup : names.Nodup) :
    Answers support decl
      (parserOf support decl header (scrutineeOf none) (LiteralArm.anyCase names)) names
      (LiteralArm.AnyCase names) := by
  refine answers_of_parsed? (fun t => parsed?_parserOf (rfl : _ = some t.fold))
    (fun t n h => ?_)
    fun t n hn => LiteralArm.find?_anyCase hnodup hn
  obtain ⟨a, hfind, rfl⟩ := Option.map_eq_some_iff.mp h
  exact ((LiteralArm.mem_anyCase hnodup).mp (List.mem_of_find?_eq_some hfind)).1

theorem answers_renamed (header : Text) (casing : Casing) (vs : List VariantView) :
    Answers support decl
      (parserOf support decl header (scrutineeOf (some casing))
      (LiteralArm.renamed casing [] vs).1)
      (vs.map (·.name)) (LiteralArm.FirstWith casing (vs.map (·.name))) := by
  refine answers_of_parsed? (fun t => parsed?_parserOf (rfl : _ = some t)) (fun t n h => ?_)
    fun t n hn => ?_
  · rw [LiteralArm.find?_firstWith] at h
    exact List.mem_of_find?_eq_some h
  · rw [LiteralArm.find?_firstWith]
    exact LiteralArm.find?_eq_some_iff

/-- For an enum one implementation is emitted, with the arms for the variants that take
part. -/
theorem of_fromStr {variants : List Variant} {impls : List Impl}
    {warnings : List Diagnostic}
    (hdata : decl.data = .enum variants)
    (h : fromStr support decl spec = .ok (impls, warnings)) :
    ∃ s views, Selection.ofDecl decl spec = .ok s ∧ s.shape = .enum views ∧
      views.map (·.variant) = variants ∧ ∃ header,
      impls = [parserOf support decl header (scrutineeOf s.container.renameAll)
        (literalArms s (views.filter (·.enabled))).1] ∧
      warnings = (literalArms s (views.filter (·.enabled))).2 ∧
      ∀ v ∈ views.filter (·.enabled), v.fields.isUnit = true := by
  unfold fromStr at h
  obtain ⟨s, hs, h⟩ := of_bind_ok h
  obtain ⟨-, views, hshape, hvariants, -⟩ := Selection.enum_resolves hs hdata
  refine ⟨s, views, hs, hshape, hvariants, ?_⟩
  rw [hshape] at h
  dsimp only at h
  split at h
  · cases h
  · next hunit =>
      cases h
      exact ⟨_, rfl, rfl, fun v hv => by simpa using List.find?_eq_none.mp hunit v hv⟩

end

/-- The implementation for an enum parses each string as the one variant that takes part and
that the string names, and as an error if there is none. In any case a string names a
variant if both are the same in lower case, and are just the same if there is another
variant of which that holds as well; so the name of a variant names it. In a convention
the string is the name in that convention, and a variant behind another one with that name
is never parsed, of which there is a warning. -/
theorem fromStr_parses {d : Derive} {support : Support} {decl : Decl} {e : Expansion}
    {variants : List Variant} (hd : find? "FromStr" = some d)
    (hdata : decl.data = .enum variants)
    (hdistinct : (variants.map (·.ident)).Nodup) (h : d.run support decl = .ok e) :
    ∃ s vs i names, Selection.ofDecl decl d.spec = .ok s ∧ s.enabledVariants = .ok vs ∧
      e.impls = [i] ∧ names = vs.map (·.name) ∧
      (s.container.renameAll = none →
        Answers support decl i names (LiteralArm.AnyCase names) ∧
        ∀ n ∈ names, i.parsed? n = some (parsedAs n)) ∧
      ∀ casing, s.container.renameAll = some casing →
        Answers support decl i names (LiteralArm.FirstWith casing names) ∧
        ∃ arms : List LiteralArm, i.fromStr? = some (("s" : Text),
            arms.map LiteralArm.arm ++ [Arm.yields .wild (notParsed support decl)]) ∧
          arms.length + e.warnings.length = vs.length := by
  cases hd
  unfold run at h
  obtain ⟨⟨impls, warnings⟩, hexpand, h⟩ := of_bind_ok h
  cases h
  obtain ⟨s, views, hs, hshape, rfl, header, rfl, rfl, -⟩ := of_fromStr hdata hexpand
  have hnodup : ((views.filter (·.enabled)).map (·.name)).Nodup := by
    rw [List.map_map] at hdistinct
    exact hdistinct.sublist (List.filter_sublist.map _)
  refine ⟨s, views.filter (·.enabled), _, _, hs, ?_, rfl, rfl, fun hany => ?_,
    fun casing hcasing => ?_⟩
  · unfold Selection.enabledVariants Selection.enumVariants
    rw [hshape]
    rfl
  · rw [literalArms, hany]
    have hanswers := @answers_anyCase support decl header _ hnodup
    exact ⟨hanswers, fun n hn => (hanswers.1 n n hn).mpr ⟨rfl, fun _ => rfl⟩⟩
  · rw [literalArms, hcasing]
    refine ⟨answers_renamed header casing _, _, fromStr?_parserOf .., ?_⟩
    rw [List.length_map, LiteralArm.length_renamed, List.length_nil, Nat.zero_add]

/-- Two variants that differ in case alone have to be named exactly, a third one need not
be. -/
theorem fromStr_parses_shared : ∃ d decl e i, find? "FromStr" = some d ∧
    (parse "enum E { Foo, FOO, Bar }").file.decls = [decl] ∧ d.run {} decl = .ok e ∧
    e.impls = [i] ∧ i.parsed? "FOO" = some (parsedAs "FOO") ∧
    i.parsed? "bAR" = some (parsedAs "Bar") ∧
    i.parsed? "foo" = some (notParsed {} decl) := by
  obtain ⟨d, decl, e, s, vs, variants, hd, hdecls, he, hs, hvs, hdata, hplain,
      hnames, hdistinct⟩ :
      ∃ d decl e s vs variants, find? "FromStr" = some d ∧
      (parse "enum E { Foo, FOO, Bar }").file.decls = [decl] ∧ d.run {} decl = .ok e ∧
      Selection.ofDecl decl d.spec = .ok s ∧ s.enabledVariants = .ok vs ∧
      decl.data = .enum variants ∧ s.container.renameAll = none ∧
      vs.map (·.name) = ["Foo", "FOO", "Bar"] ∧ (variants.map (·.ident)).Nodup :=
    ⟨_, _, _, _, _, _, rfl, rfl, rfl, rfl, rfl, rfl, rfl, rfl, by decide +kernel⟩
  obtain ⟨s', vs', i, names, hs', hvs', hi, rfl, hany, -⟩ :=
    fromStr_parses hd hdata hdistinct he
  cases hs.symm.trans hs'
  cases hvs.symm.trans hvs'
  obtain ⟨⟨hanswers, hnone⟩, hown⟩ := hany hplain
  rw [hnames] at hanswers hnone hown
  exact ⟨d, decl, e, i, hd, hdecls, he, hi, hown _ (by decide),
    (hanswers "bAR" "Bar" (by decide)).mpr (by decide +kernel), hnone _ (by decide +kernel)⟩

end Derive

end Deriver
