import Deriver.Proofs.Parse.Reads

/-!
# What is nested in a type

`Ty.parts` lists a type and everything nested in it: types, paths, segments,
arguments and bounds. A property of a type and all that it is made of is a
property of its parts.

`TyPart.distinct` says of one part that its spelling can be read back. Two things
stand in the way. A trait object without `dyn` is only known by the `for` it begins
with. And text that was captured as it stood may end with a mark that forms a longer
one with what is written behind it, which may begin with `>` or with `::`.
-/

namespace Deriver

/-- A type, or something that is nested in one. -/
inductive TyPart where
  | ty (ty : Ty)
  | path (path : Path)
  | segment (segment : Segment)
  | arg (arg : GenericArg)
  | bound (bound : Bound)

mutual

/-- The type and what is nested in it. -/
def Ty.parts : Ty → List TyPart
  | t@(.path p) => .ty t :: p.parts
  | t@(.ref _ _ _ elem) => .ty t :: elem.parts
  | t@(.ptr _ _ elem) => .ty t :: elem.parts
  | t@(.tuple _ elems) => .ty t :: partsTys elems
  | t@(.array _ elem _) => .ty t :: elem.parts
  | t@(.slice _ elem) => .ty t :: elem.parts
  | t@(.paren _ elem) => .ty t :: elem.parts
  | t@(.fn _ sig) => .ty t :: sig.parts
  | t@(.traitObject _ _ bounds) => .ty t :: partsBounds bounds
  | t@(.implTrait _ bounds) => .ty t :: partsBounds bounds
  | t@(.never _) => [.ty t]
  | t@(.infer _) => [.ty t]
  | t@(.macroCall _ _) => [.ty t]

/-- What the types are made of. -/
def partsTys : List Ty → List TyPart
  | [] => []
  | t :: ts => t.parts ++ partsTys ts

/-- What the type is made of, if there is one. -/
def partsTy? : Option Ty → List TyPart
  | none => []
  | some t => t.parts

/-- The path and what is nested in it. -/
def Path.parts : Path → List TyPart
  | p@⟨qself, _, segments, _⟩ => .path p :: (partsQSelf? qself ++ partsSegments segments)

/-- What the path is made of, if there is one. -/
def partsPath? : Option Path → List TyPart
  | none => []
  | some p => p.parts

/-- What is nested in the qualified self type, if there is one. -/
def partsQSelf? : Option QSelf → List TyPart
  | none => []
  | some q => q.parts

/-- What is nested in a qualified self type. -/
def QSelf.parts : QSelf → List TyPart
  | ⟨ty, trait⟩ => ty.parts ++ partsPath? trait

/-- What the segments are made of. -/
def partsSegments : List Segment → List TyPart
  | [] => []
  | s :: ss => s.parts ++ partsSegments ss

/-- The segment and what is nested in it. -/
def Segment.parts : Segment → List TyPart
  | s@⟨_, args⟩ => .segment s :: args.parts

/-- What is nested in the arguments of a segment. -/
def Args.parts : Args → List TyPart
  | .none => []
  | .angled args => partsArgs args
  | .call inputs output => partsTys inputs ++ partsTy? output

/-- What the generic arguments are made of. -/
def partsArgs : List GenericArg → List TyPart
  | [] => []
  | a :: as => a.parts ++ partsArgs as

/-- The generic argument and what is nested in it. -/
def GenericArg.parts : GenericArg → List TyPart
  | a@(.ty t) => .arg a :: t.parts
  | a@(.lifetime _) => [.arg a]
  | a@(.const _) => [.arg a]
  | a@(.binding _ t) => .arg a :: t.parts
  | a@(.constraint _ bounds) => .arg a :: partsBounds bounds

/-- What the bounds are made of. -/
def partsBounds : List Bound → List TyPart
  | [] => []
  | b :: bs => b.parts ++ partsBounds bs

/-- The bound and what is nested in it. -/
def Bound.parts : Bound → List TyPart
  | b@(.outlives _ _) => [.bound b]
  | b@(.trait _ _ p) => .bound b :: p.parts

/-- What is nested in a signature. -/
def FnSig.parts : FnSig → List TyPart
  | ⟨_, _, _, inputs, _, output⟩ => partsTys inputs ++ partsTy? output

end

/-- Whether bounds begin with a `for` and the lifetimes it is about. -/
def beginsWithBinder : List Bound → Bool
  | .trait names _ _ :: _ => !names.isEmpty
  | _ => false

/-- Whether the spelling of a part shows what it is and where it ends: bounds without
`dyn` begin with a `for`, and captured text ends with no mark that forms a longer one
with a `>` behind it. -/
def TyPart.delimited : TyPart → Bool
  | .ty (.traitObject _ false bounds) => beginsWithBinder bounds
  | .ty (.macroCall _ raw) => raw.getLast? ∉ [some 45, some 61]
  | .arg (.const expr) => expr.getLast? ∉ [some 45, some 61]
  | _ => true

/-- Whether no segment of a path ends with a colon in front of the `::` behind it. -/
def TyPart.separate : TyPart → Bool
  | .path p => p.segments.dropLast.all fun s => s.render.getLast? != some 58
  | _ => true

/-- Whether the spelling of a part can be told from what is written behind it. -/
def TyPart.distinct (p : TyPart) : Bool := p.delimited && p.separate

theorem TyPart.distinct_iff {p : TyPart} :
    p.distinct = true ↔ p.delimited = true ∧ p.separate = true := Bool.and_eq_true_iff

section

variable (ts : List Ty) (ss : List Segment) (as : List GenericArg) (bs : List Bound)

theorem renderTys_eq : renderTys ts = ts.map Ty.render := by
  induction ts with
  | nil => rfl
  | cons t ts ih => rw [renderTys, ih, List.map_cons]

theorem renderSegments_eq : renderSegments ss = ss.map Segment.render := by
  induction ss with
  | nil => rfl
  | cons s ss ih => rw [renderSegments, ih, List.map_cons]

theorem renderArgs_eq : renderArgs as = as.map GenericArg.render := by
  induction as with
  | nil => rfl
  | cons a as ih => rw [renderArgs, ih, List.map_cons]

theorem renderBoundList_eq : renderBoundList bs = bs.map Bound.render := by
  induction bs with
  | nil => rfl
  | cons b bs ih => rw [renderBoundList, ih, List.map_cons]

theorem partsTys_eq : partsTys ts = ts.flatMap Ty.parts := by
  induction ts with
  | nil => rfl
  | cons t ts ih => rw [partsTys, ih, List.flatMap_cons]

theorem partsSegments_eq : partsSegments ss = ss.flatMap Segment.parts := by
  induction ss with
  | nil => rfl
  | cons s ss ih => rw [partsSegments, ih, List.flatMap_cons]

theorem partsArgs_eq : partsArgs as = as.flatMap GenericArg.parts := by
  induction as with
  | nil => rfl
  | cons a as ih => rw [partsArgs, ih, List.flatMap_cons]

theorem partsBounds_eq : partsBounds bs = bs.flatMap Bound.parts := by
  induction bs with
  | nil => rfl
  | cons b bs ih => rw [partsBounds, ih, List.flatMap_cons]

end

end Deriver

/-!
## What can be read again, and what may stand behind it

`Rereadable` says of a type and of all that is nested in it that its words are tokens by
themselves, that its captured text is captured again, and that its spelling can be
told from what is written behind it.

Behind a type may stand further segments of a path or further bounds: a result type is
written last in a segment, and a path or a result type last in a bound. A type that is
read again may take such a `Sequel` for its own, and then the spelling is that of a
different tree. `Respells` leaves that open: what is read is spelled like the text it was
read from, up to one of the sequels.
-/

namespace Deriver

open Parse Scan

/-! ## Rereadable parts -/

/-- Whether the words of a part are tokens by themselves and its captured text is
captured again. -/
def TyPart.Readable : TyPart → Prop
  | .ty (.path ⟨none, false, s :: _, _⟩) => s.ident ≠ "_"
  | .ty (.ref _ lifetime _ _) => ∀ l ∈ lifetime, Word .lifetime l
  | .ty (.array _ _ len) => Captured [.rbracket] len
  | .ty (.fn _ sig) => (∀ l ∈ sig.binder, Word .lifetime l) ∧ ∀ a ∈ sig.abi, Word .str a
  | .ty (.macroCall _ raw) => MacroText raw
  | .path p => p.segments ≠ [] ∧ ∀ q ∈ p.qself, ∀ t ∈ q.trait, t.qself = none
  | .segment s => ∃ k, isPathIdent k = true ∧ Word k s.ident
  | .arg (.lifetime name) => Word .lifetime name
  | .arg (.const expr) => Captured [.comma, .gt] expr ∧
      ∃ t us, ownTokens expr = t :: us ∧ startsConst t.kind = true
  | .arg (.binding name _) | .arg (.constraint name _) => Word .ident name
  | .bound (.outlives _ lifetime) => Word .lifetime lifetime
  | .bound (.trait names _ p) => (∀ l ∈ names, Word .lifetime l) ∧ p.qself = none
  | _ => True

/-- Whether each of some parts is readable and can be told from what is behind it. -/
def Rereadable (ps : List TyPart) : Prop := ∀ p ∈ ps, p.Readable ∧ p.distinct = true

section

variable {p : TyPart} {ps qs : List TyPart}

@[simp] theorem rereadable_nil : Rereadable [] := nofun

@[simp] theorem rereadable_cons :
    Rereadable (p :: ps) ↔ (p.Readable ∧ p.distinct = true) ∧ Rereadable ps :=
  List.forall_mem_cons

@[simp] theorem rereadable_append : Rereadable (ps ++ qs) ↔ Rereadable ps ∧ Rereadable qs :=
  List.forall_mem_append

theorem rereadable_flatMap {α : Type} {xs : List α} {f : α → List TyPart} :
    Rereadable (xs.flatMap f) ↔ ∀ x ∈ xs, Rereadable (f x) := by
  simp only [Rereadable, List.mem_flatMap]
  constructor
  · exact fun h x hx p hp => h p ⟨x, hx, hp⟩
  · rintro h p ⟨x, hx, hp⟩
    exact h x hx p hp

end

/-! ## Sequels -/

/-- What may be written behind a type, a path or a bound and still belong to what it is
a part of. -/
inductive Sequel where
  | segment (s : Segment)
  | bound (b : Bound)

/-- The spelling of a sequel with the mark in front. -/
def Sequel.render : Sequel → Text
  | .segment s => "::" ++ s.render
  | .bound b => " + " ++ b.render

/-- Whether a sequel is a segment. -/
def Sequel.isSegment : Sequel → Bool
  | .segment _ => true
  | .bound _ => false

/-- The sequels in front of what stands behind them. -/
def sequel : List Sequel → Text → Text
  | [], z => z
  | q :: qs, z => q.render ++ sequel qs z

/-- Whether the sequels may stand behind a text: all can be read again, and none begins
with a colon behind another one. -/
inductive Follow : Text → List Sequel → Prop where
  | nil (x : Text) : Follow x []
  | segment {x : Text} {s : Segment} {qs : List Sequel} (hx : ¬ [58] <:+ x)
      (hs : Rereadable s.parts)
      (h : Follow s.render qs) : Follow x (.segment s :: qs)
  | bound {x : Text} {b : Bound} {qs : List Sequel} (hb : Rereadable b.parts)
      (h : Follow b.render qs) : Follow x (.bound b :: qs)

/-- The kinds of token behind a type that belongs to nothing else. -/
def stops : List TokenKind := [.comma, .gt, .rparen, .rbracket, .semicolon, .asKw]

/-- A text that begins with what can stand behind a type and belong to nothing in it. -/
structure Stop (z : Text) : Prop where
  head : ∃ c t, z = c :: t ∧ c ∈ separators ∧ c ≠ 58
  next : ∃ k w s, Next z k w s ∧ k ∈ stops

variable {source x y z e : Text} {qs rs ts : List Sequel} {s : Segment} {b : Bound}

namespace Follow

/-- What stands in front of a text plays no part, unless the text is empty. -/
theorem prepend (h : Follow e qs) (he : e ≠ []) (x : Text) : Follow (x ++ e) qs := by
  cases h with
  | nil => exact .nil _
  | segment hx hs h =>
      refine .segment (fun h58 => hx ?_) hs h
      rw [List.singleton_suffix_iff_getLast?_eq_some] at h58 ⊢
      rwa [List.getLast?_append_of_ne_nil _ he] at h58
  | bound hb h => exact .bound hb h

theorem of_suffix (h : Follow x qs) (he : e <:+ x) : Follow e qs := by
  cases h with
  | nil => exact .nil e
  | segment hx hs h => exact .segment (fun h58 => hx (h58.trans he)) hs h
  | bound hb h => exact .bound hb h

theorem of_segment (h : Follow x rs) (hsub : .segment s :: qs <:+ rs) :
    Rereadable s.parts ∧ Follow s.render qs := by
  induction h with
  | nil => exact absurd (List.suffix_nil.mp hsub) (List.cons_ne_nil _ _)
  | segment _ hs h ih =>
      rcases List.suffix_cons_iff.mp hsub with heq | hsub
      · cases heq
        exact ⟨hs, h⟩
      · exact ih hsub
  | bound _ h ih =>
      rcases List.suffix_cons_iff.mp hsub with heq | hsub
      · cases heq
      · exact ih hsub

theorem of_bound (h : Follow x rs) (hsub : .bound b :: qs <:+ rs) :
    Rereadable b.parts ∧ Follow b.render qs := by
  induction h with
  | nil => exact absurd (List.suffix_nil.mp hsub) (List.cons_ne_nil _ _)
  | segment _ _ h ih =>
      rcases List.suffix_cons_iff.mp hsub with heq | hsub
      · cases heq
      · exact ih hsub
  | bound hb h ih =>
      rcases List.suffix_cons_iff.mp hsub with heq | hsub
      · cases heq
        exact ⟨hb, h⟩
      · exact ih hsub

theorem of_sequels (h : Follow x qs) (hsub : rs <:+ qs) : ∃ e, Follow e rs := by
  induction h with
  | nil x => exact ⟨x, List.suffix_nil.mp hsub ▸ .nil x⟩
  | segment hx hs h ih =>
      rcases List.suffix_cons_iff.mp hsub with rfl | hsub
      · exact ⟨_, .segment hx hs h⟩
      · exact ih hsub
  | @bound x b qs hb h ih =>
      rcases List.suffix_cons_iff.mp hsub with rfl | hsub
      · exact ⟨x, .bound hb h⟩
      · exact ih hsub

end Follow

theorem suffix_of_head {c : Sequel → Bool} (h : rs <:+ qs ++ ts)
    (hqs : ∀ q ∈ qs, c q = true) (hrs : ∀ r ∈ rs.head?, c r = false) : rs <:+ ts := by
  obtain ⟨us, hus⟩ := h
  rcases List.append_eq_append_iff.mp hus with ⟨vs, rfl, hrest⟩ | ⟨vs, rfl, hrest⟩
  · cases vs with
    | nil => exact hrest ▸ List.suffix_refl _
    | cons v vs =>
        subst hrest
        have htrue := hqs v (by simp)
        rw [hrs v rfl] at htrue
        cases htrue
  · exact ⟨vs, hrest.symm⟩

namespace Stop

theorem mark {c : UInt8} {k : TokenKind} (h : single? c = some k) (hc : c ∈ separators)
    (hk : k ∈ stops) (t : Text) : Stop (c :: t) := by
  refine ⟨⟨c, t, rfl, hc, ?_⟩, k, [c], t, next_mark h t, hk⟩
  rintro rfl
  cases h

theorem avoids {k : TokenKind} (h : Stop z) (hk : k ∉ stops) : Avoids source z k := by
  obtain ⟨k', w, s, hnext, hk'⟩ := h.next
  exact .of_next hnext fun heq => hk (heq ▸ hk')

theorem separated (h : Stop z) : Separated z := by
  obtain ⟨c, t, rfl, hc, -⟩ := h.head
  exact ⟨c, t, rfl, hc⟩

end Stop

theorem separated_sequel (qs : List Sequel) (h : Stop z) : Separated (sequel qs z) := by
  cases qs with
  | nil => exact h.separated
  | cons q qs =>
      cases q with
      | segment s => exact ⟨58, _, rfl, by decide⟩
      | bound b => exact ⟨32, _, rfl, by decide⟩

/-- A text fits in front of sequels unless it ends with a mark that forms a longer one. -/
theorem fits_sequel (hz : Stop z) (hx : x.getLast? ∉ [some 45, some 61]) (h : Follow x qs) :
    Fits x (sequel qs z) := by
  simp only [List.mem_cons, List.not_mem_nil, or_false, not_or] at hx
  have hglue {c : UInt8} (hc : c = 58 → ¬ [58] <:+ x) (b : UInt8)
      (hb : x.getLast? = some b) :
      glues b c = false := by
    rw [hb, Option.some.injEq, Option.some.injEq] at hx
    have hcolon : c = 58 → b ≠ 58 := by
      rintro hc' rfl
      exact hc hc' (List.singleton_suffix_iff_getLast?_eq_some.mpr hb)
    simp only [glues, Bool.or_eq_false_iff, Bool.and_eq_false_iff, beq_eq_false_iff_ne]
    tauto
  cases h with
  | nil =>
      obtain ⟨c, t, rfl, hc, hne⟩ := hz.head
      exact ⟨c, t, rfl, hc, hglue fun h => absurd h hne⟩
  | segment h58 => exact ⟨58, _, rfl, by decide, hglue fun _ => h58⟩
  | bound => exact ⟨32, _, rfl, by decide, hglue nofun⟩

/-- Whether a value is spelled like the text it was read from, up to one of the sequels
or to what stands behind them. -/
def Respells {α : Type} (render : α → Text) (qs : List Sequel) (y z : Text)
    (v : α) (u : Text) : Prop :=
  render v ++ u = y ∧ ∃ rs, rs <:+ qs ∧ u = sequel rs z

end Deriver
