import Deriver.Helper.Options
import Deriver.Proofs.Decl.Place

/-!
# Options at another place

Main statement: `Options.moves_ofAttributes`. The attributes of an item at another
place ask for the same, and what is wrong with them is the same at its new place.

A `Move` takes positions elsewhere and the sites of diagnostics along with them.
Everything that can fail is compared by `Moves`: either both succeed, with values that
belong together, or both fail, with errors that do.
-/

namespace Deriver

/-- New positions, and new sites to go with them. -/
structure Move where
  pos : Position → Position
  site : Site → Site
  site_coe : ∀ p : Position, site p = pos p

variable (μ : Move)

/-! ## Diagnostics -/

/-- The diagnostic at its new site. -/
def Diagnostic.move (d : Diagnostic) : Diagnostic := { d with site := μ.site d.site }

theorem Cause.diagnostic_site (c : Cause) (s s' : Site) :
    c.diagnostic s' = { c.diagnostic s with site := s' } := by
  cases c <;> rfl

@[simp] theorem Position.diagnose_move (p : Position) (c : Cause) :
    (μ.pos p).diagnose c = (p.diagnose c).move μ := by
  have hsite : (p.diagnose c).site = p := by cases c <;> rfl
  rw [Diagnostic.move, hsite, μ.site_coe]
  exact c.diagnostic_site p (μ.pos p)

@[simp] theorem Diagnostic.isError_move (d : Diagnostic) :
    (d.move μ).isError = d.isError := rfl

/-! ## Results -/

/-- Two results that belong together: values by `φ`, errors by `η`. -/
inductive Moves {ε α β : Type} (η : ε → ε) (φ : α → β) :
    Except ε α → Except ε β → Prop where
  | ok (v : α) : Moves η φ (.ok v) (.ok (φ v))
  | error (e : ε) : Moves η φ (.error e) (.error (η e))

section Moves

variable {μ} {ε ε' α β γ δ : Type} {η : ε → ε} {η' : ε' → ε'} {φ : α → β} {ψ : γ → δ}
  {x : Except ε α} {y : Except ε β} {f : α → Except ε γ} {g : β → Except ε δ}

theorem Moves.bind (h : Moves η φ x y) (hf : ∀ v, x = .ok v → Moves η ψ (f v) (g (φ v))) :
    Moves η ψ (x >>= f) (y >>= g) := by
  cases h with
  | ok v => exact hf v rfl
  | error e => exact .error e

theorem Moves.ok_of_eq {v : α} {w : β} (h : w = φ v) : Moves η φ (.ok v) (.ok w) :=
  h ▸ .ok v

theorem Moves.error_of_eq {e e' : ε} (h : e' = η e) : Moves η φ (.error e) (.error e') :=
  h ▸ .error e

theorem Moves.eq_error {e : ε} (h : Moves η φ (.error e) y) : y = .error (η e) := by
  cases h
  rfl

theorem Moves.mapError {θ θ' : ε → ε'} (h : Moves η φ x y) (hθ : ∀ e, θ' (η e) = η' (θ e)) :
    Moves η' φ (x.mapError θ) (y.mapError θ') := by
  cases h with
  | ok v => exact .ok v
  | error e => exact .error_of_eq (hθ e)

theorem Moves.ite {c : Prop} [Decidable c] {x' : Except ε α} {y' : Except ε β}
    (h : c → Moves η φ x y) (h' : ¬ c → Moves η φ x' y') :
    Moves η φ (if c then x else x') (if c then y else y') := by
  split
  · next hc => exact h hc
  · next hc => exact h' hc

theorem Moves.mapM {κ : α → β} {f : α → Except ε γ} {g : β → Except ε δ} (as : List α)
    (h : ∀ a ∈ as, Moves η ψ (f a) (g (κ a))) :
    Moves η (List.map ψ) (as.mapM f) ((as.map κ).mapM g) := by
  induction as with
  | nil => exact .ok []
  | cons a as ih =>
      rw [List.map_cons, List.mapM_cons, List.mapM_cons]
      refine .bind (h a (List.mem_cons_self ..)) fun v _ => ?_
      refine .bind (ih fun b hb => h b (List.mem_cons_of_mem a hb)) fun vs _ => ?_
      exact .ok (v :: vs)

end Moves

/-- Two results of which the errors are diagnostics. -/
abbrev MovesBy {α β : Type} (φ : α → β) :
    Except Diagnostic α → Except Diagnostic β → Prop :=
  Moves (Diagnostic.move μ) φ

/-- Two results of reading helper attributes. -/
abbrev MovesIn {α β : Type} (φ : α → β) :
    Except HelperFault α → Except HelperFault β → Prop :=
  Moves (HelperFault.map (Diagnostic.move μ)) φ

/-! ## Attribute arguments -/

section Arguments

variable (f : Position → Position)

@[simp] theorem Meta.pos_place (m : Meta) : (m.place f).pos = f m.pos := by cases m <;> rfl

theorem Options.keyOf_place (m : Meta) : keyOf (m.place f) = keyOf m := by
  cases m with
  | list pos p items raw =>
      match items with
      | [] => rfl
      | [m] | m :: _ :: _ => cases m <;> rfl
  | _ => rfl

theorem Options.isBareKey_place (m : Meta) : isBareKey (m.place f) = isBareKey m := by
  cases m <;> rfl

theorem Options.isTypeLike_place (m : Meta) : isTypeLike (m.place f) = isTypeLike m := by
  cases m <;> rfl

end Arguments

/-! ## Options -/

/-- The format at another place. -/
def FormatSpec.place (s : FormatSpec) : FormatSpec := { s with pos := μ.pos s.pos }

namespace Options

/-- The options at another place. Options that stand nowhere stay there. -/
def place (o : Options) : Options :=
  { o with
    pos := if o.present then μ.pos o.pos else o.pos
    format := o.format.map (FormatSpec.place μ) }

section Fields

variable (o : Options)

@[simp] theorem error_place : (o.place μ).error = o.error := rfl

@[simp] theorem types_place : (o.place μ).types = o.types := rfl

@[simp] theorem renameAll_place : (o.place μ).renameAll = o.renameAll := rfl

@[simp] theorem format_place : (o.place μ).format = o.format.map (FormatSpec.place μ) := rfl

end Fields

variable {μ} {attr key : Text}

theorem place_setFlag {set : Options → Options} (h : setFlag? key = some set)
    (o : Options) : set (o.place μ) = (set o).place μ := by
  obtain ⟨entry, hentry, rfl⟩ := Option.map_eq_some_iff.mp h
  have hmem := List.mem_of_find?_eq_some hentry
  simp only [List.mem_cons, List.not_mem_nil, or_false] at hmem
  rcases hmem with rfl | rfl | rfl | rfl | rfl | rfl | rfl | rfl | rfl | rfl <;> rfl

theorem moves_setRenameAll (item : Meta) (o : Options) :
    MovesBy μ (place μ) (setRenameAll attr item o)
      (setRenameAll attr (item.place μ.pos) (o.place μ)) := by
  unfold setRenameAll
  rw [Meta.pos_place, Meta.raw_place]
  simp only [Position.diagnose_move]
  cases item with
  | nameValue pos p v raw =>
      dsimp only [Meta.place]
      refine .ite (fun _ => ?_) fun _ => .error _
      split
      · exact .ok _
      · split
        · exact .error _
        · exact .error _
  | _ => exact .error _

theorem moves_setError (item : Meta) (o : Options) :
    MovesBy μ (place μ) (setError attr item o)
    (setError attr (item.place μ.pos) (o.place μ)) := by
  have hbad : MovesBy μ (place μ)
      (.error (item.pos.diagnose (.malformedValue attr "error"
        "error(<Type>) or error(<Type>, <conversion fn>)" item.raw)) : Except
          Diagnostic Options)
      (.error ((item.place μ.pos).pos.diagnose (.malformedValue attr "error"
        "error(<Type>) or error(<Type>, <conversion fn>)" (item.place μ.pos).raw))) := by
    rw [Meta.pos_place, Meta.raw_place, Position.diagnose_move]
    exact .error _
  have htype (m : Meta) (conv : Text) :
      ({ o.place μ with error := some ⟨(m.place μ.pos).raw, conv⟩ } : Options) =
        ({ o with error := some ⟨m.raw, conv⟩ } : Options).place μ := by
    rw [Meta.raw_place]
    rfl
  unfold setError
  cases item with
  | list pos p items raw =>
      match items with
      | [] => exact hbad
      | [type] => exact .ok_of_eq (htype type [])
      | _ :: second :: _ :: _ => cases second <;> exact hbad
      | [type, conv] =>
          have hconv : MovesBy μ (place μ)
              (.error (conv.pos.diagnose (.malformedValue attr "error"
                "a function path as the second argument" conv.raw)) : Except
                  Diagnostic Options)
              (.error ((conv.place μ.pos).pos.diagnose (.malformedValue attr "error"
                "a function path as the second argument" (conv.place μ.pos).raw))) := by
            rw [Meta.pos_place, Meta.raw_place, Position.diagnose_move]
            exact .error _
          cases conv with
          | path _ conv => exact .ok_of_eq (htype type conv)
          | _ => exact hconv
  | _ => exact hbad

theorem moves_setTypes (item : Meta) (o : Options) :
    MovesBy μ (place μ) (setTypes attr item o)
    (setTypes attr (item.place μ.pos) (o.place μ)) := by
  have hbad : MovesBy μ (place μ)
      (.error (item.pos.diagnose
        (.malformedValue attr "types" "types(<Type>, ...)" item.raw)) :
        Except Diagnostic Options)
      (.error ((item.place μ.pos).pos.diagnose
        (.malformedValue attr "types" "types(<Type>, ...)" (item.place μ.pos).raw))) := by
    rw [Meta.pos_place, Meta.raw_place, Position.diagnose_move]
    exact .error _
  unfold setTypes
  cases item with
  | list pos p items raw =>
      cases items with
      | nil => exact hbad
      | cons first rest =>
          have hplaced : first.place μ.pos :: placeMetas μ.pos rest =
              (first :: rest).map (Meta.place μ.pos) := by
            rw [placeMetas_eq, List.map_cons]
          have hfind : ((first :: rest).map (Meta.place μ.pos)).find?
              (fun m => !isTypeLike m) =
              ((first :: rest).find? fun m => !isTypeLike m).map (Meta.place μ.pos) := by
            simp only [List.find?_map, Function.comp_def, isTypeLike_place]
          have htypes : ({ o.place μ with
              types := (o.place μ).types ++
                ((first :: rest).map (Meta.place μ.pos)).map (·.raw) } : Options) =
                ({ o with types := o.types ++ (first :: rest).map (·.raw) } :
                  Options).place μ := by
            simp only [List.map_map, Function.comp_def, Meta.raw_place]
            rfl
          dsimp only [Meta.place, placeMetas]
          rw [hplaced, hfind, htypes]
          cases (first :: rest).find? fun m => !isTypeLike m with
          | none => exact .ok _
          | some m =>
              simp only [Option.map_some, Meta.pos_place, Meta.raw_place,
                Position.diagnose_move]
              exact .error _
  | _ => exact hbad

theorem moves_setFormat (item : Meta) (o : Options) :
    MovesIn μ (place μ) (setFormat item o) (setFormat (item.place μ.pos) (o.place μ)) := by
  cases item with
  | lit | nameValue => exact .ok _
  | _ => exact .error _

theorem moves_setKey (item : Meta) (o : Options) :
    MovesIn μ (place μ) (setKey attr key item o)
      (setKey attr key (item.place μ.pos) (o.place μ)) := by
  unfold setKey
  rw [isBareKey_place, Meta.pos_place, Meta.raw_place, Position.diagnose_move]
  cases hflag : setFlag? key with
  | some set =>
      refine .ite (fun _ => ?_) fun _ => .error _
      exact .ok_of_eq (place_setFlag hflag o)
  | none =>
      refine .ite (fun _ => ?_) fun _ => .ite (fun _ => ?_) fun _ =>
        .ite (fun _ => ?_) fun _ =>
        .ite (fun _ => moves_setFormat item o) fun _ => .ok o
      · exact (moves_setRenameAll item o).mapError fun _ => rfl
      · exact (moves_setError item o).mapError fun _ => rfl
      · exact (moves_setTypes item o).mapError fun _ => rfl

/-! ## Reading arguments -/

namespace Reading

variable (μ) in
/-- What was read of attributes at another place. -/
def place (r : Reading) : Reading :=
  ⟨r.options.place μ, r.seen.map fun (key, pos) => (key, μ.pos pos)⟩

theorem at?_place (r : Reading) (key : Text) :
    (r.place μ).at? key = (r.at? key).map μ.pos := by
  simp only [at?, place, List.find?_map, Option.map_map, Function.comp_def]

theorem spelled_place (r : Reading) (key : Text) :
    (r.place μ).spelled key = r.spelled key := by
  simp only [spelled, at?_place, Option.isSome_map]

theorem conflict?_place (r : Reading) :
    (r.place μ).conflict? attr = (r.conflict? attr).map (Diagnostic.move μ) := by
  unfold conflict?
  rw [List.map_findSome?]
  congr 1
  funext ⟨first, second⟩
  simp only [at?_place, spelled_place, Function.comp_def]
  cases r.at? first with
  | none => rfl
  | some p =>
      cases r.at? second with
      | none => rfl
      | some q => simp only [Option.map_some, Position.diagnose_move]

theorem moves_item (g : Grammar) (r : Reading) (m : Meta) :
    MovesIn μ (place μ) (r.item g m) ((r.place μ).item g (m.place μ.pos)) := by
  unfold item
  simp only [keyOf_place, Meta.pos_place, Position.diagnose_move, at?_place, spelled_place,
    Option.isSome_map]
  refine .ite (fun _ => .error _) fun _ => .ite (fun _ => .error _) fun _ =>
    .ite (fun _ => .error _) fun _ => ?_
  refine .bind (moves_setKey m r.options) fun o _ => .ok_of_eq ?_
  simp only [place, List.map_append, List.map_cons, List.map_nil]
  split <;> rfl

theorem moves_items (g : Grammar) (raw : Text) (r : Reading) (isFirst : Bool)
    (ms : List Meta) : MovesIn μ (place μ) (items g raw r isFirst ms)
      (items g raw (r.place μ) isFirst (ms.map (Meta.place μ.pos))) := by
  induction ms generalizing r isFirst with
  | nil => exact .ok r
  | cons m ms ih =>
      rw [List.map_cons, items, items]
      refine .bind (moves_item g r m) fun r' _ => ?_
      have hformat : (r'.place μ).options.format =
          r'.options.format.map (FormatSpec.place μ) := rfl
      rw [hformat]
      cases r'.options.format with
      | none => exact ih r' false
      | some format =>
          simp only [Option.map_some, List.map_map, Function.comp_def, Meta.raw_place,
            Meta.pos_place, Position.diagnose_move]
          exact .ite (fun _ => .ok _) fun _ => .error _

end Reading

theorem moves_ofAttributes (attrs : List Attribute) (names : List Text) (level : Level)
    (params : Params) :
    MovesIn μ (place μ) (ofAttributes attrs names level params)
      (ofAttributes (attrs.map (Attribute.place μ.pos)) names level params) := by
  unfold ofAttributes
  rw [Attribute.named_place]
  match Attribute.named attrs names with
  | [] => exact .ok ({} : Options)
  | _ :: second :: _ =>
      refine .error_of_eq ?_
      rw [Attribute.path_place]
      exact congrArg _ (Position.diagnose_move μ ..)
  | [a] =>
      simp only [List.map_cons, List.map_nil, Attribute.path_place]
      obtain ⟨arg, raw, pos⟩ := a
      have hbad : MovesIn μ (place μ)
          (.error (.diagnostic (pos.diagnose (.malformedValue arg.pathText arg.pathText
            (Text.concat ["#[", arg.pathText, "] or #[", arg.pathText, "(...)]"]) raw))) :
              Except HelperFault Options)
          (.error (.diagnostic
            ((μ.pos pos).diagnose (.malformedValue arg.pathText arg.pathText
            (Text.concat ["#[", arg.pathText, "] or #[", arg.pathText, "(...)]"])
              raw)))) := by
        rw [Position.diagnose_move]
        exact .error _
      cases arg with
      | path => exact .ok _
      | list p path args text =>
          cases args with
          | nil => exact .ok _
          | cons m ms =>
              simp only [Attribute.place, Meta.place, placeMetas, placeMetas_eq]
              refine .bind (Reading.moves_items _ raw
                ⟨{ present := true, pos := pos }, []⟩ true (m :: ms)) fun r _ => ?_
              rw [Reading.conflict?_place]
              cases r.conflict? _ with
              | none => exact .ok _
              | some d => exact .error _
      | _ => exact hbad

end Options

end Deriver
