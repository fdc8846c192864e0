import Deriver.Proofs.Parse.Declared
import Deriver.Proofs.Parse.TyRereading

/-!
# A type and its spelling

Main statement: `parse_render`. The canonical spelling of the type of a field is read
again as the type of a field, and what is read is spelled the same. Generated code
contains nothing else of a type, so it says what the declaration said.

The spelling of a type is not always told from what is written behind it, and
`TyPart.delimited` and `TyPart.separate` leave out where it is not. The second is easily
overlooked: `parse_render_colons`.
-/

namespace Deriver

open Parse Scan

/-! ## The spelling as the type of a field -/

/-- The tuple struct whose one field has the type that is spelled so. -/
def tupleStruct (spelling : Text) : Text := Text.concat ["struct __T(", spelling, ");"]

variable {source y : Text} {ts : List Token} {t : Ty}

theorem next_struct (y : Text) : Next ("struct " ++ y) .structKw "struct" y :=
  .behind (.here (w := "struct")
    ⟨none, pieces_cons 115 (116 :: 114 :: 117 :: 99 :: 116 :: 32 :: y)⟩)

theorem next_name (y : Text) : Next ("__T(" ++ y) .ident "__T" ("(" ++ y) :=
  .here (w := "__T") ⟨none, pieces_cons 95 (95 :: 84 :: 40 :: y)⟩

theorem next_end : Next ";" .semicolon ";" [] := next_mark rfl []

namespace Parse

theorem attributes_ne (h : kindOf ts 0 ≠ .hash) : attributes source ts = .ok ([], ts) := by
  change attributeLoop source ts.length ts = _
  cases ts.length with
  | zero => rfl
  | succ n => rw [attributeLoop, bind_of_eq (check_ne h)]; rfl

theorem visibility_ne (h : kindOf ts 0 ≠ .pubKw) : visibility source ts = .ok ([], ts) := by
  unfold visibility
  rw [bind_of_eq (rfl : (MonadState.get : Parser _) ts = .ok (ts, ts)),
    bind_of_eq (accept_ne h)]
  rfl

theorem wholeTy_fails (h : startsTy (kindOf ts 0) = false) : Fails (wholeTy source) ts := by
  unfold wholeTy
  exact .get (ty_fails h)

theorem tupleField_fails (h : startsTy (kindOf ts 0) = false) (hhash : kindOf ts 0 ≠ .hash)
    (hpub : kindOf ts 0 ≠ .pubKw) : Fails (tupleField source) ts := by
  unfold tupleField
  exact .bind_eq (attributes_ne hhash)
    (.bind_eq (visibility_ne hpub) (.peek (wholeTy_fails h).bind))

theorem reads_wholeTy (ht : Rereadable t.parts) (hy : Stop y) :
    Reads source (wholeTy source) (t.render ++ y) fun v u =>
    v.render = t.render ∧ u = y := by
  unfold wholeTy
  refine .get (((rereading source _).ty t ht).closed hy ?_)
  rw [budget, length_ahead]
  omega

theorem reads_tupleField (ht : Rereadable t.parts) (hy : Stop y) :
    Reads source (tupleField source) (t.render ++ y) fun f u =>
    f.ty.render = t.render ∧ u = y := by
  intro hsub
  have hty : Reads source (wholeTy source) (t.render ++ y) fun v u =>
      v.render = t.render ∧ u = y :=
    reads_wholeTy ht hy
  have havoids (k : TokenKind) (hk : startsTy k = false) :
      kindOf (ahead source (t.render ++ y)) 0 ≠ k :=
    hty.avoids (fun ts hts => wholeTy_fails (by rwa [hts])) hsub
  obtain ⟨v, u, ⟨hv, rfl⟩, hu, hfaultless, hsize, hrun⟩ := hty hsub
  refine ⟨⟨[], [], none, 0, v, ((ahead source (t.render ++ u)).headD Token.none).pos⟩, u,
    ⟨hv, rfl⟩, hu, hfaultless, hsize, ?_⟩
  unfold tupleField
  rw [bind_of_eq (attributes_ne (havoids _ rfl)),
    bind_of_eq (visibility_ne (havoids _ rfl)),
    bind_of_eq (rfl : peek _ = .ok (_, _)), bind_of_eq hrun]
  rfl

theorem reads_tupleFields (ht : Rereadable t.parts) (y : Text) :
    Reads source (tupleFields source) ("(" ++ (t.render ++ (")" ++ y))) fun fs u =>
      (∃ f, fs = ⟨.tuple, [f]⟩ ∧ f.ty.render = t.render) ∧ u = y := by
  obtain ⟨f₀, rfl⟩ : ∃ f : Field, f.ty = t := ⟨⟨[], [], none, 0, t, .unknown⟩, rfl⟩
  have hlist : Reads source (commaList .rparen (tupleField source))
      (Text.join ", " ([f₀].map fun f => f.ty.render) ++ (")" ++ y)) fun fs u =>
      (fs.map fun f => f.ty.render) = ([f₀].map fun f => f.ty.render) ∧ u = ")" ++ y := by
    refine reads_commaList (next_rparen y) (by decide) (fun f hf u hu _ => ?_)
      (fun k hk ts hts => ?_) (Nat.le_refl _)
    · obtain rfl := List.mem_singleton.mp hf
      refine reads_tupleField ht ?_
      rcases hu with rfl | ⟨u, rfl⟩
      · exact stop_rparen y
      · exact stop_comma u
    · rcases List.mem_pair.mp hk with rfl | rfl <;>
        refine tupleField_fails ?_ ?_ ?_ <;> rw [hts] <;> decide
  unfold tupleFields
  refine .expect (next_lparen _) fun _ _ _ => .bind hlist ?_
  rintro fs _ ⟨hfs, rfl⟩ -
  obtain ⟨f, rfl, hf⟩ := List.map_eq_singleton_iff.mp hfs
  exact .expect (next_rparen y) fun _ _ _ => .pure ⟨⟨_, rfl, hf⟩, rfl⟩

theorem reads_structBody (ht : Rereadable t.parts) :
    Reads source (structBody source) ("__T(" ++ (t.render ++ (")" ++ ";"))) fun r u =>
      (∃ f, r.2.2 = .struct ⟨.tuple, [f]⟩ ∧ f.ty.render = t.render) ∧ u = [] := by
  have hparen := next_lparen (t.render ++ (")" ++ ";"))
  unfold structBody
  refine .expect (next_name _) fun _ _ _ => ?_
  refine .bind (P := fun v u => u = "(" ++ (t.render ++ (")" ++ ";"))) ?_ ?_
  · unfold genericParams
    exact .accept_no (.of_next hparen (by decide)) (.pure rfl)
  rintro params _ rfl -
  refine .check_yes hparen (.bind (reads_tupleFields ht ";") ?_)
  rintro fs _ ⟨⟨f, rfl, hf⟩, rfl⟩ -
  refine .bind (P := fun v u => u = ";") ?_ ?_
  · unfold whereClause
    exact .accept_no (.of_next next_end (by decide)) (.pure rfl)
  rintro preds _ rfl -
  exact .expect next_end fun _ _ _ => .pure ⟨⟨f, rfl, hf⟩, rfl⟩

/-- A source of attributes, a struct keyword and the body of a struct is one item. -/
theorem item_of_reads {A : List Attribute → Prop}
    {B : Text × Generics × Data → Prop} {w s : Text}
    (hattrs : Reads source (attributes source) source fun as u => A as ∧ u = y)
    (hstruct : Next y .structKw w s)
    (hbody : Reads source (structBody source) s fun r u => B r ∧ u = []) :
    Faultless source ∧ ∃ d, item source (scan source).tokens = (.decl d, [endOf source]) ∧
      A d.attrs ∧ B (d.name, d.generics, d.data) := by
  obtain ⟨attrs, y, ⟨hA, rfl⟩, hsub, hfaultless, -, hattrs⟩ :=
    hattrs (List.suffix_refl source)
  obtain ⟨keyword, hk, -, hahead⟩ := hstruct.ahead hsub
  obtain ⟨⟨name, generics, data⟩, u, ⟨hB, rfl⟩, -, hfaultless', -, hrun⟩ :=
    hbody (hstruct.suffix.trans hsub)
  have hnil : Faultless [] := by
    rw [Faultless, pieces_nil]
    exact List.forall_mem_nil _
  have hend : ahead source [] = [endOf source] := by
    rw [ahead, pieces_nil]
    rfl
  rw [hend] at hrun
  refine ⟨hfaultless (hstruct.faultless (hfaultless' hnil)), ?_⟩
  have hkind : kindOf (keyword :: ahead source s) 0 = .structKw := hk
  have hbehind : behind (keyword :: ahead source s) = ahead source s := by
    rw [behind, hk]; rfl
  have hbody : body? source (keyword :: ahead source s) = some (structBody source) := by
    rw [body?, hkind]
  rw [← ahead_self, item, hattrs]
  dsimp only
  rw [hahead, hkind, if_neg (by decide), visibility_ne (by rw [hkind]; decide)]
  dsimp only
  rw [itemBody, hbody]
  dsimp only
  rw [hbehind, hrun]
  exact ⟨_, rfl, hA, hB⟩

theorem item_of_tupleStruct (ht : Rereadable t.parts) :
    Faultless (tupleStruct t.render) ∧ ∃ d f, item (tupleStruct t.render)
      (scan (tupleStruct t.render)).tokens = (.decl d, [endOf (tupleStruct t.render)]) ∧
      d.data = .struct ⟨.tuple, [f]⟩ ∧ f.ty.render = t.render := by
  have htext : tupleStruct t.render = "struct " ++
      ("__T(" ++ (t.render ++ (")" ++ ";"))) := by
    simp [tupleStruct, Text.concat]
    rfl
  generalize tupleStruct t.render = x at htext ⊢
  have hnext := next_struct ("__T(" ++ (t.render ++ (")" ++ ";")))
  rw [← htext] at hnext
  have hattrs : Reads x (attributes x) x fun as u => as = [] ∧ u = x := fun hsub =>
    ⟨[], x, ⟨rfl, rfl⟩, hsub, id, Nat.le_refl _,
      attributes_ne (by rw [hnext.kindOf hsub]; decide)⟩
  obtain ⟨hfaultless, d, hitem, -, f, hdata, hf⟩ :=
    item_of_reads hattrs hnext (reads_structBody ht)
  exact ⟨hfaultless, d, f, hitem, hdata, hf⟩

/-- Where nothing is wrong and the first item is all, it is the declaration of the
source. -/
theorem parse_of_faultless {d : Decl} (hfaultless : Faultless source)
    (hitem : item source (scan source).tokens = (.decl d, [endOf source])) :
    parse source = ⟨⟨[d], 0, []⟩, []⟩ := by
  have hown : ownTokens source ≠ [] := by
    intro hnil
    obtain ⟨-, -, -, t, -, hsub⟩ := item_decl (ended_scan _) hitem
    rw [scan_tokens_own, hnil] at hsub
    exact absurd hsub.length_le (by simp)
  exact parse_of_item (faultless_iff.mp hfaultless) hown hitem

end Parse

/-- The spelling of the type of a field is read as the type of a field, and that type is
spelled the same. -/
theorem parse_render (hascii : ∀ b ∈ source, b < 0x80) (hclean : (parse source).errors = [])
    {d : Decl} (hd : d ∈ (parse source).file.decls) (ht : t ∈ d.fieldTypes)
    (hdelimited : ∀ p ∈ t.parts, p.delimited = true)
    (hseparate : ∀ p ∈ t.parts, p.separate = true) :
    (parse (tupleStruct t.render)).errors = [] ∧ ∃ d' f,
      (parse (tupleStruct t.render)).file.decls = [d'] ∧ d'.data = .struct ⟨.tuple, [f]⟩ ∧
        f.ty.render = t.render := by
  have hs : (scan source).errors = [] := by
    rw [parse] at hclean
    exact List.map_eq_nil_iff.mp (List.append_eq_nil_iff.mp hclean).1
  have hspelled := spelled_of_parse hs (trimmed_of_ascii hascii) hd ht
  have hparts : Rereadable t.parts := fun p hp =>
    ⟨hspelled p hp, TyPart.distinct_iff.mpr ⟨hdelimited p hp, hseparate p hp⟩⟩
  obtain ⟨hfaultless, d', f, hitem, hdata, hf⟩ := item_of_tupleStruct hparts
  rw [parse_of_faultless hfaultless hitem]
  exact ⟨rfl, d', f, rfl, hdata, hf⟩

/-- A qualified path with arguments of every kind. -/
theorem parse_render_qualified :
    ∃ d ∈ (parse
        "struct S(<[u8; 4] as T<'_, \x7bN\x7d, Item = for<'b> fn(u8,) -> &&'b !>>::U);").file.decls,
      ∃ t ∈ d.fieldTypes, t.render =
          "<[u8; 4] as T<'_, \x7bN\x7d, Item = for<'b> fn(u8) -> &&'b !>>::U" ∧
        (parse (tupleStruct t.render)).errors = [] ∧ ∃ d' f,
          (parse (tupleStruct t.render)).file.decls = [d'] ∧
          d'.data = .struct ⟨.tuple, [f]⟩ ∧ f.ty.render = t.render := by
  have hdecls : (parse
      "struct S(<[u8; 4] as T<'_, \x7bN\x7d, Item = for<'b> fn(u8,) -> &&'b !>>::U);").file.decls =
        [_] := rfl
  have hd := hdecls ▸ List.mem_singleton.mpr rfl
  refine ⟨_, hd, _, List.mem_map_of_mem (List.mem_singleton.mpr rfl), by decide +kernel, ?_⟩
  exact parse_render (by decide +kernel) (by decide +kernel) hd
    (List.mem_map_of_mem (List.mem_singleton.mpr rfl)) (by decide +kernel)
      (by decide +kernel)

/-- The blank between the colon that a macro call ends with and the `::` behind the call is
not kept, and without it the spelling is not that of a type. -/
theorem parse_render_colons :
    (∀ b ∈ Text.ofString "struct S(Fn() -> m! : ::y);", b < 0x80) ∧
      (parse "struct S(Fn() -> m! : ::y);").errors = [] ∧
      ∃ d ∈ (parse "struct S(Fn() -> m! : ::y);").file.decls, ∃ t ∈ d.fieldTypes,
        (∀ p ∈ t.parts, p.delimited = true) ∧ t.render = "Fn() -> m! :::y" ∧
          (parse (tupleStruct t.render)).errors ≠ [] := by
  have hdecls : (parse "struct S(Fn() -> m! : ::y);").file.decls = [_] := rfl
  refine ⟨by decide +kernel, by decide +kernel, _, hdecls ▸ List.mem_singleton.mpr rfl, _,
    List.mem_map_of_mem (List.mem_singleton.mpr rfl), by decide +kernel, by
      decide +kernel, ?_⟩
  decide +kernel

end Deriver
