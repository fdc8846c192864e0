import Deriver.Proofs.Helper.Arguments
import Deriver.Proofs.Parse.Arguments
import Deriver.Proofs.Parse.Spelled
import Deriver.Proofs.Token.Name

/-!
# Declarations are spelled by tokens

Main statement: `spelled_of_decls`. In what was read from a clean, trimmed source every
word is a token, every captured text is captured again, and every argument of an attribute
goes from token to token. Behind the type of a field stands a comma or the bracket that
closes the fields, and behind generics a bracket or a semicolon, so nothing in them was
cut in two.
-/

namespace Deriver

open Parse Scan

/-- Whether the text of an argument of an attribute goes from token to token. A literal is
its last token, and it stands alone or behind the key `format`. -/
structure Meta.Spelled (m : Meta) : Prop where
  solid : m.raw = [] ∨ Solid m.raw
  trim : m.raw.trim = m.raw
  literal : Options.keyOf m = "format" → ∀ v, Options.literal? m = some v → ∃ us t,
    (ownTokens m.raw).map Token.content = (us ++ [t]).map Token.content ∧
      (t.kind = .str → t.value = some (.str v.value)) ∧
      (us = [] ∨ ∃ a e, us = [a, e] ∧ a.lexeme = "format" ∧ e.kind = .equals)

/-- The arguments of an argument. -/
def Meta.items : Meta → List Meta
  | .list _ _ items _ => items
  | _ => []

/-- Whether the arguments of an attribute are spelled by tokens. -/
def Attribute.Spelled (a : Attribute) : Prop := ∀ m ∈ a.args, m.Spelled

/-! ## Strings -/

/-- Whether a lexeme that is a string has a value. -/
def Scan.Valued (l : Lexeme) : Prop :=
  ∀ v, l.token = some (.str, v) → ∃ u, v = some (.str u)

namespace Scan

theorem Valued.of_kind {n : Nat} {k : TokenKind} {v : Option Literal}
    {fs : List (Fault × Nat)} (h : k ≠ .str) : Valued ⟨n, some (k, v), fs⟩ := by
  rintro _ ⟨⟩
  exact absurd rfl h

theorem Valued.none {n : Nat} {fs : List (Fault × Nat)} : Valued ⟨n, none, fs⟩ := nofun

theorem valued_charLiteral (rest : Text) : Valued (charLiteral rest) := by
  simp only [charLiteral]
  split
  · exact .of_kind (by decide)
  · exact .none

theorem valued_string (rest : Text) : Valued (string rest) := by
  simp only [string]
  split
  · exact .none
  · rintro _ ⟨⟩
    exact ⟨_, rfl⟩

theorem valued_rawString (rest : Text) : Valued (rawString rest) := by
  simp only [rawString]
  split
  · split
    · rintro _ ⟨⟩
      exact ⟨_, rfl⟩
    · exact .none
  · exact .none

theorem valued_number (first : UInt8) (rest : Text) : Valued (number first rest) := by
  intro v h
  rw [number_eq] at h
  split at h
  · cases h
  · rcases (numberToken_token h).1 with h | h <;> cases h

theorem valued_quote (rest : Text) : Valued (quote rest) := by
  unfold quote
  split
  · exact valued_charLiteral rest
  split
  · exact .none
  split
  · exact valued_charLiteral rest
  split
  · split
    · exact .of_kind (by decide)
    · exact .none
  · exact .none

theorem valued_slash (rest : Text) : Valued (slash rest) := by
  unfold slash
  split
  · exact .none
  · split
    split <;> exact .none
  · exact .of_kind (by decide)

theorem valued_word (first : UInt8) (rest : Text) : Valued (word first rest) := by
  have hwords : ∀ e ∈ TokenKind.keywords, e.2 ≠ .str := by decide
  simp only [word]
  split
  · exact .of_kind (by decide)
  · exact .of_kind (by decide)
  · next hk =>
      obtain ⟨e, he, -, rfl⟩ := exists_of_ofKeyword? hk
      exact .of_kind (hwords e he)
  · exact .of_kind (by decide)

theorem valued_wordLike (b : UInt8) (rest : Text) : Valued (wordLike b rest) := by
  simp only [wordLike]
  split_ifs
  · exact valued_number b rest
  · exact valued_rawString rest
  · exact valued_string (rest.drop 1)
  · exact valued_rawString (rest.drop 1)
  · exact valued_charLiteral (rest.drop 1)
  · exact .of_kind (by decide)
  · exact valued_word b rest
  · exact .none

theorem valued_lexeme (b : UInt8) (rest : Text) : Valued (lexeme b rest) := by
  have hsingle : ∀ b : UInt8, single? b ≠ some .str := forall_byte (by decide +kernel)
  unfold lexeme
  split
  · next hk => exact .of_kind fun hstr => hsingle b (hstr ▸ hk)
  split
  · exact .none
  split
  case h_10 => split <;> exact .of_kind (by decide)
  case h_14 => exact valued_slash rest
  case h_15 => exact valued_quote rest
  case h_16 => exact valued_string rest
  case h_17 => exact valued_wordLike b rest
  all_goals exact .of_kind (by decide)

end Scan

namespace Parse

variable {source p : Text} {ts us : List Token} {k : TokenKind}

theorem Left.of_suffix (h : Left source ts) (hsub : us <:+ ts) (hne : us ≠ []) :
    Left source us :=
  ⟨hsub.trans h.sub, hne⟩

theorem litOf_raw (t : Token) : (litOf t).raw = t.lexeme := by
  unfold litOf
  split <;> rfl

theorem Left.str {t : Token} (h : Left source (t :: us)) (hk : t.kind = .str) :
    t.value = some (.str (litOf t).value) := by
  have hmem := h.sub.subset (List.mem_cons_self (a := t) (l := us))
  rw [scan_tokens_own, List.mem_append, List.mem_singleton] at hmem
  rcases hmem with hmem | rfl
  · obtain ⟨qs, p, rs, hsplit, htoken, -, -, -⟩ := exists_of_mem_ownTokens hmem
    obtain ⟨b, rest, -, rfl, -⟩ := Scan.pieces_split hsplit
    obtain ⟨v, hv⟩ := Scan.valued_lexeme b rest t.value (hk ▸ htoken)
    simp [litOf, hk, hv]
  · cases hk

end Parse

theorem Solid.eq_lexeme {x : Text} {t : Token} (h : Solid x) (hown : ownTokens x = [t]) :
    x = t.lexeme := by
  obtain ⟨t', us, hfirst, hoffset⟩ := h.first
  obtain ⟨vs, t'', hlast, hstop⟩ := h.last
  obtain ⟨rfl, -⟩ := List.cons.inj (hown.symm.trans hfirst)
  obtain rfl : t = t'' := by
    have := congrArg List.getLast? (hown.symm.trans hlast)
    simpa using this
  obtain ⟨qs, p, rs, hsplit, -, htext, hbytes, -⟩ :=
      exists_of_mem_ownTokens (s := x) (t := t) (by simp [hown])
  have hx : x = bytes qs ++ (p.text ++ bytes rs) := by
    rw [← bytes_cons, ← bytes_append, ← hsplit, bytes_pieces]
  rw [hoffset, eq_comm, List.length_eq_zero_iff] at hbytes
  rw [hbytes, List.nil_append] at hx
  have hlen := congrArg List.length hx
  rw [← hstop, Token.stop, hoffset, htext, List.length_append, Nat.zero_add] at hlen
  have hrest : bytes rs = [] := List.length_eq_zero_iff.mp (by omega)
  rw [hx, hrest, List.append_nil, htext]

theorem Word.solid_colons {k : TokenKind} {w p : Text} (h : Word k w) (hk : k.isWord = true)
    (hp : Solid p) : Solid (w ++ ("::" ++ p)) :=
  h.solid.join_of_fits hp (h.fits hk (by decide)) (List.forall_mem_singleton.mpr rfl)
    (pieces_cons 58 (58 :: p))

theorem Solid.rooted {p : Text} (hp : Solid p) : Solid ("::" ++ p) := by
  have hcut (s : Text) : pieces ("::" ++ s) =
      ⟨"::", some (.doubleColon, none), []⟩ :: pieces s :=
    pieces_cons 58 (58 :: s)
  have hcolons : pieces "::" = [⟨"::", some (.doubleColon, none), []⟩] :=
    (hcut []).trans (congrArg _ pieces_nil)
  refine (Word.solid ⟨none, hcolons⟩).append hp ?_
  rw [hcolons]
  exact hcut p

namespace Parse

variable {source p : Text} {ts us : List Token} {k : TokenKind}

section Attributes

variable (hs : (scan source).errors = []) (htrimmed : Trimmed source)

include hs htrimmed

/-- The text of some tokens of a clean, trimmed source has these tokens. -/
theorem Left.text {vs : List Token} (hts : Left source (vs ++ us)) (hus : Left source us)
    (hun : Unquoted us) :
    (textOf source vs = [] ∨ Solid (textOf source vs)) ∧
      (textOf source vs).trim = textOf source vs ∧
      (ownTokens (textOf source vs)).map Token.content = vs.map Token.content := by
  rcases eq_or_ne vs [] with rfl | hvs
  · exact ⟨.inl rfl, rfl, rfl⟩
  · obtain ⟨pre, x, post, -, hx, htrim, htokens, htext⟩ :=
      hts.exists_text hs htrimmed hus hvs hun
    rw [htext, htokens, List.map_map]
    exact ⟨.inr hx, htrim, rfl⟩

omit htrimmed in
theorem Left.word_of_segment {t : Token} (hts : Left source (t :: us))
    (hk : isSegment t.kind = true) : Word t.kind t.lexeme ∧ t.kind.isWord = true := by
  have hall : ∀ k, isSegment k = true → k ∉ [TokenKind.eof, .char] ∧ k.isWord = true := by
    intro k hk
    cases k <;> first | exact ⟨by decide, rfl⟩ | cases hk
  exact ⟨hts.word hs rfl (hall _ hk).1, (hall _ hk).2⟩

omit hs in
theorem Left.trim_word {t : Token} (hts : Left source (t :: us)) (h : Word k t.lexeme)
    (ht : t.kind ≠ .eof) : t.lexeme.trim = t.lexeme := by
  refine htrimmed _ h.solid ?_
  have hmem := hts.sub.subset (List.mem_cons_self (a := t) (l := us))
  rw [scan_tokens_own, List.mem_append, List.mem_singleton] at hmem
  rcases hmem with hmem | rfl
  · obtain ⟨qs, p, rs, hsplit, -, htext, -, -⟩ := exists_of_mem_ownTokens hmem
    refine ⟨bytes qs, bytes rs, ?_⟩
    rw [← bytes_pieces source, hsplit, bytes_append, bytes_cons, htext, List.append_assoc]
  · exact absurd rfl ht

/-- A path is spelled by tokens, and without a colon it is one token. -/
theorem spelled_metaSegments? {n : Nat} (hts : Left source ts)
    (h : metaSegments? n ts = some (p, us)) :
    Solid p ∧ p.trim = p ∧ (58 ∉ p → ∃ t, ts = t :: us ∧ t.lexeme = p) := by
  induction n generalizing ts p with
  | zero => cases h
  | succ n ih =>
      rw [metaSegments?] at h
      dsimp only at h
      split at h
      · cases h
      · next hseg =>
          rw [isSegment_iff, Decidable.not_not] at hseg
          obtain ⟨t, vs, rfl, -⟩ := hts.ended.cases
          have hseg : isSegment t.kind = true := hseg
          have heof := ne_eof_of_isSegment hseg
          obtain ⟨hword, hkind⟩ := hts.word_of_segment hs hseg
          have htrim := hts.trim_word htrimmed hword heof
          have hvs := hts.tail heof
          rw [behind_cons heof] at h
          split at h
          · next hahead =>
              rw [Bool.and_eq_true, Bool.and_eq_true] at hahead
              obtain ⟨c, ws, rfl, hc⟩ :=
                cons_of_kindOf (beq_iff_eq.mp hahead.1.1) (by decide)
              have hc : c.kind ≠ .eof := by rw [hc]; decide
              rw [behind_cons hc, Option.map_eq_some_iff] at h
              obtain ⟨⟨q, r⟩, hq, heq⟩ := h
              cases heq
              obtain ⟨hsolid, hqtrim, -⟩ := ih (hvs.tail hc) hq
              have htext : Text.concat [t.lexeme, "::", q] = t.lexeme ++ ("::" ++ q) := by
                simp [Text.concat]
              rw [List.headD_cons, htext]
              refine ⟨hword.solid_colons hkind hsolid, Text.trim_colons htrim hqtrim,
                fun h58 => ?_⟩
              exact absurd (List.mem_append_right _ (List.mem_cons_self ..)) h58
          · cases h
            exact ⟨hword.solid, htrim, fun _ => ⟨t, rfl, rfl⟩⟩

theorem spelled_pathAhead (hts : Left source ts) (h : pathAhead ts = some (p, us)) :
    Solid p ∧ p.trim = p ∧ (58 ∉ p → ∃ t, ts = t :: us ∧ t.lexeme = p) := by
  unfold pathAhead metaPath? at h
  split at h
  · split at h
    · next hcolons =>
        obtain ⟨c, vs, rfl, hc⟩ := cons_of_kindOf (beq_iff_eq.mp hcolons) (by decide)
        have hc : c.kind ≠ .eof := by rw [hc]; decide
        rw [behind_cons hc, Option.map_eq_some_iff] at h
        obtain ⟨⟨q, r⟩, hq, heq⟩ := h
        cases heq
        obtain ⟨hsolid, htrim, -⟩ := spelled_metaSegments? hs htrimmed (hts.tail hc) hq
        refine ⟨hsolid.rooted, Text.trim_colons (x := []) rfl htrim, fun h58 => ?_⟩
        exact absurd (List.mem_cons_self ..) h58
    · exact spelled_metaSegments? hs htrimmed hts h
  · cases h

/-- An argument with the text of some tokens is spelled by them if no value is read from
it. -/
theorem Left.spelled_raw {vs : List Token} {m : Meta} (hts : Left source (vs ++ us))
    (hus : Left source us) (hun : Unquoted us) (hraw : m.raw = textOf source vs)
    (hnone : Options.literal? m = none) : m.Spelled := by
  obtain ⟨hsolid, htrim, -⟩ := hts.text hs htrimmed hus hun
  rw [← hraw] at hsolid htrim
  refine ⟨hsolid, htrim, fun _ v hv => ?_⟩
  rw [hnone] at hv
  cases hv

theorem Left.spelled_lit {t : Token} (hts : Left source (t :: us)) (hus : Left source us)
    (hun : Unquoted us) : (Meta.lit t.pos (litOf t)).Spelled := by
  have hone : Left source ([t] ++ us) := hts
  obtain ⟨hsolid, htrim, hcontents⟩ := hone.text hs htrimmed hus hun
  have hraw : textOf source [t] = (Meta.lit t.pos (litOf t)).raw := by
    refine Eq.trans ?_ (litOf_raw t).symm
    rcases hsolid with hnil | hsolid
    · rw [hnil] at hcontents
      cases hcontents
    · obtain ⟨t', hown, ht'⟩ := List.map_eq_singleton_iff.mp hcontents
      exact (hsolid.eq_lexeme hown).trans (congrArg (·.2.1) ht')
  rw [hraw] at hsolid htrim hcontents
  refine ⟨hsolid, htrim, ?_⟩
  rintro - _ ⟨⟩
  exact ⟨[], t, hcontents, hts.str, .inl rfl⟩

/-- A path, an equals sign and a literal. -/
theorem Left.spelled_value {e l : Token} (pos : Position) (hts : Left source ts)
    (hpath : pathAhead ts = some (p, e :: l :: us)) (he : e.kind = .equals)
    (hl : isLiteral l.kind = true) (hun : Unquoted us) :
    (Meta.nameValue pos p (litOf l) (textOf source (between ts us))).Spelled := by
  obtain ⟨-, -, hone⟩ := spelled_pathAhead hs htrimmed hts hpath
  obtain ⟨ws, rfl, -⟩ := isPath_of_pathAhead hpath
  have hleft : Left source (l :: us) :=
    hts.of_suffix ⟨ws ++ [e], by simp⟩ (List.cons_ne_nil l us)
  have hlk : l.kind ≠ .eof := by
    intro hk
    rw [hk] at hl
    cases hl
  have hwhole : ws ++ e :: l :: us = (ws ++ [e, l]) ++ us := by simp
  rw [hwhole] at hts
  obtain ⟨hsolid, htrim, hcontents⟩ := hts.text hs htrimmed (hleft.tail hlk) hun
  rw [hwhole, between_append]
  refine ⟨hsolid, htrim, ?_⟩
  rintro (hkey : p = "format") _ ⟨⟩
  -- the key is one token, so these are all
  obtain ⟨t, ht, hlexeme⟩ := hone (hkey ▸ by decide)
  obtain rfl : ws = [t] :=
    List.append_cancel_right (ht.trans (List.singleton_append ..).symm)
  exact ⟨[t, e], l, hcontents, hleft.str, .inr ⟨t, e, rfl, hlexeme.trans hkey, he⟩⟩

/-- An argument is spelled by tokens, and so are those in it. -/
theorem settles_metaItem (fuel : Nat) :
    Settles source (fun m => m.Spelled ∧ ∀ i ∈ m.items, i.Spelled)
    (metaItem source fuel) := by
  induction fuel with
  | zero => exact fun _ _ => .failHere _
  | succ fuel ih =>
      intro ts hts m us hr hun
      have hus := hts.of_ok hr
      obtain ⟨ws, hws⟩ := (Forward.of_ok hts.ended hr).1
      have hbetween : textOf source (between ts us) = textOf source ws := by
        rw [← hws, between_append]
      have hraw {m : Meta} (h : m.raw = textOf source (between ts us))
          (hnone : Options.literal? m = none) : m.Spelled :=
        Left.spelled_raw hs htrimmed (hws.symm ▸ hts) hus hun (h.trans hbetween) hnone
      cases MetaRun.of_ok hr with
      | literal => exact ⟨hts.spelled_lit hs htrimmed hus hun, List.forall_mem_nil _⟩
      | @list _ vs _ _ _ o c hpath ho hc hitems =>
          obtain ⟨ps, rfl, -⟩ := isPath_of_pathAhead hpath
          have hleft : Left source vs :=
            (hts.of_suffix ⟨ps, rfl⟩ (List.cons_ne_nil o vs)).tail (by rw [ho]; decide)
          have hspelled := after_commaLoop ih (vs.length + 1) hleft _ _ hitems
            (unquoted_of hc (by decide))
          exact ⟨hraw rfl rfl, fun i hi => (hspelled i hi).1⟩
      | value hpath he hlit =>
          exact ⟨hts.spelled_value hs htrimmed _ hpath he hlit hun, List.forall_mem_nil _⟩
      | path hpath =>
          obtain ⟨hsolid, htrim, -⟩ := spelled_pathAhead hs htrimmed hts hpath
          exact ⟨⟨.inr hsolid, htrim, fun _ v hv => by cases hv⟩, List.forall_mem_nil _⟩
      | assigned | verbatim => exact ⟨hraw rfl rfl, List.forall_mem_nil _⟩

theorem settles_wholeMeta :
    Settles source (fun m => m.Spelled ∧ ∀ i ∈ m.items, i.Spelled) (wholeMeta source) :=
  fun ts hts => .get (settles_metaItem hs htrimmed _ ts hts)

theorem after_oneAttribute (hts : Left source ts) :
    After (oneAttribute source) ts fun a _ => a.Spelled := by
  have hargs {m : Meta} (hm : ∀ i ∈ m.items, i.Spelled) (raw : Text) (pos : Position) :
      Attribute.Spelled ⟨m, raw, pos⟩ := by
    cases m with
    | list => exact hm
    | _ => exact nofun
  unfold oneAttribute
  refine .skip hts fun _ us hus => .expect hus (by decide) fun vs hvs _ => ?_
  refine .skip hvs fun _ ws hws => .peekKind (.ite (fun _ => ?_) fun _ => .get ?_)
  · refine .skip hws fun _ xs hxs => .skip hxs fun _ ys hys => ?_
    refine .step hys (settles_wholeMeta hs htrimmed ys hys) fun m zs hzs hm => ?_
    refine .expect hzs (by decide) fun us hus hk =>
      .expect hus (by decide) fun _ _ _ => .pure ?_
    exact hargs (hm (unquoted_of hk (by decide))).2 _ _
  · refine .step hws (settles_wholeMeta hs htrimmed ws hws) fun m zs hzs hm => .get ?_
    refine .expect hzs (by decide) fun _ _ hk => .pure ?_
    exact hargs (hm (unquoted_of hk (by decide))).2 _ _

theorem after_attributes (hts : Left source ts) :
    After (attributes source) ts fun as _ => ∀ a ∈ as, a.Spelled := by
  have hloop (n : Nat) {ts : List Token} (hts : Left source ts) :
      After (attributeLoop source n) ts fun as _ => ∀ a ∈ as, a.Spelled := by
    induction n generalizing ts with
    | zero => exact .pure nofun
    | succ n ih =>
        unfold attributeLoop
        refine .check (fun _ => .peekKind (.ite (fun _ => ?_) fun _ => ?_)) (.pure nofun)
        · exact .skip hts fun _ us hus => .skip hus fun _ vs hvs =>
            .skip hvs fun _ ws hws => ih hws
        · refine .step hts (after_oneAttribute hs htrimmed hts) fun a us hus ha => ?_
          exact .step hus (ih hus) fun as _ _ has =>
            .pure (List.forall_mem_cons.mpr ⟨ha, has⟩)
  exact .get (hloop _ hts)

end Attributes

end Parse

/-! ## Declarations -/

/-- Whether a parameter is spelled by tokens. -/
structure GenericParam.Spelled (p : GenericParam) : Prop where
  name : ∃ k, Word k p.name
  bounds : ∀ b ∈ p.bounds, Deriver.Spelled b.parts
  ty : ∀ t, p.kind = .const t → Deriver.Spelled t.parts

/-- Whether a predicate is spelled by tokens. -/
def WherePredicate.Spelled : WherePredicate → Prop
  | .lifetime binder name bounds => (∀ l ∈ binder, Word .lifetime l) ∧ Word .lifetime name ∧
      ∀ b ∈ bounds, Deriver.Spelled b.parts
  | .type binder t bounds => (∀ l ∈ binder, Word .lifetime l) ∧ Deriver.Spelled t.parts ∧
      ∀ b ∈ bounds, Deriver.Spelled b.parts

/-- Whether the parameters and predicates are spelled by tokens. -/
structure Generics.Spelled (g : Generics) : Prop where
  params : ∀ p ∈ g.params, p.Spelled
  predicates : ∀ p ∈ g.predicates, p.Spelled

/-- Whether the attributes and the type of a field are spelled by tokens. -/
structure Field.Spelled (f : Field) : Prop where
  attrs : ∀ a ∈ f.attrs, a.Spelled
  ty : Deriver.Spelled f.ty.parts

/-- Whether the fields are spelled by tokens. -/
def Fields.Spelled (fs : Fields) : Prop := ∀ f ∈ fs.list, f.Spelled

/-- Whether the attributes and fields of a variant are spelled by tokens. -/
structure Variant.Spelled (v : Variant) : Prop where
  attrs : ∀ a ∈ v.attrs, a.Spelled
  fields : v.fields.Spelled

/-- Whether all fields and variants are spelled by tokens. -/
def Data.Spelled : Data → Prop
  | .struct fs | .union fs => fs.Spelled
  | .enum vs => ∀ v ∈ vs, v.Spelled

/-- Whether a declaration is spelled by tokens. -/
structure Decl.Spelled (d : Decl) : Prop where
  attrs : ∀ a ∈ d.attrs, a.Spelled
  generics : d.generics.Spelled
  data : d.data.Spelled

theorem Data.Spelled.of_mem {d : Decl} {t : Ty} (h : d.data.Spelled)
    (ht : t ∈ d.fieldTypes) : Deriver.Spelled t.parts := by
  unfold Decl.fieldTypes at ht
  generalize d.data = data at h ht
  cases data with
  | struct fs | union fs =>
      obtain ⟨f, hf, rfl⟩ := List.mem_map.mp ht
      exact (h f hf).ty
  | enum vs =>
      obtain ⟨v, hv, ht⟩ := List.mem_flatMap.mp ht
      obtain ⟨f, hf, rfl⟩ := List.mem_map.mp ht
      exact ((h v hv).fields f hf).ty

namespace Parse

variable {source : Text} {ts us : List Token}

theorem spelled_number {fs : List Field} (style : FieldStyle) (h : ∀ f ∈ fs, f.Spelled) :
    Fields.Spelled ⟨style, number fs⟩ := by
  intro f hf
  obtain ⟨i, hi, rfl⟩ := List.mem_mapIdx.mp hf
  obtain ⟨hattrs, hty⟩ := h fs[i] (List.getElem_mem hi)
  exact ⟨hattrs, hty⟩

theorem spelled_outlives {ls : List Text} (h : ∀ l ∈ ls, Word .lifetime l) :
    ∀ b ∈ ls.map (Bound.outlives []), Spelled b.parts := by
  intro b hb
  obtain ⟨l, hl, rfl⟩ := List.mem_map.mp hb
  simp only [Bound.parts, spelled_cons]
  exact ⟨h l hl, spelled_nil⟩

theorem after_defaultTy (hts : Left source ts) :
    After (defaultTy source) ts fun _ us => Unquoted us → Unquoted ts := by
  unfold defaultTy
  exact .accept hts (by decide) (fun _ _ hk _ _ _ _ => unquoted_of hk (by decide))
    fun _ => .pure id

theorem after_defaultConst (hts : Left source ts) :
    After (defaultConst source) ts fun _ us => Unquoted us → Unquoted ts := by
  unfold defaultConst
  exact .accept hts (by decide) (fun _ _ hk _ _ _ _ => unquoted_of hk (by decide))
    fun _ => .pure id

section Rules

variable (hs : (scan source).errors = []) (htrimmed : Trimmed source)

include hs

theorem after_outlived (hts : Left source ts) :
    After outlived ts fun ls _ => ∀ l ∈ ls, Word .lifetime l := by
  unfold outlived
  exact .accept hts (by decide) (fun _ hus _ => .get (after_lifetimes hs (by decide) _ hus))
    fun _ => .pure nofun

include htrimmed

theorem settles_wholeTy : Settles source (fun t => Spelled t.parts) (wholeTy source) :=
  fun ts hts => .get ((settling hs htrimmed _).ty ts hts)

theorem settles_bounds :
    Settles source (fun bs => ∀ b ∈ bs, Spelled b.parts) (bounds source) :=
  fun ts hts => .get (settles_boundList (settling hs htrimmed _).bound ts hts)

/-! ### Generics -/

theorem settles_bounded :
    Settles source (fun bs => ∀ b ∈ bs, Spelled b.parts) (bounded source) := by
  intro ts hts
  unfold bounded
  exact .accept hts (by decide) (fun us hus _ => settles_bounds hs htrimmed us hus)
    fun _ => .pure fun _ => nofun

theorem settles_genericParam :
    Settles source GenericParam.Spelled (genericParam source) := by
  intro ts hts
  unfold genericParam
  refine .peek ?_
  have hk := kindOf_zero ts
  split
  · next hkind =>
      have hword := hts.word hs (hk.trans hkind) (by decide)
      refine .skip hts fun _ us hus =>
        .step hus (after_outlived hs hus) fun ls _ _ hls => ?_
      exact .pure fun _ => ⟨⟨_, hword⟩, spelled_outlives hls, fun _ h => by cases h⟩
  · refine .skip hts fun _ us hus => .expect hus (by decide) fun vs hvs hname => ?_
    have hword := hus.word hs hname (by decide)
    refine .expect hvs (by decide) fun ws hws _ => ?_
    refine .step hws (settles_wholeTy hs htrimmed ws hws) fun t xs hxs ht => ?_
    refine .step hxs (after_defaultConst hxs) fun _ _ _ hdefault => .pure fun hun => ?_
    refine ⟨⟨_, hword⟩, List.forall_mem_nil _, ?_⟩
    rintro _ ⟨⟩
    exact ht (hdefault hun)
  · next hkind =>
      have hword := hts.word hs (hk.trans hkind) (by decide)
      refine .skip hts fun _ us hus => .step hus (settles_bounded hs htrimmed us hus)
        fun bs vs hvs hbs => ?_
      refine .step hvs (after_defaultTy hvs) fun _ _ _ hdefault => .pure fun hun => ?_
      exact ⟨⟨_, hword⟩, hbs (hdefault hun), fun _ h => by cases h⟩
  · exact .failHere _

theorem after_genericParams (hts : Left source ts) :
    After (genericParams source) ts fun ps _ => ∀ p ∈ ps, p.Spelled := by
  have hparam : Settles source GenericParam.Spelled (do
      let _ ← attributes source
      genericParam source) :=
    fun ts hts => .skip hts fun _ us hus => settles_genericParam hs htrimmed us hus
  unfold genericParams
  refine .accept hts (by decide) (fun us hus _ => ?_) fun _ => .pure nofun
  exact after_commaList hparam (by decide) hus fun ps _ _ _ hps => .pure hps

theorem settles_wherePredicate :
    Settles source WherePredicate.Spelled (wherePredicate source) := by
  intro ts hts
  unfold wherePredicate
  refine .step hts (after_binder? hs hts) fun names us hus hnames =>
    .check (fun hk => ?_) ?_
  · have hword := hus.word hs hk (by decide)
    refine .take hus fun vs hvs => .expect hvs (by decide) fun ws hws _ => .get ?_
    refine .step hws (after_lifetimes hs (by decide) _ hws) fun ls _ _ hls =>
      .pure fun _ => ?_
    exact ⟨hnames, hword, spelled_outlives hls⟩
  · refine .step hus (settles_wholeTy hs htrimmed us hus) fun t vs hvs ht => ?_
    refine .expect hvs (by decide) fun ws hws hk => ?_
    refine .step hws (settles_bounds hs htrimmed ws hws) fun bs _ _ hbs =>
      .pure fun hun => ?_
    exact ⟨hnames, ht (unquoted_of hk (by decide)), hbs hun⟩

theorem settles_whereLoop (n : Nat) :
    Settles source (fun ps => ∀ p ∈ ps, p.Spelled) (whereLoop source n) := by
  induction n with
  | zero => exact fun _ _ => .pure fun _ => nofun
  | succ n ih =>
      intro ts hts
      unfold whereLoop
      refine .skip hts fun _ us hus => .skip hus fun _ vs hvs =>
        .skip hvs fun _ ws hws => ?_
      refine .ite (fun _ => .pure fun _ => nofun) fun _ => ?_
      refine .step hws (settles_wherePredicate hs htrimmed ws hws) fun p xs hxs hp => ?_
      refine .accept hxs (by decide) (fun ys hys hk => ?_) fun _ => .pure fun hun => ?_
      · refine .step hys (ih ys hys) fun ps _ _ hps => .pure fun hun => ?_
        exact List.forall_mem_cons.mpr ⟨hp (unquoted_of hk (by decide)), hps hun⟩
      · exact List.forall_mem_singleton.mpr (hp hun)

theorem settles_whereClause :
    Settles source (fun ps => ∀ p ∈ ps, p.Spelled) (whereClause source) := by
  intro ts hts
  unfold whereClause
  exact .accept hts (by decide) (fun us hus _ =>
    .get (settles_whereLoop hs htrimmed _ us hus))
    fun _ => .pure fun _ => nofun

/-! ### Fields and variants -/

theorem settles_namedField : Settles source Field.Spelled (namedField source) := by
  intro ts hts
  unfold namedField
  refine .step hts (after_attributes hs htrimmed hts) fun attrs us hus hattrs => ?_
  refine .skip hus fun _ vs hvs => .skip hvs fun _ ws hws => ?_
  refine .expect hws (by decide) fun xs hxs _ => ?_
  exact .step hxs (settles_wholeTy hs htrimmed xs hxs) fun t _ _ ht =>
    .pure fun hun => ⟨hattrs, ht hun⟩

theorem settles_tupleField : Settles source Field.Spelled (tupleField source) := by
  intro ts hts
  unfold tupleField
  refine .step hts (after_attributes hs htrimmed hts) fun attrs us hus hattrs => ?_
  refine .skip hus fun _ vs hvs => .peek ?_
  exact .step hvs (settles_wholeTy hs htrimmed vs hvs) fun t _ _ ht =>
    .pure fun hun => ⟨hattrs, ht hun⟩

theorem after_namedFields (hts : Left source ts) :
    After (namedFields source) ts fun fs _ => kindOf ts 0 = .lbrace ∧ fs.Spelled := by
  unfold namedFields
  refine .expect hts (by decide) fun us hus hk => ?_
  refine after_commaList (settles_namedField hs htrimmed)
    (by decide) hus fun fs _ _ _ hfs => ?_
  exact .pure ⟨hk, spelled_number .named hfs⟩

theorem after_tupleFields (hts : Left source ts) :
    After (tupleFields source) ts fun fs _ => fs.Spelled := by
  unfold tupleFields
  refine .expect hts (by decide) fun us hus _ => ?_
  refine after_commaList (settles_tupleField hs htrimmed)
    (by decide) hus fun fs _ _ _ hfs => ?_
  exact .pure (spelled_number .tuple hfs)

theorem after_variantFields (hts : Left source ts) :
    After (variantFields source) ts fun fs _ => fs.Spelled := by
  unfold variantFields
  refine .check (fun _ => (after_namedFields hs htrimmed hts).mono fun _ _ h => h.2) ?_
  exact .check (fun _ => after_tupleFields hs htrimmed hts) (.pure nofun)

theorem settles_variant : Settles source Variant.Spelled (variant source) := by
  intro ts hts
  unfold variant
  refine .step hts (after_attributes hs htrimmed hts) fun attrs us hus hattrs => ?_
  refine .skip hus fun _ vs hvs => .expect hvs (by decide) fun ws hws _ => ?_
  refine .step hws (after_variantFields hs htrimmed hws) fun fs xs hxs hfs => ?_
  exact .skip hxs fun _ _ _ => .pure fun _ => ⟨hattrs, hfs⟩

/-! ### Bodies -/

theorem after_structBody (hts : Left source ts) :
    After (structBody source) ts fun r _ => r.2.1.Spelled ∧ r.2.2.Spelled := by
  have hunit : Data.Spelled (.struct .unit) := nofun
  unfold structBody
  refine .expect hts (by decide) fun us hus _ => ?_
  refine .step hus (after_genericParams hs htrimmed hus) fun params vs hvs hparams =>
    .check (fun _ => ?_) ?_
  · refine .step hvs (after_tupleFields hs htrimmed hvs) fun fs ws hws hfs => ?_
    refine .step hws (settles_whereClause hs htrimmed ws hws) fun preds xs hxs hpreds => ?_
    refine .expect hxs (by decide) fun _ _ hk => .pure ?_
    exact ⟨⟨hparams, hpreds (unquoted_of hk (by decide))⟩, hfs⟩
  refine .accept hvs (by decide) (fun _ _ _ => .pure ⟨⟨hparams, nofun⟩, hunit⟩) fun _ => ?_
  refine .step hvs (settles_whereClause hs htrimmed vs hvs) fun preds ws hws hpreds => ?_
  refine .accept hws (by decide) (fun _ _ hk => .pure ?_) fun _ =>
    .check (fun hk => ?_) (.failHere _)
  · exact ⟨⟨hparams, hpreds (unquoted_of hk (by decide))⟩, hunit⟩
  · refine .step hws (after_namedFields hs htrimmed hws) fun fs _ _ hfs => .pure ?_
    exact ⟨⟨hparams, hpreds (unquoted_of hk (by decide))⟩, hfs.2⟩

theorem after_enumBody (hts : Left source ts) :
    After (enumBody source) ts fun r _ => r.2.1.Spelled ∧ r.2.2.Spelled := by
  unfold enumBody
  refine .expect hts (by decide) fun us hus _ => ?_
  refine .step hus (after_genericParams hs htrimmed hus) fun params vs hvs hparams => ?_
  refine .step hvs (settles_whereClause hs htrimmed vs hvs) fun preds ws hws hpreds => ?_
  refine .expect hws (by decide) fun xs hxs hk => ?_
  refine after_commaList (settles_variant hs htrimmed) (by decide) hxs fun vs _ _ _ hvs =>
    .pure ?_
  exact ⟨⟨hparams, hpreds (unquoted_of hk (by decide))⟩, hvs⟩

theorem after_unionBody (hts : Left source ts) :
    After (unionBody source) ts fun r _ => r.2.1.Spelled ∧ r.2.2.Spelled := by
  unfold unionBody
  refine .expect hts (by decide) fun us hus _ => ?_
  refine .step hus (after_genericParams hs htrimmed hus) fun params vs hvs hparams => ?_
  refine .step hvs (settles_whereClause hs htrimmed vs hvs) fun preds ws hws hpreds => ?_
  refine .step hws (after_namedFields hs htrimmed hws) fun fs _ _ hfs => .pure ?_
  exact ⟨⟨hparams, hpreds (unquoted_of hfs.1 (by decide))⟩, hfs.2⟩

theorem after_body {body : Parser (Text × Generics × Data)}
    (h : body? source us = some body)
    (hts : Left source ts) : After body ts fun r _ => r.2.1.Spelled ∧ r.2.2.Spelled := by
  unfold body? at h
  split at h
  · cases h
    exact after_structBody hs htrimmed hts
  · cases h
    exact after_enumBody hs htrimmed hts
  · split at h
    · cases h
      exact after_unionBody hs htrimmed hts
    · cases h
  · cases h

/-! ### Items -/

theorem spelled_of_item {d : Decl} (hts : Left source ts)
    (h : item source ts = (.decl d, us)) : d.Spelled := by
  obtain ⟨vs, ws, body, hattrs, hvis, hbody, hok, -⟩ := exists_of_item_decl h
  have hws := (hts.of_ok hattrs).of_ok hvis
  obtain ⟨t, us, rfl, -⟩ := hws.ended.cases
  have hkind : t.kind ≠ .eof := by
    intro heof
    rw [body?, show kindOf (t :: us) 0 = .eof from heof] at hbody
    cases hbody
  rw [behind_of_not_eof hkind] at hok
  obtain ⟨hgenerics, hdata⟩ := after_body hs htrimmed hbody (hws.tail hkind) _ _ hok
  exact ⟨after_attributes hs htrimmed hts _ _ hattrs, hgenerics, hdata⟩

end Rules

end Parse

/-- What was read from a clean, trimmed source is spelled by tokens. -/
theorem spelled_of_decls {source : Text} (hs : (scan source).errors = [])
    (htrimmed : Trimmed source) {d : Decl} (hd : d ∈ (parse source).file.decls) :
    d.Spelled := by
  obtain ⟨ts, us, hts, hended, hitem⟩ := item_of_mem_decls hd
  exact spelled_of_item hs htrimmed ⟨hts, hended.ne_nil⟩ hitem

/-- In the types of the fields of what was read from a clean, trimmed source every word is
a token and every captured text is captured again. -/
theorem spelled_of_parse {source : Text} (hs : (scan source).errors = [])
    (htrimmed : Trimmed source) {d : Decl} (hd : d ∈ (parse source).file.decls) {t : Ty}
    (ht : t ∈ d.fieldTypes) : Spelled t.parts :=
  (spelled_of_decls hs htrimmed hd).data.of_mem ht

end Deriver
