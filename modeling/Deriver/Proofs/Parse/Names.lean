import Deriver.Parse.File
import Deriver.Proofs.Parse.Item
import Deriver.Proofs.Text.Casing
import Deriver.Proofs.Token.Ending

/-!
# Field lists and names

Main statements: `styled_of_parse` and `named_of_parse`. In a declaration that was read from
a text the fields in braces have names, those in parentheses have none, and where there are
no brackets there are no fields. A rule that yields a field list decides its style by the
bracket it finds, so what is carried through the other rules is only what they yield,
wherever they begin. The names of the declaration, of its variants and of its fields are
such as the scanner takes for names: letters and digits, of which the first is no digit,
perhaps behind the raw mark.
-/

namespace Deriver

/-- Whether the fields are such as their style says. -/
def Fields.Styled (fs : Fields) : Prop :=
  match fs.style with
  | .named => ∀ f ∈ fs.list, f.ident.isSome
  | .tuple => ∀ f ∈ fs.list, f.ident = none
  | .unit => fs.list = []

/-- Whether every field list is such as its style says. -/
def Data.Styled : Data → Prop
  | .struct fs | .union fs => fs.Styled
  | .enum vs => ∀ v ∈ vs, v.fields.Styled

namespace Parse

/-! ## What a rule yields -/

/-- Whether all that a rule yields has a property. -/
def Gives {α : Type} (P : α → Prop) (p : Parser α) : Prop :=
  ∀ ts v us, p ts = .ok (v, us) → P v

namespace Gives

variable {α β : Type} {P : α → Prop} {Q : β → Prop}

theorem pure {v : α} (h : P v) : Gives P (Pure.pure v) := by
  intro ts w us heq
  cases heq
  exact h

theorem failHere {problem : Problem} : Gives P (failHere problem) := by
  intro ts v us heq
  cases heq

theorem bind {p : Parser β} {f : β → Parser α} (hp : Gives Q p)
    (hf : ∀ w, Q w → Gives P (f w)) : Gives P (p >>= f) := by
  intro ts v us heq
  change p ts >>= (fun r => f r.1 r.2) = _ at heq
  cases hr : p ts with
  | error e =>
      rw [hr] at heq
      cases heq
  | ok r =>
      rw [hr] at heq
      exact hf r.1 (hp ts r.1 r.2 hr) r.2 v us heq

theorem behind {p : Parser β} {f : β → Parser α} (hf : ∀ w, Gives P (f w)) :
    Gives P (p >>= f) :=
  bind (Q := fun _ => True) (fun _ _ _ _ => trivial) fun w _ => hf w

theorem ite {c : Prop} [Decidable c] {p q : Parser α} (hp : Gives P p) (hq : Gives P q) :
    Gives P (if c then p else q) := by
  split
  · exact hp
  · exact hq

theorem commaLoop {elem : Parser α} (h : Gives P elem) (close : TokenKind) (n : Nat) :
    Gives (fun vs => ∀ v ∈ vs, P v) (commaLoop close elem n) := by
  induction n with
  | zero => exact failHere
  | succ n ih =>
      have hnil : Gives (fun vs => ∀ v ∈ vs, P v) (Pure.pure [] : Parser (List α)) :=
        pure fun _ hv => nomatch hv
      refine behind fun _ => behind fun _ => ite hnil ?_
      refine bind h fun x hx => behind fun _ => ite ?_ ?_
      · exact bind ih fun vs hvs => pure (List.forall_mem_cons.mpr ⟨hx, hvs⟩)
      · exact pure (List.forall_mem_singleton.mpr hx)

theorem commaList {elem : Parser α} (h : Gives P elem) (close : TokenKind) :
    Gives (fun vs => ∀ v ∈ vs, P v) (commaList close elem) :=
  behind fun _ => h.commaLoop close _

end Gives

/-! ## Field lists -/

variable (source : Text)

theorem mem_number {fs : List Field} {f : Field} (h : f ∈ number fs) :
    ∃ g ∈ fs, f.ident = g.ident := by
  obtain ⟨i, hi, rfl⟩ := List.mem_mapIdx.mp h
  exact ⟨fs[i], List.getElem_mem hi, rfl⟩

theorem gives_namedField : Gives (fun f => f.ident.isSome) (namedField source) :=
  .behind fun _ => .behind fun _ => .behind fun _ => .behind fun _ =>
    .behind fun _ => .pure rfl

theorem gives_tupleField : Gives (fun f => f.ident = none) (tupleField source) :=
  .behind fun _ => .behind fun _ => .behind fun _ => .behind fun _ => .pure rfl

theorem gives_namedFields : Gives Fields.Styled (namedFields source) := by
  refine .behind fun _ => .bind ((gives_namedField source).commaList _) fun fs hfs => ?_
  refine .behind fun _ => .pure fun f hf => ?_
  obtain ⟨g, hg, heq⟩ := mem_number hf
  rw [heq]
  exact hfs g hg

theorem gives_tupleFields : Gives Fields.Styled (tupleFields source) := by
  refine .behind fun _ => .bind ((gives_tupleField source).commaList _) fun fs hfs => ?_
  refine .behind fun _ => .pure fun f hf => ?_
  obtain ⟨g, hg, heq⟩ := mem_number hf
  rw [heq]
  exact hfs g hg

theorem gives_variantFields : Gives Fields.Styled (variantFields source) :=
  .behind fun _ => .ite (gives_namedFields source)
    (.behind fun _ => .ite (gives_tupleFields source) (.pure rfl))

theorem gives_variant : Gives (fun v => v.fields.Styled) (variant source) :=
  .behind fun _ => .behind fun _ => .behind fun _ =>
    .bind (gives_variantFields source) fun _ hfs => .behind fun _ => .pure hfs

/-! ## Declarations -/

theorem gives_body {body : Parser (Text × Generics × Data)} {ts : List Token}
    (h : body? source ts = some body) : Gives (fun r => r.2.2.Styled) body := by
  have hunit : Data.Styled (.struct .unit) := rfl
  unfold body? at h
  split at h
  · cases h
    refine .behind fun _ => .behind fun _ => .behind fun _ => .ite ?_ ?_
    · exact .bind (gives_tupleFields source) fun _ hfs =>
        .behind fun _ => .behind fun _ => .pure hfs
    refine .behind fun _ => .ite (.pure hunit) ?_
    refine .behind fun _ => .behind fun _ => .ite (.pure hunit) ?_
    exact .behind fun _ =>
      .ite (.bind (gives_namedFields source) fun _ hfs => .pure hfs) .failHere
  · cases h
    refine .behind fun _ => .behind fun _ => .behind fun _ => .behind fun _ => ?_
    exact .bind ((gives_variant source).commaList _) fun _ hvs => .behind fun _ => .pure hvs
  · split at h
    · cases h
      refine .behind fun _ => .behind fun _ => .behind fun _ => ?_
      exact .bind (gives_namedFields source) fun _ hfs => .pure hfs
    · cases h
  · cases h

theorem styled_of_item {ts us : List Token} {decl : Decl}
    (h : item source ts = (.decl decl, us)) : decl.data.Styled := by
  obtain ⟨vs, ws, body, -, -, hbody, hok, -⟩ := exists_of_item_decl h
  exact gives_body source hbody _ _ _ hok

end Parse

/-- In a declaration that was read from a text every field list is such as its style
says. -/
theorem styled_of_parse {source : Text} {decl : Decl}
    (h : decl ∈ (parse source).file.decls) : decl.data.Styled := by
  obtain ⟨ts, us, -, -, hitem⟩ := item_of_mem_decls h
  exact Parse.styled_of_item source hitem

/-- A text that is a name without a mark. -/
def IsWord (t : Text) : Prop := ∃ b u, t = b :: u ∧ Scan.isAlpha b = true ∧ Text.Wordy u

/-- A text that is a name, perhaps with the raw mark. -/
def IsIdent (t : Text) : Prop := IsWord (t.dropStart "r#")

instance : (t : Text) → Decidable (IsWord t)
  | [] => isFalse (by rintro ⟨_, _, h, -⟩; cases h)
  | b :: u => decidable_of_iff ((Scan.isAlpha b && u.all Scan.isAlphaNum) = true) (by
      rw [Bool.and_eq_true, List.all_eq_true]
      exact ⟨fun h => ⟨b, u, rfl, h⟩, by rintro ⟨_, _, ⟨⟩, h⟩; exact h⟩)

instance (t : Text) : Decidable (IsIdent t) := inferInstanceAs (Decidable (IsWord _))

theorem IsWord.wordy {t : Text} (h : IsWord t) : t.Wordy := by
  obtain ⟨b, u, rfl, hb, hu⟩ := h
  exact List.forall_mem_cons.mpr ⟨Scan.isAlphaNum_of_alpha hb, hu⟩

theorem IsWord.dropStart {t : Text} (h : IsWord t) : t.dropStart "r#" = t := by
  have hno : t.startsWith "r#" = false := by
    rw [← Bool.not_eq_true]
    intro hmark
    obtain ⟨u, rfl⟩ := List.isPrefixOf_iff_prefix.mp hmark
    exact absurd (h.wordy 35 (List.mem_append_left u (by decide))) (by decide)
  rw [Text.dropStart, Text.dropStart?, hno]
  rfl

theorem IsWord.isIdent {t : Text} (h : IsWord t) : IsIdent t := by
  rwa [IsIdent, h.dropStart]

/-- A name holds no byte but those of the mark and those that can continue a name. -/
theorem IsIdent.not_mem {name : Text} (h : IsIdent name) {b : UInt8}
    (hword : Scan.isAlphaNum b = false) (hmark : b ∉ ("r#" : Text)) : b ∉ name := by
  have hplain : b ∉ name.dropStart "r#" := fun hmem => by
    rw [h.wordy b hmem] at hword
    cases hword
  unfold Text.dropStart Text.dropStart? at hplain
  split at hplain
  · next hprefix =>
      obtain ⟨w, rfl⟩ := List.isPrefixOf_iff_prefix.mp hprefix
      intro hmem
      rcases List.mem_append.mp hmem with hmem | hmem
      · exact hmark hmem
      · exact hplain (by simpa using hmem)
  · exact hplain

theorem IsIdent.not_space {name : Text} (h : IsIdent name) : 32 ∉ name :=
  h.not_mem (by decide) (by decide)

/-! ## Tokens that are names -/

/-- Whether tokens of a kind are taken for names. -/
def TokenKind.Names (k : TokenKind) : Prop := k = .ident ∨ k = .unionKw

instance (k : TokenKind) : Decidable k.Names := inferInstanceAs (Decidable (_ ∨ _))

namespace Scan

/-- Whether a lexeme is a name, if it is taken for one. -/
def NamesWell (b : UInt8) (rest : Text) (l : Lexeme) : Prop :=
  ∀ k v, l.token = some (k, v) → k.Names → IsIdent (b :: rest.take l.size)

/-- Whether a lexeme is not taken for a name. -/
def Nameless (l : Lexeme) : Prop := ∀ k v, l.token = some (k, v) → ¬ k.Names

variable {b : UInt8} {rest : Text} {l : Lexeme}

theorem Nameless.namesWell (h : Nameless l) : NamesWell b rest l := fun k v hk hn =>
  absurd hn (h k v hk)

theorem nameless_none {n : Nat} {fs : List (Fault × Nat)} : Nameless ⟨n, none, fs⟩ :=
  fun _ _ h => absurd h.symm (Option.some_ne_none _)

theorem nameless_some {n : Nat} {k : TokenKind} {v : Option Literal}
    {fs : List (Fault × Nat)} (h : ¬ k.Names) : Nameless ⟨n, some (k, v), fs⟩ := by
  rintro _ _ ⟨⟩
  exact h

theorem nameless_charLiteral (rest : Text) : Nameless (charLiteral rest) := by
  simp only [charLiteral]
  split
  · exact nameless_some (by decide)
  · exact nameless_none

theorem nameless_string (rest : Text) : Nameless (string rest) := by
  intro k v h
  rw [(string_last h).1]
  decide

theorem nameless_rawString (rest : Text) : Nameless (rawString rest) := by
  intro k v h
  rw [(rawString_last h).1]
  decide

theorem nameless_number (first : UInt8) (rest : Text) : Nameless (number first rest) := by
  intro k v h
  rw [number_eq] at h
  split at h
  · cases h
  · rcases (numberToken_token h).1 with rfl | rfl <;> decide

theorem nameless_quote (rest : Text) : Nameless (quote rest) := by
  unfold quote
  split
  · exact nameless_charLiteral rest
  split
  · exact nameless_none
  split
  · exact nameless_charLiteral rest
  split
  · split
    · exact nameless_some (by decide)
    · exact nameless_none
  · exact nameless_none

theorem nameless_slash (rest : Text) : Nameless (slash rest) := by
  unfold slash
  split
  · exact nameless_none
  · split
    split <;> exact nameless_none
  · exact nameless_some (by decide)

theorem wordy_takeWhile (t : Text) : Text.Wordy (t.takeWhile isAlphaNum) :=
  fun _ hb => List.mem_takeWhile_imp hb

theorem namesWell_word (hb : isAlpha b = true) : NamesWell b rest (word b rest) := by
  intro k v _ _
  rw [word_size, take_run]
  exact IsWord.isIdent ⟨b, _, rfl, hb, wordy_takeWhile rest⟩

theorem namesWell_raw (hone : rest.head? = some 35)
    (htwo : (rest.drop 1).head?.any isAlpha = true) :
    NamesWell 114 rest (.plain .ident (1 + run isAlphaNum (rest.drop 1))) := by
  intro k v _ _
  obtain ⟨c, t, rfl⟩ : ∃ c t, rest = 35 :: c :: t := by
    match rest with
    | [] | [_] => cases htwo
    | d :: c :: t =>
        cases hone
        exact ⟨c, t, rfl⟩
  rw [Lexeme.plain, Nat.add_comm, List.take_succ_cons, List.drop_succ_cons,
    List.drop_zero, take_run, List.takeWhile_cons_of_pos (isAlphaNum_of_alpha htwo)]
  exact ⟨c, _, rfl, htwo, wordy_takeWhile t⟩

theorem namesWell_wordLike (b : UInt8) (rest : Text) :
    NamesWell b rest (wordLike b rest) := by
  simp only [wordLike]
  split_ifs with h1 h2 h3 h4 h5 h6 h7
  · exact (nameless_number b rest).namesWell
  · exact (nameless_rawString rest).namesWell
  · exact Nameless.namesWell (nameless_string (rest.drop 1))
  · exact Nameless.namesWell (nameless_rawString (rest.drop 1))
  · exact Nameless.namesWell (nameless_charLiteral (rest.drop 1))
  · simp only [Bool.and_eq_true, beq_iff_eq] at h6
    obtain ⟨⟨rfl, hone⟩, htwo⟩ := h6
    exact namesWell_raw hone htwo
  · exact namesWell_word h7
  · exact nameless_none.namesWell

theorem nameless_single {k : TokenKind} (h : single? b = some k) : ¬ k.Names := by
  unfold single? at h
  split at h <;> first | cases h; decide | cases h

theorem namesWell_lexeme (b : UInt8) (rest : Text) : NamesWell b rest (lexeme b rest) := by
  unfold lexeme
  split
  · next hk => exact Nameless.namesWell (nameless_some (nameless_single hk))
  split
  · exact nameless_none.namesWell
  split
  case h_10 => split <;> exact Nameless.namesWell (nameless_some (by decide))
  case h_14 => exact (nameless_slash rest).namesWell
  case h_15 => exact (nameless_quote rest).namesWell
  case h_16 => exact (nameless_string rest).namesWell
  case h_17 => exact namesWell_wordLike b rest
  all_goals exact Nameless.namesWell (nameless_some (by decide))

end Scan

theorem isIdent_of_mem {s : Text} {t : Token} (ht : t ∈ (scan s).tokens)
    (hk : t.kind.Names) : IsIdent t.lexeme := by
  rw [scan_tokens_own, List.mem_append, List.mem_singleton] at ht
  rcases ht with ht | rfl
  · obtain ⟨qs, p, rs, hsplit, htoken, htext, -, -⟩ := exists_of_mem_ownTokens ht
    obtain ⟨b, rest, -, rfl, -⟩ := Scan.pieces_split hsplit
    rw [htext]
    exact Scan.namesWell_lexeme b rest _ _ htoken hk
  · rcases hk with hk | hk <;> cases hk

/-! ## Declarations -/

/-- Whether the names of fields are names. -/
def Fields.Named (fs : Fields) : Prop := ∀ f ∈ fs.list, ∀ name ∈ f.ident, IsIdent name

/-- Whether the names of variants and fields are names. -/
def Data.Named : Data → Prop
  | .struct fs | .union fs => fs.Named
  | .enum vs => ∀ v ∈ vs, IsIdent v.ident ∧ v.fields.Named

/-- Whether the names in a declaration are names. -/
structure Decl.Named (d : Decl) : Prop where
  name : IsIdent d.name
  data : d.data.Named

namespace Parse

/-- Whether tokens that are taken for names are such. -/
def Named (ts : List Token) : Prop := ∀ t ∈ ts, t.kind.Names → IsIdent t.lexeme

/-- Whether all that a rule yields of tokens with names has a property. -/
def Names {α : Type} (P : α → Prop) (p : Parser α) : Prop :=
  ∀ ts v us, Ended ts → Named ts → p ts = .ok (v, us) → P v

theorem Named.of_suffix {us ts : List Token} (h : Named ts) (hsub : us <:+ ts) : Named us :=
  fun t ht => h t (hsub.subset ht)

namespace Names

variable {α β : Type} {P : α → Prop} {Q : β → Prop}

theorem pure {v : α} (h : P v) : Names P (Pure.pure v) := by
  rintro ts w us - - heq
  cases heq
  exact h

theorem failHere {problem : Problem} : Names P (failHere problem) := by
  rintro ts w us - - heq
  cases heq

theorem bind {p : Parser β} {f : β → Parser α} [Forward p] (hp : Names Q p)
    (hf : ∀ w, Q w → Names P (f w)) : Names P (p >>= f) := by
  intro ts v us hts hnamed heq
  change p ts >>= (fun r => f r.1 r.2) = _ at heq
  cases hr : p ts with
  | error e =>
      rw [hr] at heq
      cases heq
  | ok r =>
      rw [hr] at heq
      obtain ⟨hsub, hended⟩ := Forward.of_ok hts hr
      exact hf r.1 (hp ts r.1 r.2 hts hnamed hr) r.2 v us hended (hnamed.of_suffix hsub) heq

theorem behind {p : Parser β} {f : β → Parser α} [Forward p] (hf : ∀ w, Names P (f w)) :
    Names P (p >>= f) :=
  bind (Q := fun _ => True) (fun _ _ _ _ _ _ => trivial) fun w _ => hf w

theorem ite {c : Prop} [Decidable c] {p q : Parser α} (hp : Names P p) (hq : Names P q) :
    Names P (if c then p else q) := by
  split
  · exact hp
  · exact hq

theorem commaLoop {elem : Parser α} [Forward elem] (h : Names P elem)
    (close : TokenKind) (n : Nat) :
    Names (fun vs => ∀ v ∈ vs, P v) (commaLoop close elem n) := by
  induction n with
  | zero => exact failHere
  | succ n ih =>
      have hnil : Names (fun vs => ∀ v ∈ vs, P v) (Pure.pure [] : Parser (List α)) :=
        pure fun _ hv => nomatch hv
      refine behind fun _ => behind fun _ => ite hnil ?_
      refine bind h fun x hx => behind fun _ => ite ?_ ?_
      · exact bind ih fun vs hvs => pure (List.forall_mem_cons.mpr ⟨hx, hvs⟩)
      · exact pure (List.forall_mem_singleton.mpr hx)

theorem commaList {elem : Parser α} [Forward elem] (h : Names P elem) (close : TokenKind) :
    Names (fun vs => ∀ v ∈ vs, P v) (commaList close elem) :=
  fun ts v us hts hnamed heq => h.commaLoop close _ ts v us hts hnamed heq

end Names

theorem names_take {k : TokenKind} (hk : k.Names) {ts us : List Token} {t : Token}
    (hts : Ended ts)
    (hnamed : Named ts) (hkind : kindOf ts 0 = k) (h : take ts = .ok (t, us)) :
    IsIdent t.lexeme := by
  obtain ⟨t', ts', rfl, -⟩ := hts.cases
  cases h
  rw [← hkind] at hk
  exact hnamed t' (List.mem_cons_self ..) hk

theorem names_expect (what : Text) :
    Names (fun t => IsIdent t.lexeme) (expect .ident what) := by
  intro ts t us hts hnamed h
  change (if (TokenKind.ident != .eof && kindOf ts 0 == .ident) = true then take
    else Parse.failHere (.expected what) : Parser Token) ts = _ at h
  split at h
  · next hcheck => exact names_take (.inl rfl) hts hnamed (by simpa using hcheck) h
  · cases h

theorem names_fieldName : Names (fun t => IsIdent t.lexeme) fieldName := by
  intro ts t us hts hnamed h
  change (if ((TokenKind.ident != .eof && kindOf ts 0 == .ident) ||
    (TokenKind.unionKw != .eof && kindOf ts 0 == .unionKw)) = true then take
    else Parse.failHere (.expected "field name") : Parser Token) ts = _ at h
  split at h
  · next hcheck =>
      rcases Bool.or_eq_true_iff.mp hcheck with hcheck | hcheck
      · exact names_take (.inl rfl) hts hnamed (by simpa using hcheck) h
      · exact names_take (.inr rfl) hts hnamed (by simpa using hcheck) h
  · cases h

variable (source : Text)

theorem names_namedField :
    Names (fun f => ∀ name ∈ f.ident, IsIdent name) (namedField source) := by
  refine .behind fun _ => .behind fun _ => .bind names_fieldName fun t ht => ?_
  refine .behind fun _ => .behind fun _ => .pure fun name hname => ?_
  cases hname
  exact ht

theorem names_tupleField :
    Names (fun f => ∀ name ∈ f.ident, IsIdent name) (tupleField source) :=
  .behind fun _ => .behind fun _ => .behind fun _ => .behind fun _ => .pure nofun

theorem named_number {fs : List Field} {style : FieldStyle}
    (h : ∀ f ∈ fs, ∀ name ∈ f.ident, IsIdent name) : Fields.Named ⟨style, number fs⟩ := by
  intro f hf
  obtain ⟨g, hg, heq⟩ := mem_number hf
  rw [heq]
  exact h g hg

theorem names_namedFields : Names Fields.Named (namedFields source) :=
  .behind fun _ => .bind ((names_namedField source).commaList _) fun _ hfs =>
    .behind fun _ => .pure (named_number hfs)

theorem names_tupleFields : Names Fields.Named (tupleFields source) :=
  .behind fun _ => .bind ((names_tupleField source).commaList _) fun _ hfs =>
    .behind fun _ => .pure (named_number hfs)

theorem names_variantFields : Names Fields.Named (variantFields source) :=
  .behind fun _ => .ite (names_namedFields source)
    (.behind fun _ => .ite (names_tupleFields source) (.pure nofun))

theorem names_variant :
    Names (fun v => IsIdent v.ident ∧ v.fields.Named) (variant source) :=
  .behind fun _ => .behind fun _ => .bind (names_expect _) fun _ ht =>
    .bind (names_variantFields source) fun _ hfs => .behind fun _ => .pure ⟨ht, hfs⟩

theorem names_body {body : Parser (Text × Generics × Data)} {ts : List Token}
    (h : body? source ts = some body) :
    Names (fun r => IsIdent r.1 ∧ r.2.2.Named) body := by
  have hunit : Data.Named (.struct .unit) := nofun
  unfold body? at h
  split at h
  · cases h
    refine .bind (names_expect _) fun _ hname => .behind fun _ =>
      .behind fun _ => .ite ?_ ?_
    · exact .bind (names_tupleFields source) fun _ hfs =>
        .behind fun _ => .behind fun _ => .pure ⟨hname, hfs⟩
    refine .behind fun _ => .ite (.pure ⟨hname, hunit⟩) ?_
    refine .behind fun _ => .behind fun _ => .ite (.pure ⟨hname, hunit⟩) ?_
    exact .behind fun _ =>
      .ite (.bind (names_namedFields source) fun _ hfs => .pure ⟨hname, hfs⟩) .failHere
  · cases h
    refine .bind (names_expect _) fun _ hname => .behind fun _ => .behind fun _ =>
      .behind fun _ => ?_
    exact .bind ((names_variant source).commaList _) fun _ hvs =>
      .behind fun _ => .pure ⟨hname, hvs⟩
  · split at h
    · cases h
      refine .bind (names_expect _) fun _ hname => .behind fun _ => .behind fun _ => ?_
      exact .bind (names_namedFields source) fun _ hfs => .pure ⟨hname, hfs⟩
    · cases h
  · cases h

theorem named_of_item {ts us : List Token} {decl : Decl} (hts : Ended ts)
    (hnamed : Named ts) (h : item source ts = (.decl decl, us)) : decl.Named := by
  obtain ⟨vs, ws, body, hattrs, hvis, hbody, hok, -⟩ := exists_of_item_decl h
  obtain ⟨hvs, hvsEnded⟩ := Forward.of_ok hts hattrs
  obtain ⟨hws, hwsEnded⟩ := Forward.of_ok hvsEnded hvis
  have hsub := (behind_suffix ws).trans (hws.trans hvs)
  have hrest := hts.of_suffix hsub (behind_ne_nil hwsEnded)
  obtain ⟨hname, hdata⟩ := names_body source hbody _ _ _ hrest (hnamed.of_suffix hsub) hok
  exact ⟨hname, hdata⟩

end Parse

theorem named_of_parse {source : Text} {decl : Decl}
    (h : decl ∈ (parse source).file.decls) : decl.Named := by
  obtain ⟨ts, us, hts, hended, hitem⟩ := item_of_mem_decls h
  exact Parse.named_of_item source hended
    (Parse.Named.of_suffix (fun t ht hk => isIdent_of_mem ht hk) hts) hitem

end Deriver
