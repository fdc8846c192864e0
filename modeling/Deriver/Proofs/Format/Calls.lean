import Mathlib.Data.List.Forall2
import Deriver.Format.Use
import Deriver.Proofs.Parse.Declared
import Deriver.Proofs.Token.Spanning

/-!
# Formats in generated code

Main statements: `FormatCall.bears` and `Bears.keeps`. A format is written into a call as
it stands in the attribute, and the lines of the code around the call are set in. What a
scan of the code finds there is said of the tokens without their places: the beginning of
the call, and a string behind it. The string that was written stands for the value of the
format; set in, it does so unless a line break stands in it.
-/

namespace Deriver

open Scan

/-- The kind, the spelling and the value of a token. -/
abbrev Content := TokenKind × Text × Option Literal

/-- The tokens among pieces, without their places. -/
def Scan.contents (ps : List Piece) : List Content :=
  ps.filterMap fun p => p.token.map fun (kind, value) => (kind, p.text, value)

namespace FormatSpec

/-- The literal of a format: behind the key `format` it is the last token. -/
def literal (f : FormatSpec) : Text := ((ownTokens f.lit).getLast?.map (·.lexeme)).getD []

/-- Whether the literal of a format is a string. -/
def isString (f : FormatSpec) : Bool := (ownTokens f.lit).getLast?.any (·.kind == .str)

end FormatSpec

/-- A call in generated code that writes a format, or that makes a value to be written
so. -/
inductive FormatCall where
  | write (format : FormatSpec)
  | arguments (format : FormatSpec)

namespace FormatCall

/-- The format that is written. -/
def format : FormatCall → FormatSpec
  | write f | arguments f => f

/-- The call as generated code has it. -/
def text : FormatCall → Text
  | write f => f.write
  | arguments f => f.arguments

/-- The tokens in front of the format. -/
def opening : FormatCall → List Text
  | write _ => ["::", "core", "::", "write", "!", "(", FormatSpec.formatter, ","]
  | arguments _ => ["&", "::", "core", "::", "format_args", "!", "("]

end FormatCall

/-- Whether tokens are the key `format` and its equals sign. -/
def IsKey (ks : List Content) : Prop :=
  ∃ a e, ks = [a, e] ∧ a.2.1 = "format" ∧ e.1 = .equals

/-- Whether tokens hold calls one behind the other, each with a string that stands to its
format as `R` says. The key `format` may stand in front of the string. -/
def Carries (R : FormatSpec → Text → Text → Prop) : List FormatCall → List Content → Prop
  | [], _ => True
  | c :: cs, ts =>
      ∃ as fs ks w v us, ts = as ++ (fs ++ (ks ++ (.str, w, some (.str v)) :: us)) ∧
      fs.map (·.2.1) = c.opening ∧ (ks = [] ∨ IsKey ks) ∧ R c.format w v ∧ Carries R cs us

variable {R : FormatSpec → Text → Text →
  Prop} {cs ds : List FormatCall} {ts us : List Content}
  {n : Nat} {x y s : Text}

namespace Carries

theorem behind (h : Carries R cs us) (ts : List Content) : Carries R cs (ts ++ us) := by
  cases cs with
  | nil => trivial
  | cons c cs =>
      obtain ⟨as, fs, ks, w, v, us, rfl, hrest⟩ := h
      exact ⟨ts ++ as, fs, ks, w, v, us, by simp, hrest⟩

theorem append (h : Carries R cs ts) (h' : Carries R ds us) :
    Carries R (cs ++ ds) (ts ++ us) := by
  induction cs generalizing ts with
  | nil => exact h'.behind ts
  | cons c cs ih =>
      obtain ⟨as, fs, ks, w, v, ts, rfl, hfs, hks, hR, hcs⟩ := h
      exact ⟨as, fs, ks, w, v, ts ++ us, by simp, hfs, hks, hR, ih hcs⟩

theorem before (h : Carries R cs ts) (us : List Content) : Carries R cs (ts ++ us) := by
  have hall : Carries R (cs ++ []) (ts ++ us) := h.append trivial
  rwa [List.append_nil] at hall

end Carries

/-! ## Code before it is set in -/

/-- Whether the string is the literal of the format and stands for its value. -/
def IsLiteral (f : FormatSpec) (w v : Text) : Prop := w = f.literal ∧ v = f.value

/-- The calls that write a string. -/
def strings (cs : List FormatCall) : List FormatCall := cs.filter (·.format.isString)

/-- Whether the scan of `x` with `s` behind it comes to the front of `s` and holds the
strings of the calls. -/
def Bears (cs : List FormatCall) (x s : Text) : Prop :=
  ∃ ps, pieces (x ++ s) = ps ++ pieces s ∧ (∀ p ∈ ps, p.IsFirm) ∧
    Carries IsLiteral (strings cs) (contents ps)

theorem contents_append (ps qs : List Piece) :
    contents (ps ++ qs) = contents ps ++ contents qs :=
  List.filterMap_append

namespace Bears

theorem of_apart (h : Apart x s) : Bears [] x s := by
  obtain ⟨ps, hps, hfirm, -⟩ := h
  exact ⟨ps, hps, hfirm, trivial⟩

theorem append (hx : Bears cs x (y ++ s)) (hy : Bears ds y s) :
    Bears (cs ++ ds) (x ++ y) s := by
  obtain ⟨ps, hps, hfirm, hcs⟩ := hx
  obtain ⟨qs, hqs, hfirm', hds⟩ := hy
  refine ⟨ps ++ qs, ?_, List.forall_mem_append.mpr ⟨hfirm, hfirm'⟩, ?_⟩
  · rw [List.append_assoc, hps, hqs, List.append_assoc]
  · rw [contents_append, strings, List.filter_append]
    exact hcs.append hds

theorem behind (hx : Apart x (y ++ s)) (hy : Bears cs y s) : Bears cs (x ++ y) s :=
  (of_apart hx).append hy

end Bears

/-! ## Calls -/

/-- Whether a format can be read where it is written: it is made of tokens, and the last one
is its literal. -/
structure FormatSpec.Legible (f : FormatSpec) : Prop where
  solid : Solid f.lit
  literal : f.isString = true → ∃ ks : List Content,
    (ownTokens f.lit).map Token.content = ks ++ [(.str, f.literal, some (.str f.value))] ∧
      (ks = [] ∨ IsKey ks)
  args : ∀ a ∈ f.args, Closed a

theorem contents_pieces (s : Text) :
    contents (pieces s) = (ownTokens s).map Token.content := by
  rw [ownTokens_eq]
  generalize Position.start = pos, 0 = offset
  induction pieces s generalizing pos offset with
  | nil => rfl
  | cons p ps ih =>
      cases htoken : p.token with
      | none => simp [contents, tokensAt_gap htoken, htoken, ← ih]
      | some kv =>
          simp [contents, @tokensAt_token pos offset ps p kv.1 kv.2 htoken, htoken, ← ih,
            Token.content]

namespace FormatCall

/-- The beginning of a call as it is written. -/
def head : FormatCall → Text
  | write _ => "::core::write!(__derive_f, "
  | arguments _ => "&::core::format_args!("

/-- What stands in a call behind the format. -/
def tail (c : FormatCall) : Text := Text.following ", " c.format.args ++ ")"

theorem text_eq (c : FormatCall) : c.text = c.head ++ (c.format.lit ++ c.tail) := by
  have hjoin (f : FormatSpec) : Text.join ", " (f.lit :: f.args) ++ ")" =
      f.lit ++ (Text.following ", " f.args ++ ")") := by
    rw [Text.join_cons, List.append_assoc]
  cases c with
  | write f =>
      change Text.concat ["::core::write!(",
        Text.join ", " (FormatSpec.formatter :: f.lit :: f.args),
        ")"] = "::core::write!(__derive_f, " ++
          (f.lit ++ (Text.following ", " f.args ++ ")"))
      rw [← hjoin]
      rfl
  | arguments f =>
      change Text.concat ["&::core::format_args!(", Text.join ", " (f.lit :: f.args), ")"] =
        "&::core::format_args!(" ++ (f.lit ++ (Text.following ", " f.args ++ ")"))
      rw [← hjoin]
      rfl

theorem seals_head (c : FormatCall) : seals c.head = true := by cases c <;> rfl

theorem contents_head (c : FormatCall) :
    (contents (pieces c.head)).map (·.2.1) = c.opening := by
  rw [contents_pieces]
  cases c <;> rfl

theorem bears {c : FormatCall} (h : c.format.Legible) (s : Text) : Bears [c] c.text s := by
  have hstop : ∃ d u, c.tail ++ s = d :: u ∧ d ∈ stopBytes := by
    rw [tail]
    cases c.format.args with
    | nil => exact ⟨41, s, rfl, by decide⟩
    | cons a as => exact ⟨44, _, rfl, by decide⟩
  obtain ⟨d, u, hd, hstop⟩ := hstop
  obtain ⟨hhead, hclean⟩ := pieces_of_seals c.seals_head (c.format.lit ++ (c.tail ++ s))
  have hlit : pieces (c.format.lit ++ (c.tail ++ s)) =
      pieces c.format.lit ++ pieces (c.tail ++ s) :=
    h.solid.pieces_append ⟨d, u, hd, separator_of_stop hstop,
      fun _ _ => glues_of_stop hstop⟩
  have hlitclean : ∀ p ∈ pieces c.format.lit, p.faults = [] :=
    errorsAt_eq_nil.mp (scan_errors c.format.lit ▸ h.solid.clean)
  obtain ⟨qs, hqs, hfirm, -⟩ : Apart c.tail s :=
    (Closed.following (m := ", ") (.of_seals rfl)
      (fun s => stopped_cons (by decide)) h.args).ended
      (divides_of_seals rfl rfl) s
  refine ⟨pieces c.head ++ (pieces c.format.lit ++ qs), ?_, ?_, ?_⟩
  · rw [text_eq, List.append_assoc, List.append_assoc, hhead, hlit, hqs]
    simp
  · simp only [List.forall_mem_append]
    exact ⟨fun p hp => .inl (hclean p hp), fun p hp => .inl (hlitclean p hp), hfirm⟩
  · cases hstring : c.format.isString with
    | false =>
        have hnone : strings [c] = [] := by simp [strings, hstring]
        rw [hnone]
        trivial
    | true =>
        obtain ⟨ks, hks, hkey⟩ := h.literal hstring
        have hone : strings [c] = [c] := by simp [strings, hstring]
        rw [hone]
        refine ⟨[], contents (pieces c.head), ks, c.format.literal, c.format.value,
          contents qs, ?_, c.contents_head, hkey, ⟨rfl, rfl⟩, trivial⟩
        rw [contents_append, contents_append, contents_pieces c.format.lit, hks]
        simp

end FormatCall

/-! ## Code that is set in -/

/-- Whether a string stands for the value of the format, which it does if no line break
stands in the literal, and only then. -/
def Renders (f : FormatSpec) (_ v : Text) : Prop :=
  v = f.value ↔ breaksLine f.literal = false

/-- Whether lines that are set in hold the strings of the calls, whatever stands behind. -/
def Keeps (n : Nat) (cs : List FormatCall) (x : Text) : Prop :=
  Text.fresh true x = true ∧ ∀ s, ∃ qs, pieces (Text.inset n true x ++ s) = qs ++ pieces s ∧
    Carries Renders (strings cs) (contents qs)

/-- What becomes of a token when the lines are set in. -/
def ContentInset (n : Nat) (a b : Content) : Prop :=
  b.1 = a.1 ∧ b.2.1 = Text.inset n false a.2.1 ∧ ∀ v, a.1 = .str → a.2.2 = some (.str v) →
    ∃ v', b.2.2 = some (.str v') ∧ Widened n (breaksLine a.2.1) v v'

theorem contents_insets {ps qs : List Piece} (h : Insets n ps qs) :
    List.Forall₂ (ContentInset n) (contents ps) (contents qs) := by
  induction h with
  | nil => exact .nil
  | blank _ ih => exact ih
  | @cons p q ps qs hp _ ih =>
      obtain ⟨hkind, hstring⟩ := hp.token
      cases htoken : p.token with
      | none =>
          have hq : q.token = none := by simpa [htoken] using hkind
          simpa [contents, htoken, hq] using ih
      | some kv =>
          obtain ⟨k, v⟩ := kv
          obtain ⟨v', hq⟩ : ∃ v', q.token = some (k, v') := by
            rw [htoken, Option.map_some, Option.map_eq_some_iff] at hkind
            obtain ⟨⟨k', v'⟩, hq, rfl⟩ := hkind
            exact ⟨v', hq⟩
          have hcons : ContentInset n (k, p.text, v) (k, q.text, v') := by
            refine ⟨rfl, hp.text, ?_⟩
            rintro u rfl rfl
            obtain ⟨u', hu', hwide⟩ := hstring u htoken
            rw [hq] at hu'
            cases hu'
            exact ⟨u', rfl, hwide⟩
          simpa [contents, htoken, hq] using List.Forall₂.cons hcons ih

theorem lexemes_inset {as bs : List Content} (h : List.Forall₂ (ContentInset n) as bs)
    (hline : ∀ w ∈ as.map (·.2.1), 10 ∉ w) : bs.map (·.2.1) = as.map (·.2.1) := by
  induction h with
  | nil => rfl
  | cons hab _ ih =>
      rw [List.map_cons, List.forall_mem_cons] at hline
      rw [List.map_cons, List.map_cons, ih hline.2, hab.2.1, Text.inset_of_not_mem hline.1]

theorem IsKey.inset {ks ks' : List Content} (h : IsKey ks)
    (hks : List.Forall₂ (ContentInset n) ks ks') : IsKey ks' := by
  obtain ⟨a, e, rfl, hlexeme, hkind⟩ := h
  obtain ⟨a', us, ha, hus, rfl⟩ := List.forall₂_cons_left_iff.mp hks
  obtain ⟨e', vs, he, hvs, rfl⟩ := List.forall₂_cons_left_iff.mp hus
  cases hvs
  refine ⟨a', e', rfl, ?_, he.1.trans hkind⟩
  rw [ha.2.1, hlexeme]
  rfl

theorem FormatCall.opening_lines (c : FormatCall) : ∀ w ∈ c.opening, 10 ∉ w := by
  cases c <;> (simp only [opening]; decide)

theorem Scan.Widened.eq_iff {wide : Bool} {v w : Text} (h : Widened n wide v w)
    (hn : 0 < n) : w = v ↔ wide = false := by
  cases wide with
  | false => exact iff_of_true (h.1 rfl) rfl
  | true =>
      refine iff_of_false (fun heq => ?_) nofun
      have := h.2 rfl
      rw [heq] at this
      omega

theorem split_forall₂ {α β : Type} {R : α → β → Prop} {as bs : List α} {us : List β}
    (h : List.Forall₂ R (as ++ bs) us) :
    ∃ vs ws, us = vs ++ ws ∧ List.Forall₂ R as vs ∧ List.Forall₂ R bs ws := by
  induction as generalizing us with
  | nil => exact ⟨[], us, rfl, .nil, h⟩
  | cons a as ih =>
      obtain ⟨b, us, hab, hus, rfl⟩ := List.forall₂_cons_left_iff.mp h
      obtain ⟨vs, ws, rfl, hvs, hws⟩ := ih hus
      exact ⟨b :: vs, ws, rfl, .cons hab hvs, hws⟩

theorem Carries.inset (h : Carries IsLiteral cs ts)
    (hts : List.Forall₂ (ContentInset n) ts us) (hn : 0 < n) : Carries Renders cs us := by
  induction cs generalizing ts us with
  | nil => trivial
  | cons c cs ih =>
      obtain ⟨as, fs, ks, w, v, rest, rfl, hfs, hks, ⟨rfl, rfl⟩, hcs⟩ := h
      obtain ⟨as', _, rfl, -, hts⟩ := split_forall₂ hts
      obtain ⟨fs', _, rfl, hfs', hts⟩ := split_forall₂ hts
      obtain ⟨ks', _, rfl, hks', hts⟩ := split_forall₂ hts
      obtain ⟨⟨k, w', v'⟩, rest', ⟨hkind, -, hvalue⟩, hrest, rfl⟩ :=
        List.forall₂_cons_left_iff.mp hts
      obtain ⟨v'', hv, hwide⟩ := hvalue c.format.value rfl rfl
      obtain rfl : k = .str := hkind
      obtain rfl : v' = some (.str v'') := hv
      refine ⟨as', fs', ks', w', v'', rest', rfl, ?_, ?_, hwide.eq_iff hn, ih hcs hrest⟩
      · rw [lexemes_inset hfs' (hfs ▸ c.opening_lines), hfs]
      · rcases hks with rfl | hks
        · cases hks'
          exact .inl rfl
        · exact .inr (hks.inset hks')

/-- A line or several ones, set in, hold the calls that they bear. -/
theorem Bears.keeps (h : Bears cs x [10]) (hn : 0 < n) : Keeps n cs (x ++ [10]) := by
  obtain ⟨ps, hps, hfirm, hcs⟩ := h
  refine ⟨Text.fresh_concat .., ?_⟩
  obtain ⟨qs, hinsets, hqs⟩ := lines_inset hps hfirm n true
  intro s
  refine ⟨qs ++ [⟨[10], none, []⟩], ?_, ?_⟩
  · rw [hqs, pieces_newline]
    simp
  · have := hcs.inset (contents_insets hinsets) hn
    rw [contents_append]
    exact this.before _

namespace Keeps

theorem nil : Keeps n [] [] := ⟨rfl, fun _ => ⟨[], rfl, trivial⟩⟩

theorem append (hx : Keeps n cs x) (hy : Keeps n ds y) : Keeps n (cs ++ ds) (x ++ y) := by
  obtain ⟨hfresh, hx⟩ := hx
  obtain ⟨hfresh', hy⟩ := hy
  refine ⟨by rw [Text.fresh_append, hfresh, hfresh'], fun s => ?_⟩
  obtain ⟨qs, hqs, hds⟩ := hy s
  obtain ⟨ps, hps, hcs⟩ := hx (Text.inset n true y ++ s)
  refine ⟨ps ++ qs, ?_, ?_⟩
  · rw [Text.inset_append, hfresh, List.append_assoc, hps, hqs, List.append_assoc]
  · rw [contents_append, strings, List.filter_append]
    exact hcs.append hds

theorem inset {m : Nat} (h : Keeps (m + n) cs x) : Keeps m cs (Text.inset n true x) := by
  obtain ⟨hfresh, h⟩ := h
  exact ⟨by rw [Text.fresh_inset, hfresh], fun s => by rw [Text.inset_inset]; exact h s⟩

end Keeps

/-! ## Formats of a source -/

theorem Meta.Spelled.legible {m : Meta} (h : m.Spelled)
    (hkey : Options.keyOf m = "format") {v : Lit}
    (hv : Options.literal? m = some v) {args : List Text} (hargs : ∀ a ∈ args, Closed a)
    (pos : Position) : FormatSpec.Legible ⟨m.raw, v.value, args, pos⟩ := by
  obtain ⟨us, t, hown, hstr, hus⟩ := h.literal hkey v hv
  have hlast : (ownTokens m.raw).getLast?.map Token.content = some t.content := by
    rw [← List.getLast?_map, hown, List.map_append, List.map_singleton,
      List.getLast?_concat]
  obtain ⟨l, hl, hcontent⟩ := Option.map_eq_some_iff.mp hlast
  have hkind : l.kind = t.kind := congrArg (·.1) hcontent
  have hlexeme : l.lexeme = t.lexeme := congrArg (·.2.1) hcontent
  refine ⟨h.solid.resolve_left fun hnil => ?_, fun hstring => ?_, hargs⟩
  · rw [hnil] at hl
    cases hl
  · have hliteral : FormatSpec.literal ⟨m.raw, v.value, args, pos⟩ = t.lexeme := by
      simp [FormatSpec.literal, hl, hlexeme]
    have hkind : t.kind = .str := by
      simpa [FormatSpec.isString, hl, hkind] using hstring
    refine ⟨us.map Token.content, ?_, ?_⟩
    · change (ownTokens m.raw).map Token.content = _
      rw [hown, List.map_append, List.map_singleton, hliteral, Token.content,
        hkind, hstr hkind]
    · rcases hus with rfl | ⟨a, e, rfl, ha, he⟩
      · exact .inl rfl
      · exact .inr ⟨a.content, e.content, rfl, ha, he⟩

theorem Options.legible_format {attrs : List Attribute} {names : List Text} {level : Level}
    {params : Params} {o : Options} (hattrs : ∀ a ∈ attrs, a.Spelled)
    (h : ofAttributes attrs names level params = .ok o) :
    ∀ f, o.format = some f → f.Legible := by
  rcases ofAttributes_eq_ok_iff.mp h with ⟨-, rfl⟩ | ⟨a, hnamed, hasks⟩
  · exact nofun
  have ha : a ∈ attrs := List.mem_of_mem_filter (hnamed ▸ List.mem_singleton_self a)
  cases hasks with
  | bare => exact nofun
  | keys => exact nofun
  | @format m rest v hargs hformat hkey hv =>
      have hm := hattrs a ha
      unfold Attribute.Spelled at hm
      rw [hargs, List.forall_mem_cons] at hm
      rintro _ ⟨⟩
      refine hm.1.legible hformat hv ?_ m.pos
      intro t ht
      obtain ⟨arg, harg, rfl⟩ := List.mem_map.mp ht
      rw [(hm.2 arg harg).trim]
      rcases (hm.2 arg harg).solid with hnil | hsolid
      · rw [hnil]
        exact .nil
      · exact hsolid.closed

end Deriver
