import Deriver.Proofs.Parse.Forward

/-!
# Brackets

Main statements: `OneItem.skipItem` and `OneItem.visibility`. When brackets are
nested properly and only the last token could end an item, skipping from any point
comes to an end there or before, since it counts no more brackets than are open.
-/

namespace Deriver.Parse

/-! ## Nesting -/

/-- The kind that closes what a kind opens. -/
def partner : TokenKind → TokenKind
  | .lparen => .rparen
  | .lbracket => .rbracket
  | .lbrace => .rbrace
  | k => k

/-- The brackets open behind a token of kind `k`, innermost first, when `opened`
are open in front; nothing if it closes another bracket than the innermost. -/
def nestStep (opened : List TokenKind) (k : TokenKind) : Option (List TokenKind) :=
  if k.isOpening then some (k :: opened)
  else if k.isClosing then
    match opened with
    | [] => none
    | o :: outer => if partner o = k then some outer else none
  else some opened

/-- The brackets open behind a list of tokens, if they are nested properly. -/
def nest : List TokenKind → List Token → Option (List TokenKind)
  | opened, [] => some opened
  | opened, t :: ts => (nestStep opened t.kind).bind fun inner => nest inner ts

/-- Whether a token of kind `k` ends an item when `opened` are open in front: a
semicolon outside all brackets, or the brace that closes the last of them. -/
def endsItem (opened : List TokenKind) (k : TokenKind) : Bool :=
  (k == .semicolon && opened.isEmpty) || (k == .rbrace && opened.length == 1)

/-- Whether the brackets of `ts`, of which `opened` were opened in front, are nested
properly and the last token ends an item, and no other. -/
structure OneItem (opened : List TokenKind) (ts : List Token) : Prop where
  ne : ts ≠ []
  nested : nest opened ts = some []
  ends : ∀ us t vs inner, ts = us ++ t :: vs → nest opened us = some inner →
    (endsItem inner t.kind = true ↔ vs = [])

theorem nestStep_opening {opened : List TokenKind} {k : TokenKind}
    (hk : k.isOpening = true) : nestStep opened k = some (k :: opened) := by
  unfold nestStep
  rw [if_pos hk]

theorem nestStep_closing {opened inner : List TokenKind} {k : TokenKind}
    (hk : k.isClosing = true) (h : nestStep opened k = some inner) :
    ∃ o, partner o = k ∧ opened = o :: inner := by
  have hopening : k.isOpening = false := by cases k <;> first | rfl | cases hk
  unfold nestStep at h
  rw [if_neg (by rw [hopening]; exact Bool.false_ne_true), if_pos hk] at h
  cases opened with
  | nil => cases h
  | cons o outer =>
      dsimp only at h
      split at h
      · next ho =>
          cases h
          exact ⟨o, ho, rfl⟩
      · cases h

theorem nestStep_other {opened : List TokenKind} {k : TokenKind} (hk : k.isOpening = false)
    (hk' : k.isClosing = false) : nestStep opened k = some opened := by
  unfold nestStep
  rw [hk, hk']
  rfl

theorem nest_append (opened : List TokenKind) (us vs : List Token) :
    nest opened (us ++ vs) = (nest opened us).bind fun inner => nest inner vs := by
  induction us generalizing opened with
  | nil => rfl
  | cons u us ih =>
      rw [List.cons_append, nest, nest, Option.bind_assoc]
      congr 1
      funext inner
      exact ih inner

theorem nest_of_suffix {opened outer : List TokenKind} {us ts : List Token}
    (h : nest opened ts = some outer) (hsub : us <:+ ts) :
    ∃ inner, nest inner us = some outer := by
  obtain ⟨vs, rfl⟩ := hsub
  rw [nest_append, Option.bind_eq_some_iff] at h
  obtain ⟨inner, -, h⟩ := h
  exact ⟨inner, h⟩

theorem endsItem_of_opening {opened : List TokenKind} {k : TokenKind}
    (hk : k.isOpening = true) : endsItem opened k = false := by
  cases k <;> first | rfl | cases hk

namespace OneItem

variable {opened : List TokenKind} {t : Token} {ts us : List Token}

theorem step (h : OneItem opened (t :: ts)) :
    ∃ inner, nestStep opened t.kind = some inner ∧ nest inner ts = some [] := by
  have hnested := h.nested
  rw [nest, Option.bind_eq_some_iff] at hnested
  exact hnested

theorem ends_head (h : OneItem opened (t :: ts)) :
    endsItem opened t.kind = true ↔ ts = [] :=
  h.ends [] t ts opened rfl rfl

theorem tail (h : OneItem opened (t :: ts)) (hts : ts ≠ []) :
    ∃ inner, nestStep opened t.kind = some inner ∧ OneItem inner ts := by
  obtain ⟨inner, hinner, hnest⟩ := h.step
  refine ⟨inner, hinner, hts, hnest, fun us u vs inner' heq hus => ?_⟩
  refine h.ends (t :: us) u vs inner' (by rw [heq]; rfl) ?_
  rw [nest, hinner]
  exact hus

theorem tail_of {inner : List TokenKind} (h : OneItem opened (t :: ts))
    (hinner : nestStep opened t.kind = some inner)
    (hends : endsItem opened t.kind = false) : OneItem inner ts := by
  have hts : ts ≠ [] := fun hts => by
    rw [h.ends_head.mpr hts] at hends
    cases hends
  obtain ⟨inner', hinner', htail⟩ := h.tail hts
  rw [hinner] at hinner'
  cases hinner'
  exact htail

theorem of_suffix (h : OneItem opened ts) (hsub : us <:+ ts) (hne : us ≠ []) :
    ∃ inner, OneItem inner us := by
  induction ts generalizing opened with
  | nil => exact absurd rfl h.ne
  | cons t ts ih =>
      rcases List.suffix_cons_iff.mp hsub with rfl | hsub
      · exact ⟨opened, h⟩
      · have hts : ts ≠ [] := fun hts => hne (List.suffix_nil.mp (hts ▸ hsub))
        obtain ⟨inner, -, htail⟩ := h.tail hts
        exact ih htail hsub

theorem cons {inner : List TokenKind} (hinner : nestStep opened t.kind = some inner)
    (hends : endsItem opened t.kind = false) (h : OneItem inner ts) :
    OneItem opened (t :: ts) where
  ne := List.cons_ne_nil t ts
  nested := by
    rw [nest, hinner]
    exact h.nested
  ends us u vs o heq ho := by
    cases us with
    | nil =>
        cases heq
        cases ho
        rw [hends]
        exact ⟨nofun, fun hnil => absurd hnil h.ne⟩
    | cons u' us =>
        cases heq
        rw [nest, hinner] at ho
        exact h.ends us u vs o rfl ho

theorem single (hinner : nestStep opened t.kind = some [])
    (hends : endsItem opened t.kind = true) : OneItem opened [t] where
  ne := List.cons_ne_nil t []
  nested := by
    rw [nest, hinner]
    rfl
  ends us u vs o heq ho := by
    cases us with
    | nil =>
        cases heq
        cases ho
        exact ⟨fun _ => rfl, fun _ => hends⟩
    | cons u' us =>
        have hlen := congrArg List.length heq
        simp at hlen

theorem last (h : OneItem opened ts) (ht : ts.getLast? = some t) :
    t.kind = .semicolon ∨ t.kind = .rbrace := by
  obtain ⟨us, rfl⟩ := List.getLast?_eq_some_iff.mp ht
  obtain ⟨inner, h⟩ := h.of_suffix (List.suffix_append us [t]) (List.cons_ne_nil _ _)
  have hends := h.ends_head.mpr rfl
  rw [endsItem, Bool.or_eq_true, Bool.and_eq_true, Bool.and_eq_true] at hends
  rcases hends with hends | hends
  · exact Or.inl (of_decide_eq_true hends.1)
  · exact Or.inr (of_decide_eq_true hends.1)

end OneItem

/-- `OneItem`, computed. -/
def isOneItem : List TokenKind → List Token → Bool
  | _, [] => false
  | opened, t :: ts =>
      match nestStep opened t.kind with
      | none => false
      | some inner =>
          if endsItem opened t.kind then inner.isEmpty && ts.isEmpty else isOneItem inner ts

theorem isOneItem_iff {opened : List TokenKind} {ts : List Token} :
    isOneItem opened ts = true ↔ OneItem opened ts := by
  induction ts generalizing opened with
  | nil => exact ⟨nofun, fun h => absurd rfl h.ne⟩
  | cons t ts ih =>
      unfold isOneItem
      cases hinner : nestStep opened t.kind with
      | none =>
          refine ⟨nofun, fun h => ?_⟩
          obtain ⟨inner, hinner', -⟩ := h.step
          rw [hinner] at hinner'
          cases hinner'
      | some inner =>
          dsimp only
          split
          · next hends =>
              rw [Bool.and_eq_true, List.isEmpty_iff, List.isEmpty_iff]
              refine ⟨fun ⟨hnil, hts⟩ => ?_, fun h => ?_⟩
              · subst hts
                exact OneItem.single (hnil ▸ hinner) hends
              · obtain rfl := h.ends_head.mp hends
                obtain ⟨inner', hinner', hnest⟩ := h.step
                rw [hinner] at hinner'
                cases hinner'
                exact ⟨Option.some.inj hnest, rfl⟩
          · next hends =>
              have hends : endsItem opened t.kind = false := by simpa using hends
              rw [ih]
              exact ⟨fun h => h.cons hinner hends, fun h => h.tail_of hinner hends⟩

instance (opened : List TokenKind) (ts : List Token) : Decidable (OneItem opened ts) :=
  decidable_of_iff _ isOneItem_iff

/-! ## Skipping -/

theorem kindOf_append_left {ts : List Token} (hts : ts ≠ []) (rest : List Token) :
    kindOf (ts ++ rest) 0 = kindOf ts 0 := by
  obtain ⟨t, us, rfl⟩ := List.exists_cons_of_ne_nil hts
  rfl

theorem kindOf_map {f : Token → Token} (hf : ∀ t, (f t).kind = t.kind)
    (ts : List Token) (n : Nat) : kindOf (ts.map f) n = kindOf ts n := by
  rw [kindOf, kindOf, List.getElem?_map]
  cases ts[n]? with
  | none => rfl
  | some t => exact hf t

theorem nest_map {f : Token → Token} (hf : ∀ t, (f t).kind = t.kind)
    (opened : List TokenKind)
    (ts : List Token) : nest opened (ts.map f) = nest opened ts := by
  induction ts generalizing opened with
  | nil => rfl
  | cons t ts ih =>
      rw [List.map_cons, nest, nest, hf]
      congr 1
      funext inner
      exact ih inner

/-- Skipping stops behind a token, where it may take a semicolon behind a brace, or
goes on and has still counted no more brackets than are open. -/
theorem skipItem_step {opened inner : List TokenKind} {k : TokenKind} {depth : Int}
    (hk : k ≠ .eof) (hinner : nestStep opened k = some inner) (hd : depth ≤ opened.length) :
    (∀ t ts, t.kind = k → skipItem depth (t :: ts) =
      if k = .rbrace ∧ kindOf ts 0 = .semicolon then ts.drop 1 else ts) ∨
    (endsItem opened k = false ∧ ∃ depth' : Int, depth' ≤ inner.length ∧
      ∀ t ts, t.kind = k → skipItem depth (t :: ts) = skipItem depth' ts) := by
  have heof {t : Token} (ht : t.kind = k) : ¬ (t.kind == .eof) = true := by
    simpa [ht] using hk
  by_cases hopen : k.isOpening = true
  · rw [nestStep_opening hopen] at hinner
    cases hinner
    refine Or.inr ⟨endsItem_of_opening hopen, depth + 1, ?_, fun t ts ht => ?_⟩
    · rw [List.length_cons]
      exact Int.add_le_add_right hd 1
    · rw [skipItem, if_neg (heof ht), ht, if_pos hopen]
  by_cases hclose : k.isClosing = true
  · obtain ⟨o, -, hopened⟩ := nestStep_closing hclose hinner
    have hlen : opened.length = inner.length + 1 := by rw [hopened, List.length_cons]
    by_cases hlast : k = .rbrace ∧ depth ≤ 1
    · refine Or.inl fun t ts ht => ?_
      rw [skipItem, if_neg (heof ht), ht, if_neg hopen, if_pos (beq_iff_eq.mpr hlast.1),
        if_pos hlast.2]
      simp [hlast.1]
    · have hends : endsItem opened k = false := by
        by_cases hbrace : k = .rbrace
        · have hne : opened.length ≠ 1 := fun h => hlast ⟨hbrace, by omega⟩
          rw [endsItem, hbrace, beq_eq_false_iff_ne.mpr hne]
          rfl
        · have hsemi : k ≠ .semicolon := by
            rintro rfl
            cases hclose
          rw [endsItem, beq_eq_false_iff_ne.mpr hsemi, beq_eq_false_iff_ne.mpr hbrace]
          rfl
      refine Or.inr ⟨hends, depth - 1, by omega, fun t ts ht => ?_⟩
      rw [skipItem, if_neg (heof ht), ht, if_neg hopen]
      split
      · next hbrace => exact if_neg fun h => hlast ⟨of_decide_eq_true hbrace, h⟩
      · rfl
  have hbrace : ¬ (k == .rbrace) = true := fun h => by
    rw [of_decide_eq_true h] at hclose
    exact hclose rfl
  rw [nestStep_other (by simpa using hopen) (by simpa using hclose)] at hinner
  cases hinner
  by_cases hsemi : k = .semicolon ∧ depth ≤ 0
  · refine Or.inl fun t ts ht => ?_
    rw [skipItem, if_neg (heof ht), ht, if_neg hopen, if_neg hbrace, if_neg hclose,
      if_pos (by simpa using hsemi), hsemi.1]
    rfl
  · have hends : endsItem opened k = false := by
      rw [endsItem, Bool.eq_false_iff.mpr hbrace, Bool.false_and, Bool.or_false]
      by_cases hkind : k = .semicolon
      · have hpos : 0 < opened.length := by
          have h : ¬ depth ≤ 0 := fun h => hsemi ⟨hkind, h⟩
          omega
        rw [List.isEmpty_eq_false_iff.mpr (List.ne_nil_of_length_pos hpos), Bool.and_false]
      · rw [beq_eq_false_iff_ne.mpr hkind, Bool.false_and]
    refine Or.inr ⟨hends, depth, hd, fun t ts ht => ?_⟩
    rw [skipItem, if_neg (heof ht), ht, if_neg hopen, if_neg hbrace, if_neg hclose,
      if_neg (by simpa using hsemi)]

namespace OneItem

variable {opened : List TokenKind} {ts : List Token}

/-- Skipping that has counted no more brackets than are open stays inside, in front
of anything but a semicolon. -/
theorem skipItem (h : OneItem opened ts) {depth : Int} (hd : depth ≤ opened.length) :
    ∃ us, us <:+ ts ∧ ∀ (f : Token → Token) (rest : List Token),
    (∀ t, (f t).kind = t.kind) →
      kindOf rest 0 ≠ .semicolon → skipItem depth (ts.map f ++ rest) =
      us.map f ++ rest := by
  induction ts generalizing opened depth with
  | nil => exact absurd rfl h.ne
  | cons t ts ih =>
      have hsub := List.suffix_cons t ts
      by_cases heof : t.kind = .eof
      · refine ⟨t :: ts, List.suffix_refl _, fun f rest hf _ => ?_⟩
        rw [List.map_cons, List.cons_append, Parse.skipItem, hf,
          if_pos (beq_iff_eq.mpr heof)]
      obtain ⟨inner, hinner, -⟩ := h.step
      rcases skipItem_step heof hinner hd with hstop | ⟨hends, depth', hd', hgo⟩
      · by_cases hts : ts = []
        · refine ⟨[], List.nil_suffix, fun f rest hf hrest => ?_⟩
          rw [hts, List.map_cons, List.cons_append, hstop _ _ (hf t)]
          exact if_neg fun h => hrest h.2
        · have hhead (f : Token → Token) (rest : List Token)
              (hf : ∀ t, (f t).kind = t.kind) :
              kindOf (ts.map f ++ rest) 0 = kindOf ts 0 := by
            rw [kindOf_append_left (by simpa using hts), kindOf_map hf]
          refine ⟨if t.kind = .rbrace ∧
            kindOf ts 0 = .semicolon then ts.drop 1 else ts, ?_, ?_⟩
          · split
            · exact (List.drop_suffix 1 ts).trans hsub
            · exact hsub
          · intro f rest hf _
            rw [List.map_cons, List.cons_append, hstop _ _ (hf t), hhead f rest hf]
            split
            · obtain ⟨u, us, rfl⟩ := List.exists_cons_of_ne_nil hts
              rfl
            · rfl
      · obtain ⟨us, hus, heq⟩ := ih (h.tail_of hinner hends) hd'
        refine ⟨us, hus.trans hsub, fun f rest hf hrest => ?_⟩
        rw [List.map_cons, List.cons_append, hgo _ _ (hf t)]
        exact heq f rest hf hrest

end OneItem

/-! ## Groups -/

/-- A group inside of nested brackets ends behind the bracket that closes it. -/
theorem skipGroup_of_nest (opened : List TokenKind) {outer : List TokenKind} {o : TokenKind}
    {ts : List Token} (h : nest (opened ++ o :: outer) ts = some []) :
    ∃ us, us <:+ ts ∧ (us = [] → ∃ c, ts.getLast? = some c ∧ c.kind = partner o) ∧
      ∀ rest, skipGroup (opened.length + 1) (ts ++ rest) = us ++ rest := by
  induction ts generalizing opened with
  | nil =>
      rw [nest] at h
      exact absurd (Option.some.inj h)
        (List.append_ne_nil_of_right_ne_nil _ (List.cons_ne_nil _ _))
  | cons t ts ih =>
      have hsub := List.suffix_cons t ts
      by_cases heof : t.kind = .eof
      · refine ⟨t :: ts, List.suffix_refl _, nofun, fun rest => ?_⟩
        rw [List.cons_append, skipGroup, if_pos (beq_iff_eq.mpr heof)]
      rw [nest, Option.bind_eq_some_iff] at h
      obtain ⟨inner, hinner, hnest⟩ := h
      have hgo (opened' : List TokenKind) (hinner' : inner = opened' ++ o :: outer)
          (hdepth : (if t.kind.isOpening then (opened.length + 1 : Int) + 1
            else if t.kind.isClosing then (opened.length + 1 : Int) - 1
            else opened.length + 1) = opened'.length + 1) :
          ∃ us, us <:+ t :: ts ∧
            (us = [] → ∃ c, (t :: ts).getLast? = some c ∧ c.kind = partner o) ∧
            ∀ rest, skipGroup (opened.length + 1) (t :: ts ++ rest) = us ++ rest := by
        subst hinner'
        obtain ⟨us, hus, hlast, heq⟩ := ih opened' hnest
        refine ⟨us, hus.trans hsub, fun hnil => ?_, fun rest => ?_⟩
        · obtain ⟨c, hc, hkind⟩ := hlast hnil
          exact ⟨c, by rw [List.getLast?_cons, hc]; rfl, hkind⟩
        · rw [List.cons_append, skipGroup, if_neg (by simpa using heof)]
          dsimp only
          rw [hdepth, if_neg (by omega), heq]
      by_cases hopen : t.kind.isOpening = true
      · rw [nestStep_opening hopen] at hinner
        refine hgo (t.kind :: opened) (Option.some.inj hinner).symm ?_
        rw [if_pos hopen]
        rfl
      by_cases hclose : t.kind.isClosing = true
      · obtain ⟨o', ho', hopened⟩ := nestStep_closing hclose hinner
        cases opened with
        | nil =>
            cases hopened
            refine ⟨ts, hsub, fun hnil => ⟨t, by rw [hnil]; rfl, ho'.symm⟩, fun rest => ?_⟩
            rw [List.cons_append, skipGroup, if_neg (by simpa using heof), if_neg hopen,
              if_pos hclose]
            rfl
        | cons o'' opened =>
            cases hopened
            refine hgo opened rfl ?_
            rw [if_neg hopen, if_pos hclose, List.length_cons]
            omega
      · rw [nestStep_other (by simpa using hopen) (by simpa using hclose)] at hinner
        refine hgo opened (Option.some.inj hinner).symm ?_
        rw [if_neg hopen, if_neg hclose]

theorem scope_run (ts : List Token) :
    scope ts = .ok (⟨⟩,
      if kindOf ts 0 == .lparen && startsScope (kindOf ts 1) then skipGroup 0 ts
      else ts) := by
  change (if ((TokenKind.lparen != .eof && kindOf ts 0 == .lparen) &&
    startsScope (kindOf ts 1)) = true
    then modify (skipGroup 0) else pure PUnit.unit : Parser PUnit) ts = _
  rw [show (TokenKind.lparen != .eof) = true from rfl, Bool.true_and]
  split <;> rfl

namespace OneItem

variable {opened : List TokenKind} {ts : List Token}

theorem scope (h : OneItem opened ts) (rest : List Token) :
    ∃ us, us ≠ [] ∧ Parse.scope (ts ++ rest) = .ok (⟨⟩, us ++ rest) := by
  rw [scope_run]
  split
  · next hscope =>
      rw [Bool.and_eq_true, kindOf_append_left h.ne] at hscope
      obtain ⟨t, us, rfl⟩ := List.exists_cons_of_ne_nil h.ne
      have hk : t.kind = .lparen := of_decide_eq_true hscope.1
      have htail := h.tail_of (nestStep_opening (by rw [hk]; rfl)) (by rw [hk]; rfl)
      obtain ⟨vs, -, hlast, heq⟩ := skipGroup_of_nest [] htail.nested
      -- what closes the group is no token that ends the item
      have hne : vs ≠ [] := fun hnil => by
        obtain ⟨c, hc, hkind⟩ := hlast hnil
        rw [hk] at hkind
        rcases htail.last hc with h | h <;> rw [h] at hkind <;> cases hkind
      refine ⟨vs, hne, ?_⟩
      rw [← heq rest, List.cons_append, skipGroup, hk]
      rfl
  · exact ⟨ts, h.ne, rfl⟩

theorem visibility (h : OneItem opened ts) (source : Text) (rest : List Token) :
    ∃ vis us, us ≠ [] ∧ Parse.visibility source (ts ++ rest) = .ok (vis, us ++ rest) := by
  obtain ⟨t, us, rfl⟩ := List.exists_cons_of_ne_nil h.ne
  have hrun : Parse.visibility source (t :: us ++ rest) =
      if TokenKind.pubKw ≠ .eof ∧ t.kind = .pubKw
      then (Parse.scope >>= fun _ => textSince source (t :: us ++ rest)) (us ++ rest)
      else .ok ([], t :: us ++ rest) :=
    accept_run .pubKw t _ _ _
  rw [hrun]
  split
  · next hk =>
      have htail := h.tail_of (nestStep_other (by rw [hk.2]; rfl) (by rw [hk.2]; rfl))
        (by rw [hk.2]; rfl)
      obtain ⟨vs, hne, hscope⟩ := htail.scope rest
      refine ⟨textOf source (between (t :: us ++ rest) (vs ++ rest)), vs, hne, ?_⟩
      change (Parse.scope (us ++ rest)).bind _ = _
      rw [hscope]
      rfl
  · exact ⟨[], t :: us, List.cons_ne_nil _ _, rfl⟩

end OneItem
end Deriver.Parse
