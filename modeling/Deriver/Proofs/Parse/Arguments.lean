import Deriver.Proofs.Parse.Forward

/-!
# The arguments an attribute may have

Main statements: `commaLoop_of_arguments` and `arguments_of_commaLoop`. Argument
lists of any tokens are read up to the parenthesis that closes them if and only if
they have a certain shape, `Arguments`: a literal and a path are arguments only when
they stand alone, and in what is taken as it stands an angle bracket counts like
the other brackets, each of which closes any other.
-/

namespace Deriver.Parse

/-! ## The shape -/

/-- The kinds of tokens. -/
def kinds (ts : List Token) : List TokenKind := ts.map (·.kind)

/-- Whether tokens of these kinds are taken as they stand up to the comma or bracket
behind them, with `depth` brackets open in front: no comma stands outside of all
brackets, none is closed that was not opened, and none is open at the end. -/
def verbatim : Nat → List TokenKind → Bool
  | depth, [] => depth == 0
  | depth, k :: ks =>
      if k == .eof || (depth == 0 && k == .comma) then false
      else if k.isOpening || k == .lt then verbatim (depth + 1) ks
      else if k.isClosing then
        match depth with
        | 0 => false
        | depth + 1 => verbatim depth ks
      else if k == .gt then verbatim (depth - 1) ks
      else verbatim depth ks

/-- Whether a kind of token is a segment of an attribute path. -/
def isSegment (k : TokenKind) : Bool := startsMetaPath k && k != .doubleColon

/-- The segments of an attribute path. -/
inductive Segments : List TokenKind → Prop where
  | one (k : TokenKind) (h : isSegment k = true) : Segments [k]
  | cons (k : TokenKind) (ks : List TokenKind) (h : isSegment k = true)
    (hks : Segments ks) :
      Segments (k :: .doubleColon :: ks)

/-- An attribute path. -/
inductive IsPath : List TokenKind → Prop where
  | segments (ks : List TokenKind) (h : Segments ks) : IsPath ks
  | rooted (ks : List TokenKind) (h : Segments ks) : IsPath (.doubleColon :: ks)

mutual

/-- One argument. -/
inductive Argument : List TokenKind → Prop where
  | literal (k : TokenKind) (h : isLiteral k = true) : Argument [k]
  | path (ks : List TokenKind) (h : IsPath ks) : Argument ks
  | list (ks us : List TokenKind) (h : IsPath ks) (hus : Arguments us) :
      Argument (ks ++ .lparen :: (us ++ [.rparen]))
  | value (ks us : List TokenKind) (h : IsPath ks) (hus : verbatim 0 us = true) :
      Argument (ks ++ .equals :: us)
  /-- Tokens taken as they stand, which begin neither with a literal nor with a path
  that could be one of the other arguments. -/
  | other (ks : List TokenKind) (h : verbatim 0 ks = true)
      (hlit : ∀ k, ks.head? = some k → isLiteral k = false)
      (hpath : ∀ us vs, ks = us ++ vs → IsPath us →
        ∃ v, vs.head? = some v ∧ v ≠ .lparen ∧ v ≠ .equals) : Argument ks

/-- Arguments with commas between them. -/
inductive Arguments : List TokenKind → Prop where
  | last (ks : List TokenKind) (h : Argument ks) : Arguments ks
  | cons (ks us : List TokenKind) (h : Argument ks) (hus : Arguments us) :
      Arguments (ks ++ .comma :: us)

end

/-! ## Captured tokens -/

variable {source : Text} {ts us rest : List Token}

theorem verbatim_cons (depth : Nat) (k : TokenKind) (ks : List TokenKind) :
    verbatim depth (k :: ks) =
    (depthBehind? true [.comma] depth k).elim false (verbatim · ks) := by
  have hstop : [TokenKind.comma].contains k = (k == .comma) := by
    rw [List.contains_cons, List.contains_nil, Bool.or_false]
  rw [verbatim.eq_def, depthBehind?, hstop, Bool.true_and, Bool.true_and]
  dsimp only
  split
  · rfl
  · split
    · rfl
    · split
      · cases depth <;> rfl
      · split <;> rfl

theorem captureSize_of_verbatim {depth : Nat} (h : verbatim depth (kinds us) = true)
    (hrest : kindOf rest 0 = .comma ∨ kindOf rest 0 = .rparen) :
    captureSize true [.comma] depth (us ++ rest) = us.length := by
  induction us generalizing depth with
  | nil =>
      obtain ⟨t, ts, rfl⟩ : ∃ t ts, rest = t :: ts := by
        cases rest with
        | nil => rcases hrest with h | h <;> cases h
        | cons t ts => exact ⟨t, ts, rfl⟩
      have hdepth : depth = 0 := of_decide_eq_true h
      rw [List.nil_append, hdepth, captureSize_cons]
      rcases hrest with hk | hk
      · rw [show t.kind = .comma from hk]
        rfl
      · rw [show t.kind = .rparen from hk]
        rfl
  | cons t us ih =>
      rw [kinds, List.map_cons, verbatim_cons] at h
      rw [List.cons_append, captureSize_cons, List.length_cons]
      cases hd : depthBehind? true [.comma] depth t.kind with
      | none =>
          rw [hd] at h
          cases h
      | some d =>
          rw [hd] at h
          exact congrArg (· + 1) (ih h)

theorem verbatim_of_captureSize {depth : Nat}
    (h : kindOf (ts.drop (captureSize true [.comma] depth ts)) 0 = .comma ∨
      kindOf (ts.drop (captureSize true [.comma] depth ts)) 0 = .rparen) :
    verbatim depth (kinds (ts.take (captureSize true [.comma] depth ts))) = true := by
  induction ts generalizing depth with
  | nil => rcases h with h | h <;> cases h
  | cons t ts ih =>
      rw [captureSize_cons] at h ⊢
      cases hd : depthBehind? true [.comma] depth t.kind with
      | none =>
          rw [hd] at h
          cases depth with
          | zero => rfl
          | succ depth =>
              have heof : t.kind = .eof := eof_of_depthBehind hd
              rcases h with h | h <;> cases heof.symm.trans h
      | some d =>
          rw [hd] at h
          dsimp only [Option.elim_some]
          rw [List.take_succ_cons, kinds, List.map_cons, verbatim_cons, hd]
          exact ih h

/-! ## Paths -/

theorem kindOf_cons (t : Token) (ts : List Token) : kindOf (t :: ts) 0 = t.kind := rfl

theorem ne_eof_of_isSegment {k : TokenKind} (h : isSegment k = true) : k ≠ .eof := by
  rintro rfl
  cases h

theorem behind_cons {t : Token} (h : t.kind ≠ .eof) : behind (t :: ts) = ts := by
  rw [behind, if_neg (by simpa using h)]

theorem isSegment_iff {k : TokenKind} :
    (!startsMetaPath k || k == .doubleColon) = true ↔ ¬ isSegment k = true := by
  rw [isSegment, Bool.or_eq_true, Bool.and_eq_true]
  cases startsMetaPath k <;> cases hk : (k == .doubleColon) <;> simp [bne, hk]

theorem Segments.head {ks : List TokenKind} (h : Segments ks) :
    ∃ k vs, ks = k :: vs ∧ isSegment k = true := by
  cases h with
  | one k h => exact ⟨k, [], rfl, h⟩
  | cons k ks h hks => exact ⟨k, _, rfl, h⟩

theorem kinds_cons {k : TokenKind} {ks : List TokenKind} (h : kinds us = k :: ks) :
    ∃ t ts, us = t :: ts ∧ t.kind = k ∧ kinds ts = ks := by
  cases us with
  | nil => cases h
  | cons t ts =>
      obtain ⟨hk, hks⟩ := List.cons.inj h
      exact ⟨t, ts, rfl, hk, hks⟩

/-- The segments at the front, when they do not go on behind. -/
theorem metaSegments?_of_segments {ks : List TokenKind} (h : Segments ks) {n : Nat}
    (hus : kinds us = ks) (hrest : kindOf rest 0 ≠ .doubleColon) (hn : us.length ≤ n) :
    ∃ p, metaSegments? n (us ++ rest) = some (p, rest) := by
  induction h generalizing us n with
  | one k hk =>
      obtain ⟨t, ts, rfl, rfl, hts⟩ := kinds_cons hus
      obtain rfl : ts = [] := List.map_eq_nil_iff.mp hts
      obtain ⟨n, rfl⟩ : ∃ m, n = m + 1 := Nat.exists_eq_add_one.mpr hn
      refine ⟨t.lexeme, ?_⟩
      rw [List.cons_append, List.nil_append, metaSegments?]
      dsimp only
      rw [List.headD_cons, if_neg (fun h => isSegment_iff.mp h hk),
        behind_cons (ne_eof_of_isSegment hk), beq_eq_false_iff_ne.mpr hrest]
      rfl
  | cons k ks hk hks ih =>
      obtain ⟨t, ts, rfl, rfl, hts⟩ := kinds_cons hus
      obtain ⟨c, ts, rfl, hc, hts⟩ := kinds_cons hts
      obtain ⟨k, vs, rfl, hseg⟩ := hks.head
      obtain ⟨u, vs, rfl, rfl, -⟩ := kinds_cons hts
      obtain ⟨n, rfl⟩ : ∃ m, n = m + 1 :=
        Nat.exists_eq_add_one.mpr (Nat.lt_of_lt_of_le (Nat.succ_pos _) hn)
      simp only [List.length_cons] at hn
      obtain ⟨p, hp⟩ := ih (n := n) hts (by simp only [List.length_cons]; omega)
      refine ⟨Text.concat [t.lexeme, "::", p], ?_⟩
      have hahead : (kindOf (c :: (u :: vs ++ rest)) 0 == .doubleColon &&
          startsMetaPath (kindOf (c :: (u :: vs ++ rest)) 1) &&
          kindOf (c :: (u :: vs ++ rest)) 1 != .doubleColon) = true := by
        rw [Bool.and_assoc, Bool.and_eq_true]
        exact ⟨beq_iff_eq.mpr hc, hseg⟩
      rw [List.cons_append, List.cons_append, metaSegments?]
      dsimp only
      rw [List.headD_cons, if_neg (fun h => isSegment_iff.mp h hk),
        behind_cons (ne_eof_of_isSegment hk), if_pos hahead,
        behind_cons (by rw [hc]; decide), hp]
      rfl

theorem metaPath?_of_isPath {ks : List TokenKind} (h : IsPath ks) (hus : kinds us = ks)
    (hrest : kindOf rest 0 ≠ .doubleColon) :
    ∃ p, metaPath? (us ++ rest) = some (p, rest) := by
  have hlen : us.length ≤ (us ++ rest).length := by
    rw [List.length_append]
    exact Nat.le_add_right _ _
  cases h with
  | segments ks h =>
      obtain ⟨k, vs, rfl, hseg⟩ := h.head
      obtain ⟨t, ts, rfl, rfl, -⟩ := kinds_cons hus
      have hk : t.kind ≠ .doubleColon := by
        intro hk
        rw [hk] at hseg
        cases hseg
      have hk : ¬ (kindOf (t :: ts ++ rest) 0 == .doubleColon) = true :=
        fun h => hk (beq_iff_eq.mp h)
      rw [metaPath?, if_neg hk]
      exact metaSegments?_of_segments h hus hrest hlen
  | rooted ks h =>
      obtain ⟨c, ts, rfl, hc, hts⟩ := kinds_cons hus
      obtain ⟨p, hp⟩ := metaSegments?_of_segments h hts hrest (Nat.le_of_succ_le hlen)
      have hk : (kindOf (c :: ts ++ rest) 0 == .doubleColon) = true := beq_iff_eq.mpr hc
      refine ⟨"::" ++ p, ?_⟩
      rw [metaPath?, if_pos hk, List.cons_append, behind_cons (by rw [hc]; decide)]
      rw [List.cons_append] at hp
      rw [hp]
      rfl

theorem segments_of_metaSegments? {n : Nat} {p : Text}
    (h : metaSegments? n ts = some (p, rest)) :
    ∃ us, ts = us ++ rest ∧ Segments (kinds us) := by
  induction n generalizing ts p with
  | zero => cases h
  | succ n ih =>
      rw [metaSegments?] at h
      dsimp only at h
      split at h
      · cases h
      · next hseg =>
          rw [isSegment_iff, Decidable.not_not] at hseg
          obtain ⟨t, vs, rfl⟩ : ∃ t vs, ts = t :: vs := by
            cases ts with
            | nil => cases hseg
            | cons t vs => exact ⟨t, vs, rfl⟩
          have hseg : isSegment t.kind = true := hseg
          rw [behind_cons (ne_eof_of_isSegment hseg)] at h
          split at h
          · next hahead =>
              rw [Bool.and_eq_true, Bool.and_eq_true] at hahead
              have hc := beq_iff_eq.mp hahead.1.1
              obtain ⟨c, ws, rfl⟩ : ∃ c ws, vs = c :: ws := by
                cases vs with
                | nil => cases hc
                | cons c ws => exact ⟨c, ws, rfl⟩
              have hc : c.kind = .doubleColon := hc
              rw [behind_cons (by rw [hc]; decide), Option.map_eq_some_iff] at h
              obtain ⟨⟨q, r⟩, hq, heq⟩ := h
              cases heq
              obtain ⟨us, rfl, hus⟩ := ih hq
              refine ⟨t :: c :: us, rfl, ?_⟩
              rw [kinds, List.map_cons, List.map_cons, show c.kind = .doubleColon from hc]
              exact .cons t.kind _ hseg hus
          · cases h
            exact ⟨[t], rfl, .one t.kind hseg⟩

theorem isPath_of_metaPath? {p : Text} (h : metaPath? ts = some (p, rest)) :
    ∃ us, ts = us ++ rest ∧ IsPath (kinds us) := by
  unfold metaPath? at h
  split at h
  · next hc =>
      have hc := beq_iff_eq.mp hc
      obtain ⟨c, vs, rfl⟩ : ∃ c vs, ts = c :: vs := by
        cases ts with
        | nil => cases hc
        | cons c vs => exact ⟨c, vs, rfl⟩
      have hc : c.kind = .doubleColon := hc
      rw [behind_cons (by rw [hc]; decide), Option.map_eq_some_iff] at h
      obtain ⟨⟨q, r⟩, hq, heq⟩ := h
      cases heq
      obtain ⟨us, rfl, hus⟩ := segments_of_metaSegments? hq
      refine ⟨c :: us, rfl, ?_⟩
      rw [kinds, List.map_cons, show c.kind = .doubleColon from hc]
      exact .rooted _ hus
  · obtain ⟨us, rfl, hus⟩ := segments_of_metaSegments? h
    exact ⟨us, rfl, .segments _ hus⟩

/-! ## One argument -/

/-- What is left when tokens are taken up to a comma. -/
def behindCapture (ts : List Token) : List Token := ts.drop (captureSize true [.comma] 0 ts)

theorem metaItem_run (fuel : Nat) (ts : List Token) :
    metaItem source (fuel + 1) ts =
      let t := ts.headD Token.none
      if isLiteral t.kind then .ok (.lit t.pos (litOf t), behind ts)
      else
        match if startsMetaPath t.kind then metaPath? ts else none with
        | none => metaOther source t.pos ts
        | some (path, rest) =>
            if kindOf rest 0 == .lparen then
              match commaList .rparen (metaItem source fuel) (behind rest) with
              | .error e => .error e
              | .ok (items, r) =>
                  match expect .rparen "')' to close attribute arguments" r with
                  | .error e => .error e
                  | .ok (_, r) =>
                      .ok (.list t.pos path items (textOf source (between ts r)), r)
            else if kindOf rest 0 == .equals then
              let value := (behind rest).headD Token.none
              if isLiteral value.kind && endsMeta (kindOf (behind rest) 1) then
                .ok (.nameValue t.pos path (litOf value)
                  (textOf source (between ts (behind (behind rest)))), behind (behind rest))
              else .ok (.other t.pos path
                (textOf source (between ts (behindCapture (behind rest)))),
                behindCapture (behind rest))
            else if endsMeta (kindOf rest 0) then .ok (.path t.pos path, rest)
            else metaOther source t.pos ts := by
  rw [metaItem]
  dsimp only
  change (if isLiteral (ts.headD Token.none).kind = true then _ else _ : Parser Meta) ts = _
  split
  · rfl
  · change (match if startsMetaPath (ts.headD Token.none).kind = true then metaPath? ts
      else none with
      | none => _
      | some (path, rest) => _ : Parser Meta) ts = _
    generalize (if startsMetaPath (ts.headD Token.none).kind = true then metaPath? ts
      else none) = m
    cases m with
    | none => rfl
    | some r =>
        obtain ⟨path, rest⟩ := r
        dsimp only
        split
        · change (commaList .rparen (metaItem source fuel) (behind rest)).bind _ = _
          cases commaList .rparen (metaItem source fuel) (behind rest) with
          | error e => rfl
          | ok r =>
              change (expect .rparen _ r.2).bind _ = _
              cases hexpect : expect .rparen "')' to close attribute arguments" r.2 with
              | error e =>
                  simp only [hexpect]
                  rfl
              | ok q =>
                  simp only [hexpect]
                  rfl
        · split
          · change (if _ then _ else _ : Parser Meta) (behind rest) = _
            split
            · rfl
            · rfl
          · split
            · rfl
            · rfl

theorem IsPath.ne_nil {ks : List TokenKind} (h : IsPath ks) : ks ≠ [] := by
  cases h with
  | segments ks h =>
      obtain ⟨k, vs, rfl, -⟩ := h.head
      exact List.cons_ne_nil _ _
  | rooted ks h => exact List.cons_ne_nil _ _

theorem Argument.nil : Argument [] :=
  .other [] rfl nofun fun _ _ heq hus =>
    absurd (List.append_eq_nil_iff.mp heq.symm).1 hus.ne_nil

theorem cons_of_kindOf {k : TokenKind} (h : kindOf ts 0 = k) (hk : k ≠ .eof) :
    ∃ t us, ts = t :: us ∧ t.kind = k := by
  cases ts with
  | nil => exact absurd h.symm hk
  | cons t us => exact ⟨t, us, rfl, h⟩

theorem commaLoop_run (elem : Parser Meta) (n : Nat) (ts : List Token) :
    commaLoop .rparen elem (n + 1) ts =
      if kindOf ts 0 == .rparen || kindOf ts 0 == .eof then .ok ([], ts)
      else
        match elem ts with
        | .error e => .error e
        | .ok (m, r) =>
            if kindOf r 0 == .comma then
              match commaLoop .rparen elem n (behind r) with
              | .error e => .error e
              | .ok (ms, r) => .ok (m :: ms, r)
            else .ok ([m], r) := by
  rw [commaLoop]
  change (if ((TokenKind.rparen != .eof && kindOf ts 0 == .rparen) ||
    kindOf ts 0 == .eof) = true then _ else _ : Parser (List Meta)) ts = _
  rw [show (TokenKind.rparen != .eof) = true from rfl, Bool.true_and]
  split
  · rfl
  · change (elem ts).bind _ = _
    cases elem ts with
    | error e => rfl
    | ok r =>
        change ((accept .comma) r.2).bind _ = _
        have haccept : accept .comma r.2 =
            if kindOf r.2 0 == .comma then .ok (true, behind r.2)
              else .ok (false, r.2) := by
          change (if (TokenKind.comma != .eof && kindOf r.2 0 == .comma) = true
            then _ else _ : Parser Bool) r.2 = _
          rw [show (TokenKind.comma != .eof) = true from rfl, Bool.true_and]
          split <;> rfl
        rw [haccept]
        dsimp only
        split
        · change (commaLoop .rparen elem n (behind r.2)).bind _ = _
          cases commaLoop .rparen elem n (behind r.2) <;> rfl
        · rfl

theorem cons_of_expect {k : TokenKind} {what : Text} {t : Token} {r : List Token}
    (h : expect k what ts = .ok (t, r)) : ∃ u, u.kind = k ∧ ts = u :: r := by
  change (if (k != .eof && kindOf ts 0 == k) = true
    then take else failHere _ : Parser Token) ts = _ at h
  split at h
  · next hk =>
      rw [Bool.and_eq_true] at hk
      have heof : k ≠ .eof := by simpa using hk.1
      obtain ⟨u, us, rfl, hu⟩ := cons_of_kindOf (beq_iff_eq.mp hk.2) heof
      have hr : behind (u :: us) = r := congrArg Prod.snd (Except.ok.inj h)
      rw [behind_cons (by rw [hu]; exact heof)] at hr
      exact ⟨u, hu, by rw [hr]⟩
  · cases h

/-- A list that was read in front of a parenthesis is a list of arguments. -/
theorem arguments_of_commaLoop {elem : Parser Meta} {n : Nat} {ms : List Meta}
    (helem : ∀ ts m r, elem ts = .ok (m, r) → kindOf r 0 = .comma ∨ kindOf r 0 = .rparen →
      ∃ us, ts = us ++ r ∧ Argument (kinds us))
    (h : commaLoop .rparen elem n ts = .ok (ms, rest)) (hrest : kindOf rest 0 = .rparen) :
    ∃ us, ts = us ++ rest ∧ Arguments (kinds us) := by
  induction n generalizing ts ms with
  | zero => cases h
  | succ n ih =>
      rw [commaLoop_run] at h
      split at h
      · cases h
        exact ⟨[], rfl, .last [] .nil⟩
      · cases hm : elem ts with
        | error e =>
            rw [hm] at h
            cases h
        | ok q =>
            obtain ⟨m, r⟩ := q
            rw [hm] at h
            dsimp only at h
            split at h
            · next hcomma =>
                have hcomma := beq_iff_eq.mp hcomma
                obtain ⟨us, rfl, hus⟩ := helem ts m r hm (Or.inl hcomma)
                obtain ⟨c, r, rfl, hc⟩ := cons_of_kindOf hcomma nofun
                rw [behind_cons (by rw [hc]; decide)] at h
                cases hloop : commaLoop .rparen elem n r with
                | error e =>
                    rw [hloop] at h
                    cases h
                | ok q =>
                    rw [hloop] at h
                    cases h
                    obtain ⟨vs, rfl, hvs⟩ := ih hloop
                    refine ⟨us ++ c :: vs, by simp, ?_⟩
                    rw [kinds, List.map_append, List.map_cons, hc]
                    exact .cons _ _ hus hvs
            · cases h
              obtain ⟨us, rfl, hus⟩ := helem ts m rest hm (Or.inr hrest)
              exact ⟨us, rfl, .last _ hus⟩

theorem verbatim_behindCapture
    (h : kindOf (behindCapture ts) 0 = .comma ∨ kindOf (behindCapture ts) 0 = .rparen) :
    ∃ us, ts = us ++ behindCapture ts ∧ verbatim 0 (kinds us) = true :=
  ⟨_, (List.take_append_drop _ ts).symm, verbatim_of_captureSize h⟩

theorem metaOther_run (source : Text) (pos : Position) (ts : List Token) :
    ∃ m, metaOther source pos ts = .ok (m, behindCapture ts) := ⟨_, rfl⟩

theorem IsPath.head {ks : List TokenKind} (h : IsPath ks) :
    ∃ k vs, ks = k :: vs ∧ startsMetaPath k = true := by
  cases h with
  | segments ks h =>
      obtain ⟨k, vs, rfl, hseg⟩ := h.head
      exact ⟨k, vs, rfl, (Bool.and_eq_true_iff.mp hseg).1⟩
  | rooted ks h => exact ⟨_, ks, rfl, rfl⟩

/-- The path an argument begins with, if it does. -/
def pathAhead (ts : List Token) : Option (Text × List Token) :=
  if startsMetaPath (ts.headD Token.none).kind then metaPath? ts else none

theorem pathAhead_of_isPath (rest : List Token) (h : IsPath (kinds us))
    (hrest : kindOf rest 0 ≠ .doubleColon) :
    ∃ p, pathAhead (us ++ rest) = some (p, rest) := by
  obtain ⟨p, hp⟩ := metaPath?_of_isPath h rfl hrest
  obtain ⟨k, vs, hks, hk⟩ := h.head
  obtain ⟨t, ts, rfl, rfl, -⟩ := kinds_cons hks
  exact ⟨p, (if_pos hk).trans hp⟩

theorem isPath_of_pathAhead {p : Text} (h : pathAhead ts = some (p, rest)) :
    ∃ us, ts = us ++ rest ∧ IsPath (kinds us) := by
  unfold pathAhead at h
  split at h
  · exact isPath_of_metaPath? h
  · cases h

theorem cons_of_isLiteral (h : isLiteral (ts.headD Token.none).kind = true) :
    ∃ t us, ts = t :: us ∧ isLiteral t.kind = true ∧ t.kind ≠ .eof := by
  cases ts with
  | nil => cases h
  | cons t us =>
      refine ⟨t, us, rfl, h, fun hk => ?_⟩
      rw [List.headD_cons, hk] at h
      cases h

/-- The ways to read an argument off the front of tokens with budget left. -/
inductive MetaRun (source : Text) (fuel : Nat) : List Token → Meta → List Token → Prop
  | literal {t : Token} {rest : List Token} (hlit : isLiteral t.kind = true) :
      MetaRun source fuel (t :: rest) (.lit t.pos (litOf t)) rest
  | list {ts us rest : List Token} {p : Text} {items : List Meta} {o c : Token}
      (hpath : pathAhead ts = some (p, o :: us)) (ho : o.kind = .lparen)
        (hc : c.kind = .rparen)
      (hitems : commaList .rparen (metaItem source fuel) us = .ok (items, c :: rest)) :
      MetaRun source fuel ts
        (.list (ts.headD Token.none).pos p items (textOf source (between ts rest))) rest
  | value {ts rest : List Token} {p : Text} {e l : Token}
      (hpath : pathAhead ts = some (p, e :: l :: rest)) (he : e.kind = .equals)
      (hlit : isLiteral l.kind = true) (hends : endsMeta (kindOf rest 0) = true) :
      MetaRun source fuel ts
        (.nameValue (ts.headD Token.none).pos p (litOf l)
          (textOf source (between ts rest))) rest
  | assigned {ts us : List Token} {p : Text} {e : Token}
      (hpath : pathAhead ts = some (p, e :: us)) (he : e.kind = .equals)
      (hvalue : (isLiteral (us.headD Token.none).kind && endsMeta (kindOf us 1)) = false) :
      MetaRun source fuel ts
        (.other (ts.headD Token.none).pos p (textOf source (between ts (behindCapture us))))
        (behindCapture us)
  | path {ts rest : List Token} {p : Text} (hpath : pathAhead ts = some (p, rest))
      (hends : endsMeta (kindOf rest 0) = true) :
      MetaRun source fuel ts (.path (ts.headD Token.none).pos p) rest
  | verbatim {ts : List Token} (hlit : isLiteral (ts.headD Token.none).kind = false)
      (hpath : ∀ p r, pathAhead ts = some (p, r) →
        kindOf r 0 ≠ .lparen ∧ kindOf r 0 ≠ .equals ∧ endsMeta (kindOf r 0) = false) :
      MetaRun source fuel ts
        (.other (ts.headD Token.none).pos []
          (textOf source (between ts (behindCapture ts))))
        (behindCapture ts)

theorem MetaRun.of_ok {fuel : Nat} {m : Meta}
    (h : metaItem source (fuel + 1) ts = .ok (m, rest)) :
    MetaRun source fuel ts m rest := by
  rw [metaItem_run] at h
  dsimp only at h
  rw [show (if startsMetaPath (ts.headD Token.none).kind = true then metaPath? ts else none)
    = pathAhead ts from rfl] at h
  split at h
  · next hlit =>
      obtain ⟨t, us, rfl, hlit, hk⟩ := cons_of_isLiteral hlit
      rw [behind_cons hk] at h
      cases h
      exact .literal hlit
  · next hlit =>
      have hlit := Bool.eq_false_iff.mpr hlit
      split at h
      · next hpath =>
          cases h
          refine .verbatim hlit fun p r hp => ?_
          rw [hpath] at hp
          cases hp
      · next p r hpath =>
          split at h
          · next hk =>
              obtain ⟨o, us, rfl, ho⟩ := cons_of_kindOf (beq_iff_eq.mp hk) (by decide)
              rw [behind_cons (by rw [ho]; decide)] at h
              split at h
              · cases h
              · next items r hitems =>
                  split at h
                  · cases h
                  · next hexpect =>
                      cases h
                      obtain ⟨c, hc, rfl⟩ := cons_of_expect hexpect
                      exact .list hpath ho hc hitems
          · next hparen =>
              split at h
              · next hk =>
                  obtain ⟨e, us, rfl, he⟩ := cons_of_kindOf (beq_iff_eq.mp hk) (by decide)
                  rw [behind_cons (by rw [he]; decide)] at h
                  split at h
                  · next hvalue =>
                      obtain ⟨hlit, hends⟩ := Bool.and_eq_true_iff.mp hvalue
                      obtain ⟨l, us, rfl, hlit, hk⟩ := cons_of_isLiteral hlit
                      rw [behind_cons hk] at h
                      cases h
                      exact .value hpath he hlit hends
                  · next hvalue =>
                      cases h
                      exact .assigned hpath he (Bool.eq_false_iff.mpr hvalue)
              · next hequals =>
                  split at h
                  · next hends =>
                      cases h
                      exact .path hpath hends
                  · next hends =>
                      cases h
                      refine .verbatim hlit fun p' r' hp => ?_
                      rw [hpath] at hp
                      cases hp
                      exact ⟨fun h => hparen (beq_iff_eq.mpr h),
                        fun h => hequals (beq_iff_eq.mpr h), Bool.eq_false_iff.mpr hends⟩

/-- What is taken as it stands, when no path ahead says otherwise. -/
theorem argument_of_capture (hlit : isLiteral (ts.headD Token.none).kind = false)
    (hpath : ∀ p r, pathAhead ts = some (p, r) →
      kindOf r 0 ≠ .lparen ∧ kindOf r 0 ≠ .equals ∧ endsMeta (kindOf r 0) = false)
    (hrest : kindOf (behindCapture ts) 0 = .comma ∨ kindOf (behindCapture ts) 0 = .rparen) :
    ∃ us, ts = us ++ behindCapture ts ∧ Argument (kinds us) := by
  obtain ⟨us, hus, hverbatim⟩ := verbatim_behindCapture hrest
  generalize behindCapture ts = rest at hus hrest
  subst hus
  refine ⟨us, rfl, .other _ hverbatim ?_ ?_⟩
  · intro k hk
    obtain ⟨ks, hks⟩ := List.head?_eq_some_iff.mp hk
    obtain ⟨t, ts, rfl, rfl, -⟩ := kinds_cons hks
    exact hlit
  · intro ks vs heq hks
    obtain ⟨us₁, us₂, rfl, rfl, rfl⟩ := List.map_eq_append_iff.mp heq
    rw [List.append_assoc] at hpath
    cases us₂ with
    | nil =>
        have hcolon : kindOf rest 0 ≠ .doubleColon := by
          rcases hrest with h | h <;> rw [h] <;> decide
        obtain ⟨p, hp⟩ := pathAhead_of_isPath rest hks hcolon
        have hends := (hpath p rest hp).2.2
        rcases hrest with h | h <;> rw [h] at hends <;> cases hends
    | cons v us₂ =>
        refine ⟨v.kind, rfl, ?_⟩
        by_cases hcolon : v.kind = .doubleColon
        · rw [hcolon]
          decide
        · obtain ⟨p, hp⟩ := pathAhead_of_isPath (v :: us₂ ++ rest) hks hcolon
          have h := hpath p _ hp
          exact ⟨h.1, h.2.1⟩

theorem verbatim_cons_literal {k : TokenKind} (h : isLiteral k = true)
    (ks : List TokenKind) : verbatim 0 (k :: ks) = verbatim 0 ks := by
  cases k <;> first | rfl | cases h

theorem argument_of_metaItem {fuel : Nat} {m : Meta}
    (h : metaItem source fuel ts = .ok (m, rest))
    (hrest : kindOf rest 0 = .comma ∨ kindOf rest 0 = .rparen) :
    ∃ us, ts = us ++ rest ∧ Argument (kinds us) := by
  induction fuel generalizing ts rest m with
  | zero => cases h
  | succ fuel ih =>
      cases MetaRun.of_ok h with
      | @literal t _ hlit => exact ⟨[t], rfl, .literal t.kind hlit⟩
      | @list _ _ _ _ _ o c hpath ho hc hitems =>
          obtain ⟨us, rfl, hus⟩ := isPath_of_pathAhead hpath
          obtain ⟨vs, rfl, hvs⟩ := arguments_of_commaLoop (fun _ _ _ => ih) hitems hc
          refine ⟨us ++ o :: (vs ++ [c]), by simp, ?_⟩
          rw [kinds, List.map_append, List.map_cons, List.map_append, ho,
            List.map_singleton, hc]
          exact .list _ _ hus hvs
      | @value _ _ _ e l hpath he hlit =>
          obtain ⟨us, rfl, hus⟩ := isPath_of_pathAhead hpath
          refine ⟨us ++ [e, l], by simp, ?_⟩
          rw [kinds, List.map_append, List.map_cons, he]
          exact .value _ _ hus (verbatim_cons_literal hlit [])
      | @assigned _ ws _ e hpath he =>
          obtain ⟨us, rfl, hus⟩ := isPath_of_pathAhead hpath
          obtain ⟨vs, hws, hvs⟩ := verbatim_behindCapture hrest
          refine ⟨us ++ e :: vs, by rw [List.append_assoc, List.cons_append, ← hws], ?_⟩
          rw [kinds, List.map_append, List.map_cons, he]
          exact .value _ _ hus hvs
      | path hpath =>
          obtain ⟨us, rfl, hus⟩ := isPath_of_pathAhead hpath
          exact ⟨us, rfl, .path _ hus⟩
      | verbatim hlit hpath => exact argument_of_capture hlit hpath hrest

/-! ## Lists of the right shape -/

theorem not_literal_of_startsMetaPath {k : TokenKind} (h : startsMetaPath k = true) :
    isLiteral k = false := by
  cases k <;> first | rfl | cases h

theorem Segments.starts {ks : List TokenKind} (h : Segments ks) :
    ∀ k ∈ ks, startsMetaPath k = true := by
  induction h with
  | one k hk => simpa using (Bool.and_eq_true_iff.mp hk).1
  | cons k ks hk _ ih =>
      rw [List.forall_mem_cons, List.forall_mem_cons]
      exact ⟨(Bool.and_eq_true_iff.mp hk).1, rfl, ih⟩

theorem IsPath.starts {ks : List TokenKind} (h : IsPath ks) :
    ∀ k ∈ ks, startsMetaPath k = true := by
  cases h with
  | segments ks h => exact h.starts
  | rooted ks h => exact List.forall_mem_cons.mpr ⟨rfl, h.starts⟩

/-- The tokens of a path are none that `verbatim` looks at. -/
theorem verbatim_append_path {ks : List TokenKind} (h : ∀ k ∈ ks, startsMetaPath k = true)
    (us : List TokenKind) : verbatim 0 (ks ++ us) = verbatim 0 us := by
  induction ks with
  | nil => rfl
  | cons k ks ih =>
      rw [List.forall_mem_cons] at h
      rw [List.cons_append, ← ih h.2]
      have hk := h.1
      cases k <;> first | rfl | cases hk

theorem not_endsMeta_of_verbatim {k : TokenKind} {ks : List TokenKind}
    (h : verbatim 0 (k :: ks) = true) : endsMeta k = false := by
  cases k <;> first | rfl | cases h

theorem ne_of_startsMetaPath {k : TokenKind} (h : startsMetaPath k = true) :
    k ≠ .rparen ∧ k ≠ .eof := by
  constructor <;> rintro rfl <;> cases h

theorem IsPath.head_append {k : TokenKind} {ks us vs : List TokenKind} (h : IsPath us)
    (heq : k :: ks = us ++ vs) : startsMetaPath k = true := by
  obtain ⟨u, us, rfl, hu⟩ := h.head
  cases heq
  exact hu

theorem Argument.head {k : TokenKind} {ks us : List TokenKind} (h : Argument us)
    (hus : k :: ks = us) : k ≠ .rparen ∧ k ≠ .eof := by
  cases h with
  | literal k' hk =>
      cases hus
      constructor <;> rintro rfl <;> cases hk
  | path us h =>
      exact ne_of_startsMetaPath (h.head_append (hus.trans (List.append_nil us).symm))
  | list us vs h _ => exact ne_of_startsMetaPath (h.head_append hus)
  | value us vs h _ => exact ne_of_startsMetaPath (h.head_append hus)
  | other us h _ _ =>
      subst hus
      constructor <;> rintro rfl <;> cases h

/-- A path ahead of an argument that is taken as it stands is no argument itself. -/
theorem pathAhead_of_other {ks : List TokenKind} (hus : kinds us = ks)
    (h : verbatim 0 ks = true)
    (hpath : ∀ us vs, ks = us ++ vs → IsPath us →
    ∃ v, vs.head? = some v ∧ v ≠ .lparen ∧ v ≠ .equals)
    (hrest : kindOf rest 0 = .comma ∨ kindOf rest 0 = .rparen) {p : Text} {r : List Token}
    (hp : pathAhead (us ++ rest) = some (p, r)) :
    kindOf r 0 ≠ .lparen ∧ kindOf r 0 ≠ .equals ∧ endsMeta (kindOf r 0) = false := by
  subst hus
  obtain ⟨vs, heq, hvs⟩ := isPath_of_pathAhead hp
  rcases List.append_eq_append_iff.mp heq with ⟨ws, rfl, rfl⟩ | ⟨ws, rfl, rfl⟩
  · cases ws with
    | nil =>
        rw [List.append_nil] at hvs
        obtain ⟨v, hv, -⟩ := hpath _ [] (List.append_nil _).symm hvs
        cases hv
    | cons w ws =>
        have hw : startsMetaPath w.kind = true := hvs.starts _ (by simp [kinds])
        rcases hrest with h | h <;> rw [show w.kind = _ from h] at hw <;> cases hw
  · have hkinds : kinds (vs ++ ws) = kinds vs ++ kinds ws := List.map_append
    obtain ⟨v, hv, hparen, hequals⟩ := hpath _ _ hkinds hvs
    obtain ⟨ks, hks⟩ := List.head?_eq_some_iff.mp hv
    obtain ⟨w, ws, rfl, rfl, -⟩ := kinds_cons hks
    rw [hkinds, verbatim_append_path hvs.starts] at h
    exact ⟨hparen, hequals, not_endsMeta_of_verbatim h⟩

theorem behindCapture_append (h : verbatim 0 (kinds us) = true)
    (hrest : kindOf rest 0 = .comma ∨ kindOf rest 0 = .rparen) :
    behindCapture (us ++ rest) = rest := by
  rw [behindCapture, captureSize_of_verbatim h hrest]
  exact List.drop_left

theorem not_literal_of_separator (h : kindOf ts 0 = .comma ∨ kindOf ts 0 = .rparen) :
    isLiteral (ts.headD Token.none).kind = false := by
  cases ts with
  | nil => rcases h with h | h <;> cases h
  | cons t ts =>
      rcases h with h | h <;> rw [List.headD_cons, show t.kind = _ from h] <;> rfl

theorem metaItem_of_literal {fuel : Nat} {t : Token} (h : isLiteral t.kind = true) :
    metaItem source (fuel + 1) (t :: rest) = .ok (.lit t.pos (litOf t), rest) := by
  have hk : t.kind ≠ .eof := by
    intro hk
    rw [hk] at h
    cases h
  rw [metaItem_run]
  dsimp only
  rw [List.headD_cons, if_pos h, behind_cons hk]

theorem not_literal_of_isPath (h : IsPath (kinds us)) (rest : List Token) :
    isLiteral ((us ++ rest).headD Token.none).kind = false := by
  obtain ⟨k, ks, hks, hk⟩ := h.head
  obtain ⟨t, ts, rfl, rfl, -⟩ := kinds_cons hks
  exact not_literal_of_startsMetaPath hk

theorem metaItem_of_pathAhead (fuel : Nat) {p : Text}
    (hlit : isLiteral (ts.headD Token.none).kind = false)
    (hp : pathAhead ts = some (p, rest)) : metaItem source (fuel + 1) ts =
      let pos := (ts.headD Token.none).pos
      if kindOf rest 0 == .lparen then
        match commaList .rparen (metaItem source fuel) (behind rest) with
        | .error e => .error e
        | .ok (items, r) =>
            match expect .rparen "')' to close attribute arguments" r with
            | .error e => .error e
            | .ok (_, r) => .ok (.list pos p items (textOf source (between ts r)), r)
      else if kindOf rest 0 == .equals then
        let value := (behind rest).headD Token.none
        if isLiteral value.kind && endsMeta (kindOf (behind rest) 1) then
          .ok (.nameValue pos p (litOf value)
            (textOf source (between ts (behind (behind rest)))), behind (behind rest))
        else .ok (.other pos p (textOf source (between ts (behindCapture (behind rest)))),
          behindCapture (behind rest))
      else if endsMeta (kindOf rest 0) then .ok (.path pos p, rest)
      else metaOther source pos ts := by
  rw [pathAhead] at hp
  rw [metaItem_run]
  dsimp only
  rw [if_neg (Bool.eq_false_iff.mp hlit), hp]

theorem expect_cons {k : TokenKind} {what : Text} {t : Token} (hk : k ≠ .eof)
    (ht : t.kind = k) : expect k what (t :: ts) = .ok (t, ts) := by
  have hexpect := expect_run k what t (pure : Token → Parser Token) ts
  rw [bind_pure, if_pos ⟨hk, ht⟩] at hexpect
  exact hexpect

/-- A literal in front of what can follow an argument is all of what is taken. -/
theorem behind_of_literal (h : verbatim 0 (kinds us) = true)
    (hrest : kindOf rest 0 = .comma ∨ kindOf rest 0 = .rparen)
    (hlit : (isLiteral ((us ++ rest).headD Token.none).kind &&
      endsMeta (kindOf (us ++ rest) 1)) = true) : behind (us ++ rest) = rest := by
  rw [Bool.and_eq_true] at hlit
  cases us with
  | nil =>
      rw [List.nil_append, not_literal_of_separator hrest] at hlit
      cases hlit.1
  | cons t us =>
      have hk : t.kind ≠ .eof := by
        intro hk
        rw [List.cons_append, List.headD_cons, hk] at hlit
        cases hlit.1
      rw [List.cons_append, behind_cons hk]
      cases us with
      | nil => rfl
      | cons u us =>
          have hends : endsMeta u.kind = true := hlit.2
          have hlit : isLiteral t.kind = true := hlit.1
          have h : verbatim 0 (t.kind :: u.kind :: kinds us) = true := h
          rw [verbatim_cons_literal hlit] at h
          rw [not_endsMeta_of_verbatim h] at hends
          cases hends

section Cases

variable {fuel : Nat}

theorem metaItem_of_path (h : IsPath (kinds us))
    (hrest : kindOf rest 0 = .comma ∨ kindOf rest 0 = .rparen) :
    ∃ m, metaItem source (fuel + 1) (us ++ rest) = .ok (m, rest) := by
  have hcolon : kindOf rest 0 ≠ .doubleColon := by
    rcases hrest with h | h <;> rw [h] <;> decide
  obtain ⟨p, hp⟩ := pathAhead_of_isPath rest h hcolon
  rw [metaItem_of_pathAhead fuel (not_literal_of_isPath h rest) hp]
  rcases hrest with h | h <;> rw [h] <;> exact ⟨_, rfl⟩

theorem metaItem_of_list {ws : List Token} {o c : Token} {ms : List Meta}
    (h : IsPath (kinds us)) (ho : o.kind = .lparen) (hc : c.kind = .rparen)
    (hms : commaLoop .rparen (metaItem source fuel) ((ws ++ c :: rest).length + 1)
      (ws ++ c :: rest) = .ok (ms, c :: rest)) :
    ∃ m, metaItem source (fuel + 1) (us ++ o :: (ws ++ c :: rest)) = .ok (m, rest) := by
  have hopen : kindOf (o :: (ws ++ c :: rest)) 0 = .lparen := ho
  obtain ⟨p, hp⟩ := pathAhead_of_isPath (o :: (ws ++ c :: rest)) h (by rw [hopen]; decide)
  have hlist : commaList .rparen (metaItem source fuel) (ws ++ c :: rest) =
      .ok (ms, c :: rest) :=
    hms
  have hexpect : expect .rparen "')' to close attribute arguments" (c :: rest) =
      .ok (c, rest) :=
    expect_cons (by decide) hc
  rw [metaItem_of_pathAhead fuel (not_literal_of_isPath h _) hp]
  dsimp only
  rw [hopen, if_pos (beq_self_eq_true _), behind_cons (by rw [ho]; decide), hlist]
  dsimp only
  rw [hexpect]
  exact ⟨_, rfl⟩

theorem metaItem_of_value {ws : List Token} {o : Token} (h : IsPath (kinds us))
    (ho : o.kind = .equals) (hws : verbatim 0 (kinds ws) = true)
    (hrest : kindOf rest 0 = .comma ∨ kindOf rest 0 = .rparen) :
    ∃ m, metaItem source (fuel + 1) (us ++ o :: (ws ++ rest)) = .ok (m, rest) := by
  have hequals : kindOf (o :: (ws ++ rest)) 0 = .equals := ho
  obtain ⟨p, hp⟩ := pathAhead_of_isPath (o :: (ws ++ rest)) h (by rw [hequals]; decide)
  rw [metaItem_of_pathAhead fuel (not_literal_of_isPath h _) hp]
  dsimp only
  rw [hequals, if_neg (by decide), if_pos (beq_self_eq_true _),
    behind_cons (by rw [ho]; decide)]
  split
  · next hlit =>
      rw [behind_of_literal hws hrest hlit]
      exact ⟨_, rfl⟩
  · rw [behindCapture_append hws hrest]
    exact ⟨_, rfl⟩

theorem metaItem_of_other (h : verbatim 0 (kinds us) = true)
    (hlit : ∀ k, (kinds us).head? = some k → isLiteral k = false)
    (hpath : ∀ vs ws, kinds us = vs ++ ws → IsPath vs →
      ∃ v, ws.head? = some v ∧ v ≠ .lparen ∧ v ≠ .equals)
    (hrest : kindOf rest 0 = .comma ∨ kindOf rest 0 = .rparen) :
    ∃ m, metaItem source (fuel + 1) (us ++ rest) = .ok (m, rest) := by
  have hlit' : isLiteral ((us ++ rest).headD Token.none).kind = false := by
    cases us with
    | nil => exact not_literal_of_separator hrest
    | cons t ts => exact hlit t.kind rfl
  have hcapture : ∃ m, metaOther source ((us ++ rest).headD Token.none).pos (us ++ rest)
      = .ok (m, rest) := by
    obtain ⟨m, hm⟩ := metaOther_run source ((us ++ rest).headD Token.none).pos (us ++ rest)
    rw [behindCapture_append h hrest] at hm
    exact ⟨m, hm⟩
  rw [metaItem_run]
  dsimp only
  rw [if_neg (Bool.eq_false_iff.mp hlit')]
  rw [show (if startsMetaPath ((us ++ rest).headD Token.none).kind = true
    then metaPath? (us ++ rest) else none) = pathAhead (us ++ rest) from rfl]
  split
  · exact hcapture
  · next p r hp =>
      obtain ⟨hparen, hequals, hends⟩ := pathAhead_of_other rfl h hpath hrest hp
      rw [if_neg (by simpa using hparen), if_neg (by simpa using hequals),
        if_neg (Bool.eq_false_iff.mp hends)]
      exact hcapture

/-- The last of some arguments, or none. -/
theorem commaLoop_of_last {n : Nat} (h : Argument (kinds us))
    (hrest : kindOf rest 0 = .rparen)
    (hitem : ∃ m, metaItem source fuel (us ++ rest) = .ok (m, rest)) :
    ∃ ms, commaLoop .rparen (metaItem source fuel) (n + 1) (us ++ rest) =
    .ok (ms, rest) := by
  obtain ⟨m, hm⟩ := hitem
  rw [commaLoop_run]
  by_cases hnil : us = []
  · subst hnil
    rw [List.nil_append, hrest]
    exact ⟨[], rfl⟩
  · obtain ⟨t, ts, rfl⟩ := List.exists_cons_of_ne_nil hnil
    obtain ⟨hparen, heof⟩ := h.head rfl
    rw [if_neg (by simpa [kindOf] using ⟨hparen, heof⟩), hm]
    dsimp only
    rw [hrest]
    exact ⟨[m], rfl⟩

theorem commaLoop_of_cons {n : Nat} {ws : List Token} {c : Token} {m : Meta}
    {ms : List Meta} (h : Argument (kinds us)) (hc : c.kind = .comma)
    (hm : metaItem source fuel (us ++ c :: (ws ++ rest)) = .ok (m, c :: (ws ++ rest)))
    (hms : commaLoop .rparen (metaItem source fuel) n (ws ++ rest) = .ok (ms, rest)) :
    ∃ ms, commaLoop .rparen (metaItem source fuel) (n + 1) (us ++ c :: (ws ++ rest)) =
      .ok (ms, rest) := by
  have hhead : ¬ (kindOf (us ++ c :: (ws ++ rest)) 0 == .rparen ||
      kindOf (us ++ c :: (ws ++ rest)) 0 == .eof) = true := by
    cases us with
    | nil => simp [kindOf, hc]
    | cons t ts => simpa [kindOf] using h.head rfl
  have hcomma : kindOf (c :: (ws ++ rest)) 0 = .comma := hc
  rw [commaLoop_run, if_neg hhead, hm]
  dsimp only
  rw [hcomma, if_pos (beq_self_eq_true _), behind_cons (by rw [hc]; decide), hms]
  exact ⟨m :: ms, rfl⟩

end Cases

/-- Whether tokens of these kinds are read as one argument, up to the comma or
parenthesis behind them. -/
def ReadAsItem (source : Text) (ks : List TokenKind) : Prop :=
  ∀ (us rest : List Token) (fuel : Nat), kinds us = ks →
    kindOf rest 0 = .comma ∨ kindOf rest 0 = .rparen → us.length < fuel →
      ∃ m, metaItem source fuel (us ++ rest) = .ok (m, rest)

/-- Whether tokens of these kinds are read as arguments, up to the parenthesis behind
them. -/
def ReadAsList (source : Text) (ks : List TokenKind) : Prop :=
  ∀ (us rest : List Token) (fuel n : Nat), kinds us = ks → kindOf rest 0 = .rparen →
    us.length < fuel → us.length < n →
      ∃ ms, commaLoop .rparen (metaItem source fuel) n (us ++ rest) = .ok (ms, rest)

variable {ks vs : List TokenKind}

theorem readAsItem_succ
    (h : ∀ (us rest : List Token) (fuel : Nat), kinds us = ks →
      kindOf rest 0 = .comma ∨ kindOf rest 0 = .rparen → us.length ≤ fuel →
        ∃ m, metaItem source (fuel + 1) (us ++ rest) = .ok (m, rest)) : ReadAsItem
        source ks := by
  intro us rest fuel hus hrest hfuel
  obtain ⟨fuel, rfl⟩ : ∃ m, fuel = m + 1 :=
    Nat.exists_eq_add_one.mpr (Nat.zero_lt_of_lt hfuel)
  exact h us rest fuel hus hrest (Nat.le_of_lt_succ hfuel)

theorem readAsItem_literal {k : TokenKind} (h : isLiteral k = true) :
    ReadAsItem source [k] := by
  refine readAsItem_succ fun us rest fuel hus _ _ => ?_
  obtain ⟨t, ts, rfl, rfl, hts⟩ := kinds_cons hus
  obtain rfl : ts = [] := List.map_eq_nil_iff.mp hts
  exact ⟨_, metaItem_of_literal h⟩

theorem readAsItem_list (h : IsPath ks) (hvs : ReadAsList source vs) :
    ReadAsItem source (ks ++ .lparen :: (vs ++ [.rparen])) := by
  refine readAsItem_succ fun us rest fuel hus hrest hfuel => ?_
  obtain ⟨us, ws, rfl, rfl, hws⟩ := List.map_eq_append_iff.mp hus
  obtain ⟨o, ws, rfl, ho, hws⟩ := kinds_cons hws
  obtain ⟨ws, cs, rfl, hargs, hcs⟩ := List.map_eq_append_iff.mp hws
  obtain ⟨c, cs, rfl, hc, hcs⟩ := kinds_cons hcs
  obtain rfl : cs = [] := List.map_eq_nil_iff.mp hcs
  simp only [List.length_append, List.length_cons] at hfuel
  have hlen : ws.length < (ws ++ c :: rest).length + 1 := by
    rw [List.length_append]
    omega
  obtain ⟨ms, hms⟩ := hvs ws (c :: rest) fuel _ hargs hc (by omega) hlen
  rw [List.append_assoc, List.cons_append, List.append_assoc]
  exact metaItem_of_list h ho hc hms

theorem readAsItem_value (h : IsPath ks) (hvs : verbatim 0 vs = true) :
    ReadAsItem source (ks ++ .equals :: vs) := by
  refine readAsItem_succ fun us rest fuel hus hrest _ => ?_
  obtain ⟨us, ws, rfl, rfl, hws⟩ := List.map_eq_append_iff.mp hus
  obtain ⟨o, ws, rfl, ho, rfl⟩ := kinds_cons hws
  rw [List.append_assoc]
  exact metaItem_of_value h ho hvs hrest

theorem readAsList_last (h : Argument ks) (hks : ReadAsItem source ks) :
    ReadAsList source ks := by
  rintro us rest fuel n rfl hrest hfuel hn
  obtain ⟨n, rfl⟩ : ∃ m, n = m + 1 := Nat.exists_eq_add_one.mpr (Nat.zero_lt_of_lt hn)
  exact commaLoop_of_last h hrest (hks us rest fuel rfl (Or.inr hrest) hfuel)

theorem readAsList_cons (h : Argument ks) (hks : ReadAsItem source ks)
    (hvs : ReadAsList source vs) : ReadAsList source (ks ++ .comma :: vs) := by
  intro us rest fuel n hus hrest hfuel hn
  obtain ⟨n, rfl⟩ : ∃ m, n = m + 1 := Nat.exists_eq_add_one.mpr (Nat.zero_lt_of_lt hn)
  obtain ⟨us, ws, rfl, rfl, hws⟩ := List.map_eq_append_iff.mp hus
  obtain ⟨c, ws, rfl, hc, hws⟩ := kinds_cons hws
  rw [List.length_append, List.length_cons] at hfuel hn
  obtain ⟨m, hm⟩ := hks us (c :: (ws ++ rest)) fuel rfl (Or.inl hc) (by omega)
  obtain ⟨ms, hms⟩ := hvs ws rest fuel n hws hrest (by omega) (by omega)
  rw [List.append_assoc]
  exact commaLoop_of_cons h hc hm hms

-- the recursor spares the compilation of a recursion through two predicates
theorem readAsList_of_arguments (h : Arguments ks) : ReadAsList source ks :=
  @Arguments.rec (fun ks _ => ReadAsItem source ks) (fun ks _ => ReadAsList source ks)
    (fun _ hk => readAsItem_literal hk)
    (fun _ hk => readAsItem_succ fun _ _ _ hus hrest _ => metaItem_of_path (hus ▸ hk) hrest)
    (fun _ _ hk _ hvs => readAsItem_list hk hvs)
    (fun _ _ hk hvs => readAsItem_value hk hvs)
    (fun _ hk hlit hpath => readAsItem_succ fun _ _ _ hus hrest _ => by
      subst hus
      exact metaItem_of_other hk hlit hpath hrest)
    (fun _ h hks => readAsList_last h hks)
    (fun _ _ h _ hks hvs => readAsList_cons h hks hvs) ks h

theorem commaLoop_of_arguments {ks : List TokenKind} (h : Arguments ks)
    {us rest : List Token}
    {fuel n : Nat} (hus : kinds us = ks) (hrest : kindOf rest 0 = .rparen)
    (hfuel : us.length < fuel) (hn : us.length < n) :
    ∃ ms, commaLoop .rparen (metaItem source fuel) n (us ++ rest) = .ok (ms, rest) :=
  readAsList_of_arguments h us rest fuel n hus hrest hfuel hn

end Deriver.Parse
