import Deriver.Proofs.Parse.Sequel

/-!
# Spellings are read again

Main statement: `rereading`. Every rule of the type grammar reads the spelling of what
it reads, in front of sequels and of what stands behind them, and what it makes of it is
spelled the same. The rules call each other with smaller budgets, so the proof is by
induction on the budget, which has to cover the tokens that are left.
-/

namespace Deriver

open Parse Scan

variable {source x y z : Text} {qs rs : List Sequel} {f : Nat}

/-! ## Rules that are read again -/

/-- Whether a rule reads the spelling of a value, in front of sequels, as something that
is spelled like what it takes. The budget covers `rank` calls before a token is taken. -/
def Rereads {α : Type} (source : Text) (rank f : Nat) (p : Parser α)
    (render : α → Text) (v : α) : Prop :=
  ∀ qs z, Follow (render v) qs → Stop z →
    8 * sizeAhead (render v ++ sequel qs z) + rank ≤ f →
    Reads source p (render v ++ sequel qs z)
      (Respells render qs (render v ++ sequel qs z) z)

/-- What stands between a reference sign and the type behind it. -/
def targetText (lifetime : Option Text) (isMut : Bool) : Text :=
  lifetimeText lifetime ++ Text.when isMut "mut "

/-- Whether a text begins with what a generic argument ends at. -/
def EndsArg (z : Text) : Prop := ∃ k w u, Next z k w u ∧ k ∈ [.comma, .gt]

/-- The lifetimes of the `for` in front of a bound, if it is a trait. -/
def Bound.binder? : Bound → Option (List Text)
  | .outlives _ _ => none
  | .trait names _ _ => some names

/-- Whether a rule reads the spelling of a bound, with the same `for` in front. -/
def RereadsBound (source : Text) (f : Nat) (p : Parser Bound) (b : Bound) : Prop :=
  ∀ qs z, Follow b.render qs → Stop z → 8 * sizeAhead (b.render ++ sequel qs z) + 3 ≤ f →
    Reads source p (b.render ++ sequel qs z) fun c u => c.binder? = b.binder? ∧
      Respells Bound.render qs (b.render ++ sequel qs z) z c u

/-- Whether the rules of the type grammar read again what can be read again. -/
structure Rereading (source : Text) (f : Nat) : Prop where
  ty : ∀ t, Rereadable t.parts → Rereads source 4 f (Parse.ty source f) Ty.render t
  pathOrMacro : ∀ p pos, p.qself = none → Rereadable p.parts →
    Rereads source 3 f (Parse.pathOrMacro source f pos) Ty.render (.path p)
  path : ∀ p, p.qself = none → Rereadable p.parts →
    Rereads source 2 f (Parse.path source f) Path.render p
  segment : ∀ s, Rereadable s.parts →
    Rereads source 1 f (Parse.segment source f) Segment.render s
  genericArg : ∀ (a : GenericArg) z, Rereadable a.parts → Stop z → EndsArg z →
    8 * sizeAhead (a.render ++ z) + 5 ≤ f →
    Reads source (Parse.genericArg source f) (a.render ++ z) fun v u => v.render =
      a.render ∧ u = z
  bound : ∀ b, Rereadable b.parts → RereadsBound source f (Parse.bound source f) b
  reference : ∀ pos lifetime isMut (elem : Ty) qs z y k w,
    (∀ l ∈ lifetime, Word .lifetime l) →
    Rereadable elem.parts → Follow elem.render qs → Stop z →
    Next y k w (targetText lifetime isMut ++ (elem.render ++ sequel qs z)) →
      8 * sizeAhead y ≤ f →
    Reads source (Parse.reference source f pos) y fun v u =>
      ∃ elem', v = .ref pos lifetime isMut elem' ∧
      Respells Ty.render qs (elem.render ++ sequel qs z) z elem' u

/-- Where nothing but the end of a type may follow, all of it is read and no more. -/
theorem Rereads.closed {α : Type} {rank : Nat} {p : Parser α} {render : α → Text} {v : α}
    (h : Rereads source rank f p render v) (hz : Stop z)
    (hf : 8 * sizeAhead (render v ++ z) + rank ≤ f) :
    Reads source p (render v ++ z) fun w u => render w = render v ∧ u = z := by
  refine (h [] z (.nil _) hz hf).mono ?_
  rintro w u ⟨hw, rs, hrs, rfl⟩
  obtain rfl := List.suffix_nil.mp hrs
  exact ⟨List.append_cancel_right hw, rfl⟩

/-! ## What comes next -/

/-- The spelling of a result type. -/
def outputText : Option Ty → Text
  | none => []
  | some t => " -> " ++ t.render

/-- The spelling of the arguments of a segment. -/
def argsText : Args → Text
  | .none => []
  | .angled args => if args.isEmpty then [] else
      "<" ++ (Text.join ", " (args.map GenericArg.render) ++ ">")
  | .call inputs output =>
      "(" ++ (Text.join ", " (inputs.map Ty.render) ++ (")" ++ outputText output))

theorem Segment.render_args (s : Segment) : s.render = s.ident ++ argsText s.args := by
  obtain ⟨ident, args⟩ := s
  cases args with
  | none => rw [Segment.render, argsText, List.append_nil]
  | angled args =>
      rw [Segment.render, argsText, renderArgs_eq]
      split
      · rw [List.append_nil]
      · simp [Text.concat]
  | call inputs output =>
      cases output with
      | none =>
          rw [Segment.render, argsText, renderTys_eq, outputText]
          simp [Text.concat]
      | some output =>
          rw [Segment.render, argsText, renderTys_eq]
          simp [Text.concat]
          rfl

theorem argsText_angled {as bs : List GenericArg}
    (h : as.map GenericArg.render = bs.map GenericArg.render) :
    argsText (.angled as) = argsText (.angled bs) := by
  have hempty : as.isEmpty = bs.isEmpty := by
    have := congrArg List.isEmpty h
    rwa [List.isEmpty_map, List.isEmpty_map] at this
  rw [argsText, argsText, h, hempty]

theorem separated_args (args : Args) (hy : Separated y) :
    Separated (argsText args ++ y) := by
  cases args with
  | none => exact hy
  | angled args =>
      rw [argsText]
      split
      · exact hy
      · exact ⟨60, _, rfl, by decide⟩
  | call inputs output => cases output <;> exact ⟨40, _, rfl, by decide⟩

theorem rereadable_segment {s : Segment} :
    Rereadable s.parts ↔ ((TyPart.segment s).Readable ∧
    (TyPart.segment s).distinct = true) ∧ Rereadable s.args.parts := by
  obtain ⟨ident, args⟩ := s
  rw [Segment.parts, rereadable_cons]

theorem isWord_of_pathIdent {k : TokenKind} (h : isPathIdent k = true) :
    k.isWord = true := by
  cases k <;> first | rfl | cases h

theorem next_segment {s : Segment} (hs : Rereadable s.parts) (hy : Separated y) :
    ∃ k, isPathIdent k = true ∧ Next (s.render ++ y) k s.ident (argsText s.args ++ y) := by
  obtain ⟨⟨⟨k, hk, hword⟩, -⟩, -⟩ := rereadable_segment.mp hs
  refine ⟨k, hk, ?_⟩
  rw [s.render_args, List.append_assoc]
  exact next_word hword (isWord_of_pathIdent hk) (separated_args s.args hy)

/-- What comes next behind a value: a mark that belongs to sequels, or to nothing in it. -/
theorem next_sequel (hz : Stop z) (h : Follow x qs) (hsub : rs <:+ qs) :
    ∃ k w u, Next (sequel rs z) k w u ∧ k ∈ .doubleColon :: .plus :: stops ∧
      (k = .doubleColon → ∃ k' w' u', Next u k' w' u' ∧ isPathIdent k' = true) := by
  obtain ⟨e, h⟩ := h.of_sequels hsub
  cases h with
  | nil =>
      obtain ⟨k, w, u, hnext, hk⟩ := hz.next
      refine ⟨k, w, u, hnext, by simp [hk], ?_⟩
      rintro rfl
      exact absurd hk (by decide)
  | segment _ hs h =>
      obtain ⟨k, hk, hnext⟩ := next_segment hs (separated_sequel _ hz)
      exact ⟨_, _, _, next_colons _, List.mem_cons_self .., fun _ => ⟨_, _, _, hnext, hk⟩⟩
  | bound => exact ⟨_, _, _, next_plus _, by decide, nofun⟩

theorem avoids_sequel (hz : Stop z) (h : Follow x qs) (hsub : rs <:+ qs) {k : TokenKind}
    (hk : k ∉ .doubleColon :: .plus :: stops) : Avoids source (sequel rs z) k := by
  obtain ⟨k', w, u, hnext, hk', -⟩ := next_sequel hz h hsub
  exact .of_next hnext fun heq => hk (heq ▸ hk')

/-! ## Loops -/

/-- The spelling of segments with the mark between them. -/
def segmentsText (ss : List Segment) : Text := Text.join "::" (ss.map Segment.render)

/-- The spelling of segments behind a qualified self type. -/
def qualifiedText (ss : List Segment) : Text := Text.concat (ss.map ("::" ++ ·.render))

/-- The spelling of bounds with the mark between them. -/
def boundsText (bs : List Bound) : Text := Text.join " + " (bs.map Bound.render)

theorem segmentsText_cons (s : Segment) {ss : List Segment} (h : ss ≠ []) :
    segmentsText (s :: ss) = s.render ++ ("::" ++ segmentsText ss) := by
  obtain ⟨t, ts, rfl⟩ := List.exists_cons_of_ne_nil h
  rw [segmentsText, List.map_cons, List.map_cons, Text.join, List.append_assoc]
  rfl

theorem boundsText_cons (b : Bound) {bs : List Bound} (h : bs ≠ []) :
    boundsText (b :: bs) = b.render ++ (" + " ++ boundsText bs) := by
  obtain ⟨c, cs, rfl⟩ := List.exists_cons_of_ne_nil h
  rw [boundsText, List.map_cons, List.map_cons, Text.join, List.append_assoc]
  rfl

section Loops

variable {rank : Nat}

theorem reads_segmentLoop {elem : Parser Segment}
    (helem : ∀ s, Rereadable s.parts → Rereads source rank f elem Segment.render s)
    {s : Segment} {n : Nat}
    (hs : Rereadable s.parts) (hqs : Follow s.render qs) (hz : Stop z)
    (hf : 8 * sizeAhead (s.render ++ sequel qs z) + rank ≤ f)
    (hn : sizeAhead (s.render ++ sequel qs z) ≤ n) :
    Reads source (segmentLoop elem n) (s.render ++ sequel qs z) fun ss u => ss ≠ [] ∧
      segmentsText ss ++ u = s.render ++ sequel qs z ∧
      ∃ rs, rs <:+ qs ∧ (∀ r ∈ rs.head?, r.isSegment = false) ∧ u = sequel rs z := by
  induction n generalizing s qs with
  | zero => exact absurd hn (by have := sizeAhead_pos (y := s.render ++ sequel qs z); omega)
  | succ n ih =>
      unfold segmentLoop
      refine .bind (helem s hs qs z hqs hz hf) ?_
      rintro s' _ ⟨hs', rs, hrs, rfl⟩ hle
      -- the loop goes on if a further segment comes next
      cases rs with
      | nil =>
          refine .check_no (hz.avoids (by decide)) (.peekAny fun _ => .pure ?_)
          exact ⟨List.cons_ne_nil _ _, hs', [], hrs, nofun, rfl⟩
      | cons r rs =>
          cases r with
          | bound b =>
              refine .check_no (.of_next (next_plus _) (by decide))
                (.peekAny fun _ => .pure ?_)
              refine ⟨List.cons_ne_nil _ _, hs', _, hrs, ?_, rfl⟩
              rintro _ ⟨⟩
              rfl
          | segment s₂ =>
              obtain ⟨hs₂, hfollow⟩ := hqs.of_segment hrs
              obtain ⟨k, hk, hident⟩ := next_segment hs₂ (separated_sequel rs hz)
              have hcolons := next_colons (s₂.render ++ sequel rs z)
              have hsize := hcolons.sizeAhead
              have hsequel : sequel (.segment s₂ :: rs) z =
                  "::" ++ (s₂.render ++ sequel rs z) :=
                List.append_assoc ..
              rw [hsequel] at hs' hle ⊢
              refine .check_yes hcolons (.peekNext hcolons hident ?_)
              rw [Bool.true_and, if_pos hk]
              refine .take hcolons fun _ _ _ =>
                .bind (ih hs₂ hfollow (by omega) (by omega)) ?_
              rintro ss u ⟨hne, hss, ts, hts, hhead, rfl⟩ -
              refine .pure ⟨List.cons_ne_nil _ _, ?_, ts, hts.trans
                ((List.suffix_cons _ _).trans hrs), hhead, rfl⟩
              rw [segmentsText_cons s' hne, ← hs', List.append_assoc, ← hss]
              rfl

/-- The loop behind a qualified self type takes a segment if one comes next. -/
theorem reads_qualifiedLoop {elem : Parser Segment}
    (helem : ∀ s, Rereadable s.parts → Rereads source rank f elem Segment.render s)
    {n : Nat} (hqs : Follow x rs) (hsub : qs <:+ rs) (hz : Stop z)
    (hf : 8 * sizeAhead (sequel qs z) + rank ≤ f)
    (hn : sizeAhead (sequel qs z) ≤ n) :
    Reads source (qualifiedLoop elem n) (sequel qs z) fun ss u =>
      (∀ q ∈ qs.head?, q.isSegment = true → ss ≠ []) ∧ qualifiedText ss ++ u = sequel qs z ∧
      ∃ rs, rs <:+ qs ∧ (∀ r ∈ rs.head?, r.isSegment = false) ∧ u = sequel rs z := by
  induction n generalizing qs with
  | zero => exact absurd hn (by have := sizeAhead_pos (y := sequel qs z); omega)
  | succ n ih =>
      unfold qualifiedLoop
      cases qs with
      | nil =>
          refine .accept_no (hz.avoids (by decide)) (.pure ?_)
          exact ⟨nofun, rfl, [], List.suffix_refl _, nofun, rfl⟩
      | cons q qs =>
          cases q with
          | bound b =>
              refine .accept_no (.of_next (next_plus _) (by decide)) (.pure ?_)
              refine ⟨?_, rfl, _, List.suffix_refl _, ?_, rfl⟩
              · rintro _ ⟨⟩ ⟨⟩
              · rintro _ ⟨⟩
                rfl
          | segment s =>
              obtain ⟨hs, hfollow⟩ := hqs.of_segment hsub
              have hcolons := next_colons (s.render ++ sequel qs z)
              have hsize := hcolons.sizeAhead
              have hsequel : sequel (.segment s :: qs) z =
                  "::" ++ (s.render ++ sequel qs z) :=
                List.append_assoc ..
              rw [hsequel] at hf hn ⊢
              refine .accept_yes hcolons (.bind (helem s hs qs z hfollow hz (by omega)) ?_)
              rintro s' _ ⟨hs', ts, hts, rfl⟩ hle
              refine .bind (ih (hts.trans ((List.suffix_cons _ _).trans hsub)) (by omega)
                (by omega)) ?_
              rintro ss u ⟨-, hss, us, hus, hhead, rfl⟩ -
              refine .pure ⟨fun _ _ _ => List.cons_ne_nil _ _, ?_, us, hus.trans
                (hts.trans (List.suffix_cons _ _)), hhead, rfl⟩
              rw [← hs', ← hss]
              simp [qualifiedText, Text.concat]

theorem reads_boundLoop
    (helem : ∀ b, Rereadable b.parts → RereadsBound source f (Parse.bound source f) b)
    {b : Bound} {n : Nat} (hb : Rereadable b.parts) (hqs : Follow b.render qs) (hz : Stop z)
    (hf : 8 * sizeAhead (b.render ++ sequel qs z) + 3 ≤ f)
    (hn : sizeAhead (b.render ++ sequel qs z) ≤ n) :
    Reads source (boundLoop (Parse.bound source f) n) (b.render ++ sequel qs z) fun bs u =>
      (∃ c cs, bs = c :: cs ∧ c.binder? = b.binder?) ∧
      boundsText bs ++ u = b.render ++ sequel qs z ∧
      ∃ rs, rs <:+ qs ∧ (∀ r ∈ rs.head?, r.isSegment = true) ∧ u = sequel rs z := by
  induction n generalizing b qs with
  | zero => exact absurd hn (by have := sizeAhead_pos (y := b.render ++ sequel qs z); omega)
  | succ n ih =>
      unfold boundLoop
      have hfirst := helem b hb qs z hqs hz hf
      refine .peekKind_of (hfirst.starts fun ts => bound_fails) fun k hk => ?_
      rw [hk]
      refine .bind hfirst ?_
      rintro b' _ ⟨hbinder, hb', rs, hrs, rfl⟩ hle
      -- the loop goes on if a further bound comes next
      cases rs with
      | nil =>
          refine .accept_no (hz.avoids (by decide)) (.pure ?_)
          exact ⟨⟨b', _, rfl, hbinder⟩, hb', [], hrs, nofun, rfl⟩
      | cons r rs =>
          cases r with
          | segment s =>
              refine .accept_no (.of_next (next_colons _) (by decide)) (.pure ?_)
              refine ⟨⟨b', _, rfl, hbinder⟩, hb', _, hrs, ?_, rfl⟩
              rintro _ ⟨⟩
              rfl
          | bound b₂ =>
              obtain ⟨hb₂, hfollow⟩ := hqs.of_bound hrs
              have hplus := next_plus (b₂.render ++ sequel rs z)
              have hsize := hplus.sizeAhead
              have hsequel : sequel (.bound b₂ :: rs) z =
                  " + " ++ (b₂.render ++ sequel rs z) :=
                List.append_assoc ..
              rw [hsequel] at hb' hle ⊢
              refine .accept_yes hplus (.bind (ih hb₂ hfollow (by omega) (by omega)) ?_)
              rintro bs u ⟨⟨c, cs, rfl, -⟩, hbs, ts, hts, hhead, rfl⟩ -
              refine .pure ⟨⟨b', _, rfl, hbinder⟩, ?_, ts, hts.trans
                ((List.suffix_cons _ _).trans hrs), hhead, rfl⟩
              rw [boundsText_cons b' (List.cons_ne_nil c cs), ← hb',
                List.append_assoc, ← hbs]
              rfl

end Loops

/-! ## Segments, paths and bounds in a row -/

theorem boundsText_sequel (b : Bound) (bs : List Bound) :
    boundsText (b :: bs) ++ sequel qs z = b.render ++ sequel (bs.map .bound ++ qs) z := by
  induction bs generalizing b with
  | nil => rfl
  | cons c bs ih =>
      rw [boundsText_cons b (List.cons_ne_nil _ _), List.append_assoc,
        List.append_assoc, ih, List.map_cons, List.cons_append, sequel, Sequel.render,
        List.append_assoc]

theorem segmentsText_sequel (s : Segment) (ss : List Segment) :
    segmentsText (s :: ss) ++ sequel qs z =
    s.render ++ sequel (ss.map .segment ++ qs) z := by
  induction ss generalizing s with
  | nil => rfl
  | cons c ss ih =>
      rw [segmentsText_cons s (List.cons_ne_nil _ _), List.append_assoc,
        List.append_assoc, ih, List.map_cons, List.cons_append, sequel, Sequel.render,
        List.append_assoc]

theorem follow_bounds {b : Bound} {bs : List Bound} (hbs : ∀ c ∈ bs, Rereadable c.parts)
    (hqs : Follow (boundsText (b :: bs)) qs) : Follow b.render (bs.map .bound ++ qs) := by
  induction bs generalizing b with
  | nil => exact hqs
  | cons c bs ih =>
      refine .bound (hbs c (List.mem_cons_self ..))
        (ih (fun d hd => hbs d (by simp [hd])) ?_)
      refine hqs.of_suffix ?_
      rw [boundsText_cons b (List.cons_ne_nil _ _), ← List.append_assoc]
      exact List.suffix_append _ _

/-- A segment behind `::` as a bound. -/
def globalBound (s : Segment) : Bound := .trait [] false ⟨none, true, [s], .unknown⟩

theorem render_globalBound (s : Segment) : (globalBound s).render = "::" ++ s.render := by
  rw [globalBound, Bound.render, Path.render, renderSegments, renderSegments]
  simp [Text.concat, binderText, Text.when, Text.join]

theorem rereadable_globalBound {s : Segment} (h : Rereadable s.parts) :
    Rereadable (globalBound s).parts := by
  rw [globalBound, Bound.parts, Path.parts, partsQSelf?, partsSegments, partsSegments]
  simp [TyPart.Readable, TyPart.distinct, TyPart.delimited, TyPart.separate, h]

theorem render_ne_nil {s : Segment} (h : Rereadable s.parts) : s.render ≠ [] := by
  obtain ⟨k, -, hnext⟩ := next_segment h (y := " ") ⟨32, [], rfl, by decide⟩
  intro hnil
  rw [hnil] at hnext
  have hsize := hnext.sizeAhead.symm.trans (sizeAhead_blank [])
  rw [sizeAhead, sizeAhead, pieces_nil, Nat.add_right_cancel_iff] at hsize
  cases hsize

/-- A list of bounds is read up to what is no bound. Without any bound the first sequel
is taken for one if it is a segment. -/
theorem reads_boundList
    (helem : ∀ b, Rereadable b.parts → RereadsBound source f (Parse.bound source f) b)
    {bs : List Bound} (hbs : ∀ b ∈ bs, Rereadable b.parts) (hqs : Follow x qs)
    (hx : boundsText bs <:+ x) (hz : Stop z)
    (hf : 8 * sizeAhead (boundsText bs ++ sequel qs z) + 3 ≤ f) :
    Reads source (boundList (Parse.bound source f))
    (boundsText bs ++ sequel qs z) fun cs u =>
      (∀ b ∈ bs.head?, ∃ c cs', cs = c :: cs' ∧ c.binder? = b.binder?) ∧
        Respells boundsText qs (boundsText bs ++ sequel qs z) z cs u := by
  refine .get ?_
  rw [length_ahead]
  cases bs with
  | cons b bs =>
      rw [boundsText_sequel] at hf ⊢
      refine (reads_boundLoop helem (hbs b (List.mem_cons_self ..))
        (follow_bounds (fun c hc =>
        hbs c (List.mem_cons_of_mem b hc)) (hqs.of_suffix hx)) hz hf (Nat.le_succ _)).mono
          ?_
      rintro cs u ⟨⟨c, cs, rfl, hbinder⟩, hcs, rs, hrs, hhead, rfl⟩
      refine ⟨?_, hcs, rs, suffix_of_head (c := fun q => !q.isSegment) hrs ?_ ?_, rfl⟩
      · rintro _ ⟨⟩
        exact ⟨c, cs, rfl, hbinder⟩
      · simp [Sequel.isSegment]
      · exact fun r hr => by rw [hhead r hr]; rfl
  | nil =>
      have hnone {k : TokenKind} {w u : Text} (h : Next (sequel qs z) k w u)
          (hk : startsBound k = false) :
          Reads source (boundLoop (Parse.bound source f) (sizeAhead (sequel qs z) + 1))
            (sequel qs z) fun cs u =>
              (∀ b ∈ ([] : List Bound).head?, ∃ c cs', cs = c :: cs' ∧
              c.binder? = b.binder?) ∧ Respells boundsText qs (sequel qs z) z cs u := by
        unfold boundLoop
        refine .peekKind h ?_
        rw [hk]
        exact .pure ⟨nofun, rfl, qs, List.suffix_refl _, rfl⟩
      change 8 * sizeAhead (sequel qs z) + 3 ≤ f at hf
      change Reads source _ (sequel qs z) fun cs u => _ ∧
        Respells boundsText qs (sequel qs z) z cs u
      cases qs with
      | nil =>
          obtain ⟨k, w, u, hnext, hk⟩ := hz.next
          exact hnone hnext ((by decide : ∀ k ∈ stops, startsBound k = false) k hk)
      | cons q qs =>
          cases q with
          | bound b => exact hnone (next_plus _) rfl
          | segment s =>
              obtain ⟨hs, hfollow⟩ := hqs.of_segment (List.suffix_refl _)
              have hsequel : sequel (.segment s :: qs) z =
                  (globalBound s).render ++ sequel qs z := by
                rw [render_globalBound]
                rfl
              rw [hsequel] at hf ⊢
              refine (reads_boundLoop helem (rereadable_globalBound hs) ?_ hz hf
                (Nat.le_succ _)).mono ?_
              · rw [render_globalBound]
                exact hfollow.prepend (render_ne_nil hs) _
              · rintro cs u ⟨-, hcs, rs, hrs, -, rfl⟩
                exact ⟨nofun, hcs, rs, hrs.trans (List.suffix_cons _ _), rfl⟩

/-! ## The rules -/

theorem stop_comma (t : Text) : Stop (", " ++ t) :=
  .mark (c := 44) rfl (by decide) (by decide) (32 :: t)

theorem stop_gt (t : Text) : Stop (">" ++ t) :=
  .mark (c := 62) rfl (by decide) (by decide) t

theorem stop_rparen (t : Text) : Stop (")" ++ t) :=
  .mark (c := 41) rfl (by decide) (by decide) t

theorem follow_segments {s : Segment} {ss : List Segment}
    (hss : ∀ t ∈ ss, Rereadable t.parts)
    (hlast : ∀ t ∈ (s :: ss).dropLast, ¬ [58] <:+ t.render)
    (hqs : Follow (segmentsText (s :: ss)) qs) :
    Follow s.render (ss.map .segment ++ qs) := by
  induction ss generalizing s with
  | nil => exact hqs
  | cons c ss ih =>
      refine .segment (hlast s (by simp)) (hss c (List.mem_cons_self ..)) ?_
      refine ih (fun d hd => hss d (by simp [hd])) (fun d hd => hlast d ?_)
        (hqs.of_suffix ?_)
      · rw [List.dropLast_cons_cons]
        exact List.mem_cons_of_mem s hd
      · rw [segmentsText_cons s (List.cons_ne_nil _ _), ← List.append_assoc]
        exact List.suffix_append _ _

theorem rereadable_path {p : Path} : Rereadable p.parts ↔ ((TyPart.path p).Readable ∧
    (TyPart.path p).distinct = true) ∧ Rereadable (partsQSelf? p.qself) ∧
    ∀ s ∈ p.segments, Rereadable s.parts := by
  obtain ⟨qself, isGlobal, segments, pos⟩ := p
  rw [Path.parts, rereadable_cons, rereadable_append, partsSegments_eq, rereadable_flatMap]

theorem not_colon_of_distinct {p : Path} (h : (TyPart.path p).distinct = true) :
    ∀ s ∈ p.segments.dropLast, ¬ [58] <:+ s.render := by
  intro s hs
  rw [List.singleton_suffix_iff_getLast?_eq_some]
  simpa using List.all_eq_true.mp (TyPart.distinct_iff.mp h).2 s hs

theorem avoids_path {P : Path → Text → Prop} (h : Reads source (path source f) y P)
    {k : TokenKind}
    (hk : isPathIdent k = false) (hcolons : k ≠ .doubleColon) : Avoids source y k :=
  h.avoids fun ts hts => path_fails (by rwa [hts]) (by rwa [hts])

theorem avoids_ty {P : Ty → Text → Prop} (hty : Reads source (ty source f) y P)
    {k : TokenKind} (hk : startsTy k = false) : Avoids source y k :=
  hty.avoids fun ts hts => ty_fails (by rwa [hts])

theorem GenericArg.render_constraint (name : Text) (bs : List Bound) (y : Text) :
    (GenericArg.constraint name bs).render ++ y =
    name ++ (": " ++ (boundsText bs ++ y)) := by
  rw [GenericArg.render, renderBoundList_eq]
  simp [Text.concat, boundsText]

/-- An expression is captured up to the comma or the bracket behind it. -/
theorem reads_constArg {expr : Text} (hexpr : Rereadable (GenericArg.const expr).parts)
    (hz : Stop z) (hend : EndsArg z) :
    Reads source (genericArg source (f + 1))
    ((GenericArg.const expr).render ++ z) fun v u =>
      v.render = (GenericArg.const expr).render ∧ u = z := by
  rw [GenericArg.parts, rereadable_cons] at hexpr
  obtain ⟨⟨⟨hcaptured, t, us, hown, hconst⟩, hdistinct⟩, -⟩ := hexpr
  have hlast := of_decide_eq_true (TyPart.distinct_iff.mp hdistinct).1
  have hfits : Fits expr z := (fits_sequel hz hlast (.nil expr) : Fits expr (sequel [] z))
  have hsolid : Solid expr := hcaptured.solid.resolve_left fun h => by
    rw [h] at hown
    cases hown
  obtain ⟨k, w, u, hnext, hk⟩ := hend
  rw [GenericArg.render]
  have hcapture : Reads source (GenericArg.const <$> capture source false [.comma, .gt])
      (expr ++ z) fun v u => v.render = expr ∧ u = z :=
    (reads_capture hcaptured (fun _ => hfits) hnext hk).map fun v u hv =>
      ⟨by rw [GenericArg.render, hv.1], hv.2⟩
  refine hcapture.of_eq fun hsub => ?_
  -- the first token of the expression decides, and none of them is a lifetime
  obtain ⟨pre, -, hahead⟩ := hsolid.ahead hfits hsub
  have hkind : ((ahead source (expr ++ z)).headD Token.none).kind = t.kind := by
    rw [hahead, hown]
    rfl
  rw [map_eq_pure_bind]
  unfold genericArg
  change (if _ then _ else if _ then _ else _ : Parser GenericArg)
    (ahead source (expr ++ z)) = _
  rw [hkind, if_neg, if_pos hconst]
  rintro heq
  rw [beq_iff_eq.mp heq] at hconst
  cases hconst

section Rules

variable (h : Rereading source f)

include h

theorem reread_path (p : Path) (hq : p.qself = none) (hp : Rereadable p.parts) :
    Rereads source 2 (f + 1) (path source (f + 1)) Path.render p := by
  intro qs z hqs hz hf
  obtain ⟨⟨⟨hne, -⟩, hdistinct⟩, -, hsegments⟩ := rereadable_path.mp hp
  have hlast := not_colon_of_distinct hdistinct
  obtain ⟨qself, isGlobal, segments, pos⟩ := p
  obtain rfl : qself = none := hq
  obtain ⟨s, ss, rfl⟩ := List.exists_cons_of_ne_nil hne
  have hs := hsegments s (List.mem_cons_self ..)
  have hrender : (Path.mk none isGlobal (s :: ss) pos).render =
      Text.when isGlobal "::" ++ segmentsText (s :: ss) := by
    rw [Path.render, renderSegments_eq]
    rfl
  have hfollow : Follow s.render (ss.map .segment ++ qs) := by
    refine follow_segments (fun t ht => hsegments t (List.mem_cons_of_mem s ht)) hlast ?_
    exact hqs.of_suffix (hrender ▸ List.suffix_append _ _)
  rw [hrender, List.append_assoc, segmentsText_sequel] at hf ⊢
  -- the segments, behind the mark in front of them
  have hloop (first : Token)
      (hf : 8 * sizeAhead (s.render ++ sequel (ss.map .segment ++ qs) z) + 1 ≤ f) :
      Reads source (MonadState.get >>= fun ts =>
        segmentLoop (Parse.segment source f) (ts.length + 1) >>= fun ss =>
          pure ⟨none, isGlobal, ss, first.pos⟩)
            (s.render ++ sequel (ss.map .segment ++ qs) z)
        (Respells Path.render qs (Text.when isGlobal "::" ++
          (s.render ++ sequel (ss.map .segment ++ qs) z)) z) := by
    refine .get (.bind (reads_segmentLoop h.segment hs hfollow hz hf
      (length_ahead source _ ▸ Nat.le_succ _)) ?_)
    rintro ts u ⟨-, hts, rs, hrs, hhead, rfl⟩ -
    refine .pure ⟨?_, rs, suffix_of_head hrs (by simp [Sequel.isSegment]) hhead, rfl⟩
    rw [Path.render, renderSegments_eq, List.append_assoc]
    exact congrArg _ hts
  unfold path
  cases isGlobal with
  | true =>
      have hnext := next_colons (s.render ++ sequel (ss.map .segment ++ qs) z)
      have hsize := hnext.sizeAhead
      rw [show Text.when true "::" = ("::" : Text) from rfl] at hf ⊢
      refine .peek hnext fun t _ _ => .bind (.accepts_yes hnext) ?_
      rintro _ _ ⟨rfl, rfl⟩ -
      exact hloop t (by omega)
  | false =>
      rw [show Text.when false "::" = [] from rfl, List.nil_append] at hf ⊢
      obtain ⟨k, hk, hnext⟩ := next_segment hs
        (separated_sequel (ss.map .segment ++ qs) hz)
      refine .peek hnext fun t _ _ => .bind (.accepts_no (.of_next hnext ?_)) ?_
      · rintro rfl
        cases hk
      · rintro _ _ ⟨rfl, rfl⟩ -
        exact hloop t (by omega)

theorem reread_pathOrMacro (p : Path) (pos : Position) (hq : p.qself = none)
    (hp : Rereadable p.parts) :
    Rereads source 3 (f + 1) (pathOrMacro source (f + 1) pos) Ty.render (.path p) := by
  intro qs z hqs hz hf
  have hrender : (Ty.path p).render = p.render := by rw [Ty.render]
  rw [hrender] at hqs hf ⊢
  unfold pathOrMacro
  refine .get (.bind (h.path p hq hp qs z hqs hz (by omega)) ?_)
  rintro p' u ⟨hp', rs, hrs, rfl⟩ -
  refine .accept_no (avoids_sequel hz hqs hrs (by decide)) (.pure ⟨?_, rs, hrs, rfl⟩)
  rwa [Ty.render]

theorem reread_bound (b : Bound) (hb : Rereadable b.parts) :
    RereadsBound source (f + 1) (bound source (f + 1)) b := by
  intro qs z hqs hz hf
  cases b with
  | outlives names l =>
      rw [Bound.parts, rereadable_cons] at hb
      have hl : Word .lifetime l := hb.1.1
      have hnext := next_word hl rfl (separated_sequel qs hz)
      rw [Bound.render] at hf ⊢
      unfold bound
      refine .check_yes hnext (.take hnext fun t _ ht => .pure ⟨rfl, ?_, qs,
        List.suffix_refl _, rfl⟩)
      rw [Bound.render, ht]
  | trait names maybe p =>
      rw [Bound.parts, rereadable_cons] at hb
      obtain ⟨⟨⟨hnames, hq⟩, -⟩, hp⟩ := hb
      have hrender (p : Path) : (Bound.trait names maybe p).render =
          binderText names ++ (Text.when maybe "?" ++ p.render) := by
        rw [Bound.render]
        simp [Text.concat]
      rw [hrender] at hqs hf ⊢
      rw [List.append_assoc, List.append_assoc] at hf ⊢
      have hfollow :=
        hqs.of_suffix ((List.suffix_append _ _).trans (List.suffix_append _ _))
      have hle := sizeAhead_binder hnames (Text.when maybe "?" ++ (p.render ++ sequel qs z))
      have hle' := sizeAhead_flag maybe (next_question (p.render ++ sequel qs z))
      have hpath := h.path p hq hp qs z hfollow hz (by omega)
      -- nothing in front of the path can be taken for a part of it
      have hflag (k : TokenKind) (hk : isPathIdent k = false)
          (hne : k ∉ [.doubleColon, .question]) :
          Avoids source (Text.when maybe "?" ++ (p.render ++ sequel qs z)) k := by
        simp only [List.mem_cons, List.not_mem_nil, or_false, not_or] at hne
        cases maybe with
        | true => exact .of_next (next_question _) (Ne.symm hne.2)
        | false => exact avoids_path hpath hk hne.1
      have hbinder (k : TokenKind) (hk : isPathIdent k = false)
          (hne : k ∉ [.doubleColon, .question, .forKw]) : Avoids source
          (binderText names ++ (Text.when maybe "?" ++ (p.render ++ sequel qs z))) k := by
        rcases eq_or_ne names [] with rfl | hnil
        · exact hflag k hk fun h => hne (by simp_all)
        · exact .of_next (next_binder hnil _) fun h => hne (by simp [← h])
      unfold bound
      refine .check_no (hbinder _ rfl (by decide))
        (.accept_no (hbinder _ rfl (by decide)) ?_)
      refine .bind (reads_binder? hnames fun _ => hflag _ rfl (by decide)) ?_
      rintro _ _ ⟨rfl, rfl⟩ -
      refine .bind (reads_tildeConst (hflag _ rfl (by decide))) ?_
      rintro _ _ rfl -
      refine .bind (reads_flag (next_question _) (avoids_path hpath rfl (by decide))) ?_
      rintro _ _ ⟨rfl, rfl⟩ -
      refine .bind hpath ?_
      rintro p' _ ⟨hp', rs, hrs, rfl⟩ -
      refine .pure ⟨rfl, ?_, rs, hrs, rfl⟩
      rw [hrender, List.append_assoc, List.append_assoc, hp']

/-! ### Segments and their arguments -/

theorem reads_args {args : List GenericArg}
    (hargs : ∀ a ∈ args, Rereadable a.parts) (y : Text)
    (hf : 8 * sizeAhead (Text.join ", " (args.map GenericArg.render) ++ (">" ++ y)) +
    5 ≤ f) : Reads source (commaList .gt (genericArg source f))
      (Text.join ", " (args.map GenericArg.render) ++ (">" ++ y)) fun vs u =>
      vs.map GenericArg.render = args.map GenericArg.render ∧ u = ">" ++ y := by
  refine reads_commaList (next_gt y) (by decide)
    (fun a ha u hu hle => ?_) ?_ (Nat.le_refl _)
  · refine h.genericArg a u (hargs a ha) ?_ ?_ (by omega)
    · rcases hu with rfl | ⟨t, rfl⟩
      · exact stop_gt y
      · exact stop_comma t
    · rcases hu with rfl | ⟨t, rfl⟩
      · exact ⟨_, _, _, next_gt y, by decide⟩
      · exact ⟨_, _, _, next_comma t, by decide⟩
  · intro k hk ts hts
    refine genericArg_fails ?_
    rw [hts]
    exact (by decide : ∀ k ∈ [TokenKind.gt, .eof], startsArg k = false) k hk

theorem reads_inputs {inputs : List Ty} (hinputs : ∀ t ∈ inputs, Rereadable t.parts)
    (y : Text)
    (hf : 8 * sizeAhead (Text.join ", " (inputs.map Ty.render) ++ (")" ++ y)) + 4 ≤ f) :
    Reads source (commaList .rparen (ty source f))
      (Text.join ", " (inputs.map Ty.render) ++ (")" ++ y)) fun vs u =>
      vs.map Ty.render = inputs.map Ty.render ∧ u = ")" ++ y := by
  refine reads_commaList (next_rparen y) (by decide)
    (fun t ht u hu hle => ?_) ?_ (Nat.le_refl _)
  · refine (h.ty t (hinputs t ht)).closed ?_ (by omega)
    rcases hu with rfl | ⟨t, rfl⟩
    · exact stop_rparen y
    · exact stop_comma t
  · intro k hk ts hts
    refine ty_fails ?_
    rw [hts]
    exact (by decide : ∀ k ∈ [TokenKind.rparen, .eof], startsTy k = false) k hk

/-- A result type, if there is one, takes the sequels. -/
theorem reads_output? {output : Option Ty} (houtput : ∀ t ∈ output, Rereadable t.parts)
    (hqs : Follow x qs) (hx : ∀ t ∈ output, t.render <:+ x) (hz : Stop z)
    (hf : 8 * sizeAhead (outputText output ++ sequel qs z) + 4 ≤ f) :
    Reads source (output? (ty source f)) (outputText output ++ sequel qs z)
      (Respells outputText qs (outputText output ++ sequel qs z) z) := by
  unfold output?
  cases output with
  | none =>
      exact .accept_no (avoids_sequel hz hqs (List.suffix_refl _) (by decide))
        (.pure ⟨rfl, qs, List.suffix_refl _, rfl⟩)
  | some t =>
      have ht := houtput t rfl
      have hnext := next_arrow (t.render ++ sequel qs z)
      have hsize := hnext.sizeAhead
      rw [show outputText (some t) = " -> " ++ t.render from rfl] at hf ⊢
      rw [show (" -> " ++ t.render) ++ sequel qs z =
        " -> " ++ (t.render ++ sequel qs z) from
        List.append_assoc ..] at hf ⊢
      refine .accept_yes hnext
        (.bind (h.ty t ht qs z (hqs.of_suffix (hx t rfl)) hz (by omega)) ?_)
      rintro t' u ⟨ht', rs, hrs, rfl⟩ -
      refine .pure ⟨?_, rs, hrs, rfl⟩
      rw [← ht']
      exact List.append_assoc ..

theorem reread_segment (s : Segment) (hs : Rereadable s.parts) :
    Rereads source 1 (f + 1) (Parse.segment source (f + 1)) Segment.render s := by
  intro qs z hqs hz hf
  obtain ⟨k, hk, hnext⟩ := next_segment hs (separated_sequel qs hz)
  have hsize := hnext.sizeAhead
  have hargs := (rereadable_segment.mp hs).2
  have hqs : Follow (argsText s.args) qs :=
    hqs.of_suffix (s.render_args ▸ List.suffix_append _ _)
  -- whatever arguments are read, the name is in front of them
  have hpure {args : Args} {rs : List Sequel} (hrs : rs <:+ qs)
      (heq : argsText args ++ sequel rs z = argsText s.args ++ sequel qs z) :
      Respells Segment.render qs (s.render ++ sequel qs z) z ⟨s.ident, args⟩
        (sequel rs z) := by
    refine ⟨?_, rs, hrs, rfl⟩
    rw [Segment.render_args, Segment.render_args, List.append_assoc, List.append_assoc, heq]
  unfold Parse.segment
  refine .peek hnext fun t ht hw => ?_
  rw [ht, hk]
  refine .take hnext fun _ _ _ => ?_
  rw [hw]
  by_cases hempty : argsText s.args = []
  · -- all that is left are the sequels
    obtain ⟨k', w, u, hnext', -, hcolons⟩ := next_sequel hz hqs (List.suffix_refl _)
    rw [hempty, List.nil_append] at hpure ⊢
    refine .bind (reads_turbofish hnext' fun hk' => ?_) ?_
    · obtain ⟨k, w, u, hnext, hk⟩ := hcolons hk'
      refine ⟨k, w, u, hnext, ?_⟩
      rintro rfl
      cases hk
    · rintro _ _ rfl -
      refine .accept_no (avoids_sequel hz hqs (List.suffix_refl _) (by decide)) ?_
      refine .accept_no (avoids_sequel hz hqs (List.suffix_refl _) (by decide)) ?_
      exact .pure (hpure (List.suffix_refl _) rfl)
  obtain ⟨ident, args⟩ := s
  dsimp only at hargs hsize hqs hpure hempty ⊢
  cases args with
  | none => exact absurd rfl hempty
  | angled args =>
      have hargs : ∀ a ∈ args, Rereadable a.parts := by
        rwa [Args.parts, partsArgs_eq, rereadable_flatMap] at hargs
      have htext : argsText (.angled args) ++ sequel qs z =
          "<" ++ (Text.join ", " (args.map GenericArg.render) ++ (">" ++ sequel qs z)) := by
        rw [argsText, if_neg fun hnil => hempty (if_pos hnil)]
        simp
      have hlt := next_lt (Text.join ", " (args.map GenericArg.render) ++
        (">" ++ sequel qs z))
      have hsize' := hlt.sizeAhead
      rw [htext] at hsize ⊢
      refine .bind (reads_turbofish hlt nofun) ?_
      rintro _ _ rfl -
      refine .accept_yes hlt (.bind (reads_args h hargs _ (by omega)) ?_)
      rintro as u ⟨has, rfl⟩ -
      refine .expect (next_gt _) fun _ _ _ => .pure (hpure (List.suffix_refl _) ?_)
      rw [argsText_angled has]
  | call inputs output =>
      rw [Args.parts, rereadable_append, partsTys_eq, rereadable_flatMap] at hargs
      have htext : argsText (.call inputs output) ++ sequel qs z = "(" ++ (Text.join ", "
          (inputs.map Ty.render) ++ (")" ++ (outputText output ++ sequel qs z))) := by
        rw [argsText]
        simp
      have hlparen := next_lparen (Text.join ", " (inputs.map Ty.render) ++ (")" ++
        (outputText output ++ sequel qs z)))
      have hsize' := hlparen.sizeAhead
      rw [htext] at hsize ⊢
      refine .bind (reads_turbofish hlparen nofun) ?_
      rintro _ _ rfl -
      refine .accept_no (.of_next hlparen (by decide)) (.accept_yes hlparen ?_)
      refine .bind (reads_inputs h hargs.1 _ (by omega)) ?_
      rintro ts u ⟨hts, rfl⟩ hle
      have hrparen := next_rparen (outputText output ++ sequel qs z)
      have hsize'' := hrparen.sizeAhead
      refine .expect hrparen fun _ _ _ => .bind (reads_output? h ?_ hqs ?_ hz (by omega)) ?_
      · rintro t ⟨⟩
        exact hargs.2
      · rintro t ⟨⟩
        exact ⟨"(" ++ (Text.join ", " (inputs.map Ty.render) ++
          (")" ++ (" -> " : Text))), by
          rw [argsText, outputText]; simp⟩
      · rintro output' u ⟨hout, rs, hrs, rfl⟩ -
        refine .pure (hpure hrs ?_)
        rw [argsText, argsText, hts]
        simp [hout]

theorem reads_tyArg {t : Ty} (ht : Rereadable t.parts) (hz : Stop z)
    (hf : 8 * sizeAhead (t.render ++ z) + 5 ≤ f + 1) :
    Reads source (genericArg source (f + 1)) (t.render ++ z) fun v u =>
      v.render = t.render ∧ u = z := by
  have hty := (h.ty t ht).closed hz (by omega)
  have hmap : Reads source (GenericArg.ty <$> ty source f) (t.render ++ z) fun v u =>
      v.render = t.render ∧ u = z :=
    hty.map fun v u hv => ⟨by rw [GenericArg.render, hv.1], hv.2⟩
  refine hmap.of_eq fun hsub => genericArg_of_ty (hty.starts (fun ts => ty_fails) hsub) ?_
  intro hident
  refine hty.name_apart ?_ hsub (by rw [hident]; decide)
  rintro v u ⟨-, rfl⟩
  exact ⟨hz.avoids (by decide), hz.avoids (by decide)⟩

theorem reads_binding {name : Text} {t : Ty} (hname : Word .ident name)
    (ht : Rereadable t.parts)
    (hz : Stop z) (hf : 8 * sizeAhead (name ++ (" = " ++ (t.render ++ z))) + 5 ≤ f + 1) :
    Reads source (genericArg source (f + 1)) (name ++ (" = " ++ (t.render ++ z))) fun v u =>
      v.render = (GenericArg.binding name t).render ∧ u = z := by
  have hnext := next_word (y := " = " ++ (t.render ++ z)) hname rfl ⟨32, _, rfl, by decide⟩
  have hequals := next_equals (t.render ++ z)
  have hsize := hnext.sizeAhead
  have hsize' := hequals.sizeAhead
  unfold genericArg
  refine .peek hnext fun t' ht' hw => ?_
  dsimp only
  rw [ht', if_neg (by decide), if_neg (by decide), if_pos (by decide)]
  refine .peekNext hnext hequals ?_
  rw [if_pos (by decide)]
  refine .take hnext fun _ _ _ => .take hequals fun _ _ _ => ?_
  refine .bind ((h.ty t ht).closed hz (by omega)) ?_
  rintro v u ⟨hv, rfl⟩ -
  exact .pure ⟨by rw [GenericArg.render, GenericArg.render, hv, hw], rfl⟩

theorem reads_constraint {name : Text} {bounds : List Bound} (hname : Word .ident name)
    (hbounds : ∀ b ∈ bounds, Rereadable b.parts) (hz : Stop z)
    (hf : 8 * sizeAhead (name ++ (": " ++ (boundsText bounds ++ z))) + 5 ≤ f + 1) :
    Reads source (genericArg source (f + 1))
    (name ++ (": " ++ (boundsText bounds ++ z))) fun v u =>
      v.render ++ z = name ++ (": " ++ (boundsText bounds ++ z)) ∧ u = z := by
  have hnext :=
      next_word (y := ": " ++ (boundsText bounds ++ z)) hname rfl ⟨58, _, rfl, by decide⟩
  have hcolon := next_colon (boundsText bounds ++ z)
  have hsize := hnext.sizeAhead
  have hsize' := hcolon.sizeAhead
  unfold genericArg
  refine .peek hnext fun t' ht hw => ?_
  dsimp only
  rw [ht, if_neg (by decide), if_neg (by decide), if_pos (by decide)]
  refine .peekNext hnext hcolon ?_
  rw [if_neg (by decide), if_pos (by decide)]
  refine .take hnext fun _ _ _ => .take hcolon fun _ _ _ => ?_
  have hf : 8 * sizeAhead (boundsText bounds ++ sequel [] z) + 3 ≤ f := by
    change 8 * sizeAhead (boundsText bounds ++ z) + 3 ≤ f
    omega
  refine .bind (reads_boundList h.bound hbounds (.nil (boundsText bounds))
    (List.suffix_refl _) hz hf) ?_
  rintro bs u ⟨-, hbs, rs, hrs, rfl⟩ -
  obtain rfl := List.suffix_nil.mp hrs
  refine .pure ⟨?_, rfl⟩
  rw [hw, GenericArg.render_constraint]
  exact congrArg (fun y => name ++ (": " ++ y)) hbs

theorem reread_genericArg (a : GenericArg) (z : Text)
    (ha : Rereadable a.parts) (hz : Stop z)
    (hend : EndsArg z) (hf : 8 * sizeAhead (a.render ++ z) + 5 ≤ f + 1) :
    Reads source (genericArg source (f + 1)) (a.render ++ z) fun v u =>
      v.render = a.render ∧ u = z := by
  cases a with
  | ty t =>
      rw [GenericArg.parts, rereadable_cons] at ha
      rw [GenericArg.render] at hf ⊢
      exact reads_tyArg h ha.2 hz hf
  | lifetime name =>
      rw [GenericArg.parts, rereadable_cons] at ha
      have hname : Word .lifetime name := ha.1.1
      rw [GenericArg.render]
      have hnext := next_word hname rfl hz.separated
      unfold genericArg
      refine .peek hnext fun t ht hw => ?_
      dsimp only
      rw [ht, if_pos (by decide)]
      exact .take hnext fun _ _ _ => .pure ⟨by rw [GenericArg.render, hw], rfl⟩
  | const expr => exact reads_constArg ha hz hend
  | binding name t =>
      rw [GenericArg.parts, rereadable_cons] at ha
      have hrender : (GenericArg.binding name t).render ++ z =
          name ++ (" = " ++ (t.render ++ z)) := by
        rw [GenericArg.render]
        simp [Text.concat]
      rw [hrender] at hf ⊢
      exact reads_binding h ha.1.1 ha.2 hz hf
  | constraint name bounds =>
      rw [GenericArg.parts, rereadable_cons, partsBounds_eq, rereadable_flatMap] at ha
      rw [GenericArg.render_constraint] at hf ⊢
      refine (reads_constraint h ha.1.1 ha.2 hz hf).mono fun v u hv => ⟨?_, hv.2⟩
      rw [← GenericArg.render_constraint] at hv
      exact List.append_cancel_right hv.1

theorem reread_reference (pos : Position) (lifetime : Option Text)
    (isMut : Bool) (elem : Ty) (qs : List Sequel) (z y : Text) (k : TokenKind) (w : Text)
    (hlifetime : ∀ l ∈ lifetime, Word .lifetime l) (helem : Rereadable elem.parts)
    (hqs : Follow elem.render qs) (hz : Stop z)
    (hnext : Next y k w (targetText lifetime isMut ++ (elem.render ++ sequel qs z)))
    (hf : 8 * sizeAhead y ≤ f + 1) :
    Reads source (reference source (f + 1) pos) y fun v u => ∃ elem',
      v = .ref pos lifetime isMut elem' ∧
        Respells Ty.render qs (elem.render ++ sequel qs z) z elem' u := by
  have hsize := hnext.sizeAhead
  rw [targetText, List.append_assoc] at hnext hsize
  have hle := sizeAhead_lifetime hlifetime
    (Text.when isMut "mut " ++ (elem.render ++ sequel qs z))
  have hle' := sizeAhead_flag isMut (next_mut (elem.render ++ sequel qs z))
  have hty := h.ty elem helem qs z hqs hz (by omega)
  have havoids :
      Avoids source (Text.when isMut "mut " ++ (elem.render ++ sequel qs z)) .lifetime := by
    cases isMut with
    | true => exact .of_next (next_mut _) (by decide)
    | false => exact avoids_ty hty rfl
  unfold reference
  refine .take hnext fun _ _ _ => .bind (reads_lifetime? hlifetime havoids) ?_
  rintro _ _ ⟨rfl, rfl⟩ -
  refine .bind (reads_flag (next_mut _) (avoids_ty hty rfl)) ?_
  rintro _ _ ⟨rfl, rfl⟩ -
  exact .bind hty fun v u hv _ => .pure ⟨v, rfl, hv⟩

end Rules

end Deriver
