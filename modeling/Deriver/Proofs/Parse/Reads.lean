import Deriver.Proofs.Parse.After
import Deriver.Proofs.Parse.Reparse
import Deriver.Proofs.Token.Ahead

/-!
# Reading a text

`Reads` says of a parser what it makes of a text that is left of the source: it
succeeds, with a value and a rest of which a condition holds, and finds nothing that
is a lexical error. What a rule makes of a text is put together from what its steps
make of it, each step by the next token.
-/

namespace Deriver.Parse

/-- Whether a parser succeeds where `y` is left of the source, with a value and what
is left then as `P` says. -/
def Reads {α : Type} (source : Text) (p : Parser α) (y : Text) (P : α → Text → Prop) :
    Prop :=
  y <:+ source → ∃ v s, P v s ∧ s <:+ y ∧ (Faultless s → Faultless y) ∧
    sizeAhead s ≤ sizeAhead y ∧ p (ahead source y) = .ok (v, ahead source s)

/-- Whether the next token is none of a kind where `y` is left of the source. -/
def Avoids (source y : Text) (k : TokenKind) : Prop :=
  y <:+ source → kindOf (ahead source y) 0 ≠ k

variable {source s w x y z : Text} {k k' : TokenKind}

theorem Avoids.of_next (h : Next y k w s) (hk : k ≠ k') : Avoids source y k' :=
  fun hsub => by rwa [h.kindOf hsub]

theorem avoids_eof (h : Next y k w s) : Avoids source y .eof := .of_next h h.ne_eof

namespace Reads

section Combinators

variable {α β : Type} {p q : Parser α} {f : α → Parser β} {P Q : α → Text → Prop}
  {R : β → Text → Prop}

theorem mono (h : Reads source p y P) (hPQ : ∀ v s, P v s → Q v s) :
    Reads source p y Q := by
  intro hsub
  obtain ⟨v, s, hP, hrest⟩ := h hsub
  exact ⟨v, s, hPQ v s hP, hrest⟩

theorem pure {v : α} (h : P v y) : Reads source (pure v) y P :=
  fun _ => ⟨v, y, h, List.suffix_refl y, id, Nat.le_refl _, rfl⟩

theorem bind (h : Reads source p y P)
    (hf : ∀ v s, P v s → sizeAhead s ≤ sizeAhead y → Reads source (f v) s R) :
    Reads source (p >>= f) y R := by
  intro hsub
  obtain ⟨v, u, hP, hu, hfaultless, hsize, hrun⟩ := h hsub
  obtain ⟨w, s, hR, hs, hfaultless', hsize', hrun'⟩ := hf v u hP hsize (hu.trans hsub)
  refine ⟨w, s, hR, hs.trans hu, hfaultless ∘ hfaultless', hsize'.trans hsize, ?_⟩
  change (p (ahead source y)).bind (fun r => f r.1 r.2) = _
  rw [hrun]
  exact hrun'

theorem map {g : α → β} (h : Reads source p y P) (hg : ∀ v s, P v s → R (g v) s) :
    Reads source (g <$> p) y R := by
  rw [map_eq_pure_bind]
  exact h.bind fun v s hP _ => .pure (hg v s hP)

theorem of_eq (h : Reads source q y P)
    (hpq : y <:+ source → p (ahead source y) = q (ahead source y)) :
    Reads source p y P := by
  intro hsub
  rw [hpq hsub]
  exact h hsub

theorem get {f : List Token → Parser β} (h : Reads source (f (ahead source y)) y R) :
    Reads source (MonadState.get >>= f) y R := h

/-- One step of a parser that looks at the tokens, or takes the next one. -/
theorem step {v : Token → α} (h : Next y k w s)
    (hp : ∀ t, t.kind = k → p (t :: ahead source s) = .ok (v t, ahead source s))
    (hf : ∀ t, t.kind = k → t.lexeme = w → Reads source (f (v t)) s R) :
    Reads source (p >>= f) y R := by
  intro hsub
  obtain ⟨t, hk, hw, hahead⟩ := h.ahead hsub
  obtain ⟨u, s', hR, hs, hfaultless, hsize, hrun⟩ := hf t hk hw (h.suffix.trans hsub)
  have hle : sizeAhead s ≤ sizeAhead y := h.sizeAhead ▸ Nat.le_succ _
  refine ⟨u, s', hR, hs.trans h.suffix, h.faultless ∘ hfaultless, hsize.trans hle, ?_⟩
  change (p (ahead source y)).bind (fun r => f r.1 r.2) = _
  rw [hahead, hp t hk]
  exact hrun

theorem look {v : Token → List Token → α} (h : Next y k w s)
    (hp : ∀ t, t.kind = k → p (t :: ahead source s) =
      .ok (v t (ahead source s), t :: ahead source s))
    (hf : ∀ t, t.kind = k → t.lexeme = w → Reads source (f (v t (ahead source s))) y R) :
    Reads source (p >>= f) y R := by
  intro hsub
  obtain ⟨t, hk, hw, hahead⟩ := h.ahead hsub
  obtain ⟨u, s', hR, hs, hfaultless, hsize, hrun⟩ := hf t hk hw hsub
  refine ⟨u, s', hR, hs, hfaultless, hsize, ?_⟩
  change (p (ahead source y)).bind (fun r => f r.1 r.2) = _
  rw [hahead, hp t hk]
  rw [hahead] at hrun
  exact hrun

end Combinators

/-! ## Looking and taking -/

section Steps

variable {β : Type} {R : β → Text → Prop}

theorem peek {f : Token → Parser β} (h : Next y k w s)
    (hf : ∀ t, t.kind = k → t.lexeme = w → Reads source (f t) y R) :
    Reads source (peek >>= f) y R :=
  look (v := fun t _ => t) h (fun _ _ => rfl) hf

theorem peekKind {f : TokenKind → Parser β} (h : Next y k w s)
    (hf : Reads source (f k) y R) : Reads source (peekKind 0 >>= f) y R :=
  look (v := fun t _ => t.kind) h (fun _ _ => rfl) fun _ hk _ => by rwa [hk]

theorem peekAny {f : TokenKind → Parser β} {n : Nat} (hf : ∀ k, Reads source (f k) y R) :
    Reads source (Parse.peekKind n >>= f) y R :=
  fun hsub => hf _ hsub

theorem peekNext {f : TokenKind → Parser β} {u : Text} (h : Next y k w s)
    (h' : Next s k' x u)
    (hf : Reads source (f k') y R) : Reads source (Parse.peekKind 1 >>= f) y R := by
  intro hsub
  obtain ⟨t, hk, hw, hahead⟩ := h'.ahead (h.suffix.trans hsub)
  refine look (v := fun _ ts => kindOf ts 0) h (fun _ _ => rfl) (fun _ _ _ => ?_) hsub
  rw [hahead]
  change Reads source (f t.kind) y R
  rwa [hk]

theorem take {f : Token → Parser β} (h : Next y k w s)
    (hf : ∀ t, t.kind = k → t.lexeme = w → Reads source (f t) s R) :
    Reads source (take >>= f) y R := by
  refine step (v := id) h (fun t hk => ?_) hf
  have hne : t.kind ≠ .eof := hk ▸ h.ne_eof
  change Except.ok (t, behind (t :: ahead source s)) = _
  rw [behind, if_neg (by simpa using hne)]
  rfl

theorem check_yes {f : Bool → Parser β} (h : Next y k w s)
    (hf : Reads source (f true) y R) : Reads source (check k >>= f) y R := by
  refine look (v := fun t _ => k != .eof && t.kind == k) h (fun _ _ => rfl) fun t hk _ => ?_
  have htrue : (k != .eof && k == k) = true := by simpa using h.ne_eof
  rw [hk, htrue]
  exact hf

theorem check_no {f : Bool → Parser β} (h : Avoids source y k)
    (hf : Reads source (f false) y R) : Reads source (check k >>= f) y R := by
  intro hsub
  have hfalse : (k != .eof && kindOf (ahead source y) 0 == k) = false := by
    rw [beq_eq_false_iff_ne.mpr (h hsub), Bool.and_false]
  obtain ⟨v, s, hrest⟩ := hf hsub
  refine ⟨v, s, ?_⟩
  change _ ∧ _ ∧ _ ∧ _ ∧ f (k != .eof && kindOf (ahead source y) 0 == k)
    (ahead source y) = _
  rwa [hfalse]

theorem atEnd_no {f : Bool → Parser β} (h : Avoids source y .eof)
    (hf : Reads source (f false) y R) : Reads source (atEnd >>= f) y R := by
  intro hsub
  obtain ⟨v, s, hrest⟩ := hf hsub
  refine ⟨v, s, ?_⟩
  change _ ∧ _ ∧ _ ∧ _ ∧ f (kindOf (ahead source y) 0 == .eof) (ahead source y) = _
  rwa [beq_eq_false_iff_ne.mpr (h hsub)]

theorem accept_yes {p q : Parser β} (h : Next y k w s) (hp : Reads source p s R) :
    Reads source (accept k >>= fun b => if b = true then p else q) y R := by
  intro hsub
  obtain ⟨t, hk, hw, hahead⟩ := h.ahead hsub
  obtain ⟨v, u, hR, hs, hfaultless, hsize, hrun⟩ := hp (h.suffix.trans hsub)
  refine ⟨v, u, hR, hs.trans h.suffix, h.faultless ∘ hfaultless,
    hsize.trans (h.sizeAhead ▸ Nat.le_succ _), ?_⟩
  rw [hahead, accept_run, if_pos ⟨h.ne_eof, hk⟩]
  exact hrun

theorem peekKind_of {f : TokenKind → Parser β} {good : TokenKind → Bool}
    (h : y <:+ source → good (kindOf (ahead source y) 0) = true)
    (hf : ∀ k, good k = true → Reads source (f k) y R) :
    Reads source (Parse.peekKind 0 >>= f) y R :=
  fun hsub => hf _ (h hsub) hsub

theorem starts {α : Type} {p : Parser α} {P : α → Text → Prop} {good : TokenKind → Bool}
    (h : Reads source p y P) (hp : ∀ ts, good (kindOf ts 0) = false → Fails p ts)
    (hsub : y <:+ source) : good (kindOf (ahead source y) 0) = true := by
  obtain ⟨v, s, -, -, -, -, hrun⟩ := h hsub
  by_contra hgood
  exact hp _ (Bool.eq_false_iff.mpr hgood) v _ hrun

theorem avoids {α : Type} {p : Parser α} {P : α → Text → Prop} (h : Reads source p y P)
    (hp : ∀ ts, kindOf ts 0 = k → Fails p ts) : Avoids source y k := by
  intro hsub hk
  obtain ⟨v, s, -, -, -, -, hrun⟩ := h hsub
  exact hp _ hk v _ hrun

theorem accepts_no (h : Avoids source y k) :
    Reads source (accept k) y fun b u => b = false ∧ u = y :=
  fun hsub => ⟨false, y, ⟨rfl, rfl⟩, List.suffix_refl y, id, Nat.le_refl _,
    accept_ne (h hsub)⟩

theorem accepts_yes (h : Next y k w s) :
    Reads source (accept k) y fun b u => b = true ∧ u = s := by
  unfold accept
  exact .check_yes h (.take h fun _ _ _ => .pure ⟨rfl, rfl⟩)

theorem accept_no {p q : Parser β} (h : Avoids source y k) (hq : Reads source q y R) :
    Reads source (accept k >>= fun b => if b = true then p else q) y R := by
  intro hsub
  obtain ⟨t, ts, hahead⟩ := List.exists_cons_of_ne_nil (ended_ahead source y).ne_nil
  have hk := h hsub
  obtain ⟨v, s, hrest⟩ := hq hsub
  rw [hahead] at hk hrest
  refine ⟨v, s, ?_⟩
  rwa [hahead, accept_run, if_neg fun h => hk h.2]

theorem expect {f : Token → Parser β} {what : Text} (h : Next y k w s)
    (hf : ∀ t, t.kind = k → t.lexeme = w → Reads source (f t) s R) :
    Reads source (expect k what >>= f) y R := by
  intro hsub
  obtain ⟨t, hk, hw, hahead⟩ := h.ahead hsub
  obtain ⟨v, u, hR, hs, hfaultless, hsize, hrun⟩ := hf t hk hw (h.suffix.trans hsub)
  refine ⟨v, u, hR, hs.trans h.suffix, h.faultless ∘ hfaultless,
    hsize.trans (h.sizeAhead ▸ Nat.le_succ _), ?_⟩
  rw [hahead, expect_run, if_pos ⟨h.ne_eof, hk⟩]
  exact hrun

end Steps

end Reads

/-! ## Small rules -/

theorem reads_turbofish (h : Next y k w s)
    (hk : k = .doubleColon → ∃ k' w' u, Next s k' w' u ∧ k' ≠ .lt) :
    Reads source turbofish y fun _ u => u = y := by
  unfold turbofish
  by_cases hcolons : k = .doubleColon
  · obtain ⟨k', w', u, h', hne⟩ := hk hcolons
    subst hcolons
    refine .check_yes h (.peekNext h h' ?_)
    rw [Bool.true_and, if_neg (by simpa using hne)]
    exact .pure rfl
  · refine .check_no (.of_next h hcolons) (.peekAny fun k => ?_)
    exact .pure rfl

theorem reads_flag {b : Bool} {m : Text} (h : Next (m ++ y) k w y)
    (hy : Avoids source y k) :
    Reads source (accept k) (Text.when b m ++ y) fun c u => c = b ∧ u = y := by
  cases b with
  | true => exact .accepts_yes h
  | false => exact .accepts_no hy

theorem sizeAhead_flag {m : Text} (b : Bool) (h : Next (m ++ y) k w y) :
    sizeAhead y ≤ sizeAhead (Text.when b m ++ y) := by
  cases b with
  | true => exact h.sizeAhead.symm ▸ Nat.le_succ _
  | false => exact Nat.le_refl _

theorem reads_argName (h : y <:+ source →
    kindOf (ahead source y) 0 ∈ [.ident, .selfValueKw] →
      kindOf (ahead source y) 1 ≠ .colon) :
    Reads source argName y fun _ u => u = y := by
  intro hsub
  refine ⟨(), y, rfl, List.suffix_refl y, id, Nat.le_refl _, ?_⟩
  have hne : ¬ ((((TokenKind.ident != .eof) && kindOf (ahead source y) 0 == .ident) ||
      ((TokenKind.selfValueKw != .eof) && kindOf (ahead source y) 0 == .selfValueKw)) &&
      kindOf (ahead source y) 1 == .colon) = true := by
    simpa using h hsub
  change (if _ = true then _ else _ : Parser Unit) (ahead source y) = _
  rw [if_neg hne]
  rfl

/-- A type that is read in front of something else than a mark begins with no name in
front of the mark. -/
theorem Reads.name_apart {fuel : Nat} {P : Ty → Text → Prop}
    (h : Reads source (ty source fuel) y P)
    (hP : ∀ v u, P v u → Avoids source u .equals ∧ Avoids source u .colon)
    (hsub : y <:+ source) (hy : kindOf (ahead source y) 0 ∈ [.ident, .selfValueKw]) :
    kindOf (ahead source y) 1 ∉ [.equals, .colon] := by
  intro hmark
  obtain ⟨v, u, hPu, hu, -, -, hrun⟩ := h hsub
  obtain ⟨t, ts, hahead⟩ := List.exists_cons_of_ne_nil (ended_ahead source y).ne_nil
  rw [hahead] at hy hmark hrun
  have hk : kindOf ts 0 ∈ [.equals, .colon] := hmark
  have hy : t.kind ∈ [.ident, .selfValueKw] := hy
  have hrest := ty_of_name (by simpa using hy) (fun h => ?_) v _ hrun
  · obtain ⟨hequals, hcolon⟩ := hP v u hPu
    rw [← hrest] at hk
    rcases List.mem_pair.mp hk with hk | hk
    · exact hequals (hu.trans hsub) hk
    · exact hcolon (hu.trans hsub) hk
  · generalize kindOf ts 0 = k at hk h
    rcases List.mem_pair.mp hk with rfl | rfl <;> revert h <;> decide

theorem reads_tildeConst (h : Avoids source y .tilde) :
    Reads source tildeConst y fun _ u => u = y := by
  unfold tildeConst
  exact .accept_no h (.pure rfl)

theorem sizeAhead_pos : 0 < sizeAhead y := Nat.succ_pos _

/-- The spelling of a lifetime in front of a type. -/
def lifetimeText (lifetime : Option Text) : Text :=
  lifetime.elim [] fun l => l ++ (" " : Text)

theorem next_lifetime {l : Text} (hl : Word .lifetime l) (y : Text) :
    Next (lifetimeText (some l) ++ y) .lifetime l y := by
  rw [lifetimeText, Option.elim_some, List.append_assoc]
  exact next_spaced hl rfl y

theorem reads_lifetime? {lifetime : Option Text}
    (hlifetime : ∀ l ∈ lifetime, Word .lifetime l) (hy : Avoids source y .lifetime) :
    Reads source lifetime? (lifetimeText lifetime ++ y) fun v u =>
    v = lifetime ∧ u = y := by
  unfold lifetime?
  cases lifetime with
  | none => exact .check_no hy (.pure ⟨rfl, rfl⟩)
  | some l =>
      have hnext := next_lifetime (hlifetime l rfl) y
      exact .check_yes hnext (.take hnext fun t _ ht => .pure ⟨by rw [ht], rfl⟩)

theorem sizeAhead_lifetime {lifetime : Option Text}
    (hlifetime : ∀ l ∈ lifetime, Word .lifetime l)
    (y : Text) : sizeAhead y ≤ sizeAhead (lifetimeText lifetime ++ y) := by
  cases lifetime with
  | none => exact Nat.le_refl _
  | some l => exact (next_lifetime (hlifetime l rfl) y).sizeAhead ▸ Nat.le_succ _

/-- Lifetimes with commas between them, in front of a closing bracket. -/
theorem reads_lifetimes {names : List Text}
    (hnames : ∀ l ∈ names, Word .lifetime l) {n : Nat}
    (hn : sizeAhead (Text.join ", " names ++ (">" ++ z)) ≤ n) :
    Reads source (lifetimes .comma n) (Text.join ", " names ++ (">" ++ z)) fun v u =>
      v = names ∧ u = ">" ++ z := by
  induction names generalizing n with
  | nil =>
      obtain ⟨n, rfl⟩ := Nat.exists_eq_add_one.mpr (sizeAhead_pos.trans_le hn)
      unfold lifetimes
      exact .check_no (.of_next (next_gt z) (by decide)) (.pure ⟨rfl, rfl⟩)
  | cons l names ih =>
      obtain ⟨n, rfl⟩ := Nat.exists_eq_add_one.mpr (sizeAhead_pos.trans_le hn)
      have hl := hnames l (List.mem_cons_self ..)
      unfold lifetimes
      cases names with
      | nil =>
          have hnext := next_word (y := ">" ++ z) hl rfl ⟨62, z, rfl, by decide⟩
          refine .check_yes hnext (.take hnext fun t _ ht => ?_)
          refine .accept_no (.of_next (next_gt z) (by decide)) (.pure ⟨?_, rfl⟩)
          rw [ht]
      | cons l' names =>
          rw [Text.join, List.append_assoc, List.append_assoc] at hn ⊢
          have hnext :=
              next_word (y := ", " ++ (Text.join ", " (l' :: names) ++ (">" ++ z))) hl rfl
            ⟨44, _, rfl, by decide⟩
          have hcomma := next_comma (Text.join ", " (l' :: names) ++ (">" ++ z))
          have hsize := hnext.sizeAhead
          have hsize' := hcomma.sizeAhead
          refine .check_yes hnext (.take hnext fun t _ ht => .accept_yes hcomma ?_)
          refine .bind (ih (fun m hm => hnames m (List.mem_cons_of_mem l hm)) (by omega)) ?_
          rintro v u ⟨rfl, rfl⟩ -
          exact .pure ⟨by rw [ht], rfl⟩

variable {names : List Text}

theorem binderText_append (hne : names ≠ []) (y : Text) :
    binderText names ++ y = "for<" ++ (Text.join ", " names ++ (">" ++ (" " ++ y))) := by
  rw [binderText, if_neg (by simpa using hne)]
  simp [Text.concat]
  rfl

theorem next_binder (hne : names ≠ []) (y : Text) :
    Next (binderText names ++ y) .forKw "for"
      ("<" ++ (Text.join ", " names ++ (">" ++ (" " ++ y)))) :=
  binderText_append hne y ▸ next_for _

theorem reads_binder (hne : names ≠ []) (hnames : ∀ l ∈ names, Word .lifetime l)
    (y : Text) :
    Reads source binder (binderText names ++ y) fun v u => v = names ∧ u = y := by
  unfold binder
  refine .expect (next_binder hne y) fun _ _ _ => .expect (next_lt _) fun _ _ _ => .get ?_
  refine .bind (reads_lifetimes hnames (length_ahead source _).ge) ?_
  rintro v u ⟨rfl, rfl⟩ -
  exact .expect (.behind (next_gt (" " ++ y))) fun _ _ _ => .pure ⟨rfl, rfl⟩

theorem sizeAhead_binder (hnames : ∀ l ∈ names, Word .lifetime l) (y : Text) :
    sizeAhead y ≤ sizeAhead (binderText names ++ y) := by
  rcases eq_or_ne names [] with rfl | hne
  · exact Nat.le_refl _
  · obtain ⟨_, _, ⟨-, rfl⟩, -, -, hle, -⟩ := reads_binder hne hnames y (List.suffix_refl _)
    exact hle

theorem reads_binder? (hnames : ∀ l ∈ names, Word .lifetime l)
    (hy : names = [] → Avoids source y .forKw) :
    Reads source binder? (binderText names ++ y) fun v u => v = names ∧ u = y := by
  unfold binder?
  rcases eq_or_ne names [] with rfl | hne
  · exact .check_no (hy rfl) (.pure ⟨rfl, rfl⟩)
  · exact .check_yes (next_binder hne y) (reads_binder hne hnames y)

/-! ## Lists -/

/-- Elements with commas between them are read up to what closes the list. -/
theorem reads_commaLoop {α β γ : Type} {text : β → Text} {shown : α → γ} {meant : β → γ}
    {elem : Parser α} {close : TokenKind} {m n : Nat} {xs : List β} (hz : Next z close w s)
    (hclose : close ≠ .comma)
    (helem : ∀ a ∈ xs, ∀ u, u = z ∨ (∃ t, u = ", " ++ t) → sizeAhead (text a ++ u) ≤ m →
      Reads source elem (text a ++ u) (fun v t => shown v = meant a ∧ t = u) ∧
        Avoids source (text a ++ u) close ∧ Avoids source (text a ++ u) .eof)
    (hm : sizeAhead (Text.join ", " (xs.map text) ++ z) ≤ m)
    (hn : sizeAhead (Text.join ", " (xs.map text) ++ z) ≤ n) :
    Reads source (commaLoop close elem n) (Text.join ", " (xs.map text) ++ z) fun vs u =>
      vs.map shown = xs.map meant ∧ u = z := by
  induction xs generalizing n with
  | nil =>
      obtain ⟨n, rfl⟩ := Nat.exists_eq_add_one.mpr (sizeAhead_pos.trans_le hn)
      unfold commaLoop
      exact .check_yes hz (.atEnd_no (avoids_eof hz) (.pure ⟨rfl, rfl⟩))
  | cons a xs ih =>
      obtain ⟨n, rfl⟩ := Nat.exists_eq_add_one.mpr (sizeAhead_pos.trans_le hn)
      unfold commaLoop
      cases xs with
      | nil =>
          obtain ⟨ha, hne, heof⟩ := helem a (List.mem_cons_self ..) z (Or.inl rfl) hm
          refine .check_no hne (.atEnd_no heof (.bind ha ?_))
          rintro v u ⟨hv, rfl⟩ -
          refine .accept_no (.of_next hz hclose) (.pure ⟨?_, rfl⟩)
          rw [List.map_singleton, List.map_singleton, hv]
      | cons b xs =>
          have hsplit : Text.join ", " ((a :: b :: xs).map text) ++ z =
              text a ++ (", " ++ (Text.join ", " ((b :: xs).map text) ++ z)) := by
            rw [List.map_cons, List.map_cons, Text.join, List.append_assoc,
              List.append_assoc]
          rw [hsplit] at hm hn ⊢
          have hcomma := next_comma (Text.join ", " ((b :: xs).map text) ++ z)
          obtain ⟨ha, hne, heof⟩ := helem a (List.mem_cons_self ..) _ (Or.inr ⟨_, rfl⟩) hm
          refine .check_no hne (.atEnd_no heof (.bind ha ?_))
          rintro v u ⟨hv, rfl⟩ hle
          have hsize := hcomma.sizeAhead
          refine .accept_yes hcomma
            (.bind (ih (fun b hb => helem b (List.mem_cons_of_mem a hb))
            (by omega) (by omega)) ?_)
          rintro vs u ⟨hvs, rfl⟩ -
          exact .pure ⟨by rw [List.map_cons, hv, hvs]; rfl, rfl⟩

/-- Elements that begin neither with what closes the list nor with the end of the source. -/
theorem reads_elements {α β γ : Type} {text : β → Text} {shown : α → γ} {meant : β → γ}
    {elem : Parser α} {close : TokenKind} {m : Nat} {xs : List β} (hz : Next z close w s)
    (hclose : close ≠ .comma)
    (helem : ∀ a ∈ xs, ∀ u, u = z ∨ (∃ t, u = ", " ++ t) → sizeAhead (text a ++ u) ≤ m →
      Reads source elem (text a ++ u) (fun v t => shown v = meant a ∧ t = u) ∧
        Avoids source (text a ++ u) close ∧ Avoids source (text a ++ u) .eof)
    (hm : sizeAhead (Text.join ", " (xs.map text) ++ z) ≤ m) :
    Reads source (commaList close elem) (Text.join ", " (xs.map text) ++ z) fun vs u =>
      vs.map shown = xs.map meant ∧ u = z :=
  .get (length_ahead source _ ▸ reads_commaLoop hz hclose helem hm (Nat.le_succ _))

/-- Elements of a rule that fails on what closes the list and on the end of the source. -/
theorem reads_commaList {α : Type} {render : α → Text} {elem : Parser α} {close : TokenKind}
    {m : Nat} {xs : List α} (hz : Next z close w s) (hclose : close ≠ .comma)
    (helem : ∀ a ∈ xs, ∀ u, u = z ∨ (∃ t, u = ", " ++ t) → sizeAhead (render a ++ u) ≤ m →
      Reads source elem (render a ++ u) fun v t => render v = render a ∧ t = u)
    (hfails : ∀ k ∈ [close, .eof], ∀ ts, kindOf ts 0 = k → Fails elem ts)
    (hm : sizeAhead (Text.join ", " (xs.map render) ++ z) ≤ m) :
    Reads source (commaList close elem) (Text.join ", " (xs.map render) ++ z) fun vs u =>
      vs.map render = xs.map render ∧ u = z := by
  refine reads_elements hz hclose (fun a ha u hu hle => ?_) hm
  have hread := helem a ha u hu hle
  exact ⟨hread, hread.avoids (hfails close (by simp)), hread.avoids (hfails .eof (by simp))⟩

end Deriver.Parse

/-!
## Text that is captured again

Array lengths, constant arguments and macro calls are kept as they were written. Such
a text is cut into the same tokens wherever it is met again, as long as it does not
form a longer token with what stands behind it, and so it is captured again as it is:
`reads_capture` and `reads_macro`.
-/

namespace Deriver

open Parse

/-- A text of which all is captured in front of a token of `stops`. -/
structure Captured (stops : List TokenKind) (x : Text) : Prop where
  solid : x = [] ∨ Solid x
  trim : x.trim = x
  size : ∀ ws t rest, ws.map (·.kind) = (ownTokens x).map (·.kind) → t.kind ∈ stops →
    captureSize false stops 0 (ws ++ t :: rest) = ws.length

/-- Whether a token begins a path where a type is expected. -/
def StartsPath (t : Token) : Prop :=
  (t.kind = .doubleColon ∨ isPathIdent t.kind = true) ∧ (t.kind = .ident → t.lexeme ≠ "_")

/-- A text that is a macro call: a path, an exclamation mark, and one token or one
group of tokens. -/
structure MacroText (x : Text) : Prop where
  solid : Solid x
  trim : x.trim = x
  starts : ∀ t, (ownTokens x).head? = some t → StartsPath t
  call : ∃ ws b us f p, ownTokens x = ws ++ b :: us ∧ b.kind = .bang ∧
    8 * (ws.length + 1) + 2 ≤ f ∧
    path x f (ownTokens x ++ [endOf x]) = .ok (p, b :: us ++ [endOf x]) ∧
    ∀ vs rest, vs.map (·.kind) = us.map (·.kind) → skipGroup 0 (vs ++ rest) = rest

variable {source x y : Text}

namespace Solid

theorem textOf (h : Solid x) : Parse.textOf x (ownTokens x) = x.trim := by
  obtain ⟨t, us, hfirst, hoffset⟩ := h.first
  obtain ⟨us', t', hlast, hstop⟩ := h.last
  have hx : x.isEmpty = false := by simpa using h.ne_nil
  unfold Parse.textOf
  rw [hlast, List.getLast?_concat, ← hlast, hfirst, List.head?_cons]
  simp only [hx, Bool.false_eq_true, if_false, hoffset, hstop, List.drop_zero, Nat.sub_zero,
    List.take_length]

theorem ahead (h : Solid x) (hy : Fits x y) (hsub : x ++ y <:+ source) :
    ∃ pre, source = pre ++ x ++ y ∧ Deriver.ahead source (x ++ y) =
      (ownTokens x).map (behindText pre) ++ Deriver.ahead source y := by
  obtain ⟨pre, rfl⟩ := hsub
  refine ⟨pre, (List.append_assoc ..).symm, ?_⟩
  rw [ahead_append, h.pieces_append hy, Scan.tokensAt_append, Scan.tokensAt_shift,
    ← ownTokens_eq, Scan.bytes_pieces, ← Position.after_append, ← List.append_assoc,
    ahead_append, List.length_append, List.append_assoc]
  rfl

theorem faultless (h : Solid x) (hx : Fits x y) (hy : Faultless y) :
    Faultless (x ++ y) := by
  rw [Faultless, h.pieces_append hx]
  exact fun p hp => (List.mem_append.mp hp).elim (faultless_iff.mpr h.clean p) (hy p)

theorem sizeAhead_le (h : Solid x) (hy : Fits x y) : sizeAhead y ≤ sizeAhead (x ++ y) := by
  rw [sizeAhead, sizeAhead, h.pieces_append hy, Scan.tokensAt_append, List.length_append]
  have hlen : (Scan.tokensAt .start 0 (Scan.pieces y)).length = (Scan.tokensAt
      (Position.start.after (Scan.bytes (Scan.pieces x)))
        (0 + (Scan.bytes (Scan.pieces x)).length)
      (Scan.pieces y)).length := length_tokensAt
  omega

theorem textOf_between (h : Solid x) (htrim : x.trim = x) (hy : Fits x y)
    (hsub : x ++ y <:+ source) :
    Parse.textOf source (between (Deriver.ahead source (x ++ y))
    (Deriver.ahead source y)) = x := by
  obtain ⟨pre, hsource, hown⟩ := h.ahead hy hsub
  rw [hown, between, List.length_append, Nat.add_sub_cancel, List.take_left, hsource]
  exact (textOf_own pre y (fun _ h => h) _).symm.trans (h.textOf.trans htrim)

theorem reads {α : Type} {p : Parser α} {P : α → Text → Prop} (h : Solid x) (hy : Fits x y)
    (hp : x ++ y <:+ source → ∃ v, P v y ∧
      p (Deriver.ahead source (x ++ y)) = .ok (v, Deriver.ahead source y)) :
    Reads source p (x ++ y) P := by
  intro hsub
  obtain ⟨v, hP, hrun⟩ := hp hsub
  exact ⟨v, y, hP, List.suffix_append x y, h.faultless hy, h.sizeAhead_le hy, hrun⟩

end Solid

namespace Parse

variable {stops : List TokenKind} {k : TokenKind} {w s : Text}

theorem captureSize_of_stop {ts : List Token} (h : kindOf ts 0 ∈ stops) :
    captureSize false stops 0 ts = 0 := by
  cases ts with
  | nil => rfl
  | cons t ts =>
      have ht : t.kind ∈ stops := h
      rw [captureSize, if_pos (by simp [ht])]

theorem reads_capture (h : Captured stops x) (hfits : x ≠ [] → Fits x y) (hy : Next y k w s)
    (hk : k ∈ stops) :
    Reads source (capture source false stops) (x ++ y) fun v u => v = x ∧ u = y := by
  intro hsub
  obtain ⟨t, ht, -, hahead⟩ := hy.ahead ((List.suffix_append x y).trans hsub)
  rcases eq_or_ne x [] with rfl | hx
  · refine ⟨[], y, ⟨rfl, rfl⟩, List.suffix_refl y, id, Nat.le_refl _, ?_⟩
    rw [List.nil_append, hahead]
    have hzero : captureSize false stops 0 (t :: ahead source s) = 0 :=
      captureSize_of_stop (show t.kind ∈ stops by rwa [ht])
    change Except.ok (textOf source (between (t :: ahead source s)
      ((t :: ahead source s).drop (captureSize false stops 0 (t :: ahead source s)))),
      (t :: ahead source s).drop (captureSize false stops 0 (t :: ahead source s))) = _
    rw [hzero, List.drop_zero, between, Nat.sub_self]
    rfl
  · have hsolid := h.solid.resolve_left hx
    have hfits := hfits hx
    refine hsolid.reads hfits (fun hsub => ⟨x, ⟨rfl, rfl⟩, ?_⟩) hsub
    obtain ⟨pre, -, hown⟩ := hsolid.ahead hfits hsub
    have hsize : captureSize false stops 0 (ahead source (x ++ y)) =
        ((ownTokens x).map (behindText pre)).length := by
      rw [hown, hahead, h.size _ t _ (by simp [behindText, Token.place]) (ht ▸ hk)]
    have hdrop : (ahead source (x ++ y)).drop
        (captureSize false stops 0 (ahead source (x ++ y))) =
        ahead source y := by rw [hsize, hown, List.drop_left]
    change Except.ok (textOf source (between (ahead source (x ++ y))
      ((ahead source (x ++ y)).drop (captureSize false stops 0 (ahead source (x ++ y))))),
      (ahead source (x ++ y)).drop (captureSize false stops 0 (ahead source (x ++ y)))) = _
    rw [hdrop, hsolid.textOf_between h.trim hfits hsub]

/-- The tokens of a macro call up to the mark, in the text of the call by itself and
behind `pre` in a source. -/
def callOverlap {ws us rest : List Token} {b : Token} (hown : ownTokens x = ws ++ b :: us)
    (hb : b.kind = .bang) (pre post : Text) (hrest : Ended rest) : Overlap where
  source := x
  source' := pre ++ x ++ post
  run := ws ++ [b]
  rest := us ++ [endOf x]
  rest' := rest
  shift := (Position.start.after pre).shift
  gap := pre.length
  ended := ended_append _ (ended_append _ ⟨endOf x, rfl, rfl⟩)
  ended' := ended_append _ hrest
  last := fun t ht => by
    rw [List.getLast?_concat] at ht
    cases ht
    rw [hb]
    decide
  text := fun vs hvs => textOf_own pre post (fun t ht => by
    have := hvs t ht
    simp only [hown, List.mem_append, List.mem_cons] at this ⊢
    tauto) _

section Calls

variable {ws us rest : List Token} {b : Token} {f f' : Nat} {pre post : Text} {p : Path}

theorem agree_call (hown : ownTokens x = ws ++ b :: us) (hb : b.kind = .bang)
    (pre post : Text)
    (hrest : Ended rest) (hf : 8 * (ws.length + 1) + 2 ≤ f)
    (hf' : 8 * (ws.length + 1) + 2 ≤ f') :
    (callOverlap hown hb pre post hrest).Agree (Path.place (Position.start.after pre).shift)
      (ws ++ [b])
      (path x f (ws ++ b :: us ++ [endOf x]))
      (path (pre ++ x ++ post) f'
      (ws.map (behindText pre) ++ behindText pre b :: rest)) := by
  have hlen : (ws ++ [b]).length = ws.length + 1 := by simp
  have hat := (Overlap.grammar (callOverlap hown hb pre post hrest) f f').path (ws ++ [b])
    ⟨List.suffix_refl _, by simp⟩ (by omega) (by omega)
  have hleft : (callOverlap hown hb pre post hrest).left (ws ++ [b]) =
      ws ++ b :: us ++ [endOf x] := by
    simp [Overlap.left, callOverlap]
  have hright : (callOverlap hown hb pre post hrest).right (ws ++ [b]) =
      ws.map (behindText pre) ++ behindText pre b :: rest := by
    simp [Overlap.right, callOverlap]
    rfl
  unfold Overlap.At at hat
  rwa [hleft, hright] at hat

theorem path_of_call (hown : ownTokens x = ws ++ b :: us)
    (hb : b.kind = .bang) (post : Text)
    (hrest : Ended rest) (hf : 8 * (ws.length + 1) + 2 ≤ f)
    (hf' : 8 * (ws.length + 1) + 2 ≤ f')
    (h : path (pre ++ x ++ post) f' (ws.map (behindText pre) ++ behindText pre b :: rest) =
      .ok (p, behindText pre b :: rest)) :
    ∃ p', path x f (ownTokens x ++ [endOf x]) = .ok (p', b :: us ++ [endOf x]) := by
  have hagree := agree_call hown hb pre post hrest hf hf'
  rw [h, ← hown] at hagree
  generalize path x f (ownTokens x ++ [endOf x]) = r at hagree ⊢
  generalize hy : behindText pre b :: rest = y at hagree
  cases hagree with
  | ok v vs hsub hne =>
      have hvs : vs.map (behindText pre) ++ rest = [behindText pre b] ++ rest := hy.symm
      obtain ⟨b', rfl, -⟩ := List.map_eq_singleton_iff.mp (List.append_cancel_right hvs)
      obtain rfl : b' = b := by
        obtain ⟨ws', hws⟩ := hsub
        exact List.singleton_inj.mp (List.append_inj_right' hws rfl)
      exact ⟨v, rfl⟩
  | out hx hy' =>
      have hle := hy'.1.length_le
      rw [← hy] at hle
      simp only [callOverlap, List.length_cons] at hle
      omega

end Calls

/-- The path in front of the exclamation mark is read of a macro call wherever it stands. -/
theorem path_of_macro (h : MacroText x) (hy : Fits x y) {fuel : Nat}
    (hsub : x ++ y <:+ source) (hfuel : 8 * sizeAhead (x ++ y) + 2 ≤ fuel) :
    ∃ p b us, b.kind = .bang ∧
      path source fuel (ahead source (x ++ y)) = .ok (p, b :: (us ++ ahead source y)) ∧
      skipGroup 0 (us ++ ahead source y) = ahead source y := by
  obtain ⟨pre, rfl, hown⟩ := h.solid.ahead hy hsub
  obtain ⟨ws, b, us, f, p, htokens, hb, hf, hpath, hskip⟩ := h.call
  have hsize := length_ahead (pre ++ x ++ y) (x ++ y)
  rw [hown, htokens, List.length_append, List.length_map, List.length_append,
    List.length_cons] at hsize
  have hagree := agree_call htokens hb
    pre y (ended_append (us.map (behindText pre)) (ended_ahead (pre ++ x ++ y) y)) hf
      (by omega : 8 * (ws.length + 1) + 2 ≤ fuel)
  rw [← htokens, hpath] at hagree
  have hright : ahead (pre ++ x ++ y) (x ++ y) =
      ws.map (behindText pre) ++ behindText pre b :: (us.map (behindText pre) ++
        ahead (pre ++ x ++ y) y) := by
    rw [hown, htokens]
    simp
  rw [← hright] at hagree
  refine ⟨p.place (Position.start.after pre).shift, behindText pre b,
    us.map (behindText pre), hb, ?_,     hskip _ _ (by simp [behindText, Token.place])⟩
  generalize path (pre ++ x ++ y) fuel (ahead (pre ++ x ++ y) (x ++ y)) = r at hagree ⊢
  generalize hrest : b :: us ++ [endOf x] = rest at hagree
  cases hagree with
  | ok v vs =>
      have hvs : vs ++ (us ++ [endOf x]) = [b] ++ (us ++ [endOf x]) := hrest.symm
      rw [List.append_cancel_right hvs]
      rfl
  | out hx =>
      have hle := hx.1.length_le
      rw [← hrest] at hle
      simp only [callOverlap, List.cons_append, List.length_cons] at hle
      omega

theorem reads_macro (h : MacroText x) (hy : Fits x y) {pos : Position} {fuel : Nat}
    (hfuel : 8 * sizeAhead (x ++ y) + 2 ≤ fuel) :
    Reads source (pathOrMacro source (fuel + 1) pos) (x ++ y) fun v u =>
    v.render = x ∧ u = y := by
  refine h.solid.reads hy fun hsub => ?_
  obtain ⟨p, b, us, hb, hpath, hskip⟩ := path_of_macro h hy hsub hfuel
  have htext := h.solid.textOf_between h.trim hy hsub
  refine ⟨.macroCall pos x, ⟨by rw [Ty.render], rfl⟩, ?_⟩
  unfold pathOrMacro
  change ((path source fuel (ahead source (x ++ y))).bind fun r => _) = _
  rw [hpath]
  change (accept .bang >>= fun c => if c = true then _ else _ : Parser Ty) (b :: _) = _
  rw [accept_run, if_pos ⟨by decide, hb⟩]
  change Except.ok (Ty.macroCall pos (textOf source (between _ (skipGroup 0 _))),
    skipGroup 0 _) = _
  rw [hskip, htext]

end Parse

end Deriver
