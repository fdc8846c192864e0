import Deriver.Parse.Cursor
import Deriver.Proofs.Parse.Forward

/-!
# The cursor follows the parser

Main definition: `Tracks`. A step of the cursor that begins inside the tokens comes to
an end inside them and never goes back. As long as no error was met it has the value of
the parser on the tokens ahead and leaves the tokens the parser leaves. At the first
error of the parser it notes that error and is in a panic, and a step that begins in a
panic stays in it and notes nothing. What the step does then has no counterpart in the
parser, and the relation asks only that it ends, inside the tokens: that is why the rules
below go on behind an error with whatever parser stands on the other side.

The only thing that may break a step off is text that the source does not have, which
does not happen if the source is the one the tokens were read from.
-/

namespace Deriver.Cursor

open Parse (Ended kindOf)

/-- The last token marks the end. -/
class Input.Closed (i : Input) : Prop where
  ended : Ended i.tokens

/-- The source has the text from any token to a later one, unless it is empty. -/
def Input.Covers (i : Input) : Prop :=
  i.source = [] ∨ ∀ (m n : Nat) (t u : Token), m ≤ n → i.tokens[m]? = some t →
    i.tokens[n]? = some u → t.offset ≤ u.stop ∧ u.stop ≤ i.source.length

/-- The tokens from the next one on. -/
def Input.ahead (i : Input) (c : Cursor) : List Token := i.tokens.drop c.pos

/-- What a run comes to: a value and a cursor with a property, or a part that the source
does not have. -/
inductive Comes (i : Input) {α : Type} (Q : α → Cursor → Prop) :
    Option (Except Fault (α × Cursor)) → Prop where
  | ok (v : α) (c : Cursor) (h : Q v c) : Comes i Q (some (.ok (v, c)))
  | slice (start stop : Nat) (h : ¬ i.Covers) :
      Comes i Q (some (.error (.slice start stop)))

/-- How a step from `c` to `c'` with the value `v` compares with a result of the parser;
the values are compared only if `s` holds. -/
inductive Agrees (i : Input) (s : Prop) {α : Type} (c : Cursor) (v : α) (c' : Cursor) :
    Except ParseError (α × List Token) → Prop where
  | panic (x : Except ParseError (α × List Token)) (hc : c.panicking = true)
      (hc' : c'.panicking = true) (herrors : c'.errors = c.errors) : Agrees i s c v c' x
  | ok (w : α) (hc : c.panicking = false) (hc' : c'.panicking = false)
      (herrors : c'.errors = c.errors) (hv : s →
        v = w) : Agrees i s c v c' (.ok (w, i.ahead c'))
  | error (e : ParseError) (hc : c.panicking = false) (hc' : c'.panicking = true)
      (herrors : c'.errors = c.errors ++ [e]) : Agrees i s c v c' (.error e)

/-- The step follows the parser from `c` on. -/
def Tracks (i : Input) (s : Prop) {α : Type} (m : Step α) (p : Parser α) (c : Cursor) :
    Prop :=
  c.pos < i.tokens.length →
    Comes i (fun v c' => c.pos ≤ c'.pos ∧ c'.pos < i.tokens.length ∧
      Agrees i s c v c' (p (i.ahead c))) (m c)

variable {i : Input} {c : Cursor} {s r : Prop} {α β : Type}

theorem ahead_length : (i.ahead c).length = i.tokens.length - c.pos := List.length_drop

theorem ahead_eq_cons (h : c.pos < i.tokens.length) :
    i.ahead c = i.tokens[c.pos] :: i.tokens.drop (c.pos + 1) :=
  List.drop_eq_getElem_cons h

theorem kindOf_ahead (n : Nat) :
    kindOf (i.ahead c) n = kindOf i.tokens (c.pos + n) := by
  unfold kindOf Input.ahead
  rw [List.getElem?_drop]

theorem kind_of_head {t : Token} (h : (i.ahead c).head? = some t) :
    t.kind = kindOf (i.ahead c) 0 := by
  unfold kindOf
  rw [List.head?_eq_getElem?] at h
  rw [h]

theorem ne_eof_of_head {t : Token} {k : TokenKind} (h : (i.ahead c).head? = some t)
    (hkind : t.kind = k) (hk : k ≠ .eof) : kindOf (i.ahead c) 0 ≠ .eof := by
  rw [← kind_of_head h, hkind]
  exact hk

theorem kindOf_next {c' : Cursor} (h : c'.pos = c.pos + 1) (n : Nat) :
    kindOf (i.ahead c') n = kindOf (i.ahead c) (n + 1) := by
  rw [kindOf_ahead, kindOf_ahead, h, Nat.add_assoc, Nat.add_comm 1]

theorem kindOf_last [hi : i.Closed] {n : Nat} (h : i.tokens.length ≤ n + 1) :
    kindOf i.tokens n = .eof := by
  obtain ⟨t, ht, hk⟩ := hi.ended
  unfold kindOf
  rcases Nat.lt_or_ge n i.tokens.length with hn | hn
  · rw [List.getLast?_eq_getElem?, show i.tokens.length - 1 = n by omega] at ht
    rw [ht]
    exact hk
  · rw [List.getElem?_eq_none hn]

/-! ## Runs one after the other -/

theorem Comes.mono {Q R : α → Cursor → Prop} {x : Option (Except Fault (α × Cursor))}
    (h : Comes i Q x) (hQ : ∀ v c, Q v c → R v c) : Comes i R x := by
  cases h with
  | ok v c h => exact .ok v c (hQ v c h)
  | slice a b h => exact .slice a b h

theorem run_bind {m : Step α} {f : α → Step β} {v : α} {c' : Cursor}
    (h : m c = some (.ok (v, c'))) : (m >>= f) c = f v c' := by
  change (m c).bind _ = _
  rw [h]
  rfl

theorem fault_bind {m : Step α} {f : α → Step β} {e : Fault} (h : m c = some (.error e)) :
    (m >>= f) c = some (.error e) := by
  change (m c).bind _ = _
  rw [h]
  rfl

theorem Comes.bind {m : Step α} {f : α → Step β} {Q : α → Cursor → Prop}
    {R : β → Cursor → Prop}
    (h : Comes i Q (m c)) (hf : ∀ v c', Q v c' → Comes i R (f v c')) :
    Comes i R ((m >>= f) c) := by
  generalize hx : m c = x at h
  cases h with
  | ok v c' h => rw [run_bind hx]; exact hf v c' h
  | slice a b h => rw [fault_bind hx]; exact .slice a b h

/-- A step that begins in a panic stays in it, whatever the parser does. -/
theorem Agrees.in_panic {v : α} {c' : Cursor} {x : Except ParseError (α × List Token)}
    (h : Agrees i s c v c' x) (hpan : c.panicking = true) :
    c'.panicking = true ∧ c'.errors = c.errors := by
  cases h with
  | panic _ _ hpan' herrors => exact ⟨hpan', herrors⟩
  | ok _ hcalm => rw [hpan] at hcalm; cases hcalm
  | error _ hcalm => rw [hpan] at hcalm; cases hcalm

theorem Agrees.of_calm {v : α} {c c' c'' : Cursor} {x : Except ParseError (α × List Token)}
    (h : Agrees i s c' v c'' x) (hcalm : c.panicking = false)
    (hcalm' : c'.panicking = false)
    (herrors : c'.errors = c.errors) : Agrees i s c v c'' x := by
  cases h with
  | panic _ hpan => rw [hcalm'] at hpan; cases hpan
  | ok w _ hcalm'' herrors' hv => exact .ok w hcalm hcalm'' (herrors'.trans herrors) hv
  | error e _ hpan herrors' => exact .error e hcalm hpan (by rw [herrors', herrors])

theorem Agrees.of_moved {n : Nat} {v : α} {c' : Cursor}
    {x : Except ParseError (α × List Token)} (h : Agrees i s { c with pos := n } v c' x) :
    Agrees i s c v c' x := by
  cases h with
  | panic _ hpan hpan' herrors => exact .panic _ hpan hpan' herrors
  | ok w hcalm hcalm' herrors hv => exact .ok w hcalm hcalm' herrors hv
  | error e hcalm hpan herrors => exact .error e hcalm hpan herrors

namespace Tracks

variable {m m' : Step α} {p q : Parser α} {f : α → Step β} {g : α → Parser β}

theorem inside (h : c.pos < i.tokens.length → Tracks i s m p c) : Tracks i s m p c :=
  fun hc => h hc hc

theorem congr (hm : c.pos < i.tokens.length → m c = m' c) (h : Tracks i s m' p c) :
    Tracks i s m p c := by
  intro hc
  rw [hm hc]
  exact h hc

theorem congr_right (hp : p (i.ahead c) = q (i.ahead c)) (h : Tracks i s m q c) :
    Tracks i s m p c := by
  intro hc
  rw [hp]
  exact h hc

theorem move {n : Nat} (hle : c.pos ≤ n)
    (hlt : c.pos < i.tokens.length → n < i.tokens.length)
    (hm : c.pos < i.tokens.length → m c = m' { c with pos := n })
    (hp : p (i.ahead c) = q (i.tokens.drop n)) (h : Tracks i s m' q { c with pos := n }) :
    Tracks i s m p c := by
  intro hc
  rw [hm hc, hp]
  exact (h (hlt hc)).mono fun v c' ⟨hle', hlt', h⟩ =>
    ⟨Nat.le_trans hle hle', hlt', h.of_moved⟩

theorem pure {v w : α} (h : s → v = w) : Tracks i s (Pure.pure v) (Pure.pure w) c := by
  intro hc
  refine .ok v c ⟨Nat.le_refl _, hc, ?_⟩
  cases hpan : c.panicking with
  | true => exact .panic _ hpan hpan rfl
  | false => exact .ok w hpan hpan rfl h

theorem same (v : α) : Tracks i s (Pure.pure v) (Pure.pure v) c := .pure fun _ => rfl

theorem swap (hpan : c.panicking = true) (h : Tracks i r m q c) : Tracks i s m p c := by
  intro hc
  refine (h hc).mono fun v c' ⟨hle, hlt, hagree⟩ => ⟨hle, hlt, ?_⟩
  obtain ⟨hpan', herrors⟩ := hagree.in_panic hpan
  exact .panic _ hpan hpan' herrors

theorem of_panicking (hpan : c.panicking = true) (v : α) : Tracks i s (Pure.pure v) p c :=
  swap (r := True) hpan (same v)

theorem bind (hm : Tracks i r m p c)
    (hf : ∀ v w c', (r → v = w) → c.pos ≤ c'.pos → Tracks i s (f v) (g w) c') :
    Tracks i s (m >>= f) (p >>= g) c := by
  intro hc
  refine (hm hc).bind fun v c' ⟨hle, hlt, hagree⟩ => ?_
  change Comes i (fun v' c'' => c.pos ≤ c''.pos ∧ c''.pos < i.tokens.length ∧
    Agrees i s c v' c'' ((p (i.ahead c)).bind fun r => g r.1 r.2)) (f v c')
  generalize p (i.ahead c) = x at hagree
  cases hagree with
  | panic _ hpan hpan' herrors =>
      refine (hf v v c' (fun _ => rfl) hle hlt).mono fun v' c'' ⟨hle', hlt', h⟩ => ?_
      obtain ⟨hpan'', herrors'⟩ := h.in_panic hpan'
      exact ⟨Nat.le_trans hle hle', hlt', .panic _ hpan hpan'' (herrors'.trans herrors)⟩
  | ok w hcalm hcalm' herrors hv =>
      refine (hf v w c' hv hle hlt).mono fun v' c'' ⟨hle', hlt', h⟩ => ?_
      exact ⟨Nat.le_trans hle hle', hlt', h.of_calm hcalm hcalm' herrors⟩
  | error e hcalm hpan herrors =>
      refine (hf v v c' (fun _ => rfl) hle hlt).mono fun v' c'' ⟨hle', hlt', h⟩ => ?_
      obtain ⟨hpan', herrors'⟩ := h.in_panic hpan
      exact ⟨Nat.le_trans hle hle', hlt', .error e hcalm hpan' (herrors'.trans herrors)⟩

theorem andThen (hm : Tracks i True m p c)
    (hf : ∀ v c', c.pos ≤ c'.pos → Tracks i s (f v) (g v) c') :
    Tracks i s (m >>= f) (p >>= g) c :=
  bind hm fun v _ c' hv hle => hv trivial ▸ hf v c' hle

theorem map (h : α → β) (hm : Tracks i s m p c) : Tracks i s (h <$> m) (h <$> p) c := by
  rw [map_eq_pure_bind, map_eq_pure_bind]
  exact bind hm fun _ _ _ hv _ => pure fun hs => congrArg h (hv hs)

end Tracks

/-! ## Looking and taking -/

/-- A run that reads, and leaves the cursor as it is. -/
def Reads (m : Step α) (c : Cursor) (v : α) : Prop := m c = some (.ok (v, c))

theorem Reads.bind {m : Step α} {f : α → Step β} {v : α} (h : Reads m c v) :
    (m >>= f) c = f v c := run_bind h

theorem reads_get : Reads get c c := rfl

theorem reads_inPanic : Reads inPanic c c.panicking := rfl

theorem reads_token {n : Nat} (h : n < i.tokens.length) :
    Reads (token i n) c i.tokens[n] := by
  unfold Reads token
  rw [List.getElem?_eq_getElem h]
  rfl

theorem not_isEmpty {n : Nat} (h : n < i.tokens.length) : i.tokens.isEmpty = false :=
  List.isEmpty_eq_false_iff.mpr (List.length_pos_iff.mp (Nat.zero_lt_of_lt h))

theorem reads_peekAt [i.Closed] (hc : c.pos < i.tokens.length) (n : Nat) :
    ∃ t, t.kind = kindOf (i.ahead c) n ∧ Reads (peekAt i n) c t := by
  have hne := not_isEmpty hc
  rcases Nat.lt_or_ge (c.pos + n) i.tokens.length with h | h
  · refine ⟨i.tokens[c.pos + n], ?_, ?_⟩
    · rw [kindOf_ahead, kindOf, List.getElem?_eq_getElem h]
    · change (if i.tokens.length ≤ c.pos + n then _ else
        token i (c.pos + n) : Step Token) c = _
      rw [if_neg (Nat.not_le_of_lt h)]
      exact reads_token h
  · have hlast : i.tokens.length - 1 < i.tokens.length := by omega
    refine ⟨i.tokens[i.tokens.length - 1], ?_, ?_⟩
    · have hk := kindOf_last (i := i) (n := i.tokens.length - 1) (by omega)
      rw [kindOf_ahead, kindOf_last (by omega), ← hk, kindOf,
        List.getElem?_eq_getElem hlast]
    · change (if i.tokens.length ≤ c.pos + n then
        (if i.tokens.isEmpty then _ else token i (i.tokens.length - 1)) else
          _ : Step Token) c = _
      rw [if_pos h, hne]
      exact reads_token hlast

theorem reads_peek (hc : c.pos < i.tokens.length) : Reads (peek i) c i.tokens[c.pos] := by
  change (if i.tokens.length ≤ c.pos then _ else token i c.pos : Step Token) c = _
  rw [if_neg (Nat.not_le_of_lt hc)]
  exact reads_token hc

theorem reads_atEnd (hc : c.pos < i.tokens.length) :
    Reads (atEnd i) c (kindOf (i.ahead c) 0 == .eof) := by
  change (if i.tokens.length ≤ c.pos then _ else token i c.pos >>= fun t =>
    Pure.pure (t.kind == .eof) : Step Bool) c = _
  rw [if_neg (Nat.not_le_of_lt hc), (reads_token hc).bind, ahead_eq_cons hc]
  rfl

/-- Whether the next token is of a kind that is not the end. -/
def Input.isNext (i : Input) (c : Cursor) (k : TokenKind) : Bool :=
  k != .eof && kindOf (i.ahead c) 0 == k

theorem kindOf_of_isNext {k : TokenKind} (h : i.isNext c k = true) :
    kindOf (i.ahead c) 0 = k ∧ k ≠ .eof := by
  simpa [Input.isNext, and_comm] using h

theorem ne_eof_of_isNext {k : TokenKind} (h : i.isNext c k = true) :
    kindOf (i.ahead c) 0 ≠ .eof := by
  have hk := kindOf_of_isNext h
  rw [hk.1]
  exact hk.2

theorem reads_check (hc : c.pos < i.tokens.length) (k : TokenKind) :
    Reads (check i k) c (i.isNext c k) := by
  unfold check Input.isNext
  rw [Reads, (reads_atEnd hc).bind, ahead_eq_cons hc]
  change (if (i.tokens[c.pos].kind == .eof) = true then Pure.pure false
    else peek i >>= fun t => Pure.pure (t.kind == k) : Step Bool) c =
      some (.ok (k != .eof && i.tokens[c.pos].kind == k, c))
  split
  · next hend =>
      rw [of_decide_eq_true hend]
      cases k <;> rfl
  · next hend =>
      rw [(reads_peek hc).bind]
      have hand : (k != .eof && i.tokens[c.pos].kind == k) =
          (i.tokens[c.pos].kind == k) := by
        cases hk : i.tokens[c.pos].kind == k with
        | false => exact Bool.and_false _
        | true =>
            rw [of_decide_eq_true hk] at hend
            rw [Bool.and_true]
            exact bne_iff_ne.mpr fun h => hend (by rw [h]; rfl)
      rw [hand]
      rfl

theorem reads_accept (hc : c.pos < i.tokens.length) {k : TokenKind}
    (hnext : i.isNext c k = false) : Reads (accept i k) c false := by
  unfold accept
  rw [Reads, (reads_check hc k).bind, hnext]
  rfl

theorem reads_previous (hpos : 0 < c.pos) (hc : c.pos ≤ i.tokens.length) :
    Reads (previous i) c i.tokens[c.pos - 1] := by
  change (if (i.tokens.isEmpty || c.pos == 0) = true then _ else token i (c.pos - 1) :
    Step Token) c = _
  rw [not_isEmpty (Nat.lt_of_lt_of_le hpos hc), if_neg (by simpa using Nat.ne_of_gt hpos)]
  exact reads_token (by omega)

theorem take_run (hc : c.pos < i.tokens.length) (hk : kindOf (i.ahead c) 0 ≠ .eof) :
    take i c = some (.ok (i.tokens[c.pos], { c with pos := c.pos + 1 })) := by
  have hend : (kindOf (i.ahead c) 0 == .eof) = false := by simpa using hk
  unfold take
  rw [(reads_atEnd hc).bind, hend]
  exact reads_previous (c := { c with pos := c.pos + 1 }) (Nat.succ_pos _) hc

theorem take_bind {f : Token → Step β} (hc : c.pos < i.tokens.length)
    (hk : kindOf (i.ahead c) 0 ≠ .eof) :
    (take i >>= f) c = f i.tokens[c.pos] { c with pos := c.pos + 1 } :=
  run_bind (take_run hc hk)

theorem next_lt [hi : i.Closed] (hk : kindOf (i.ahead c) 0 ≠ .eof) :
    c.pos + 1 < i.tokens.length := by
  refine Nat.lt_of_not_le fun h => hk ?_
  rw [kindOf_ahead]
  exact kindOf_last h

theorem behind_ahead (hc : c.pos < i.tokens.length) (hk : kindOf (i.ahead c) 0 ≠ .eof) :
    Parse.behind (i.ahead c) = i.tokens.drop (c.pos + 1) := by
  rw [ahead_eq_cons hc] at hk ⊢
  have hk : i.tokens[c.pos].kind ≠ .eof := hk
  rw [Parse.behind, if_neg (by simpa using hk)]

namespace Tracks

variable {m : Step β} {p : Parser β} {f : α → Step β} {g : α → Parser β}

theorem peek {f : Token → Step β} {g : Token → Parser β}
    (h : ∀ t, (i.ahead c).head? = some t → Tracks i s (f t) (g t) c) :
    Tracks i s (Cursor.peek i >>= f) (Parse.peek >>= g) c := by
  refine inside fun hc => congr (fun _ => (reads_peek hc).bind) (congr_right ?_ (h _ ?_))
  · change g ((i.ahead c).headD Token.none) (i.ahead c) = _
    rw [ahead_eq_cons hc]
    rfl
  · rw [ahead_eq_cons hc]
    rfl

theorem peek_left {f : Token → Step β}
    (h : ∀ t, (i.ahead c).head? = some t → Tracks i s (f t) p c) :
    Tracks i s (Cursor.peek i >>= f) p c := by
  refine inside fun hc => congr (fun _ => (reads_peek hc).bind) (h _ ?_)
  rw [ahead_eq_cons hc]
  rfl

theorem check_left {k : TokenKind} {f : Bool → Step β}
    (h : Tracks i s (f (i.isNext c k)) p c) : Tracks i s (check i k >>= f) p c :=
  congr (fun hc => (reads_check hc k).bind) h

theorem check_right {k : TokenKind} {g : Bool → Parser β}
    (h : Tracks i s m (g (i.isNext c k)) c) : Tracks i s m (Parse.check k >>= g) c :=
  congr_right rfl h

theorem check {k : TokenKind} {f : Bool → Step β} {g : Bool → Parser β}
    (h : Tracks i s (f (i.isNext c k)) (g (i.isNext c k)) c) :
    Tracks i s (Cursor.check i k >>= f) (Parse.check k >>= g) c :=
  check_left (check_right h)

theorem peekKind_right {n : Nat} {g : TokenKind → Parser β}
    (h : Tracks i s m (g (kindOf (i.ahead c) n)) c) :
    Tracks i s m (Parse.peekKind n >>= g) c :=
  congr_right rfl h

theorem atEnd_left {f : Bool → Step β}
    (h : Tracks i s (f (kindOf (i.ahead c) 0 == .eof)) p c) :
    Tracks i s (atEnd i >>= f) p c :=
  congr (fun hc => (reads_atEnd hc).bind) h

theorem atEnd_right {g : Bool → Parser β}
    (h : Tracks i s m (g (kindOf (i.ahead c) 0 == .eof)) c) :
    Tracks i s m (Parse.atEnd >>= g) c :=
  congr_right rfl h

theorem inPanic {f : Bool → Step β} (h : c.panicking = true → Tracks i s (f true) p c)
    (h' : c.panicking = false → Tracks i s (f false) p c) :
    Tracks i s (Cursor.inPanic >>= f) p c := by
  have hgo : Tracks i s (f c.panicking) p c := by
    cases hpan : c.panicking with
    | true => exact h hpan
    | false => exact h' hpan
  exact congr (fun _ => rfl) hgo

/-- The head of a loop over a list: the parser does not stop in a panic, but has stopped. -/
theorem done {close : TokenKind} {f : Bool → Step β} {stop go : Parser β}
    (hstop : Tracks i s (f true) stop c)
    (hpanic : c.panicking = true → Tracks i s (f true) go c)
    (hgo : c.panicking = false → Tracks i s (f false) go c) :
    Tracks i s (Cursor.done i close >>= f)
      (Parse.check close >>= fun b => Parse.atEnd >>= fun b' =>
        if (b || b') = true then stop else go) c := by
  unfold Cursor.done
  rw [bind_assoc]
  refine check ?_
  cases i.isNext c close with
  | true => exact congr_right rfl hstop
  | false =>
      simp only [Bool.false_eq_true, if_false, bind_assoc, Bool.false_or]
      refine atEnd_left (atEnd_right ?_)
      cases kindOf (i.ahead c) 0 == .eof with
      | true => exact hstop
      | false => exact inPanic hpanic hgo

theorem get_left {f : Cursor → Step β} (h : Tracks i s (f c) p c) :
    Tracks i s (get >>= f) p c :=
  congr (fun _ => rfl) h

theorem get_right {g : List Token → Parser β} (h : Tracks i s m (g (i.ahead c)) c) :
    Tracks i s m (get >>= g) c :=
  congr_right rfl h

/-- Behind an error the step goes on in a panic; the parser has come to its end. -/
theorem note {problem : Problem} {t : Token} {f : Unit → Step β}
    (ht : (i.ahead c).head? = some t)
    (h : ∀ c', c.pos ≤ c'.pos → c'.panicking = true → Tracks i s (f ()) p c') :
    Tracks i s (Cursor.note problem t >>= f) (Parse.failHere problem) c := by
  intro hc
  have herror : (Parse.failHere problem : Parser β) (i.ahead c) = .error ⟨problem, t⟩ := by
    rw [ahead_eq_cons hc] at ht ⊢
    cases ht
    rfl
  rw [herror]
  cases hpan : c.panicking with
  | true =>
      have hrun : (Cursor.note problem t >>= f) c = f () c := by
        change f () (if c.panicking = true then c else _) = _
        rw [if_pos hpan]
      rw [hrun]
      refine (h c (Nat.le_refl _) hpan hc).mono fun v c' ⟨hle, hlt, hagree⟩ =>
        ⟨hle, hlt, ?_⟩
      obtain ⟨hpan', herrors⟩ := hagree.in_panic hpan
      exact .panic _ hpan hpan' herrors
  | false =>
      have hrun : (Cursor.note problem t >>= f) c =
          f () { c with panicking := true, errors := c.errors ++ [⟨problem, t⟩] } := by
        change f () (if c.panicking = true then c else _) = _
        rw [if_neg (by rw [hpan]; decide)]
      rw [hrun]
      have hgo := h { c with panicking := true, errors := c.errors ++ [⟨problem, t⟩] }
        (Nat.le_refl _) rfl hc
      refine hgo.mono fun v c' ⟨hle, hlt, hagree⟩ => ⟨hle, hlt, ?_⟩
      obtain ⟨hpan', herrors⟩ := hagree.in_panic rfl
      exact .error _ hpan hpan' herrors

theorem noteHere {problem : Problem} {f : Unit → Step β}
    (h : ∀ c', c.pos ≤ c'.pos → c'.panicking = true → Tracks i s (f ()) p c') :
    Tracks i s (Cursor.noteHere i problem >>= f) (Parse.failHere problem) c := by
  unfold Cursor.noteHere
  rw [bind_assoc]
  exact peek_left fun t ht => note ht h

theorem fail {problem : Problem} {t : Token} (ht : (i.ahead c).head? = some t) (v : β) :
    Tracks i s (Cursor.note problem t >>= fun _ => Pure.pure v)
    (Parse.failHere problem) c :=
  note (p := Parse.failHere problem) ht fun _ _ hpan => of_panicking hpan v

theorem failHere {problem : Problem} (v : β) :
    Tracks i s (Cursor.noteHere i problem >>= fun _ => Pure.pure v)
    (Parse.failHere problem) c :=
  noteHere (p := Parse.failHere problem) fun _ _ hpan => of_panicking hpan v

theorem failHere_bind {problem : Problem} (h : Tracks i s m (Parse.failHere problem) c) :
    Tracks i s m ((Parse.failHere problem : Parser α) >>= g) c :=
  congr_right rfl h

theorem accept_next {k : TokenKind} {f : Bool → Step β} (hnext : i.isNext c k = true)
    (h : Tracks i s (Cursor.take i >>= fun _ => f true) p c) :
    Tracks i s (Cursor.accept i k >>= f) p c := by
  unfold Cursor.accept
  rw [bind_assoc]
  refine check_left ?_
  simp only [hnext, if_true, bind_assoc, pure_bind]
  exact h

theorem accept_none {k : TokenKind} {f : Bool → Step β} (hnext : i.isNext c k = false)
    (h : Tracks i s (f false) p c) : Tracks i s (Cursor.accept i k >>= f) p c :=
  congr (fun hc => (reads_accept hc hnext).bind) h

/-- The step goes to a place further ahead, and the parser to the tokens there. -/
theorem goTo {k : Nat} {g : Unit → Parser β} (hle : c.pos ≤ k) (hlt : k < i.tokens.length)
    (h : Tracks i s m (g ()) { c with pos := k }) :
    Tracks i s (modify (fun d => { d with pos := k }) >>= fun _ => m)
      (set (i.tokens.drop k) >>= g) c :=
  move hle (fun _ => hlt) (fun _ => rfl) rfl h

/-- The step goes to a place further ahead, and the parser behind the token there. -/
theorem goTo_take {k : Nat} {g : Unit → Parser β} (hle : c.pos ≤ k)
    (hlt : k < i.tokens.length)
    (h : Tracks i s m (Parse.take >>= fun _ => g ()) { c with pos := k }) :
    Tracks i s (modify (fun d => { d with pos := k }) >>= fun _ => m)
      (set (Parse.behind (i.tokens.drop k)) >>= g) c :=
  move hle (fun _ => hlt) (fun _ => rfl) rfl h

theorem ite {b : Bool} {m' : Step β} {p' : Parser β} (h : b = true → Tracks i s m p c)
    (h' : b = false → Tracks i s m' p' c) :
    Tracks i s (if b = true then m else m') (if b = true then p else p') c := by
  cases b with
  | true => exact h rfl
  | false => exact h' rfl

theorem iteMap {b : Bool} {m m' : Step β} {p p' : Parser α} {h : α → β}
    (hyes : b = true → Tracks i s m (h <$> p) c)
    (hno : b = false → Tracks i s m' (h <$> p') c) :
    Tracks i s (if b = true then m else m') (h <$> if b = true then p else p') c := by
  cases b with
  | true => exact hyes rfl
  | false => exact hno rfl

variable [i.Closed]

theorem peekAt_left {f : Token → Step β} {n : Nat}
    (h : ∀ t, t.kind = kindOf (i.ahead c) n → Tracks i s (f t) p c) :
    Tracks i s (peekAt i n >>= f) p c := by
  refine inside fun hc => ?_
  obtain ⟨t, hk, ht⟩ := reads_peekAt hc n
  exact congr (fun _ => ht.bind) (h t hk)

theorem take {f : Token → Step β} {g : Token → Parser β} (hk : kindOf (i.ahead c) 0 ≠ .eof)
    (h : ∀ t c', (i.ahead c).head? = some t → c'.pos = c.pos + 1 →
      Tracks i s (f t) (g t) c') :
    Tracks i s (Cursor.take i >>= f) (Parse.take >>= g) c := by
  refine inside fun hc => move (Nat.le_succ c.pos) (fun _ => next_lt hk) (fun _ => ?_) ?_
    (h i.tokens[c.pos] _ ?_ rfl)
  · exact take_bind hc hk
  · change g ((i.ahead c).headD Token.none) (Parse.behind (i.ahead c)) = _
    rw [behind_ahead hc hk, ahead_eq_cons hc]
    rfl
  · rw [ahead_eq_cons hc]
    rfl

theorem glance {b : Bool} {n : Nat} {P : TokenKind → Bool} {m' : Step β} {p' : Parser β}
    (h : b = true → P (kindOf (i.ahead c) n) = true → Tracks i s m p c)
    (h' : Tracks i s m' p' c) : Tracks i s
      (if b = true then peekAt i n >>= fun t => if P t.kind = true then m else m' else m')
      (if (b && P (kindOf (i.ahead c) n)) = true then p else p') c := by
  cases b with
  | false => exact h'
  | true =>
      refine peekAt_left fun t ht => ?_
      rw [ht]
      exact ite (h rfl) fun _ => h'

theorem take_left {f : Token → Step β} {q : Token → Parser β}
    (hk : kindOf (i.ahead c) 0 ≠ .eof)
    (hp : ∀ t us, t.kind ≠ .eof → i.ahead c = t :: us → p (t :: us) = q t us)
    (h : ∀ t c', (i.ahead c).head? = some t → c'.pos = c.pos + 1 →
    Tracks i s (f t) (q t) c') : Tracks i s (Cursor.take i >>= f) p c := by
  refine inside fun hc => congr_right (q := Parse.take >>= q) ?_ (take hk h)
  have hts := ahead_eq_cons hc
  have ht : i.tokens[c.pos].kind ≠ .eof := by rwa [hts] at hk
  change _ = q ((i.ahead c).headD Token.none) (Parse.behind (i.ahead c))
  rw [behind_ahead hc hk, hts]
  exact hp _ _ ht hts

theorem takes (hk : kindOf (i.ahead c) 0 ≠ .eof) :
    Tracks i s (Cursor.take i) Parse.take c := by
  rw [← bind_pure (Cursor.take i), ← bind_pure Parse.take]
  exact take hk fun t _ _ _ => same t

theorem accept {k : TokenKind} {f : Bool → Step β} {g : Bool → Parser β}
    (hyes : ∀ c', i.isNext c k = true → c'.pos = c.pos + 1 →
      Tracks i s (f true) (g true) c')
    (hno : i.isNext c k = false → Tracks i s (f false) (g false) c) :
    Tracks i s (Cursor.accept i k >>= f) (Parse.accept k >>= g) c := by
  unfold Cursor.accept Parse.accept
  rw [bind_assoc, bind_assoc]
  refine check ?_
  cases hnext : i.isNext c k with
  | false => exact hno hnext
  | true =>
      simp only [if_true, bind_assoc, pure_bind]
      exact take (ne_eof_of_isNext hnext) fun _ c' _ hc' => hyes c' hnext hc'

theorem expect {k : TokenKind} {what : Text} {f : Token → Step β} {g : Token → Parser β}
    (h : ∀ t c', c.pos ≤ c'.pos → Tracks i s (f t) (g t) c') :
    Tracks i s (Cursor.expect i k what >>= f) (Parse.expect k what >>= g) c := by
  unfold Cursor.expect Parse.expect
  rw [bind_assoc, bind_assoc]
  refine check ?_
  cases hnext : i.isNext c k with
  | false =>
      simp only [Bool.false_eq_true, if_false, bind_assoc, pure_bind]
      exact failHere_bind (noteHere fun c' hle _ => h _ c' hle)
  | true =>
      exact take (ne_eof_of_isNext hnext) fun t c' _ hc' => h t c' (by omega)

theorem expect_next {k : TokenKind} {what : Text} {f : Token → Step β}
    {g : Token → Parser β} (hnext : i.isNext c k = true)
    (h : ∀ t c', c'.pos = c.pos + 1 → Tracks i s (f t) (g t) c') :
    Tracks i s (Cursor.expect i k what >>= f) (Parse.expect k what >>= g) c := by
  unfold Cursor.expect Parse.expect
  rw [bind_assoc, bind_assoc]
  refine check ?_
  simp only [hnext, if_true]
  exact take (ne_eof_of_isNext hnext) fun t c' _ hc' => h t c' hc'

end Tracks

/-! ## Groups and captured text -/

theorem ahead_of_atEnd (hc : c.pos < i.tokens.length) (hend : kindOf (i.ahead c) 0 = .eof) :
    ∃ t us, i.ahead c = t :: us ∧ t.kind = .eof :=
  ⟨_, _, ahead_eq_cons hc, by rwa [ahead_eq_cons hc] at hend⟩

theorem tracks_skipGroup [i.Closed] (depth : Int) :
    Tracks i s (i.skipGroup depth) (modify (Parse.skipGroup depth)) c := by
  induction hn : i.tokens.length - c.pos using Nat.strongRecOn generalizing c depth with
  | ind n ih =>
      refine .inside fun hc => ?_
      rw [Input.skipGroup]
      refine .atEnd_left ?_
      by_cases hend : kindOf (i.ahead c) 0 = .eof
      · rw [hend]
        refine .congr_right (q := Pure.pure ()) ?_ (.same ())
        obtain ⟨t, us, hts, ht⟩ := ahead_of_atEnd hc hend
        change Except.ok ((), Parse.skipGroup depth (i.ahead c)) = .ok ((), i.ahead c)
        rw [hts, Parse.skipGroup, ht]
        rfl
      · rw [show (kindOf (i.ahead c) 0 == .eof) = false by simpa using hend]
        let next (t : Token) : Int :=
          if t.kind.isOpening then depth + 1 else
            if t.kind.isClosing then depth - 1 else depth
        refine .take_left hend (q := fun t =>
          if next t ≤ 0 then Pure.pure () else modify (Parse.skipGroup (next t))) ?_ ?_
        · intro t us ht _
          change Except.ok ((), Parse.skipGroup depth (t :: us)) = _
          rw [Parse.skipGroup, if_neg (by simpa using ht)]
          change Except.ok ((), if next t ≤ 0 then us else _) = _
          by_cases hle : next t ≤ 0
          · rw [if_pos hle, if_pos hle]
            rfl
          · rw [if_neg hle, if_neg hle]
            rfl
        · intro t c' _ hc'
          change Tracks i s (if next t ≤ 0 then _ else i.skipGroup (next t)) _ c'
          split
          · exact .same ()
          · exact ih _ (by omega) _ rfl

/-- A round of the loop behind the test for the end: a token is captured, or the capture
ends in front of it. -/
theorem captureLoop_round (i : Input) (angles : Bool) (stops : List TokenKind) (depth : Nat)
    {t : Token} (ht : t.kind ≠ .eof) :
    (if depth == 0 && stops.contains t.kind then pure ()
      else if t.kind.isOpening || (angles && t.kind == .lt) then do
        let _ ← take i
        i.captureLoop angles stops (depth + 1)
      else if t.kind.isClosing then
        if depth == 0 then pure () else do
          let _ ← take i
          i.captureLoop angles stops (depth - 1)
      else do
        let _ ← take i
        i.captureLoop angles stops (if angles && t.kind == .gt then depth - 1 else depth)) =
      (Parse.depthBehind? angles stops depth t.kind).elim (pure ())
        (fun d => take i >>= fun _ => i.captureLoop angles stops d) := by
  unfold Parse.depthBehind?
  rw [show (t.kind == .eof) = false by simpa using ht, Bool.false_or]
  split
  · rfl
  · split
    · rfl
    · split
      · split <;> rfl
      · rfl

theorem tracks_captureLoop [i.Closed] (angles : Bool) (stops : List TokenKind)
    (depth : Nat) : Tracks i s (i.captureLoop angles stops depth)
      (modify fun ts => ts.drop (Parse.captureSize angles stops depth ts)) c := by
  induction hn : i.tokens.length - c.pos using Nat.strongRecOn generalizing c depth with
  | ind n ih =>
      refine .inside fun hc => ?_
      rw [Input.captureLoop]
      refine .atEnd_left ?_
      have hnothing (h : Parse.captureSize angles stops depth (i.ahead c) = 0) :
          Tracks i s (Pure.pure ())
            (modify fun ts => ts.drop (Parse.captureSize angles stops depth ts)) c := by
        refine .congr_right (q := Pure.pure ()) ?_ (.same ())
        change Except.ok ((), (i.ahead c).drop _) = .ok ((), i.ahead c)
        rw [h]
        rfl
      by_cases hend : kindOf (i.ahead c) 0 = .eof
      · obtain ⟨t, us, hts, ht⟩ := ahead_of_atEnd hc hend
        rw [hend]
        refine hnothing ?_
        rw [hts, Parse.captureSize_cons, ht]
        rfl
      · rw [show (kindOf (i.ahead c) 0 == .eof) = false by simpa using hend]
        refine .peek_left fun t ht => ?_
        have hk : t.kind ≠ .eof := by rwa [kind_of_head ht]
        rw [captureLoop_round i angles stops depth hk]
        cases hd : Parse.depthBehind? angles stops depth t.kind with
        | none =>
            obtain ⟨us, hts⟩ := List.head?_eq_some_iff.mp ht
            refine hnothing ?_
            rw [hts, Parse.captureSize_cons, hd]
            rfl
        | some d =>
            refine .take_left hend (q := fun _ => modify fun ts =>
              ts.drop (Parse.captureSize angles stops d ts)) ?_ fun _ c' _ hc' =>
                ih _ (by omega) _ rfl
            intro u us _ hts
            rw [hts] at ht
            cases ht
            change Except.ok ((), (t :: us).drop _) = _
            rw [Parse.captureSize_cons, hd]
            rfl

/-- No two tokens begin at one offset. -/
def Input.Distinct (i : Input) : Prop :=
  ∀ (m n : Nat) (t u : Token), i.tokens[m]? = some t → i.tokens[n]? = some u →
    t.offset = u.offset → m = n

/-- The text of the tokens from one index up to another. -/
def Input.text (i : Input) (start stop : Nat) : Text :=
  Parse.textOf i.source ((i.tokens.drop start).take (stop - start))

theorem text_self (n : Nat) : i.text n n = [] := by
  rw [Input.text, Nat.sub_self, List.take_zero]
  rfl

theorem getLast?_tokens {start stop : Nat} (hlt : start < stop)
    (hstop : stop ≤ i.tokens.length) :
    ((i.tokens.drop start).take (stop - start)).getLast? = some i.tokens[stop - 1] := by
  rw [List.getLast?_eq_getElem?, List.length_take, List.length_drop,
    List.getElem?_take_of_lt (by omega), List.getElem?_drop,
    show start + (min (stop - start) (i.tokens.length - start) - 1) = stop - 1 by omega,
    List.getElem?_eq_getElem]

theorem text_eq {start stop : Nat} (hlt : start < stop) (hstop : stop ≤ i.tokens.length) :
    i.text start stop =
      if i.source.isEmpty then
        Text.join " " (((i.tokens.drop start).take (stop - start)).map (·.lexeme))
      else Text.trim ((i.source.drop i.tokens[start].offset).take
        (i.tokens[stop - 1].stop - i.tokens[start].offset)) := by
  have hhead : ((i.tokens.drop start).take (stop - start)).head? =
      some i.tokens[start] := by
    rw [List.head?_take, if_neg (by omega), List.head?_drop, List.getElem?_eq_getElem]
  rw [Input.text, Parse.textOf, hhead, getLast?_tokens hlt hstop]

theorem comes_textBetween {start stop : Nat} (hle : start ≤ stop)
    (hstop : stop ≤ i.tokens.length) :
    Comes i (fun v c' => v = i.text start stop ∧ c' = c) (textBetween i start stop c) := by
  rcases Nat.eq_or_lt_of_le hle with rfl | hlt
  · unfold textBetween
    rw [if_pos hle]
    exact .ok _ _ ⟨(text_self start).symm, rfl⟩
  have hfirst : start < i.tokens.length := by omega
  have hlast : stop - 1 < i.tokens.length := by omega
  unfold textBetween
  rw [if_neg (Nat.not_le_of_lt hlt), text_eq hlt hstop]
  cases hsource : i.source.isEmpty with
  | true =>
      rw [if_pos rfl, if_neg (Nat.not_lt_of_le hstop), if_pos rfl]
      exact .ok _ _ ⟨rfl, rfl⟩
  | false =>
      rw [if_neg (by decide), if_neg (by decide), (reads_token hfirst).bind,
        (reads_token hlast).bind]
      dsimp only
      split
      · next hout =>
          refine .slice _ _ fun hcovers => ?_
          rcases hcovers with hempty | hcovers
          · rw [hempty] at hsource
            cases hsource
          · have hin := hcovers start (stop - 1) _ _ (by omega)
              (List.getElem?_eq_getElem hfirst)
              (List.getElem?_eq_getElem hlast)
            simp only [Bool.or_eq_true, decide_eq_true_eq] at hout
            omega
      · exact .ok _ _ ⟨rfl, rfl⟩

theorem between_ahead {b : Cursor} (hle : b.pos ≤ c.pos) (hc : c.pos < i.tokens.length) :
    Parse.between (i.ahead b) (i.ahead c) = (i.tokens.drop b.pos).take (c.pos - b.pos) := by
  rw [Parse.between, ahead_length, ahead_length, Input.ahead]
  congr 1
  omega

/-- What yields text and leaves the cursor follows the capturing of that text. -/
theorem tracks_text {b : Cursor} {m : Step Text} (hle : b.pos ≤ c.pos)
    (hm : c.pos < i.tokens.length →
      Comes i (fun v c' => (s → v = i.text b.pos c.pos) ∧ c' = c) (m c)) :
    Tracks i s m (Parse.textSince i.source (i.ahead b)) c := by
  refine .inside fun hc => .congr_right (q := Pure.pure (i.text b.pos c.pos)) ?_ fun _ => ?_
  · change Except.ok (Parse.textOf i.source (Parse.between (i.ahead b) (i.ahead c)), _) = _
    rw [between_ahead hle hc]
    rfl
  · refine (hm hc).mono fun v c' ⟨hv, hc'⟩ => ?_
    subst hc'
    refine ⟨Nat.le_refl _, hc, ?_⟩
    cases hpan : c'.panicking with
    | true => exact .panic _ hpan hpan rfl
    | false => exact .ok _ hpan hpan rfl hv

theorem tracks_textSince {b : Cursor} (hle : b.pos ≤ c.pos) :
    Tracks i s (textSince i b.pos) (Parse.textSince i.source (i.ahead b)) c :=
  tracks_text hle fun hc =>
    (comes_textBetween hle (Nat.le_of_lt hc)).mono fun _ _ ⟨hv, hc'⟩ => ⟨fun _ => hv, hc'⟩

/-- The token itself is the last one with its offset if no two tokens begin at one. -/
theorem comes_textFromLoop {t : Token} {n k : Nat} (ht : i.tokens[k]? = some t) (hk : k < n)
    (hn : n ≤ c.pos) (hc : c.pos < i.tokens.length) :
    Comes i (fun v c' => (i.Distinct → v = i.text k c.pos) ∧ c' = c)
    (textFromLoop i t n c) := by
  induction n with
  | zero => exact absurd hk (Nat.not_lt_zero k)
  | succ n ih =>
      have hin : n < i.tokens.length := by omega
      unfold textFromLoop
      rw [(reads_token hin).bind]
      split
      · next hsame =>
          refine (comes_textBetween (by omega) (Nat.le_of_lt hc)).mono
            fun v c' ⟨hv, hc'⟩ => ?_
          refine ⟨fun hdistinct => ?_, hc'⟩
          rw [hv, hdistinct n k _ t (List.getElem?_eq_getElem hin) ht
            (of_decide_eq_true hsame)]
      · next hother =>
          refine ih (Nat.lt_of_le_of_ne (Nat.le_of_lt_succ hk) ?_) (by omega)
          rintro rfl
          rw [List.getElem?_eq_getElem hin] at ht
          cases ht
          exact hother (beq_self_eq_true _)

theorem tracks_textFrom {b : Cursor} {t : Token} (ht : (i.ahead b).head? = some t)
    (hlt : b.pos < c.pos) :
    Tracks i i.Distinct (textFrom i t) (Parse.textSince i.source (i.ahead b)) c := by
  refine tracks_text (Nat.le_of_lt hlt) fun hc => ?_
  refine comes_textFromLoop ?_ hlt (Nat.le_refl _) hc
  rwa [Input.ahead, List.head?_drop] at ht

theorem tracks_capture [i.Closed] (angles : Bool) (stops : List TokenKind) :
    Tracks i s (capture i angles stops) (Parse.capture i.source angles stops) c := by
  unfold capture Parse.capture
  refine .get_left (.get_right ?_)
  refine .congr_right
    (q := (modify fun ts => ts.drop (Parse.captureSize angles stops 0 ts)) >>=
    fun _ => Parse.textSince i.source (i.ahead c)) rfl ?_
  exact .bind (r := True) (tracks_captureLoop angles stops 0) fun _ _ c' _ hle =>
    tracks_textSince hle

end Deriver.Cursor
