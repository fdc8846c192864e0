import Deriver.Proofs.Token.Inset
import Deriver.Proofs.Token.Apart

/-!
# Pieces that are set in

Main statements: `lexeme_inset`, `pieces_inset` and `lines_inset`. When the lines of a
text are set in, every piece of it is a piece still, and between them stand the blanks
that were put in. Only literals and comments go over several lines, and they end where
they ended, behind the blanks that were put into them. All others are read up to the end
of their line at most, so for them it does not matter what was put in behind it.
-/

namespace Deriver.Scan

open Text (inset fresh)

variable {n : Nat} {now wide : Bool} {r s t u w : Text} {b c q : UInt8}
  {old new : Option (TokenKind × Option Literal)}

/-- Whether a token is what another one is when its lines are set in: a string may stand
for more. -/
def TokenInset (n : Nat) (wide : Bool) (old new : Option (TokenKind × Option Literal)) :
    Prop :=
  new.map Prod.fst = old.map Prod.fst ∧ ∀ v, old = some (.str, some (.str v)) →
    ∃ v', new = some (.str, some (.str v')) ∧ Widened n wide v v'

theorem TokenInset.refl (h : wide = false) : TokenInset n wide old old :=
  ⟨rfl, fun v hv => ⟨v, hv, fun _ => rfl, fun hwide => by rw [h] at hwide; cases hwide⟩⟩

/-- Whether `f` takes all of `w`, set in, if it takes all of `w`. -/
def InsetTo (n : Nat) (wide : Bool) (f : Text → Lexeme) (w r : Text) : Prop :=
  fresh false w = false ∧ ∃ token,
    f (inset n false w ++ inset n false r) = ⟨(inset n false w).length, token, []⟩ ∧
      TokenInset n wide (f (w ++ r)).token token

/-! ## Quoted literals -/

theorem exists_spells {stop : UInt8 → Bool} (hfaults : (body stop 0 (w ++ r)).faults = [])
    (hsize : (body stop 0 (w ++ r)).size + 1 = w.length)
    (hdrop : ((w ++ r).drop (body stop 0 (w ++ r)).size).head? = some q) :
    ∃ u, w = u ++ [q] ∧ Spells stop q u (body stop 0 (w ++ r)).value ∧ stop q = true := by
  generalize hk : (body stop 0 (w ++ r)).size = k at hsize hdrop
  obtain ⟨c, hc⟩ : ∃ c, w.drop k = [c] := List.length_eq_one_iff.mp (by
    rw [List.length_drop]
    omega)
  have hw : w = w.take k ++ [c] := by rw [← hc, List.take_append_drop]
  have hwr : (w ++ r).drop k = c :: r := by
    rw [List.drop_append_of_le_length (by omega), hc]
    rfl
  rw [hwr] at hdrop
  cases hdrop
  have hlen : (w.take k).length = k := by
    rw [List.length_take, Nat.min_eq_left (by omega)]
  refine ⟨w.take k, hw, .of_body (s := r) ?_, stop_of_body (hk ▸ hwr)⟩
  have hwhole : w.take k ++ q :: r = w ++ r := by rw [List.append_cons, ← hw]
  rw [hwhole, hlen]
  exact body_eq hk hfaults

theorem fresh_concat_of_ne (hq : q ≠ 10) (now : Bool) (u : Text) :
    fresh now (u ++ [q]) = false := by
  rw [Text.fresh_concat, beq_eq_false_iff_ne.mpr hq]

theorem string_inset (n : Nat) (hf : (string (w ++ r)).faults = [])
    (hsize : (string (w ++ r)).size = w.length) : InsetTo n (breaks 0 w) string w r := by
  have hbody : (body (· == 34) 0 (w ++ r)).faults = [] ∧
      (body (· == 34) 0 (w ++ r)).size + 1 = w.length ∧
      ((w ++ r).drop (body (· == 34) 0 (w ++ r)).size).head? = some 34 := by
    simp only [string] at hf hsize
    split at hf
    · simp at hf
    · next c t heq =>
        simp only [heq] at hsize
        have hc : c = 34 := by simpa using stop_of_body heq
        exact ⟨hf, hsize, by rw [heq, hc]; rfl⟩
  obtain ⟨hfaults, hlen, hdrop⟩ := hbody
  obtain ⟨u, rfl, hspells, hstop⟩ := exists_spells hfaults hlen hdrop
  obtain ⟨y, v, hy, hspells', hwide⟩ :=
    inset_spells hspells hstop rfl rfl (by decide) n false
  have hread {x x' s : Text} (h : Spells (· == 34) 34 x x') :
      string (x ++ [34] ++ s) = ⟨(x ++ [34]).length, some (.str, some (.str x')), []⟩ := by
    have hbody := h s
    rw [List.append_assoc, List.singleton_append, string, hbody]
    simp
  refine ⟨fresh_concat_of_ne (by decide) .., _, by rw [hy]; exact hread hspells', ?_⟩
  rw [hread hspells]
  exact ⟨rfl, fun v' hv => ⟨v, rfl, by cases hv; exact hwide⟩⟩

theorem charLiteral_inset (n : Nat) (hf : (charLiteral (w ++ r)).faults = [])
    (hsize : (charLiteral (w ++ r)).size = w.length) : InsetTo n wide charLiteral w r := by
  obtain ⟨hlen, hdrop⟩ := charLiteral_size hf
  rw [hsize] at hlen
  have hfaults : (body (fun c => c == 39 || c == 10) 0 (w ++ r)).faults = [] := by
    simp only [charLiteral] at hf
    split at hf
    · exact hf
    · simp at hf
  obtain ⟨u, rfl, hspells, hstop⟩ := exists_spells hfaults hlen.symm hdrop
  obtain ⟨y, v, hy, hspells', -⟩ := inset_spells hspells hstop rfl rfl (by decide) n false
  have hread {x x' s : Text} (h : Spells (fun c => c == 39 || c == 10) 39 x x') :
      charLiteral (x ++ [39] ++ s) = ⟨(x ++ [39]).length,
        some (.char, some (.char ((x'.first?.bind (·.1)).getD Text.replacement))), []⟩ := by
    have hbody := h s
    rw [List.append_assoc, List.singleton_append, charLiteral, hbody]
    simp
  refine ⟨fresh_concat_of_ne (by decide) .., _, by rw [hy]; exact hread hspells', ?_⟩
  rw [hread hspells]
  exact ⟨rfl, fun _ hv => by cases hv⟩

/-! ## Raw strings -/

/-- What has neither line breaks nor blanks stands at the front of a text if it does so
when the text is set in. -/
theorem isPrefixOf_inset {needle : Text} (h : 10 ∉ needle) (n : Nat) (t : Text) :
    needle.isPrefixOf (inset n false t) = needle.isPrefixOf t := by
  induction needle generalizing t with
  | nil => rw [List.isPrefixOf_nil_left, List.isPrefixOf_nil_left]
  | cons a needle ih =>
      obtain ⟨ha, hneedle⟩ := not_or.mp (mt List.mem_cons.mpr h)
      cases t with
      | nil => rfl
      | cons b t =>
          rw [Text.inset_false_cons, List.isPrefixOf_cons_cons, List.isPrefixOf_cons_cons]
          by_cases hab : a = b
          · subst hab
            rw [beq_eq_false_iff_ne.mpr (Ne.symm ha), ih hneedle]
          · rw [beq_eq_false_iff_ne.mpr hab, Bool.false_and, Bool.false_and]

theorem find?_cons {needle : Text} {k : Nat} (hpre : needle.isPrefixOf (b :: t) = false)
    (h : Text.find? t needle = some k) : Text.find? (b :: t) needle = some (k + 1) := by
  rw [Text.find?, hpre, if_neg Bool.false_ne_true, h]
  rfl

/-- Blanks are passed over by a search for what does not begin with one. -/
theorem find?_blanks {needle : Text} (hne : needle ≠ []) (h32 : needle.head? ≠ some 32)
    (h : Text.find? (u ++ t) needle = some u.length) (m : Nat) :
    Text.find? (Text.spaces m ++ u ++ t) needle = some (Text.spaces m ++ u).length := by
  induction m with
  | zero => exact h
  | succ m ih =>
      obtain ⟨a, needle, rfl⟩ := List.exists_cons_of_ne_nil hne
      have ha : a ≠ 32 := fun ha => h32 (congrArg some ha)
      refine find?_cons ?_ ih
      rw [List.isPrefixOf_cons_cons, beq_eq_false_iff_ne.mpr ha, Bool.false_and]

/-- Whether a needle behind `u` is found when the text is set in. What it is then behind
is `u`, or longer if a line begins with it or in it. -/
def FindsInset (needle : Text) (n : Nat) (now : Bool) (u t : Text) : Prop :=
  ∃ y, inset n now (u ++ t) = y ++ inset n false t ∧
    Text.find? (y ++ inset n false t) needle = some y.length ∧
    Widened n (now || u.contains 10) u y

namespace FindsInset

variable {needle : Text}

theorem line (h : FindsInset needle n false u t) (hne : needle ≠ [])
    (h32 : needle.head? ≠ some 32)
    (ht : u ++ t ≠ []) (hbreak : (u ++ t).head? = some 10 → u.contains 10 = true)
    (now : Bool) : FindsInset needle n now u t := by
  cases now with
  | false => exact h
  | true =>
      obtain ⟨y, hy, hfind, hwide⟩ := h
      by_cases h10 : (u ++ t).head? = some 10
      · obtain ⟨s, hs⟩ := List.head?_eq_some_iff.mp h10
        refine ⟨y, ?_, hfind, ?_⟩
        · rw [← hy, hs]
          rfl
        · rw [hbreak h10] at hwide ⊢
          exact hwide
      · refine ⟨Text.spaces n ++ y, ?_, find?_blanks hne h32 hfind n, hwide.blanks⟩
        rw [Text.inset_true (fun c hc hc10 => h10 (hc10 ▸ hc)) ht, hy, List.append_assoc]

theorem nil (h10 : 10 ∉ needle) (hpre : needle.isPrefixOf (b :: t) = true) :
    FindsInset needle n false [] (b :: t) := by
  refine ⟨[], rfl, ?_, .refl n []⟩
  rw [List.nil_append, Text.inset_false_cons, Text.find?, ← Text.inset_false_cons,
    isPrefixOf_inset h10, if_pos hpre]
  rfl

theorem cons (h : FindsInset needle n (b == 10) u t) (h10 : 10 ∉ needle)
    (hpre : needle.isPrefixOf (b :: (u ++ t)) = false) :
    FindsInset needle n false (b :: u) t := by
  obtain ⟨y, hy, hfind, hwide⟩ := h
  refine ⟨b :: y, ?_, find?_cons ?_ hfind, ?_⟩
  · rw [List.cons_append, Text.inset_false_cons, hy]
    rfl
  · change needle.isPrefixOf (b :: (y ++ inset n false t)) = false
    rw [← hy, ← Text.inset_false_cons, isPrefixOf_inset h10, hpre]
  · rw [List.contains_cons, Bool.beq_comm]
    exact hwide.prepend [b]

end FindsInset

/-- What is looked for is found in a text that is set in, behind blanks if a line begins
with it. -/
theorem find?_inset {needle : Text} (hne : needle ≠ []) (h10 : 10 ∉ needle)
    (h32 : needle.head? ≠ some 32) (h : Text.find? (u ++ t) needle = some u.length)
    (n : Nat) (now : Bool) : FindsInset needle n now u t := by
  induction u generalizing now with
  | nil =>
      have hpre : needle <+: t := drop_of_find? h
      obtain ⟨b, t, rfl⟩ := List.exists_cons_of_ne_nil (hpre.ne_nil hne)
      refine .line (.nil h10 (List.isPrefixOf_iff_prefix.mpr hpre)) hne h32 (by simp) ?_ now
      -- the needle begins with the text behind it, and no line breaks in it
      rintro ⟨⟩
      obtain ⟨a, needle, rfl⟩ := List.exists_cons_of_ne_nil hne
      obtain rfl : a = 10 := (List.cons_prefix_cons.mp hpre).1
      exact absurd (List.mem_cons_self ..) h10
  | cons b u ih =>
      rw [List.cons_append, Text.find?, ← List.cons_append] at h
      split at h
      · cases h
      · next hpre =>
          obtain ⟨m, hm, hlen⟩ := Option.map_eq_some_iff.mp h
          obtain rfl : m = u.length := Nat.succ_injective hlen
          refine .line ((ih hm (b == 10)).cons h10 (Bool.eq_false_iff.mpr hpre)) hne h32
            (by simp) ?_ now
          rintro ⟨⟩
          rfl

/-- The hashes and the quote that end a raw string. -/
def rawNeedle (k : Nat) : Text := 34 :: List.replicate k 35

theorem not_mem_rawNeedle (k : Nat) : 10 ∉ rawNeedle k := by
  intro h
  rcases List.mem_cons.mp h with h | h
  · exact absurd h (by decide)
  · exact absurd (List.eq_of_mem_replicate h) (by decide)

/-- What is read of hashes, a quote, and text in which the end of the literal is found. -/
theorem rawString_of_find? {k : Nat}
    (h : Text.find? (u ++ t) (rawNeedle k) = some u.length) :
    rawString (List.replicate k 35 ++ 34 :: (u ++ t)) =
      ⟨k + 1 + u.length + 1 + k, some (.str, some (.str u)), []⟩ := by
  have hrun : run (· == 35) (List.replicate k 35 ++ 34 :: (u ++ t)) = k := by
    rw [run_append, List.length_replicate]
    · intro c hc
      rw [List.eq_of_mem_replicate hc]
      rfl
    · rintro _ ⟨⟩
      rfl
  have hdrop : (List.replicate k (35 : UInt8) ++ 34 :: (u ++ t)).drop k =
      34 :: (u ++ t) := by
    conv_lhs => rw [← List.length_replicate (n := k) (a := (35 : UInt8))]
    rw [List.length_replicate, List.drop_left' List.length_replicate]
  have hfind : Text.find? (u ++ t) (34 :: List.replicate k 35) = some u.length := h
  simp only [rawString, hrun, hdrop, hfind, List.take_left]

/-- A raw string is hashes, a quote and text in which its end is found. -/
theorem exists_find? (hf : (rawString (w ++ r)).faults = [])
    (hsize : (rawString (w ++ r)).size = w.length) :
    ∃ k u, w = List.replicate k 35 ++ 34 :: (u ++ rawNeedle k) ∧
      Text.find? (u ++ (rawNeedle k ++ r)) (rawNeedle k) = some u.length := by
  simp only [rawString] at hf hsize
  generalize hk : run (· == 35) (w ++ r) = k at hf hsize
  split at hf
  · next inner hinner =>
      split at hf
      · next m hm =>
          simp only [hinner, hm] at hsize
          have hhashes : (w ++ r).take k = List.replicate k 35 := by
            rw [← hk, take_run]
            refine List.eq_replicate_iff.mpr ⟨rfl, fun b hb => ?_⟩
            simpa using List.mem_takeWhile_imp hb
          obtain ⟨z, hz⟩ := drop_of_find? hm
          have hm' : m ≤ inner.length := Nat.le_of_add_right_le (find?_le hm)
          have hwhole : w ++ r =
              List.replicate k 35 ++ 34 :: (inner.take m ++ rawNeedle k) ++ z := by
            rw [← List.take_append_drop k (w ++ r), hinner, hhashes,
              ← List.take_append_drop m inner, ← hz]
            simp [rawNeedle, hm']
          have hlen : w.length =
              (List.replicate k (35 : UInt8) ++ 34 ::
                (inner.take m ++ rawNeedle k)).length := by
            simp only [rawNeedle, List.length_append, List.length_cons,
              List.length_replicate, List.length_take]
            omega
          obtain ⟨hw, rfl⟩ := List.append_inj hwhole hlen
          refine ⟨k, inner.take m, hw, ?_⟩
          have hinner : inner.take m ++ (rawNeedle k ++ r) = inner := by
            rw [rawNeedle, hz, List.take_append_drop]
          rw [hinner, List.length_take, Nat.min_eq_left hm']
          exact hm
      · cases hf
  · cases hf

theorem rawString_inset (n : Nat) (hf : (rawString (w ++ r)).faults = [])
    (hsize : (rawString (w ++ r)).size = w.length) :
    InsetTo n (w.contains 10) rawString w r := by
  obtain ⟨k, u, rfl, hfind⟩ := exists_find? hf hsize
  have hneedle := not_mem_rawNeedle k
  obtain ⟨y, hy, hfind', hwide⟩ := find?_inset (List.cons_ne_nil _ _) hneedle
    (by simp) hfind n false
  have hfresh (now : Bool) (x : Text) : fresh now (x ++ rawNeedle k) = false := by
    rw [Text.fresh_append]
    exact Text.fresh_of_not_mem (mt (List.mem_cons_of_mem _) hneedle)
  have hhashes : (10 : UInt8) ∉ List.replicate k 35 :=
    fun h => absurd (List.eq_of_mem_replicate h) (by decide)
  have hinset : inset n false (rawNeedle k ++ r) = rawNeedle k ++ inset n false r := by
    rw [Text.inset_append, Text.inset_of_not_mem hneedle, Text.fresh_of_not_mem hneedle]
  rw [hinset] at hy hfind'
  have hbody : inset n false (u ++ rawNeedle k) = y ++ rawNeedle k := by
    rw [← List.append_assoc, Text.inset_append, hfresh, ← List.append_assoc] at hy
    exact List.append_cancel_right hy
  have hw : inset n false (List.replicate k 35 ++ 34 :: (u ++ rawNeedle k)) =
      List.replicate k 35 ++ 34 :: (y ++ rawNeedle k) := by
    rw [Text.inset_append, Text.inset_of_not_mem hhashes, Text.fresh_of_not_mem hhashes,
      Text.inset_false_cons]
    change _ ++ 34 :: inset n false (u ++ rawNeedle k) = _
    rw [hbody]
  refine ⟨?_, some (.str, some (.str y)), ?_, ?_⟩
  · rw [Text.fresh_append]
    exact hfresh _ u
  · rw [hw]
    simp only [List.append_assoc, List.cons_append]
    rw [rawString_of_find? hfind']
    simp only [rawNeedle, List.length_append, List.length_cons, List.length_replicate,
      Lexeme.mk.injEq, and_true]
    omega
  · simp only [List.append_assoc, List.cons_append]
    rw [rawString_of_find? hfind]
    refine ⟨rfl, ?_⟩
    rintro _ ⟨⟩
    have hcontains : (List.replicate k 35 ++ 34 :: (u ++ rawNeedle k)).contains 10 =
        u.contains 10 := by
      rw [Bool.eq_iff_iff, List.contains_iff_mem, List.contains_iff_mem]
      simp only [List.mem_append, List.mem_cons]
      exact ⟨by tauto, by tauto⟩
    rw [hcontains]
    exact ⟨y, rfl, hwide⟩

/-! ## Comments -/

theorem closes_inset {k : Nat} (h : Closes k u) (n : Nat) (now : Bool) :
    Closes k (inset n now u) ∧ (u ≠ [] → fresh now u = false) := by
  -- blanks between the marks change nothing
  have hpad {k : Nat} {t : Text} (h : Closes (k + 1) t) (m : Nat) :
      Closes (k + 1) (Text.spaces m ++ t) := by
    induction m with
    | zero => exact h
    | succ m ih => exact .byte rfl ih
  have hline {k : Nat} {b : UInt8} {t : Text} (h : Closes (k + 1) (b :: t)) (now : Bool) :
      Closes (k + 1) ((if now && b != 10 then Text.spaces n else []) ++ b :: t) := by
    split
    · exact hpad h n
    · exact h
  induction h generalizing now with
  | done => exact ⟨.done, fun h => absurd rfl h⟩
  | opening hu ih =>
      obtain ⟨hcloses, hfresh⟩ := ih false
      exact ⟨hline (.opening hcloses) now, fun _ => hfresh hu.ne_nil⟩
  | @closing k u hu ih =>
      obtain ⟨hcloses, hfresh⟩ := ih false
      refine ⟨hline (.closing hcloses) now, fun _ => ?_⟩
      cases hu with
      | done => rfl
      | opening | closing | byte => exact hfresh (List.cons_ne_nil _ _)
  | @byte k b u hmarks hu ih =>
      obtain ⟨hcloses, hfresh⟩ := ih (b == 10)
      refine ⟨hline (.byte ?_ hcloses) now, fun _ => hfresh hu.ne_nil⟩
      by_cases hb : b = 10
      · subst hb
        rfl
      · rw [beq_eq_false_iff_ne.mpr hb]
        cases u with
        | nil => exact absurd rfl hu.ne_nil
        | cons c u =>
            rw [Text.inset_false_cons]
            unfold marks at hmarks ⊢
            split at hmarks <;> simp_all

theorem slash_inset (n : Nat) (hf : (slash (42 :: w ++ r)).faults = [])
    (hsize : (slash (42 :: w ++ r)).size = (42 :: w).length) :
    InsetTo n wide slash (42 :: w) r := by
  have hclosed : blockComment 0 (w ++ r) = (w.length, true) := by
    simp only [List.cons_append, slash] at hf hsize
    split at hf
    · next hclosed =>
        simp only [hclosed, if_true] at hsize
        exact Prod.ext (Nat.succ_injective hsize) hclosed
    · cases hf
  have hcloses := closes_of_blockComment hclosed
  rw [List.take_left] at hcloses
  obtain ⟨hcloses', hfresh⟩ := closes_inset hcloses n false
  have hread {x s : Text} (h : Closes 1 x) :
      slash (42 :: x ++ s) = ⟨(42 :: x).length, none, []⟩ := by
    simp only [List.cons_append, slash, blockComment_of_closes h, if_true]
    rfl
  refine ⟨hfresh hcloses.ne_nil, none, hread hcloses', ?_⟩
  rw [hread hcloses]
  exact ⟨rfl, fun _ hv => by cases hv⟩

/-! ## Lexemes on one line -/

/-- What begins with `b` goes over lines only if it is a literal or a comment. -/
theorem not_mem_take_run {p : UInt8 → Bool} (hp : p 10 = false) (t : Text) :
    10 ∉ t.take (run p t) := fun h => by
  rw [of_mem_take_run h] at hp
  cases hp

theorem not_mem_take_succ {k : Nat} (hc : c ≠ 10) (h : 10 ∉ t.take k) :
    10 ∉ (c :: t).take (k + 1) := by
  rw [List.take_succ_cons]
  exact List.mem_cons.not.mpr (not_or.mpr ⟨Ne.symm hc, h⟩)

theorem word_flat (first : UInt8) (t : Text) : 10 ∉ t.take (word first t).size := by
  rw [word_size]
  exact not_mem_take_run rfl t

theorem body_size_le_of_stop {stop : UInt8 → Bool} {j : Nat} (h : ∀ y ∈ t.take j, y ≠ 92)
    (hc : (t.drop j).head? = some c) (hstop : stop c = true) :
    (body stop 0 t).size ≤ j := by
  induction j generalizing t with
  | zero =>
      obtain ⟨u, rfl⟩ := List.head?_eq_some_iff.mp hc
      rw [body, if_pos hstop]
  | succ j ih =>
      cases t with
      | nil => cases hc
      | cons b t =>
          rw [List.take_succ_cons] at h
          rw [body]
          split
          · exact Nat.zero_le _
          · rw [if_neg (h b (List.mem_cons_self ..))]
            exact Nat.succ_le_succ (ih (fun y hy => h y (List.mem_cons_of_mem _ hy)) hc)

/-- A character that is known by the quote behind it has no line break. -/
theorem charLiteral_flat {x : UInt8} (hx : x ≠ 92)
    (hquote : ((x :: t).drop ((Text.char? x t).2 + 1)).head? = some 39)
    (hf : (charLiteral (x :: t)).faults = []) :
    10 ∉ (x :: t).take (charLiteral (x :: t)).size := by
  obtain ⟨hsize, hlast⟩ := charLiteral_size hf
  rw [hsize]
  have hx10 : x ≠ 10 := by
    rintro rfl
    have hzero : (body (fun c => c == 39 || c == 10) 0 (10 :: t)).size = 0 := rfl
    rw [hzero] at hlast
    cases hlast
  have hbytes : ∀ y ∈ (x :: t).take ((Text.char? x t).2 + 1), y ≠ 10 ∧ y ≠ 92 := by
    rw [List.take_succ_cons]
    refine List.forall_mem_cons.mpr ⟨⟨hx10, hx⟩, fun y hy => ?_⟩
    rcases Nat.eq_zero_or_pos (Text.char? x t).2 with hzero | hpos
    · rw [hzero] at hy
      cases hy
    · have hhigh := ne_of_high ((le_of_char? rfl hpos).2.2 y hy)
      refine ⟨?_, hhigh.2⟩
      rintro rfl
      exact absurd hhigh.1 (by decide)
  have hle : (body (fun c => c == 39 || c == 10) 0 (x :: t)).size ≤
      (Text.char? x t).2 + 1 :=
    body_size_le_of_stop (fun y hy => (hbytes y hy).2) hquote rfl
  intro hmem
  have hmem := (List.take_prefix_take_left (l := x :: t) (Nat.succ_le_succ hle)).subset hmem
  rcases mem_take_add (n := 1) hmem with hmem | hmem
  · exact (hbytes 10 hmem).1 rfl
  · obtain ⟨u, hu⟩ := List.head?_eq_some_iff.mp hquote
    rw [hu] at hmem
    exact absurd (List.mem_singleton.mp hmem) (by decide)

theorem quote_flat (hf : (quote t).faults = []) (h92 : t.head? ≠ some 92) :
    10 ∉ t.take (quote t).size := by
  cases t with
  | nil => exact List.not_mem_nil
  | cons x t =>
      have hx : x ≠ 92 := fun h => h92 (congrArg some h)
      rw [quote_cons t hx] at hf ⊢
      split
      · next hquote =>
          rw [if_pos hquote] at hf
          exact charLiteral_flat hx hquote hf
      · next hquote =>
          rw [if_neg hquote] at hf
          split
          · next ch hch =>
              simp only [hch] at hf
              split
              · exact not_mem_take_run rfl _
              · next hletter =>
                  rw [if_neg hletter] at hf
                  cases hf
          · next hch =>
              simp only [hch] at hf
              cases hf

/-! ## Lexemes -/

theorem not_breaksLine_of_not_mem (h : 10 ∉ t) : breaksLine t = false := by
  unfold breaksLine
  split
  · simpa using h
  · exact not_breaks_of_not_mem h

theorem lexeme_eq {l : Lexeme} {k : Nat} (hsize : l.size = k) (hf : l.faults = []) :
    l = ⟨k, l.token, []⟩ := by
  cases l
  cases hsize
  cases hf
  rfl

/-- What stands on one line is read as before: the line ends where it ended. -/
theorem lexeme_inset_flat (hf : (lexeme b (w ++ r)).faults = [])
    (hsize : (lexeme b (w ++ r)).size = w.length) (hb : b ≠ 10) (h10 : 10 ∉ w) (n : Nat) :
    InsetTo n (breaksLine (b :: w)) (lexeme b) w r := by
  have hwide : breaksLine (b :: w) = false :=
    not_breaksLine_of_not_mem (List.mem_cons.not.mpr (not_or.mpr ⟨Ne.symm hb, h10⟩))
  have hsame : lexeme b (w ++ inset n false r) = lexeme b (w ++ r) := by
    by_cases hr : 10 ∈ r
    · obtain ⟨u, v, rfl, hu⟩ := List.eq_append_cons_of_mem hr
      rw [Text.inset_append, Text.inset_of_not_mem hu, Text.fresh_of_not_mem hu,
        Text.inset_false_cons, ← List.append_assoc, ← List.append_assoc]
      rw [← List.append_assoc] at hf hsize
      refine lexeme_replace hf (by rw [hsize, List.length_append]; omega)
        ?_ fun _ _ => nofun
      rintro _ ⟨⟩
      exact ⟨by decide, fun _ => by simp [glues], fun h => absurd rfl h⟩
    · rw [Text.inset_of_not_mem hr]
  refine ⟨Text.fresh_of_not_mem h10, (lexeme b (w ++ r)).token, ?_, .refl hwide⟩
  rw [Text.inset_of_not_mem h10, hsame]
  exact lexeme_eq hsize hf

theorem InsetTo.shift {f g : Text → Lexeme} (hc : c ≠ 10) (h : InsetTo n wide f w r)
    (hg : ∀ t, t = w ++ r ∨ t = inset n false (w ++ r) → g (c :: t) = (f t).shift 1) :
    InsetTo n wide g (c :: w) r := by
  obtain ⟨hfresh, token, hread, htoken⟩ := h
  have hcons : inset n false (c :: w) = c :: inset n false w := by
    rw [Text.inset_false_cons, beq_eq_false_iff_ne.mpr hc]
  refine ⟨?_, token, ?_, ?_⟩
  · rw [fresh, beq_eq_false_iff_ne.mpr hc]
    exact hfresh
  · rw [hcons, List.cons_append, hg _ (.inr ?_), hread]
    · rfl
    · rw [Text.inset_append, hfresh]
  · rw [List.cons_append, hg _ (.inl rfl)]
    exact htoken

theorem InsetTo.congr {f g : Text → Lexeme} (h : InsetTo n wide f w r)
    (hg : ∀ t, t = w ++ r ∨ t = inset n false (w ++ r) → g t = f t) :
    InsetTo n wide g w r := by
  obtain ⟨hfresh, token, hread, htoken⟩ := h
  refine ⟨hfresh, token, ?_, ?_⟩
  · rw [hg _ (.inr ?_), hread]
    rw [Text.inset_append, hfresh]
  · rwa [hg _ (.inl rfl)]

theorem opensRaw_inset (n : Nat) (t : Text) : opensRaw (inset n false t) = opensRaw t := by
  induction t with
  | nil => rfl
  | cons c t ih =>
      rw [Text.inset_false_cons]
      unfold opensRaw at ih ⊢
      by_cases hc : c = 35
      · subst hc
        exact ih
      · rw [List.dropWhile_cons_of_neg (by simpa using hc),
          List.dropWhile_cons_of_neg (by simpa using hc)]
        rfl

theorem head?_of_or (h : t = u ∨ t = inset n false u) : t.head? = u.head? := by
  rcases h with rfl | rfl
  · rfl
  · exact head?_inset n u

theorem InsetTo.of_shift {f : Text → Lexeme} (n : Nat)
    (hf : ((f (w ++ r)).shift 1).faults = [])
    (hsize : ((f (w ++ r)).shift 1).size = w.length + 1)
    (h : (f (w ++ r)).faults = [] → (f (w ++ r)).size = w.length → InsetTo n wide f w r) :
    InsetTo n wide f w r :=
  h (faults_of_shift hf) (Nat.succ_injective hsize)

theorem wordLike_r_inset (hf : (wordLike 114 (w ++ r)).faults = [])
    (hsize : (wordLike 114 (w ++ r)).size = w.length) (h10 : 10 ∈ w) (n : Nat) :
    InsetTo n (breaksLine (114 :: w)) (wordLike 114) w r := by
  have hflat : 10 ∈ (w ++ r).take (wordLike 114 (w ++ r)).size := by
    rw [hsize, List.take_left]
    exact h10
  have hwide : breaksLine (114 :: w) = w.contains 10 := rfl
  rw [wordLike_r] at hf hsize hflat
  split at hf
  · next hraw =>
      rw [if_pos hraw] at hsize
      rw [hwide]
      refine (rawString_inset n hf hsize).congr fun t ht => ?_
      have hopens : opensRaw t = opensRaw (w ++ r) := by
        rcases ht with rfl | rfl
        · rfl
        · exact opensRaw_inset n _
      rw [wordLike_r, head?_of_or ht, hopens, if_pos hraw]
  · next hraw =>
      rw [if_neg hraw] at hflat
      exfalso
      split at hflat
      · next hname =>
          rw [Bool.and_eq_true, beq_iff_eq] at hname
          obtain ⟨u, hu⟩ := List.head?_eq_some_iff.mp hname.1
          rw [hu] at hflat
          rw [Lexeme.plain, Nat.add_comm] at hflat
          exact not_mem_take_succ (by decide) (not_mem_take_run rfl u) hflat
      · exact word_flat _ _ hflat

theorem wordLike_b_inset (hf : (wordLike 98 (w ++ r)).faults = [])
    (hsize : (wordLike 98 (w ++ r)).size = w.length) (h10 : 10 ∈ w) (n : Nat) :
    InsetTo n (breaksLine (98 :: w)) (wordLike 98) w r := by
  have hflat : 10 ∈ (w ++ r).take (wordLike 98 (w ++ r)).size := by
    rw [hsize, List.take_left]
    exact h10
  obtain ⟨c, w, rfl⟩ := List.exists_cons_of_ne_nil (List.ne_nil_of_mem h10)
  rw [wordLike_b] at hf hsize hflat
  simp only [List.cons_append, List.head?_cons, List.drop_succ_cons,
    List.drop_zero] at hf hsize hflat
  split at hf
  · next hstr =>
      rw [if_pos hstr] at hsize
      obtain rfl : c = 34 := by simpa using hstr
      have hwide : breaksLine (98 :: 34 :: w) = breaks 0 w := by
        simp [breaksLine, isRaw, breaks]
      rw [hwide]
      exact (InsetTo.of_shift n hf hsize (string_inset n)).shift (by decide) fun t _ => rfl
  · next hstr =>
      rw [if_neg hstr] at hsize hflat
      split at hf
      · next hraw =>
          rw [if_pos hraw] at hsize
          rw [Bool.and_eq_true, beq_iff_eq, Option.some.injEq] at hraw
          obtain ⟨rfl, hraw⟩ := hraw
          have hwide : breaksLine (98 :: 114 :: w) = w.contains 10 := rfl
          rw [hwide]
          refine (InsetTo.of_shift n hf hsize (rawString_inset n)).shift
            (by decide) fun t ht => ?_
          rw [wordLike_b]
          simp only [List.head?_cons, List.drop_succ_cons, List.drop_zero,
            head?_of_or ht, hraw]
          rfl
      · next hraw =>
          rw [if_neg hraw] at hsize hflat
          split at hf
          · next hchar =>
              rw [if_pos hchar] at hsize
              obtain rfl : c = 39 := by simpa using hchar
              exact (InsetTo.of_shift n hf hsize (charLiteral_inset n)).shift (by decide)
                fun t _ => rfl
          · next hchar =>
              rw [if_neg hchar] at hflat
              exact absurd hflat (word_flat _ _)

theorem wordLike_c_inset (hf : (wordLike 99 (w ++ r)).faults = [])
    (hsize : (wordLike 99 (w ++ r)).size = w.length) (h10 : 10 ∈ w) (n : Nat) :
    InsetTo n (breaksLine (99 :: w)) (wordLike 99) w r := by
  have hflat : 10 ∈ (w ++ r).take (wordLike 99 (w ++ r)).size := by
    rw [hsize, List.take_left]
    exact h10
  obtain ⟨c, w, rfl⟩ := List.exists_cons_of_ne_nil (List.ne_nil_of_mem h10)
  rw [wordLike_c] at hf hsize hflat
  simp only [List.cons_append, List.head?_cons, List.drop_succ_cons,
    List.drop_zero] at hf hsize hflat
  split at hf
  · next hstr =>
      rw [if_pos hstr] at hsize
      obtain rfl : c = 34 := by simpa using hstr
      have hwide : breaksLine (99 :: 34 :: w) = breaks 0 w := by
        simp [breaksLine, isRaw, breaks]
      rw [hwide]
      exact (InsetTo.of_shift n hf hsize (string_inset n)).shift (by decide) fun t _ => rfl
  · next hstr =>
      rw [if_neg hstr] at hflat
      exact absurd hflat (word_flat _ _)

theorem wordLike_inset {first : UInt8} (hf : (wordLike first (w ++ r)).faults = [])
    (hsize : (wordLike first (w ++ r)).size = w.length) (h10 : 10 ∈ w) (n : Nat) :
    InsetTo n (breaksLine (first :: w)) (wordLike first) w r := by
  by_cases hr : first = 114
  · subst hr
    exact wordLike_r_inset hf hsize h10 n
  by_cases hb : first = 98
  · subst hb
    exact wordLike_b_inset hf hsize h10 n
  by_cases hc : first = 99
  · subst hc
    exact wordLike_c_inset hf hsize h10 n
  -- all others are numbers and names
  have hflat : 10 ∈ (w ++ r).take (wordLike first (w ++ r)).size := by
    rw [hsize, List.take_left]
    exact h10
  rw [wordLike_other hr hb hc] at hf hflat
  exfalso
  split at hflat
  · next hdigit =>
      rw [if_pos hdigit] at hf
      exact absurd (isNumberPart_of_number hf hflat) (by decide)
  · next hdigit =>
      split at hflat
      · exact word_flat _ _ hflat
      · next halpha =>
          rw [if_neg hdigit, if_neg halpha] at hf
          cases hf

/-- What a mark begins that another byte may extend stands on one line. -/
theorem lexeme_pair_flat {c : UInt8} {k k' : TokenKind}
    (h : (b, c, k, k') ∈ pairs) (t : Text) : 10 ∉ t.take (lexeme b t).size := by
  have hc : c ≠ 10 := by
    rintro rfl
    revert h
    simp [pairs]
  rw [lexeme_pair h]
  split
  · next hhead =>
      obtain ⟨u, rfl⟩ := List.head?_eq_some_iff.mp hhead
      exact not_mem_take_succ hc (by simp)
  · simp [Lexeme.plain]

theorem lexeme_equals_flat (t : Text) : 10 ∉ t.take (lexeme 61 t).size := by
  have hone {c : UInt8} (hc : c ≠ 10) (hhead : t.head? = some c) : 10 ∉ t.take 1 := by
    obtain ⟨u, rfl⟩ := List.head?_eq_some_iff.mp hhead
    exact not_mem_take_succ hc (by simp)
  rw [lexeme_equals]
  split
  · next hhead => exact hone (by decide) hhead
  · split
    · next hhead => exact hone (by decide) hhead
    · simp [Lexeme.plain]

theorem lexeme_dot_flat (t : Text) : 10 ∉ t.take (lexeme 46 t).size := by
  rw [lexeme_dot]
  split
  · next hhead =>
      obtain ⟨u, rfl⟩ := List.head?_eq_some_iff.mp hhead
      split
      · next hnext =>
          refine not_mem_take_succ (by decide) ?_
          rw [List.drop_succ_cons, List.drop_zero] at hnext
          rcases hnext with hnext | hnext <;>
          · obtain ⟨u, rfl⟩ := List.head?_eq_some_iff.mp hnext
            exact not_mem_take_succ (by decide) (by simp)
      · exact not_mem_take_succ (by decide) (by simp)
  · simp [Lexeme.plain]

theorem lexeme_slash_inset (hf : (slash (w ++ r)).faults = [])
    (hsize : (slash (w ++ r)).size = w.length) (h10 : 10 ∈ w) (n : Nat) :
    InsetTo n wide slash w r := by
  obtain ⟨c, w, rfl⟩ := List.exists_cons_of_ne_nil (List.ne_nil_of_mem h10)
  by_cases h42 : c = 42
  · subst h42
    exact slash_inset n hf hsize
  · exfalso
    have hflat : 10 ∈ (c :: w ++ r).take (slash (c :: w ++ r)).size := by
      rw [hsize, List.take_left]
      exact h10
    by_cases h47 : c = 47
    · subst h47
      change 10 ∈ (47 :: (w ++ r)).take (1 + run (· ≠ 10) (w ++ r)) at hflat
      rw [Nat.add_comm] at hflat
      exact not_mem_take_succ (by decide) (not_mem_take_run rfl _) hflat
    · rw [slash_other] at hflat
      · simp [Lexeme.plain] at hflat
      · rintro _ ⟨⟩
        exact ⟨h47, h42⟩

/-- What is read of a lexeme when its lines are set in, with all that stands behind. -/
theorem lexeme_inset (hf : (lexeme b (w ++ r)).faults = [])
    (hsize : (lexeme b (w ++ r)).size = w.length) (hb : b ≠ 10) (n : Nat) :
    InsetTo n (breaksLine (b :: w)) (lexeme b) w r := by
  by_cases h10 : 10 ∈ w
  case neg => exact lexeme_inset_flat hf hsize hb h10 n
  have hflat : 10 ∈ (w ++ r).take (lexeme b (w ++ r)).size := by
    rw [hsize, List.take_left]
    exact h10
  have hne : w ≠ [] := List.ne_nil_of_mem h10
  have hzero (h : (lexeme b (w ++ r)).size = 0) : False := by
    rw [h] at hsize
    exact hne (List.length_eq_zero_iff.mp hsize.symm)
  cases hsingle : single? b with
  | some kind => exact absurd (by simp only [lexeme, hsingle]; rfl) hzero
  | none =>
      cases hspace : isSpace b with
      | true => exact absurd (by simp only [lexeme, hsingle, hspace, if_true]; rfl) hzero
      | false =>
          by_cases hmark : b ∈ ([33, 34, 38, 39, 45, 46, 47, 58, 61] : List UInt8)
          · simp only [List.mem_cons, List.not_mem_nil, or_false] at hmark
            rcases hmark with rfl | rfl | rfl | rfl | rfl | rfl | rfl | rfl | rfl
            · exact absurd hflat
                (lexeme_pair_flat (by decide : (33, 61, .notEq, .bang) ∈ pairs) _)
            · have hwide : breaksLine (34 :: w) = breaks 0 w := by
                simp [breaksLine, isRaw, breaks]
              rw [hwide]
              exact string_inset n hf hsize
            · exact absurd hflat
                (lexeme_pair_flat (by decide : (38, 38, .doubleAmp, .amp) ∈ pairs) _)
            · by_cases h92 : (w ++ r).head? = some 92
              · have hquote {t : Text} (ht : t.head? = some 92) :
                    lexeme 39 t = charLiteral t := by
                  change quote t = _
                  rw [quote, if_pos (by rw [ht]; rfl)]
                rw [hquote h92] at hf hsize
                exact (charLiteral_inset n hf hsize).congr fun t ht =>
                  hquote (head?_of_or ht ▸ h92)
              · exact absurd hflat (quote_flat hf h92)
            · exact absurd hflat
                (lexeme_pair_flat (by decide : (45, 62, .arrow, .minus) ∈ pairs) _)
            · exact absurd hflat (lexeme_dot_flat _)
            · exact lexeme_slash_inset hf hsize h10 n
            · exact absurd hflat
                (lexeme_pair_flat (by decide : (58, 58, .doubleColon, .colon) ∈ pairs) _)
            · exact absurd hflat (lexeme_equals_flat _)
          · have hword := lexeme_other hsingle hspace hmark
            rw [hword] at hf hsize
            exact (wordLike_inset hf hsize h10 n).congr fun t _ => hword t

/-! ## Pieces -/

/-- What becomes of a piece when its lines are set in. -/
structure InsetPiece (n : Nat) (p q : Piece) : Prop where
  text : q.text = inset n false p.text
  token : TokenInset n (breaksLine p.text) p.token q.token
  firm : q.IsFirm

/-- What becomes of pieces when their lines are set in, with the blanks between them. -/
inductive Insets (n : Nat) : List Piece → List Piece → Prop where
  | nil : Insets n [] []
  | blank {ps qs : List Piece} : Insets n ps qs → Insets n ps (⟨[32], none, []⟩ :: qs)
  | cons {p q : Piece} {ps qs : List Piece} :
      InsetPiece n p q → Insets n ps qs → Insets n (p :: ps) (q :: qs)

theorem pieces_spaces (m : Nat) (s : Text) :
    pieces (Text.spaces m ++ s) = List.replicate m ⟨[32], none, []⟩ ++ pieces s := by
  induction m with
  | zero => rfl
  | succ m ih =>
      change pieces (32 :: (Text.spaces m ++ s)) = _
      rw [pieces_cons]
      change ⟨[32], none, []⟩ :: pieces (Text.spaces m ++ s) = _
      rw [ih]
      rfl

theorem Insets.blanks {ps qs : List Piece} (h : Insets n ps qs) (m : Nat) :
    Insets n ps (List.replicate m ⟨[32], none, []⟩ ++ qs) := by
  induction m with
  | zero => exact h
  | succ m ih => exact .blank ih

theorem Insets.firm {ps qs : List Piece} (h : Insets n ps qs) : ∀ q ∈ qs, q.IsFirm := by
  induction h with
  | nil => exact List.forall_mem_nil _
  | blank _ ih => exact List.forall_mem_cons.mpr ⟨.inl rfl, ih⟩
  | cons hp _ ih => exact List.forall_mem_cons.mpr ⟨hp.firm, ih⟩

theorem piece_inset (hfirm : (piece b (w ++ r)).IsFirm) (hb : b ≠ 10)
    (hsize : (lexeme b (w ++ r)).size = w.length) (n : Nat) :
    fresh false w = false ∧ ∃ q, InsetPiece n (piece b (w ++ r)) q ∧
      pieces (inset n false (b :: (w ++ r))) = q :: pieces (inset n false r) := by
  have hinset (x : Text) : inset n false (b :: x) = b :: inset n false x := by
    rw [Text.inset_false_cons, beq_eq_false_iff_ne.mpr hb]
  have htext : (piece b (w ++ r)).text = b :: w := by
    simp only [piece, hsize, List.take_left]
  rcases hfirm with hclean | hrigid
  · have hf : (lexeme b (w ++ r)).faults = [] := List.map_eq_nil_iff.mp hclean
    obtain ⟨hfresh, token, hread, htoken⟩ := lexeme_inset hf hsize hb n
    refine ⟨hfresh, ⟨b :: inset n false w, token, []⟩, ⟨?_, ?_, .inl rfl⟩, ?_⟩
    · rw [htext, hinset]
    · rw [htext]
      exact htoken
    · rw [hinset, Text.inset_append, hfresh, pieces_cons, piece, hread]
      simp
  · have hfirm : (piece b (w ++ r)).IsFirm := .inr hrigid
    obtain ⟨b', w', htext', -, h10, hrigid⟩ := hrigid
    rw [htext, List.cons.injEq] at htext'
    obtain ⟨rfl, rfl⟩ := htext'
    refine ⟨Text.fresh_of_not_mem h10, piece b (w ++ r), ⟨?_, .refl ?_, hfirm⟩, ?_⟩
    · rw [htext, hinset, Text.inset_of_not_mem h10]
    · rw [htext]
      exact not_breaksLine_of_not_mem (List.mem_cons.not.mpr (not_or.mpr ⟨Ne.symm hb, h10⟩))
    · obtain ⟨hpiece, hsize⟩ := hrigid (inset n false r)
      rw [hinset, Text.inset_append, Text.inset_of_not_mem h10, Text.fresh_of_not_mem h10,
        pieces_cons, hpiece, hsize, List.drop_left]

/-- The pieces of a text, when its lines are set in, and of what stands behind it. -/
theorem pieces_inset {x : Text} {ps : List Piece} (h : pieces (x ++ s) = ps ++ pieces s)
    (hfirm : ∀ p ∈ ps, p.IsFirm) (n : Nat) (now : Bool) :
    ∃ qs, pieces (inset n now (x ++ s)) = qs ++ pieces (inset n (fresh now x) s) ∧
      Insets n ps qs := by
  induction ps generalizing x now with
  | nil =>
      have hx : x = [] := by
        have hbytes := congrArg bytes h
        rw [bytes_pieces, List.nil_append, bytes_pieces] at hbytes
        exact List.append_left_eq_self.mp hbytes
      subst hx
      exact ⟨[], rfl, .nil⟩
  | cons p ps ih =>
      rw [List.cons_append] at h
      obtain ⟨b, rest, hcut, htext, hp, hps, hsize⟩ := piece_of_cons h
      have hrest : rest = bytes ps ++ s := by
        rw [← bytes_pieces rest, ← hps, bytes_append, bytes_pieces]
      subst hrest
      have hx : x = b :: (p.text.tail ++ bytes ps) := by
        rw [htext, List.cons_append, ← List.append_assoc, ← List.cons_append] at hcut
        exact List.append_cancel_right hcut
      generalize p.text.tail = w at hp hsize htext hx
      have hfirm' : ∀ q ∈ ps, q.IsFirm := fun q hq => hfirm q (List.mem_cons_of_mem _ hq)
      have hxs : x ++ s = b :: (w ++ (bytes ps ++ s)) := by rw [hx]; simp
      rw [hxs]
      by_cases hb : b = 10
      · subst hb
        have hw : w = [] := List.length_eq_zero_iff.mp hsize.symm
        subst hw
        obtain ⟨qs, hqs, hinsets⟩ := ih hps.symm hfirm' true
        refine ⟨⟨[10], none, []⟩ :: qs, ?_, .cons ⟨?_, ?_, .inl rfl⟩ hinsets⟩
        · rw [Text.inset_cons, bne_self_eq_false, Bool.and_false, if_neg Bool.false_ne_true,
            List.nil_append, List.nil_append, pieces_newline, hx]
          change _ :: pieces (inset n true (bytes ps ++ s)) = _
          rw [hqs]
          rfl
        · rw [hp]
          rfl
        · rw [hp]
          exact ⟨rfl, nofun⟩
      · have hpiece := hfirm p (List.mem_cons_self ..)
        rw [hp] at hpiece
        obtain ⟨hfresh, q, hq, hpieces⟩ := piece_inset hpiece hb hsize n
        obtain ⟨qs, hqs, hinsets⟩ := ih hps.symm hfirm' false
        have hstate : fresh now x = fresh false (bytes ps) := by
          rw [hx, fresh, beq_eq_false_iff_ne.mpr hb, Text.fresh_append, hfresh]
        rw [hqs] at hpieces
        rw [hstate]
        have hinset : Insets n (p :: ps) (q :: qs) := .cons (hp ▸ hq) hinsets
        rw [Text.inset_cons]
        split
        · refine ⟨_, ?_, hinset.blanks n⟩
          rw [← Text.inset_false_cons, pieces_spaces, hpieces]
          simp
        · exact ⟨q :: qs, by
            rw [List.nil_append, ← Text.inset_false_cons, hpieces]; rfl, hinset⟩

/-- Whole lines that are set in have the same pieces whatever stands behind them. -/
theorem lines_inset {x : Text} {ps : List Piece}
    (h : pieces (x ++ [10]) = ps ++ pieces [10])
    (hfirm : ∀ p ∈ ps, p.IsFirm) (n : Nat) (now : Bool) :
    ∃ qs, Insets n ps qs ∧ ∀ s, pieces (inset n now (x ++ [10]) ++ s) =
    qs ++ pieces (10 :: s) := by
  obtain ⟨qs, hqs, hinsets⟩ := pieces_inset h hfirm n now
  have hnewline (now : Bool) : inset n now [10] = [10] := by cases now <;> rfl
  rw [Text.inset_append, hnewline] at hqs
  have hbytes : bytes qs = inset n now x := by
    have := congrArg bytes hqs
    rw [bytes_append, bytes_pieces, bytes_pieces] at this
    exact (List.append_cancel_right this).symm
  refine ⟨qs, hinsets, fun s => ?_⟩
  rw [← hbytes] at hqs
  rw [Text.inset_append, hnewline, ← hbytes, List.append_assoc]
  exact pieces_replace_firm hqs hinsets.firm (fun _ => by simp) (ends_newline qs s)

end Deriver.Scan
