import Deriver.Text.Basic
import Mathlib.Data.List.Basic
import Mathlib.Data.List.Induction
import Mathlib.Data.List.Nodup

/-!
# Literals, distinct, joined and separated texts

Two string literals are the same text only if they are the same string. The distinct texts
of a list are its texts, each once, in the order in which they first occur. What stands in
joined texts stands in one of them or between two.

A text is cut at a separator that was put there if the piece in front of it does not hold
the separator's first byte, and the last separator is found if that byte does not come
again. A text is split at separators of two bytes and more if no piece holds the second one.
-/

namespace Deriver.Text

theorem ofString_inj {s t : String} : ofString s = ofString t ↔ s = t := by
  refine ⟨fun h => ?_, congrArg _⟩
  have hbytes := Array.toList_inj.mp h
  exact String.toByteArray_inj.mp (ByteArray.ext hbytes)

theorem mem_join {sep : Text} {ts : List Text} {b : UInt8} (h : b ∈ join sep ts) :
    b ∈ sep ∨ ∃ t ∈ ts, b ∈ t := by
  induction ts with
  | nil => cases h
  | cons t ts ih =>
      cases ts with
      | nil => exact .inr ⟨t, List.mem_cons_self .., h⟩
      | cons u ts =>
          rw [join, List.mem_append, List.mem_append] at h
          rcases h with (h | h) | h
          · exact .inr ⟨t, List.mem_cons_self .., h⟩
          · exact .inl h
          · obtain h | ⟨x, hx, h⟩ := ih h
            · exact .inl h
            · exact .inr ⟨x, List.mem_cons_of_mem t hx, h⟩

theorem distinct_concat (ts : List Text) (t : Text) :
    distinct (ts ++ [t]) = if (distinct ts).contains t then distinct ts
    else distinct ts ++ [t] := by
  rw [distinct, List.foldl_append]
  rfl

theorem mem_distinct {ts : List Text} {t : Text} : t ∈ distinct ts ↔ t ∈ ts := by
  induction ts using List.reverseRecOn with
  | nil => rfl
  | append_singleton ts s ih =>
      rw [distinct_concat, List.mem_append, List.mem_singleton, ← ih]
      split
      · next hseen =>
          refine ⟨.inl, fun h => h.elim id ?_⟩
          rintro rfl
          exact List.contains_iff_mem.mp hseen
      · rw [List.mem_append, List.mem_singleton]

theorem nodup_distinct (ts : List Text) : (distinct ts).Nodup := by
  induction ts using List.reverseRecOn with
  | nil => exact List.nodup_nil
  | append_singleton ts s ih =>
      rw [distinct_concat]
      split
      · exact ih
      · next hnew =>
          exact List.nodup_append.mpr ⟨ih, List.nodup_singleton s, fun t ht u hu heq =>
            hnew (List.contains_iff_mem.mpr (List.mem_singleton.mp hu ▸ heq ▸ ht))⟩

theorem idxOf_distinct_lt {ts : List Text} {p q : Text} (hp : p ∈ ts) (hq : q ∈ ts) :
    (distinct ts).idxOf p < (distinct ts).idxOf q ↔ ts.idxOf p < ts.idxOf q := by
  induction ts using List.reverseRecOn with
  | nil => cases hp
  | append_singleton ts t ih =>
      simp only [List.mem_append, List.mem_singleton] at hp hq
      simp only [distinct_concat, List.contains_iff_mem, mem_distinct]
      by_cases ht : t ∈ ts
      · have hp' : p ∈ ts := hp.elim id (· ▸ ht)
        have hq' : q ∈ ts := hq.elim id (· ▸ ht)
        simp only [if_pos ht, List.idxOf_append, if_pos hp', if_pos hq', ih hp' hq']
      · have hbefore {r : Text} (hr : r ∈ ts) : (distinct ts).idxOf r <
            (distinct ts).length ∧
            ts.idxOf r < ts.length :=
          ⟨List.idxOf_lt_length_of_mem (mem_distinct.mpr hr),
            List.idxOf_lt_length_of_mem hr⟩
        simp only [if_neg ht, List.idxOf_append, mem_distinct]
        rcases hp with hp | rfl
        · rcases hq with hq | rfl
          · simp only [if_pos hp, if_pos hq, ih hp hq]
          · have := hbefore hp
            simp only [if_pos hp, if_neg ht]
            omega
        · rcases hq with hq | rfl
          · have := hbefore hq
            simp only [if_pos hq, if_neg ht]
            omega
          · simp only [Nat.lt_irrefl]

/-! ## Texts that are taken apart where they were put together -/

section

variable {b c : UInt8} {sep s t : Text}

theorem dropStart?_append (s t : Text) : (s ++ t).dropStart? s = some t := by
  have hstart : (s ++ t).startsWith s = true :=
    List.isPrefixOf_iff_prefix.mpr (List.prefix_append s t)
  rw [dropStart?, if_pos hstart, List.drop_left]

theorem dropTail?_append (s t : Text) : (s ++ t).dropTail? t = some s := by
  have hsuffix : (s ++ t).endsWith t = true :=
    List.isSuffixOf_iff_suffix.mpr (List.suffix_append s t)
  rw [dropTail?, if_pos hsuffix, List.length_append, Nat.add_sub_cancel, List.take_left]

/-- A text that does not begin with the first byte of a separator does not begin with it. -/
theorem isPrefixOf_eq_false {x : UInt8} (hx : b ≠ x) (t : Text) :
    (b :: sep).isPrefixOf (x :: t) = false := by
  rw [List.isPrefixOf, beq_eq_false_iff_ne.mpr hx, Bool.false_and]

theorem find?_eq_none (hs : b ∉ s) : find? s (b :: sep) = none := by
  induction s with
  | nil => rfl
  | cons x s ih =>
      rw [List.mem_cons, not_or] at hs
      rw [find?, isPrefixOf_eq_false hs.1, ih hs.2]
      rfl

theorem cut?_eq_none (hs : b ∉ s) : cut? s (b :: sep) = none := by
  rw [cut?, find?_eq_none hs, Option.map_none]

theorem find?_append (hs : b ∉ s) :
    find? (s ++ b :: sep ++ t) (b :: sep) = some s.length := by
  induction s with
  | nil =>
      have hstart : (b :: sep).isPrefixOf (b :: sep ++ t) = true :=
        List.isPrefixOf_iff_prefix.mpr (List.prefix_append _ t)
      exact if_pos hstart
  | cons x s ih =>
      rw [List.mem_cons, not_or] at hs
      change (if (b :: sep).isPrefixOf (x :: (s ++ b :: sep ++ t)) then some 0
        else (find? (s ++ b :: sep ++ t) (b :: sep)).map (· + 1)) = _
      rw [isPrefixOf_eq_false hs.1, ih hs.2]
      rfl

theorem cut?_append (hs : b ∉ s) : cut? (s ++ b :: sep ++ t) (b :: sep) = some (s, t) := by
  have hdrop : (s ++ b :: sep ++ t).drop (s.length + (b :: sep).length) = t := by
    rw [← List.length_append, List.drop_left]
  rw [cut?, find?_append hs, Option.map_some, hdrop, List.append_assoc, List.take_left]

theorem findLast?_eq_none (ht : b ∉ t) : findLast? t (b :: sep) = none := by
  induction t with
  | nil => rfl
  | cons x t ih =>
      rw [List.mem_cons, not_or] at ht
      rw [findLast?, ih ht.2, isPrefixOf_eq_false ht.1]
      rfl

theorem findLast?_append (hsep : b ∉ sep) (ht : b ∉ t) :
    findLast? (s ++ b :: sep ++ t) (b :: sep) = some s.length := by
  induction s with
  | nil =>
      have hstart : (b :: sep).isPrefixOf (b :: sep ++ t) = true :=
        List.isPrefixOf_iff_prefix.mpr (List.prefix_append _ t)
      have hrest : findLast? (sep ++ t) (b :: sep) = none :=
        findLast?_eq_none fun h => (List.mem_append.mp h).elim hsep ht
      change findLast? (b :: (sep ++ t)) (b :: sep) = _
      rw [findLast?, hrest]
      exact if_pos hstart
  | cons x s ih =>
      change findLast? (x :: (s ++ b :: sep ++ t)) (b :: sep) = _
      rw [findLast?, ih]
      rfl

theorem splitLoop_skip (n : Nat) (hn : s.length = n) (piece : Text) :
    splitLoop sep n piece (s ++ t) = splitLoop sep 0 piece t := by
  induction s generalizing n with
  | nil => rw [← hn, List.length_nil, List.nil_append]
  | cons x s ih =>
      rw [List.length_cons] at hn
      rw [← hn, List.cons_append, splitLoop]
      exact ih _ rfl

/-- Bytes of which none is the second one of a separator belong to one piece, if the
separator itself comes next or nothing at all. -/
theorem splitLoop_piece (hs : c ∉ s) (ht : t.head? ≠ some c) (piece : Text) :
    splitLoop (b :: c :: sep) 0 piece (s ++ t) =
      splitLoop (b :: c :: sep) 0 (s.reverse ++ piece) t := by
  induction s generalizing piece with
  | nil => rfl
  | cons x s ih =>
      rw [List.mem_cons, not_or] at hs
      have hnext : (s ++ t).head? ≠ some c := by
        cases s with
        | nil => exact ht
        | cons y s => exact fun h => hs.2 (Option.some.inj h ▸ List.mem_cons_self ..)
      have hstart : (b :: c :: sep).isPrefixOf (x :: (s ++ t)) = false := by
        cases hrest : s ++ t with
        | nil => simp [List.isPrefixOf]
        | cons y u =>
            rw [hrest] at hnext
            have hne : c ≠ y := fun h => hnext (h ▸ rfl)
            simp [List.isPrefixOf, hne]
      rw [List.cons_append, splitLoop, hstart, if_neg Bool.false_ne_true, ih hs.2,
        List.reverse_cons, List.append_assoc]
      rfl

theorem splitOn_join (hbc : c ≠ b) {pieces : List Text} (hne : pieces ≠ [])
    (hpieces : ∀ p ∈ pieces, c ∉ p) :
    (join (b :: c :: sep) pieces).splitOn (b :: c :: sep) = pieces := by
  induction pieces with
  | nil => exact absurd rfl hne
  | cons p pieces ih =>
      obtain ⟨hp, hrest⟩ := List.forall_mem_cons.mp hpieces
      cases pieces with
      | nil =>
          have hnone : ([] : Text).head? ≠ some c := nofun
          have hloop : splitLoop (b :: c :: sep) 0 [] (p ++ []) = [p] := by
            rw [splitLoop_piece hp hnone, splitLoop, List.append_nil, List.reverse_reverse]
          rw [join, splitOn, ← List.append_nil p, hloop, List.append_nil]
      | cons q pieces =>
          have hhead : (b :: c :: sep ++ join (b :: c :: sep) (q :: pieces)).head? ≠
              some c :=
            fun h => hbc (Option.some.inj h).symm
          have hstart : (b :: c :: sep).isPrefixOf
              (b :: (c :: sep ++ join (b :: c :: sep) (q :: pieces))) = true :=
            List.isPrefixOf_iff_prefix.mpr (List.prefix_append (b :: c :: sep) _)
          rw [join, List.append_assoc, splitOn, splitLoop_piece hp hhead, List.cons_append,
            splitLoop, hstart, if_pos rfl, splitLoop_skip _ (by simp), List.append_nil,
            List.reverse_reverse]
          exact congrArg (p :: ·) (ih (List.cons_ne_nil _ _) hrest)

end

end Deriver.Text
