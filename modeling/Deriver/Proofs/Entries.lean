import Mathlib.Data.List.Basic

/-!
# Lists of entries

What is found under a key in a list of entries does not depend on the entries of other
keys, and renaming keys renames where it is found. If every key has one entry, leaving
entries out leaves out what they held.
-/

namespace Deriver.Entries

variable {κ κ' α : Type} [BEq κ] [LawfulBEq κ] [BEq κ'] [LawfulBEq κ'] {k l : κ} {k' : κ'}

theorem lookup_filter_key (entries : List (κ × α)) (p : κ → Bool) :
    (entries.filter (p ·.1)).lookup k = if p k then entries.lookup k else none := by
  induction entries with
  | nil => rw [List.filter_nil, List.lookup_nil, ite_self]
  | cons e entries ih =>
      obtain ⟨r, v⟩ := e
      rw [List.filter_cons, List.lookup_cons]
      by_cases hr : k = r
      · subst hr
        rw [beq_self_eq_true]
        split
        · next hp => rw [List.lookup_cons_self]
        · next hp => rw [ih, if_neg hp]
      · have hother : (k == r) = false := by simpa using hr
        rw [hother, ← ih]
        split
        · rw [List.lookup_cons, hother]
        · rfl

theorem lookup_filter_ne (entries : List (κ × α)) (h : l ≠ k) :
    (entries.filter (·.1 != k)).lookup l = entries.lookup l :=
  (lookup_filter_key entries (· != k)).trans (if_pos (bne_iff_ne.mpr h))

theorem lookup_filter_self (entries : List (κ × α)) :
    (entries.filter (·.1 != k)).lookup k = none :=
  (lookup_filter_key entries (· != k)).trans (if_neg (by simp))

theorem mem_of_lookup {entries : List (κ × α)} {v : α} (h : entries.lookup k = some v) :
    (k, v) ∈ entries := by
  obtain ⟨before, after, rfl, -⟩ := List.lookup_eq_some_iff.mp h
  exact List.mem_append_right _ List.mem_cons_self

theorem lookup_of_mem {entries : List (κ × α)} {v : α} (h : (k, v) ∈ entries) :
    (entries.lookup k).isSome = true := by
  rw [← Option.ne_none_iff_isSome]
  intro hnone
  exact bne_iff_ne.mp (List.lookup_eq_none_iff.mp hnone _ h) rfl

theorem lookup_map {entries : List (κ × α)} {f : κ → κ'}
    (h : ∀ e ∈ entries, f e.1 = k' ↔ e.1 = k) :
    (entries.map fun e => (f e.1, e.2)).lookup k' = entries.lookup k := by
  induction entries with
  | nil => rfl
  | cons e entries ih =>
      obtain ⟨r, v⟩ := e
      have hrest := ih fun e he => h e (List.mem_cons_of_mem _ he)
      have hhead : f r = k' ↔ r = k := h (r, v) List.mem_cons_self
      rw [List.map_cons, List.lookup_cons, List.lookup_cons, hrest]
      by_cases hr : r = k
      · rw [beq_iff_eq.mpr (hhead.mpr hr).symm, beq_iff_eq.mpr hr.symm]
      · rw [beq_eq_false_iff_ne.mpr fun heq => hr (hhead.mp heq.symm),
          beq_eq_false_iff_ne.mpr (Ne.symm hr)]

theorem lookup_filter {entries : List (κ × α)} (h : (entries.map (·.1)).Nodup)
    (p : κ × α → Bool) :
    (entries.filter p).lookup k = (entries.lookup k).filter fun v => p (k, v) := by
  induction entries with
  | nil => rfl
  | cons e entries ih =>
      obtain ⟨r, v⟩ := e
      rw [List.map_cons, List.nodup_cons] at h
      obtain ⟨hnew, h⟩ := h
      by_cases hr : k = r
      · subst hr
        have hnone : entries.lookup k = none := by
          rw [List.lookup_eq_none_iff]
          exact fun e he => bne_iff_ne.mpr fun heq =>
            hnew (List.mem_map.mpr ⟨e, he, heq.symm⟩)
        rw [List.lookup_cons_self]
        by_cases hp : p (k, v) = true
        · rw [List.filter_cons_of_pos hp, List.lookup_cons_self,
            Option.filter_some, if_pos hp]
        · rw [List.filter_cons_of_neg hp, ih h, hnone, Option.filter_some, if_neg hp]
          rfl
      · have hother : (k == r) = false := by simpa using hr
        rw [List.lookup_cons, hother, ← ih h]
        by_cases hp : p (r, v) = true
        · rw [List.filter_cons_of_pos hp, List.lookup_cons, hother]
        · rw [List.filter_cons_of_neg hp]

end Deriver.Entries
