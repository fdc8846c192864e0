import Mathlib.Data.List.Basic
import Deriver.Code.Basic
import Deriver.Proofs.Token.Ending

/-!
# Lines that are set in

Main statements: `Code.linesAt_eq` and `Scan.inset_spells`. What is laid out on its own
and then indented has blanks put in front of each line that is not empty, also of those
that a literal is written over. `Text.inset` says so byte by byte: it only has to know
whether a line begins with the next one, and so it can be read off the parts of a text one
by one.

What a string stands for changes with the blanks unless every line break in it belongs to an
escape, which takes in the white space behind it: `breaksLine`.
-/

namespace Deriver

namespace Text

/-- A text with `n` blanks in front of each line that is not empty; `fresh` says whether
a line begins where the text begins. -/
def inset (n : Nat) : Bool → Text → Text
  | _, [] => []
  | fresh, b :: t => (if fresh && b != 10 then spaces n else []) ++ b :: inset n (b == 10) t

/-- Whether a line begins behind a text. -/
def fresh : Bool → Text → Bool
  | now, [] => now
  | _, b :: t => fresh (b == 10) t

variable {n : Nat} {now : Bool} {t u : Text} {b : UInt8}

theorem inset_cons (n : Nat) (now : Bool) (b : UInt8) (t : Text) :
    inset n now (b :: t) =
      (if now && b != 10 then spaces n else []) ++ b :: inset n (b == 10) t := rfl

theorem inset_false_cons (n : Nat) (b : UInt8) (t : Text) :
    inset n false (b :: t) = b :: inset n (b == 10) t := rfl

theorem inset_append (n : Nat) (now : Bool) (t u : Text) :
    inset n now (t ++ u) = inset n now t ++ inset n (fresh now t) u := by
  induction t generalizing now with
  | nil => rfl
  | cons b t ih => rw [List.cons_append, inset_cons, inset_cons, ih, List.append_assoc]; rfl

theorem fresh_append (now : Bool) (t u : Text) :
    fresh now (t ++ u) = fresh (fresh now t) u := by
  induction t generalizing now with
  | nil => rfl
  | cons b t ih => exact ih _

theorem fresh_concat (now : Bool) (t : Text) (b : UInt8) :
    fresh now (t ++ [b]) = (b == 10) := by
  rw [fresh_append]
  rfl

theorem fresh_inset (n : Nat) (now : Bool) (t : Text) :
    fresh now (inset n now t) = fresh now t := by
  induction t generalizing now with
  | nil => rfl
  | cons b t ih =>
      rw [inset_cons, fresh_append]
      exact ih _

theorem fresh_of_not_mem (h : 10 ∉ t) : fresh false t = false := by
  induction t with
  | nil => rfl
  | cons b t ih =>
      obtain ⟨hb, ht⟩ := not_or.mp (mt List.mem_cons.mpr h)
      rw [fresh, beq_eq_false_iff_ne.mpr (Ne.symm hb)]
      exact ih ht

theorem inset_of_not_mem (h : 10 ∉ t) : inset n false t = t := by
  induction t with
  | nil => rfl
  | cons b t ih =>
      obtain ⟨hb, ht⟩ := not_or.mp (mt List.mem_cons.mpr h)
      rw [inset_false_cons, beq_eq_false_iff_ne.mpr (Ne.symm hb), ih ht]

/-- Where a line begins, the blanks come first. -/
theorem inset_true (h : ∀ c, t.head? = some c → c ≠ 10) (ht : t ≠ []) :
    inset n true t = spaces n ++ inset n false t := by
  cases t with
  | nil => exact absurd rfl ht
  | cons b t =>
      have hb : (b != 10) = true := bne_iff_ne.mpr (h b rfl)
      rw [inset_cons, hb, inset_false_cons]
      rfl

theorem inset_spaces (m n : Nat) : inset n false (spaces m) = spaces m :=
  inset_of_not_mem fun h => absurd (List.eq_of_mem_replicate h) (by decide)

theorem spaces_add (m n : Nat) : spaces (m + n) = spaces m ++ spaces n :=
  List.replicate_add ..

theorem inset_inset (m n : Nat) (now : Bool) (t : Text) :
    inset m now (inset n now t) = inset (m + n) now t := by
  have hstep (b : UInt8) (t : Text) (ih : ∀ now, inset m now (inset n now t) =
      inset (m + n) now t) :
      inset m false (b :: inset n (b == 10) t) = b :: inset (m + n) (b == 10) t := by
    rw [inset_false_cons, ih]
  induction t generalizing now with
  | nil => rfl
  | cons b t ih =>
      rw [inset_cons, inset_cons]
      by_cases h : (now && b != 10) = true
      · obtain ⟨rfl, hb⟩ := Bool.and_eq_true_iff.mp h
        rw [if_pos h, if_pos h, inset_true, inset_append, inset_spaces, ← List.append_assoc,
          ← spaces_add]
        · have hfresh : fresh false (spaces n) = false :=
            fresh_of_not_mem fun h => absurd (List.eq_of_mem_replicate h) (by decide)
          rw [hfresh, hstep b t ih]
        · intro c hc
          cases n with
          | zero => cases hc; exact bne_iff_ne.mp hb
          | succ n => cases hc; decide
        · simp
      · rw [if_neg h, if_neg h, List.nil_append, List.nil_append, inset_cons, if_neg h,
          List.nil_append, ih]

end Text

namespace Code

variable {n : Nat} {t : Text}

theorem times_indentUnit (depth : Nat) :
    Text.times indentUnit depth = Text.spaces (4 * depth) := by
  induction depth with
  | zero => rfl
  | succ depth ih =>
      rw [Nat.mul_succ, Nat.add_comm (4 * depth), Text.spaces_add, ← ih]
      rfl

theorem lineAt_eq (depth : Nat) (t : Text) :
    lineAt depth t = Text.spaces (4 * depth) ++ (t ++ [10]) := by
  rw [lineAt, times_indentUnit]
  change _ ++ (t ++ ([10] ++ [])) = _
  rw [List.append_nil]

/-- The lines of a text behind the part of a line that was read before. -/
theorem concat_splitLoop (depth : Nat) (line t : Text) :
    Text.concat ((Text.splitLoop [10] 0 line t).map fun line =>
        if line.isEmpty then [10] else lineAt depth line) =
      (if line.isEmpty then Text.inset (4 * depth) true t
        else Text.spaces (4 * depth) ++ line.reverse ++ Text.inset (4 * depth) false t) ++
        [10] := by
  induction t generalizing line with
  | nil =>
      cases line with
      | nil => rfl
      | cons c line =>
          have hne : (c :: line).reverse.isEmpty = false := by simp
          rw [Text.splitLoop, List.map_singleton, hne, lineAt_eq]
          simp [Text.concat, Text.inset]
  | cons b t ih =>
      by_cases hb : b = 10
      · subst hb
        have hprefix : ([10] : Text).isPrefixOf (10 :: t) = true := by simp
        rw [Text.splitLoop, if_pos hprefix]
        simp only [List.map_cons, Text.concat, List.flatten_cons]
        have hrest := ih []
        simp only [Text.concat, List.isEmpty_nil, if_true] at hrest
        simp only [List.length_singleton, Nat.sub_self, hrest]
        cases line with
        | nil => rfl
        | cons c line =>
            have hne : (c :: line).reverse.isEmpty = false := by simp
            rw [hne, lineAt_eq]
            simp [Text.inset_cons]
      · have hprefix : ([10] : Text).isPrefixOf (b :: t) = false := by
          rw [List.isPrefixOf_cons_cons, beq_eq_false_iff_ne.mpr (Ne.symm hb),
            Bool.false_and]
        have hb' : (b == 10) = false := beq_eq_false_iff_ne.mpr hb
        rw [Text.splitLoop, if_neg (Bool.eq_false_iff.mp hprefix), ih]
        cases line with
        | nil => simp [Text.inset_cons, hb', hb]
        | cons c line => simp [Text.inset_cons, hb']

/-- Indenting a text line by line sets it in, but for the newlines at its end. -/
theorem linesAt_eq (depth : Nat) (h : t.getLast? ≠ some 10) :
    linesAt depth (t ++ [10]) = Text.inset (4 * depth) true (t ++ [10]) := by
  have hdrop : dropNewlines (t ++ [10]) = t := by
    have hhead : t.reverse.dropWhile (· == 10) = t.reverse := by
      cases hr : t.reverse with
      | nil => rfl
      | cons c r =>
          have hc : (c == 10) = false := by
            rw [beq_eq_false_iff_ne]
            rintro rfl
            rw [← List.head?_reverse, hr] at h
            exact h rfl
          rw [List.dropWhile_cons, hc]
          rfl
    rw [dropNewlines, List.reverse_append, List.reverse_singleton, List.singleton_append,
      List.dropWhile_cons, if_pos (beq_self_eq_true _), hhead, List.reverse_reverse]
  rw [linesAt, hdrop, Text.inset_append, Text.inset_cons]
  have hlines := concat_splitLoop depth [] t
  rw [List.isEmpty_nil, if_pos rfl] at hlines
  simp only [bne_self_eq_false, Bool.and_false, Bool.false_eq_true, if_false,
    List.nil_append]
  exact hlines

end Code

end Deriver

namespace Deriver.Scan

open Text (inset fresh)

/-! ## Line breaks in a string -/

/-- Whether a line break stands outside of all escapes. `skip` bytes of an escape are
still to be passed over. -/
def breaks : Nat → Text → Bool
  | _, [] => false
  | skip + 1, _ :: rest => breaks skip rest
  | 0, b :: rest =>
      if b = 92 then breaks (escape rest).size rest else b == 10 || breaks 0 rest

/-- Whether a literal has no escapes at all. -/
def isRaw (lit : Text) : Bool := lit.head? == some 114 || lit.take 2 == [98, 114]

/-- Whether a line break of a literal stands in what the literal stands for. -/
def breaksLine (lit : Text) : Bool := if isRaw lit then lit.contains 10 else breaks 0 lit

variable {n : Nat} {now : Bool} {stop : UInt8 → Bool} {e r s t u : Text} {b c q : UInt8}

theorem breaks_skip (t u : Text) : breaks t.length (t ++ u) = breaks 0 u := by
  induction t with
  | nil => rfl
  | cons b t ih => exact ih

theorem breaks_plain (hb : b ≠ 92) (t : Text) :
    breaks 0 (b :: t) = (b == 10 || breaks 0 t) := by
  rw [breaks, if_neg hb]

theorem breaks_escape (hsize : (escape (e ++ t)).size = e.length) :
    breaks 0 (92 :: (e ++ t)) = breaks 0 t := by
  rw [breaks, if_pos rfl, hsize, breaks_skip]

theorem not_breaks_of_not_mem {k : Nat} (h : 10 ∉ t) : breaks k t = false := by
  induction t generalizing k with
  | nil => rfl
  | cons b t ih =>
      obtain ⟨hb, ht⟩ := not_or.mp (mt List.mem_cons.mpr h)
      cases k with
      | succ k => exact ih ht
      | zero =>
          rw [breaks]
          split
          · exact ih ht
          · rw [beq_eq_false_iff_ne.mpr (Ne.symm hb), ih ht]
            rfl

/-! ## Escapes -/

theorem body_behind (t u : Text) :
    body stop t.length (t ++ u) = ⟨t.length + (body stop 0 u).size, (body stop 0 u).value,
      (body stop 0 u).faults.map fun (f, k) => (f, k + t.length)⟩ := by
  induction t with
  | nil => simp
  | cons b t ih =>
      rw [List.length_cons, List.cons_append, body, ih]
      simp only [Body.push, List.nil_append, List.map_map, Body.mk.injEq, true_and]
      refine ⟨by omega, ?_⟩
      exact List.map_congr_left fun x _ => Prod.ext rfl (Nat.add_assoc ..)

theorem body_plain (h : stop b = false) (hb : b ≠ 92) (t : Text) :
    body stop 0 (b :: t) = (body stop 0 t).push [b] := by
  rw [body, h, if_neg Bool.false_ne_true, if_neg hb]

theorem body_escape (h : stop 92 = false) (hfault : (escape t).fault = none) :
    body stop 0 (92 :: t) = (body stop (escape t).size t).push (escape t).value := by
  rw [body, h, if_neg Bool.false_ne_true, if_pos rfl]
  simp only [hfault]

theorem escape_of_body (h : stop 92 = false)
    (hfaults : (body stop 0 (92 :: t)).faults = []) : (escape t).fault = none := by
  cases hfault : (escape t).fault with
  | none => rfl
  | some f =>
      rw [body, h, if_neg Bool.false_ne_true, if_pos rfl] at hfaults
      simp only [hfault] at hfaults
      cases hfaults

theorem not_mem_of_digits? {radix m k : Nat} (h : Text.digits? radix m t = some k) :
    10 ∉ t := by
  induction t generalizing m with
  | nil => exact List.not_mem_nil
  | cons b t ih =>
      rw [Text.digits?] at h
      split at h
      · next d hd =>
          split at h
          · refine List.mem_cons.not.mpr (not_or.mpr ⟨?_, ih h⟩)
            rintro rfl
            cases hd
          · cases h
      · cases h

theorem not_mem_of_toNat? {radix k : Nat} (h : Text.toNat? t radix = some k) : 10 ∉ t := by
  rw [Text.toNat?] at h
  split at h
  · cases h
  · exact not_mem_of_digits? h

/-- What stands between braces for a number, with the closing one. -/
theorem not_mem_braced {k : Nat}
    (h : Text.toNat? ((t.takeWhile (· ≠ 125)).filter (· ≠ 95)) 16 = some k) :
    10 ∉ t.take ((t.takeWhile (· ≠ 125)).length + 1) := by
  have hsplit := List.takeWhile_append_dropWhile (p := (· ≠ (125 : UInt8))) (l := t)
  generalize hdigits : t.takeWhile (· ≠ 125) = ds at h hsplit
  generalize hrest : t.dropWhile (· ≠ 125) = rs at hsplit
  have hds : 10 ∉ ds :=
    fun hmem => not_mem_of_toNat? h (List.mem_filter.mpr ⟨hmem, by decide⟩)
  rw [← hsplit, List.take_length_add_append, List.mem_append]
  rintro (hmem | hmem)
  · exact hds hmem
  · cases rs with
    | nil => simp at hmem
    | cons c rs =>
        have hc : c = 125 := by
          have := List.head?_dropWhile_not (fun x : UInt8 => decide (x ≠ 125)) t
          rw [hrest] at this
          simpa using this
        rw [List.take_succ_cons, List.take_zero, List.mem_singleton, hc] at hmem
        exact absurd hmem (by decide)

/-- An escape without a fault has a line break only if it takes in the white space behind
one. -/
theorem not_mem_escape (hfault : (escape (e ++ t)).fault = none)
    (hsize : (escape (e ++ t)).size = e.length) (hhead : e.head? ≠ some 10) : 10 ∉ e := by
  cases e with
  | nil => exact List.not_mem_nil
  | cons b e =>
      have hb : b ≠ 10 := fun h => hhead (congrArg some h)
      have hone (h : e.length + 1 = 1) : 10 ∉ b :: e := by
        rw [List.length_eq_zero_iff.mp (Nat.succ_injective h), List.mem_singleton]
        exact Ne.symm hb
      have hcons (h : 10 ∉ e) : 10 ∉ b :: e :=
        List.mem_cons.not.mpr (not_or.mpr ⟨Ne.symm hb, h⟩)
      rw [List.cons_append] at hfault hsize
      revert hfault hsize
      unfold escape
      dsimp only
      rw [List.length_cons]
      split
      case h_8 =>
        -- two digits
        split
        · next d hd =>
            intro _ hsize
            have hlen : ((e ++ t).take 2).length = e.length := Nat.succ_injective hsize
            have hdigits : (e ++ t).take 2 = e := by
              rw [List.prefix_iff_eq_take.mp (List.take_prefix 2 (e ++ t)), hlen,
                List.take_left]
            exact hcons (hdigits ▸ not_mem_of_toNat? hd)
        · exact nofun
      case h_9 =>
        -- digits in braces
        cases e with
        | nil =>
            intro _ _
            exact hcons List.not_mem_nil
        | cons x e =>
            rw [List.cons_append]
            split
            · next inner hinner =>
                obtain ⟨rfl, htail⟩ := List.cons.inj hinner
                change e ++ t = inner at htail
                subst htail
                split
                · next d hd =>
                    split
                    · intro _ hsize
                      have hle : e.length ≤ ((e ++ t).takeWhile (· ≠ 125)).length + 1 := by
                        simp only [List.length_cons] at hsize
                        split at hsize <;> omega
                      have he : e <+: (e ++ t).take
                          (((e ++ t).takeWhile (· ≠ 125)).length + 1) := by
                        have := List.take_prefix_take_left (l := e ++ t) hle
                        rwa [List.take_left] at this
                      refine hcons fun hmem => not_mem_braced hd (he.subset ?_)
                      exact (List.mem_cons.mp hmem).resolve_left (by decide)
                    · exact nofun
                · exact nofun
            · exact nofun
      case h_10 heq => exact absurd (byte_ext (c := 10) heq) hb
      all_goals exact fun _ hsize => hone hsize.symm

theorem escape_newline (t : Text) : escape (10 :: t) = ⟨1 + run isSpace t, [], none⟩ := rfl

theorem run_append {p : UInt8 → Bool} (ht : ∀ c ∈ t, p c = true)
    (hu : ∀ c, u.head? = some c → p c = false) : run p (t ++ u) = t.length := by
  have hnil : u.takeWhile p = [] := by
    cases u with
    | nil => rfl
    | cons c u => rw [List.takeWhile_cons, hu c rfl, if_neg Bool.false_ne_true]
  rw [run, List.takeWhile_append_of_pos ht, hnil, List.append_nil]

theorem of_run_append {p : UInt8 → Bool} (h : run p (t ++ u) = t.length) :
    (∀ c ∈ t, p c = true) ∧ ∀ c, u.head? = some c → p c = false := by
  have ht : (t ++ u).takeWhile p = t := by
    rw [← take_run, h, List.take_left]
  refine ⟨fun c hc => List.mem_takeWhile_imp (ht.symm ▸ hc), ?_⟩
  rintro c hc
  obtain ⟨u, rfl⟩ := List.head?_eq_some_iff.mp hc
  have hdrop : (t ++ c :: u).dropWhile p = c :: u := by
    rw [← drop_run, h, List.drop_left]
  have := List.head?_dropWhile_not p (t ++ c :: u)
  rw [hdrop] at this
  simpa using this

theorem isSpace_of_mem_inset (ht : ∀ c ∈ t, isSpace c = true) (hc : c ∈ inset n now t) :
    isSpace c = true := by
  induction t generalizing now with
  | nil => cases hc
  | cons b t ih =>
      rw [Text.inset_cons, List.mem_append] at hc
      rcases hc with hc | hc
      · split at hc
        · rw [List.eq_of_mem_replicate hc]
          rfl
        · cases hc
      · rcases List.mem_cons.mp hc with rfl | hc
        · exact ht c (List.mem_cons_self ..)
        · exact ih (fun c hc => ht c (List.mem_cons_of_mem _ hc)) hc

theorem head?_inset (n : Nat) (t : Text) : (inset n false t).head? = t.head? := by
  cases t <;> rfl

/-- An escape that takes in white space takes in the blanks that are put into it. -/
theorem escape_inset_newline {f : UInt8} {x y : Text}
    (he : ∀ s, escape (10 :: (e ++ (x ++ f :: s))) = ⟨e.length + 1, r, none⟩) (n : Nat)
    (hxy : inset n false (x ++ [f]) = y ++ [f]) :
    ∃ z, inset n true (e ++ (x ++ [f])) = z ++ (y ++ [f]) ∧
      ∀ s, escape (10 :: (z ++ (y ++ f :: s))) = ⟨z.length + 1, r, none⟩ := by
  have hrun : run isSpace (e ++ (x ++ [f])) = e.length := by
    have hsize := congrArg Escape.size (he [])
    rw [escape_newline] at hsize
    exact Nat.succ_injective ((Nat.add_comm 1 _).symm.trans hsize)
  obtain ⟨hspaces, hhead⟩ := of_run_append hrun
  have hvalue : [] = r := congrArg Escape.value (he [])
  obtain ⟨c, t, ht⟩ : ∃ c t, x ++ [f] = c :: t := List.exists_cons_of_ne_nil (by simp)
  have hc : isSpace c = false := hhead c (by rw [ht]; rfl)
  -- what the escape does not take in begins with the same byte as before
  have hy (s : Text) : (y ++ f :: s).head? = some c := by
    have hfront : (y ++ [f]).head? = some c := by rw [← hxy, head?_inset, ht]; rfl
    cases y with
    | nil => exact hfront
    | cons d y => exact hfront
  have hfresh : ∃ m, inset n (fresh true e) (x ++ [f]) = Text.spaces m ++ (y ++ [f]) := by
    cases fresh true e with
    | false => exact ⟨0, hxy⟩
    | true =>
        refine ⟨n, ?_⟩
        rw [Text.inset_true _ (by simp), hxy]
        rintro d hd rfl
        rw [ht] at hd
        cases hd
        cases hc
  obtain ⟨m, hm⟩ := hfresh
  refine ⟨inset n true e ++ Text.spaces m, ?_, fun s => ?_⟩
  · rw [Text.inset_append, hm, List.append_assoc]
  · rw [escape_newline, run_append, Nat.add_comm, hvalue]
    · intro d hd
      rcases List.mem_append.mp hd with hd | hd
      · exact isSpace_of_mem_inset hspaces hd
      · rw [List.eq_of_mem_replicate hd]
        rfl
    · intro d hd
      rw [hy s] at hd
      cases hd
      exact hc

/-- The bytes of an escape on one line are not set in, and behind it stands the same
byte. -/
theorem escape_inset_line {f : UInt8} {x y : Text}
    (he : ∀ s, escape (e ++ (x ++ f :: s)) = ⟨e.length, r, none⟩)
    (h10 : e.head? ≠ some 10) (n : Nat) (hxy : inset n false (x ++ [f]) = y ++ [f]) :
    inset n false (e ++ (x ++ [f])) = e ++ (y ++ [f]) ∧
      ∀ s, escape (e ++ (y ++ f :: s)) = ⟨e.length, r, none⟩ := by
  have he10 : 10 ∉ e := by
    refine not_mem_escape (t := x ++ [f]) ?_ ?_ h10 <;> rw [he []]
  refine ⟨?_, fun s => ?_⟩
  · rw [Text.inset_append, Text.inset_of_not_mem he10, Text.fresh_of_not_mem he10, hxy]
  · obtain ⟨c, t, ht⟩ : ∃ c t, x ++ [f] = c :: t := List.exists_cons_of_ne_nil (by simp)
    obtain ⟨t', ht'⟩ : ∃ t', y ++ [f] = c :: t' := by
      rw [← List.head?_eq_some_iff, ← hxy, head?_inset, ht]
      rfl
    have hlt : (escape ((e ++ [c]) ++ t)).size < (e ++ [c]).length := by
      rw [List.append_assoc, List.singleton_append, ← ht, he []]
      simp
    have hreplace : escape ((e ++ [c]) ++ (t' ++ s)) = escape ((e ++ [c]) ++ t) :=
      escape_replace hlt
    simp only [List.append_assoc, List.singleton_append] at hreplace
    rw [← ht, he []] at hreplace
    rw [← hreplace, ← List.cons_append, ← ht', List.append_assoc, List.singleton_append]

theorem escape_inset {f : UInt8} {x y : Text}
    (he : ∀ s, escape (e ++ (x ++ f :: s)) = ⟨e.length, r, none⟩) (n : Nat)
    (hxy : inset n false (x ++ [f]) = y ++ [f]) :
    ∃ z, inset n false (e ++ (x ++ [f])) = z ++ (y ++ [f]) ∧
      ∀ s, escape (z ++ (y ++ f :: s)) = ⟨z.length, r, none⟩ := by
  by_cases h10 : e.head? = some 10
  · obtain ⟨e, rfl⟩ := List.head?_eq_some_iff.mp h10
    obtain ⟨z, hz, hescape⟩ := escape_inset_newline he n hxy
    exact ⟨10 :: z, congrArg (List.cons 10) hz, hescape⟩
  · exact ⟨e, escape_inset_line he h10 n hxy⟩

/-! ## Quoted text -/

/-- Whether `u` is read up to the quote `q` behind it, and stands for `v`. -/
def Spells (stop : UInt8 → Bool) (q : UInt8) (u v : Text) : Prop :=
  ∀ s, body stop 0 (u ++ q :: s) = ⟨u.length, v, []⟩

/-- Whether `w` is `v`, or longer by `n` bytes or more if it is wide. -/
def Widened (n : Nat) (wide : Bool) (v w : Text) : Prop :=
  (wide = false → w = v) ∧ (wide = true → v.length + n ≤ w.length)

section Body

variable {v w : Text} {wide : Bool}

theorem Widened.le (h : Widened n wide v w) : v.length ≤ w.length := by
  cases wide with
  | false => rw [h.1 rfl]
  | true => exact Nat.le_of_add_right_le (h.2 rfl)

theorem Widened.refl (n : Nat) (v : Text) : Widened n false v v :=
  ⟨fun _ => rfl, fun hfalse => by cases hfalse⟩

theorem Widened.blanks (h : Widened n wide v w) :
    Widened n true v (Text.spaces n ++ w) := by
  refine ⟨fun htrue => (by cases htrue), fun _ => ?_⟩
  have := h.le
  rw [List.length_append, Text.spaces, List.length_replicate]
  omega

theorem Widened.prepend (h : Widened n wide v w) (t : Text) :
    Widened n wide (t ++ v) (t ++ w) := by
  refine ⟨fun hwide => by rw [h.1 hwide], fun hwide => ?_⟩
  have := h.2 hwide
  simp only [List.length_append]
  omega

theorem body_eq {b : Body} {k : Nat} (hsize : b.size = k) (hfaults : b.faults = []) :
    b = ⟨k, b.value, []⟩ := by
  cases b
  cases hsize
  cases hfaults
  rfl

namespace Spells

theorem of_body (h : body stop 0 (u ++ q :: s) = ⟨u.length, v, []⟩) :
    Spells stop q u v := by
  intro s'
  have hlt : (body stop 0 ((u ++ [q]) ++ s)).size < (u ++ [q]).length := by
    rw [List.append_assoc, List.singleton_append, h]
    simp
  have hreplace : body stop 0 ((u ++ [q]) ++ s') = body stop 0 ((u ++ [q]) ++ s) :=
    body_replace hlt
  rw [List.append_assoc, List.append_assoc, List.singleton_append, List.singleton_append, h]
    at hreplace
  exact hreplace

theorem nil (h : stop q = true) : Spells stop q [] [] := by
  intro s
  rw [List.nil_append, body, if_pos h]
  rfl

theorem plain (hb : stop b = false) (hne : b ≠ 92) (h : Spells stop q u v) :
    Spells stop q (b :: u) ([b] ++ v) := by
  intro s
  rw [List.cons_append, body_plain hb hne, h s]
  rfl

theorem blanks (hblank : stop 32 = false) (h : Spells stop q u v) (n : Nat) :
    Spells stop q (Text.spaces n ++ u) (Text.spaces n ++ v) := by
  induction n with
  | zero => exact h
  | succ n ih => exact ih.plain hblank (by decide)

theorem escape (hstop : stop 92 = false) (h : Spells stop q u v)
    (he : ∀ s, escape (e ++ (u ++ q :: s)) = ⟨e.length, w, none⟩) :
    Spells stop q (92 :: (e ++ u)) (w ++ v) := by
  intro s
  rw [List.cons_append, List.append_assoc, body_escape hstop (by rw [he s]), he s,
    body_behind, h s]
  simp [Body.push]

theorem of_plain (hne : b ≠ 92) (h : Spells stop q (b :: u) v) :
    stop b = false ∧ ∃ v', v = [b] ++ v' ∧ Spells stop q u v' := by
  have hb : stop b = false := by
    cases hb : stop b with
    | false => rfl
    | true =>
        have := h []
        rw [List.cons_append, body, if_pos hb] at this
        cases this
  refine ⟨hb, (body stop 0 (u ++ [q])).value, ?_⟩
  have hbody := h []
  rw [List.cons_append, body_plain hb hne] at hbody
  simp only [Body.push, Body.mk.injEq, List.map_eq_nil_iff, List.length_cons] at hbody
  obtain ⟨hsize, hvalue, hfaults⟩ := hbody
  exact ⟨hvalue.symm, .of_body (s := []) (body_eq (Nat.succ_injective hsize) hfaults)⟩

theorem of_escape (hstop : stop 92 = false) (h : Spells stop q (92 :: u) v) :
    ∃ e u' w v', u = e ++ u' ∧ v = w ++ v' ∧ Spells stop q u' v' ∧
      ∀ s, Scan.escape (e ++ (u' ++ q :: s)) = ⟨e.length, w, none⟩ := by
  have hbody := h []
  rw [List.cons_append] at hbody
  have hfault : (Scan.escape (u ++ [q])).fault = none :=
    escape_of_body hstop (by rw [hbody])
  rw [body_escape hstop hfault] at hbody
  have hsize : (Scan.escape (u ++ [q])).size ≤ u.length := by
    have hle := @le_body_size stop _ _ (escape_size_le (u ++ [q]))
    simp only [Body.push, Body.mk.injEq, List.length_cons] at hbody
    omega
  obtain ⟨e, u', rfl, he⟩ : ∃ e u', u = e ++ u' ∧
      e.length = (Scan.escape (u ++ [q])).size :=
    ⟨_, _, (List.take_append_drop _ u).symm, by
      rw [List.length_take, Nat.min_eq_left hsize]⟩
  rw [← he, List.append_assoc, body_behind] at hbody
  simp only [Body.push, Body.mk.injEq, List.map_eq_nil_iff, List.length_cons] at hbody
  obtain ⟨hrest, hvalue, hfaults⟩ := hbody
  have hu : (body stop 0 (u' ++ [q])).size = u'.length := by
    simp only [List.length_append] at hrest
    omega
  refine ⟨e, u', _, _, rfl, hvalue.symm,
    .of_body (s := []) (body_eq hu hfaults), fun s => ?_⟩
  · have hlt : (Scan.escape (((e ++ u') ++ [q]) ++ [])).size <
        ((e ++ u') ++ [q]).length := by
      rw [List.append_nil, List.length_append]
      exact Nat.lt_succ_of_le hsize
    have hreplace : Scan.escape (((e ++ u') ++ [q]) ++ s) =
        Scan.escape (((e ++ u') ++ [q]) ++ []) := escape_replace hlt
    simp only [List.append_nil, List.append_assoc,
      List.singleton_append] at hreplace hfault he ⊢
    rw [hreplace, he, ← hfault]

end Spells

/-- Whether `u`, set in, is read up to the quote `q` still. It stands for `v`, or for more
if a line begins where it begins or breaks in it. -/
def SpellsInset (stop : UInt8 → Bool) (q : UInt8) (n : Nat) (now : Bool) (u v : Text) :
    Prop :=
  ∃ y w, inset n now (u ++ [q]) = y ++ [q] ∧ Spells stop q y w ∧
    Widened n (now || breaks 0 (u ++ [q])) v w

namespace SpellsInset

theorem line (h : SpellsInset stop q n false u v) (h32 : stop 32 = false) (now : Bool) :
    SpellsInset stop q n now u v := by
  cases now with
  | false => exact h
  | true =>
      obtain ⟨y, w, hy, hspells, hwide⟩ := h
      by_cases h10 : (u ++ [q]).head? = some 10
      · obtain ⟨t, ht⟩ := List.head?_eq_some_iff.mp h10
        refine ⟨y, w, ?_, hspells, ?_⟩
        · rw [← hy, ht]
          rfl
        · rw [ht, breaks_plain (by decide)] at hwide ⊢
          exact hwide
      · refine ⟨Text.spaces n ++ y, Text.spaces n ++ w, ?_,
          hspells.blanks h32 n, hwide.blanks⟩
        rw [Text.inset_true (fun c hc hc10 => h10 (hc10 ▸ hc)) (by simp), hy,
          List.append_assoc]

theorem nil (hstop : stop q = true) (hq : q ≠ 10) : SpellsInset stop q n false [] [] := by
  have h10 : 10 ∉ [] ++ [q] := by simpa using Ne.symm hq
  refine ⟨[], [], Text.inset_of_not_mem h10, .nil hstop, ?_⟩
  rw [not_breaks_of_not_mem h10]
  exact .refl n []

theorem plain (hb : stop b = false) (hne : b ≠ 92)
    (h : SpellsInset stop q n (b == 10) u v) :
    SpellsInset stop q n false (b :: u) ([b] ++ v) := by
  obtain ⟨y, w, hy, hspells, hwide⟩ := h
  refine ⟨b :: y, [b] ++ w, ?_, hspells.plain hb hne, ?_⟩
  · rw [List.cons_append, Text.inset_false_cons, hy]
    rfl
  · rw [List.cons_append, breaks_plain hne]
    exact hwide.prepend [b]

theorem escape (hstop : stop 92 = false) (h : SpellsInset stop q n false u v)
    (he : ∀ s, escape (e ++ (u ++ q :: s)) = ⟨e.length, w, none⟩) :
    SpellsInset stop q n false (92 :: (e ++ u)) (w ++ v) := by
  obtain ⟨y, v', hy, hspells, hwide⟩ := h
  obtain ⟨z, hz, hescape⟩ := escape_inset he n hy
  refine ⟨92 :: (z ++ y), w ++ v', ?_, hspells.escape hstop hescape, ?_⟩
  · rw [List.cons_append, List.append_assoc, Text.inset_false_cons]
    change 92 :: inset n false (e ++ (u ++ [q])) = _
    rw [hz, List.cons_append, List.append_assoc]
  · rw [List.cons_append, List.append_assoc, breaks_escape (by rw [he []])]
    exact hwide.prepend w

end SpellsInset

/-- Text in quotes is set in with the blanks that are put in front of its lines. -/
theorem inset_spells (h : Spells stop q u v) (hstop : stop q = true) (h32 : stop 32 = false)
    (h92 : stop 92 = false) (hq : q ≠ 10) (n : Nat) (now : Bool) :
    SpellsInset stop q n now u v := by
  induction hlen : u.length using Nat.strong_induction_on generalizing u v now with
  | _ m ih =>
  subst hlen
  refine .line ?_ h32 now
  cases u with
  | nil =>
      obtain rfl : v = [] := by
        have := h []
        rw [List.nil_append, body, if_pos hstop] at this
        exact (congrArg Body.value this).symm
      exact .nil hstop hq
  | cons b u =>
      by_cases hb : b = 92
      · subst hb
        obtain ⟨e, u, w, v, rfl, rfl, hspells, hescape⟩ := h.of_escape h92
        have hu : u.length < (92 :: (e ++ u)).length := by
          rw [List.length_cons, List.length_append]
          omega
        exact .escape h92 (ih _ hu hspells false rfl) hescape
      · obtain ⟨hb', v, rfl, hspells⟩ := h.of_plain hb
        exact .plain hb' hb (ih _ (Nat.lt_succ_self _) hspells _ rfl)

end Body

end Deriver.Scan
