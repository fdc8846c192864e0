import Deriver.Build.Basic
import Deriver.Proofs.Derive.File
import Deriver.Proofs.Parse.Isolation

/-!
# Expanding declarations together

Main statement: `expandSource_join`. A source put together from declarations, each
on lines of its own, expands to the header and the sections of each, one behind the
other, and what there is to report is what there is to report on each, further down.

Two things carry it. The parser reads every declaration as if it stood alone, at
another place (`isolated_of_not_dangling`), and no derive looks at the place
(`Decl.expand_place`). The place is one of the tokens of the text, so what is above
it only adds to the lines.
-/

namespace Deriver

open Parse

variable {x pre : Text} {d : Decl} {f g : Position → Position}

/-! ## Declarations and the places of their tokens -/

/-- The tokens of a text, and the same tokens elsewhere behind `pre`. -/
def elsewhere (pre x : Text) (f : Position → Position)
    (hlast : ∀ t, (ownTokens x).getLast? = some t → t.kind ∈ closers) : Overlap where
  source := x
  source' := pre ++ x ++ []
  run := ownTokens x
  rest := [endOf x]
  rest' := [endOf x]
  shift := f
  gap := pre.length
  ended := ended_own x
  ended' := ended_append _ ⟨endOf x, rfl, rfl⟩
  last := last_mem_limits hlast
  text := fun _ h => textOf_own pre [] h f

theorem WellFormed.items_elsewhere (hx : WellFormed x)
    (hd : d ∈ (parse x).file.decls) (pre : Text) (f : Position → Position) :
    items (pre ++ x ++ []) ((ownTokens x).map (Token.place f pre.length) ++ [endOf x]) =
      [.decl (d.place f pre.length)] := by
  obtain ⟨d', hitem⟩ := hx.item
  have hmem := parse_decls.mp hd
  rw [items_step x (ended_scan x) (kindOf_scan hx.ne_nil), hitem, items_of_eof x rfl,
    List.mem_singleton] at hmem
  cases hmem
  rw [scan_tokens_own] at hitem
  let W := elsewhere pre x f fun _ => hx.last
  have halone : W.Alone (endOf x) := ⟨rfl, rfl, fun _ => kind_ne_eof, nofun⟩
  have h := Overlap.items_of_decl halone ⟨List.suffix_refl _, hx.ne_nil⟩ hitem
  rwa [show items W.source' W.rest' = [] from items_of_eof _ rfl] at h

theorem WellFormed.place_congr (hx : WellFormed x)
    (hd : d ∈ (parse x).file.decls) (pre : Text)
    (h : ∀ t ∈ ownTokens x, f t.pos = g t.pos) :
    d.place f pre.length = d.place g pre.length := by
  have htokens : (ownTokens x).map (Token.place f pre.length) =
      (ownTokens x).map (Token.place g pre.length) := by
    refine List.map_congr_left fun t ht => ?_
    rw [Token.place, Token.place, h t ht]
  have hf := hx.items_elsewhere hd pre f
  rw [htokens, hx.items_elsewhere hd pre g, List.cons.injEq] at hf
  exact (Item.decl.inj hf.1).symm

theorem WellFormed.place_self (hx : WellFormed x) (hd : d ∈ (parse x).file.decls)
    (h : ∀ t ∈ ownTokens x, f t.pos = t.pos) : d.place f 0 = d := by
  have htokens : (ownTokens x).map (Token.place f 0) = ownTokens x := by
    conv_rhs => rw [← List.map_id (ownTokens x)]
    refine List.map_congr_left fun t ht => ?_
    rw [Token.place, h t ht, Nat.zero_add]
    rfl
  have hf := hx.items_elsewhere hd [] f
  rw [List.length_nil, htokens, List.nil_append, List.append_nil, ← scan_tokens_own] at hf
  have hmem := parse_decls.mp hd
  rw [hf, List.mem_singleton] at hmem
  exact (Item.decl.inj hmem).symm

theorem pos_of_own {t : Token} (h : t ∈ ownTokens x) :
    1 ≤ t.pos.line ∧ 1 ≤ t.pos.column := by
  have hmem : t ∈ (scan x).tokens := by
    rw [scan_tokens_own]
    exact List.mem_append_left _ h
  rw [(take_offset hmem).1, Position.after_start]
  exact ⟨Nat.le_add_right .., Nat.le_add_right ..⟩

theorem WellFormed.known (hx : WellFormed x) (hd : d ∈ (parse x).file.decls) : d.Known := by
  refine hx.place_self hd fun t ht => ?_
  have hline := (pos_of_own ht).1
  change (⟨max 1 t.pos.line, t.pos.column⟩ : Position) = t.pos
  rw [Nat.max_eq_right hline]

theorem WellFormed.place_behind (hx : WellFormed x) (hd : d ∈ (parse x).file.decls)
    (hpre : columnBehind pre = 1) :
    d.place (Position.start.after pre).shift pre.length =
      d.place (Move.down (pre.count 10)).pos pre.length := by
  refine hx.place_congr hd pre fun t ht => ?_
  obtain ⟨hline, hcolumn⟩ := pos_of_own ht
  rw [Position.after_start, hpre]
  change (⟨lineBehind pre + (t.pos.line - 1),
    if t.pos.line = 1 then 1 + (t.pos.column - 1) else t.pos.column⟩ : Position) =
      ⟨t.pos.line + pre.count 10, t.pos.column⟩
  rw [lineBehind, Position.mk.injEq, Nat.add_sub_cancel' hcolumn, ite_self]
  exact ⟨by omega, rfl⟩

theorem columnBehind_newline (t : Text) : columnBehind (t ++ "\n") = 1 := by
  rw [columnBehind, List.reverse_append]
  rfl

theorem of_mem_located {xs : List Text} {p : Text × Text} (hpre : columnBehind pre = 1)
    (hp : p ∈ located pre xs) : p.2 ∈ xs ∧ columnBehind p.1 = 1 := by
  induction xs generalizing pre with
  | nil => cases hp
  | cons x xs ih =>
      rcases List.mem_cons.mp hp with rfl | hp
      · exact ⟨List.mem_cons_self .., hpre⟩
      · obtain ⟨hmem, hcolumn⟩ := ih (columnBehind_newline _) hp
        exact ⟨List.mem_cons_of_mem x hmem, hcolumn⟩

/-! ## Declarations of a source put together -/

theorem WellFormed.expand_behind (hx : WellFormed x) (support : Support)
    (hpre : columnBehind pre = 1) :
    (((parse x).file.decls.map
        (Decl.place (Position.start.after pre).shift pre.length)).filter
        (!·.derives.isEmpty)).map
        (Decl.expand support) =
      ((parse x).file.expand support).map (ExpandedDecl.move (.down (pre.count 10))) := by
  have hderives (d : Decl) :
      (!(d.place (Position.start.after pre).shift pre.length).derives.isEmpty)
      = !d.derives.isEmpty := congrArg _ (List.isEmpty_map ..)
  rw [List.filter_map, List.map_map, SourceFile.expand, List.map_map]
  simp only [Function.comp_def, hderives]
  refine List.map_congr_left fun d hd => ?_
  have hmem := List.mem_of_mem_filter hd
  rw [hx.place_behind hmem hpre, Decl.expand_place (hx.known hmem)]

theorem expand_join {xs : List Text} (hxs : ∀ x ∈ xs, WellFormed x) (support : Support) :
    (parse (Text.join "\n" xs)).file.expand support =
    (located [] xs).flatMap fun (pre, x) =>
      ((parse x).file.expand support).map (ExpandedDecl.move (.down (pre.count 10))) := by
  rw [SourceFile.expand, (isolated_of_not_dangling fun x hx => Or.inl (hxs x hx)).decls,
    List.filter_flatMap, List.map_flatMap]
  refine List.flatMap_congr fun p hp => ?_
  obtain ⟨hmem, hcolumn⟩ := of_mem_located rfl hp
  exact (hxs _ hmem).expand_behind support hcolumn

theorem errors_join {xs : List Text} (hxs : ∀ x ∈ xs, WellFormed x) :
    (parse (Text.join "\n" xs)).errors = [] := by
  have h := (isolated_of_not_dangling fun x hx => Or.inl (hxs x hx)).errors
  have hnone : (located [] xs).filter (fun (_, x) => (parse x).file.decls.isEmpty) =
      [] := by
    refine List.filter_eq_nil_iff.mpr fun p hp => ?_
    obtain ⟨d, -, -, hd, -⟩ := (hxs _ (of_mem_located rfl hp).1).decl
    change ¬ (parse p.2).file.decls.isEmpty = true
    rw [hd]
    exact Bool.false_ne_true
  rw [hnone] at h
  exact List.forall₂_nil_left_iff.mp h

/-! ## Generated files -/

/-- What a generated file for a path begins with. -/
def generatedTop (path : Text) : Text := renderGenerated (FileName.base path) []

/-- A generated file with these sections; without sections there is none. -/
def generatedFile (path sections : Text) : Text :=
  if sections = [] then [] else generatedTop path ++ sections

/-- The sections of a generated file. -/
def sectionsOf (path output : Text) : Text := output.drop (generatedTop path).length

theorem sectionsOf_generatedFile (path sections : Text) :
    sectionsOf path (generatedFile path sections) = sections := by
  unfold sectionsOf generatedFile
  split
  · next h => rw [h, List.drop_nil]
  · exact List.drop_left

/-- The sections that declarations generate. -/
def listings (rs : List ExpandedDecl) : Text :=
  Text.concat ((rs.filter (·.generates)).map (·.listing))

theorem renderGenerated_eq (path : Text) (rs : List ExpandedDecl) :
    renderGenerated (FileName.base path) rs = generatedTop path ++ listings rs := by
  simp only [generatedTop, renderGenerated, listings, Text.concat, List.flatten_cons,
    List.filter_nil, List.map_nil, List.flatten_nil, List.append_nil, List.append_assoc]

theorem listings_append (rs rs' : List ExpandedDecl) :
    listings (rs ++ rs') = listings rs ++ listings rs' := by
  simp only [listings, Text.concat, List.filter_append, List.map_append,
    List.flatten_append]

theorem listings_eq_nil {rs : List ExpandedDecl} :
    listings rs = [] ↔ rs.any (·.generates) = false := by
  rw [listings, Text.concat, List.flatten_eq_nil_iff, List.any_eq_false]
  simp only [List.mem_map, List.mem_filter, forall_exists_index, and_imp]
  constructor
  · intro h r hr hgen
    cases h _ r hr hgen rfl
  · rintro h _ r hr hgen -
    exact absurd hgen (h r hr)

theorem listings_map (rs : List ExpandedDecl) {φ : ExpandedDecl → ExpandedDecl}
    (hgen : ∀ r, (φ r).generates = r.generates)
    (hlisting : ∀ r, (φ r).listing = r.listing) : listings (rs.map φ) = listings rs := by
  simp only [listings, List.filter_map, List.map_map, Function.comp_def, hgen, hlisting]

/-! ## What is reported -/

/-- The diagnostic without the lines it is shown with. -/
def Diagnostic.bare (d : Diagnostic) : Diagnostic := { d with snippet := none }

theorem Diagnostic.bare_withSource (lines : List Text) (d : Diagnostic) :
    (d.withSource lines).bare = d.bare := by
  unfold withSource
  dsimp only
  split <;> rfl

theorem stampFile_map (φ : Diagnostic → Diagnostic) (file : Text) (ds : List Diagnostic)
    (hφ : ∀ d, (φ d).file = d.file)
    (hstamp : ∀ d, φ { d with file := file } = { φ d with file := file }) :
    Diagnostic.stampFile file (ds.map φ) = (Diagnostic.stampFile file ds).map φ := by
  simp only [Diagnostic.stampFile, List.map_map]
  refine List.map_congr_left fun d _ => ?_
  simp only [Function.comp_apply, hφ]
  split
  · exact (hstamp d).symm
  · rfl

theorem bare_placeDiagnostics (path source : Text) (ds : List Diagnostic) :
    (placeDiagnostics path source ds).map Diagnostic.bare =
      Diagnostic.stampFile path (ds.map Diagnostic.bare) := by
  rw [placeDiagnostics,
    ← stampFile_map Diagnostic.bare path _ (fun _ => rfl) fun _ => rfl, List.map_map]
  simp only [Function.comp_def, Diagnostic.bare_withSource]

theorem isError_stampFile (path : Text) (ds : List Diagnostic) :
    (Diagnostic.stampFile path ds).any (·.isError) = ds.any (·.isError) := by
  rw [Diagnostic.stampFile, List.any_map]
  congr 1
  funext d
  rw [Function.comp_apply]
  split <;> rfl

theorem isError_bare (ds : List Diagnostic) :
    (ds.map Diagnostic.bare).any (·.isError) = ds.any (·.isError) := List.any_map

theorem isError_placeDiagnostics (path source : Text) (ds : List Diagnostic) :
    (placeDiagnostics path source ds).any (·.isError) = ds.any (·.isError) := by
  rw [← isError_bare, bare_placeDiagnostics, isError_stampFile, isError_bare]

namespace ExpandedDecl

variable (r : ExpandedDecl) (path source : Text)

theorem generates_placed : (r.placed path source).generates = r.generates := by
  simp only [generates, failed, placed, isError_placeDiagnostics, List.isEmpty_map]

theorem listing_placed : (r.placed path source).listing = r.listing := by
  simp only [listing, traits, placed, List.map_map, Function.comp_def, Expansion.code]

end ExpandedDecl

/-! ## Sources without syntax errors -/

namespace BuildOptions

variable (o : BuildOptions) (path : Text) {source : Text}

theorem output_of_clean (h : (parse source).errors = []) :
    (o.expandSource path source).output =
      generatedFile path (listings ((parse source).file.expand o.support)) := by
  have hplaced : listings (((parse source).file.expand o.support).map
      (·.placed path source)) =
      listings ((parse source).file.expand o.support) :=
    listings_map _ (fun r => r.generates_placed ..) fun r => r.listing_placed ..
  rw [expandSource, expandParsed, if_pos (by rw [h]; rfl)]
  dsimp only
  rw [renderGenerated_eq, generatedFile, ← hplaced]
  by_cases hnone : listings (((parse source).file.expand o.support).map
    (·.placed path source)) = []
  · rw [if_pos hnone, listings_eq_nil.mp hnone]
    rfl
  · rw [if_neg hnone, if_pos (eq_true_of_ne_false (mt listings_eq_nil.mpr hnone))]

theorem diagnostics_of_clean (h : (parse source).errors = []) :
    (o.expandSource path source).diagnostics.map Diagnostic.bare =
      Diagnostic.stampFile path
        ((((parse source).file.expand o.support).flatMap (·.diagnostics)).map
        Diagnostic.bare) := by
  rw [expandSource, expandParsed, if_pos (by rw [h]; rfl)]
  dsimp only
  rw [List.flatMap_map, List.map_flatMap, List.map_flatMap]
  simp only [ExpandedDecl.placed, bare_placeDiagnostics, Diagnostic.stampFile,
    List.map_flatMap]

end BuildOptions

/-! ## The statement -/

/-- Whether a source put together from declarations expands to what they expand to
alone. -/
structure Composes (o : BuildOptions) (path : Text) (xs : List Text) : Prop where
  /-- What a text generates alone is the header and its sections, or nothing. -/
  alone : ∀ x ∈ xs, (o.expandSource path x).output =
    generatedFile path (sectionsOf path (o.expandSource path x).output)
  /-- All generate the header and the sections of each, or nothing. -/
  output : (o.expandSource path (Text.join "\n" xs)).output =
    generatedFile path (xs.flatMap fun x => sectionsOf path (o.expandSource path x).output)
  /-- What is reported of a text is reported as many lines further down as there are
  above it. -/
  diagnostics : (o.expandSource path (Text.join "\n" xs)).diagnostics.map Diagnostic.bare =
    (located [] xs).flatMap fun (pre, x) => (o.expandSource path x).diagnostics.map fun d =>
      d.bare.move (.down (pre.count 10))
  /-- A text of which a derive fails has no section. -/
  failed : ∀ x ∈ xs, (o.expandSource path x).failed →
    sectionsOf path (o.expandSource path x).output = []

section Located

variable (o : BuildOptions) (path : Text) {xs : List Text}

theorem listings_located (hxs : ∀ x ∈ xs, WellFormed x) (pre : Text) :
    listings ((located pre xs).flatMap fun (pre, x) =>
      ((parse x).file.expand o.support).map (ExpandedDecl.move (.down (pre.count 10)))) =
        xs.flatMap fun x => sectionsOf path (o.expandSource path x).output := by
  induction xs generalizing pre with
  | nil => rfl
  | cons x xs ih =>
      have hx := hxs x (List.mem_cons_self ..)
      rw [located, List.flatMap_cons, List.flatMap_cons, listings_append,
        ih fun y hy => hxs y (List.mem_cons_of_mem x hy),
        listings_map _ (fun r => r.generates_move) fun r => r.listing_move,
        o.output_of_clean path hx.errors, sectionsOf_generatedFile]

theorem diagnostics_behind (hx : WellFormed x) (k : Nat) :
    Diagnostic.stampFile path ((((((parse x).file.expand o.support).map
      (ExpandedDecl.move (.down k))).flatMap (·.diagnostics))).map Diagnostic.bare) =
        (o.expandSource path x).diagnostics.map fun d => d.bare.move (.down k) := by
  have hmove (rs : List ExpandedDecl) :
      ((rs.map (ExpandedDecl.move (.down k))).flatMap (·.diagnostics)).map Diagnostic.bare =
        ((rs.flatMap (·.diagnostics)).map Diagnostic.bare).map
          (Diagnostic.move (.down k)) := by
    simp only [List.flatMap_map, List.map_flatMap, ExpandedDecl.move, List.map_map]
    rfl
  rw [hmove, stampFile_map (Diagnostic.move (.down k)) path _ (fun _ => rfl) fun _ => rfl,
    ← o.diagnostics_of_clean path hx.errors, List.map_map]
  rfl

theorem section_of_failed (hx : WellFormed x) (h : (o.expandSource path x).failed) :
    sectionsOf path (o.expandSource path x).output = [] := by
  obtain ⟨d, -, -, hd, -⟩ := hx.decl
  rw [o.output_of_clean path hx.errors, sectionsOf_generatedFile, listings_eq_nil]
  rw [FileResult.failed, ← isError_bare, o.diagnostics_of_clean path hx.errors,
    isError_stampFile, isError_bare, SourceFile.expand, hd] at h
  rw [SourceFile.expand, hd]
  -- the one declaration either asks for nothing or is the one that failed
  cases hderives : d.derives.isEmpty with
  | true =>
      rw [List.filter_cons_of_neg (by simp [hderives])]
      rfl
  | false =>
      rw [List.filter_cons_of_pos (by simp [hderives])] at h ⊢
      have hfailed : (d.expand o.support).failed = true := by
        rwa [List.filter_nil, List.map_cons, List.map_nil, List.flatMap_singleton] at h
      simp [ExpandedDecl.generates, hfailed]

end Located

/-- Declarations on lines of their own expand to what they expand to alone. -/
theorem expandSource_join (o : BuildOptions) (path : Text) (xs : List Text)
    (hxs : ∀ x ∈ xs, WellFormed x) : Composes o path xs where
  alone x hx := by
    rw [o.output_of_clean path (hxs x hx).errors, sectionsOf_generatedFile]
  output := by
    rw [o.output_of_clean path (errors_join hxs), expand_join hxs,
      listings_located o path hxs]
  diagnostics := by
    rw [o.diagnostics_of_clean path (errors_join hxs), expand_join hxs, List.flatMap_assoc,
      List.map_flatMap, Diagnostic.stampFile, List.map_flatMap]
    refine List.flatMap_congr fun p hp => ?_
    exact diagnostics_behind o path (hxs _ (of_mem_located rfl hp).1) _
  failed x hx := section_of_failed o path (hxs x hx)

/-- A declaration that generates code, and one of which a derive fails. -/
theorem expandSource_join_failing :
    Composes { support := {} } "shapes.rs" ["#[derive(Default)] struct S;",
    "#[derive(Deref)] struct T;"] ∧
      (BuildOptions.expandSource { support := {} } "shapes.rs"
        "#[derive(Deref)] struct T;").failed := by
  have hdefault : WellFormed "#[derive(Default)] struct S;" :=
    ⟨by decide +kernel, _, _, _, rfl, rfl, rfl, by decide +kernel, by decide +kernel⟩
  have hderef : WellFormed "#[derive(Deref)] struct T;" :=
    ⟨by decide +kernel, _, _, _, rfl, rfl, rfl, by decide +kernel, by decide +kernel⟩
  refine ⟨expandSource_join _ _ _ ?_, by decide +kernel⟩
  simpa using ⟨hdefault, hderef⟩

end Deriver
