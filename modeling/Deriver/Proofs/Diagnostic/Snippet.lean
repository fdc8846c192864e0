import Deriver.Proofs.Derive.Severity
import Deriver.Proofs.Text.Ascii

/-!
# Snippets point at their place

Main statement: `withSource_points`. The lines that a diagnostic is shown with are cut out
of the source by numbers from zero, and numbered again from its place when they are
written, both with a case of its own for the first line and the last. The two agree: a
line is shown under its own number, and the caret stands in the line below that of the
place.

A line and its neighbours are one line, or none, for each of three numbers. So both the
cut and what is written from it come to the rows of these numbers, one after the other.
-/

namespace Deriver

/-! ## Lines of a source -/

namespace Text

theorem splitLoop_newline (piece t : Text) :
    splitLoop "\n" 0 piece t = List.splitOnPPrepend (· == 10) t piece := by
  induction t generalizing piece with
  | nil => rfl
  | cons b t ih =>
      have hstart : List.isPrefixOf (ofString "\n") (b :: t) = (b == 10) := by
        rw [show ofString "\n" = [10] from rfl, List.isPrefixOf, List.isPrefixOf,
          Bool.and_true, BEq.comm]
      rw [splitLoop, hstart, List.splitOnPPrepend_cons_eq_if, ih,
        show (ofString "\n").length - 1 = 0 from rfl, ih, List.splitOnPPrepend_nil_right]

theorem splitOn_newline (t : Text) : t.splitOn "\n" = List.splitOn 10 t :=
  (splitLoop_newline [] t).trans List.splitOnPPrepend_nil_right

theorem newline_notMem_of_mem_splitOnPPrepend {piece t : Text}
    (hpiece : 10 ∉ piece) {line : Text}
    (h : line ∈ List.splitOnPPrepend (· == 10) t piece) : 10 ∉ line := by
  induction t generalizing piece with
  | nil =>
      obtain rfl := List.mem_singleton.mp h
      rwa [List.mem_reverse]
  | cons b t ih =>
      rw [List.splitOnPPrepend_cons_eq_if] at h
      split at h
      · rcases List.mem_cons.mp h with rfl | h
        · rwa [List.mem_reverse]
        · exact ih List.not_mem_nil (List.splitOnPPrepend_nil_right ▸ h)
      · next hb =>
          refine ih (fun hmem => ?_) h
          rcases List.mem_cons.mp hmem with rfl | hmem
          · exact hb rfl
          · exact hpiece hmem

/-- The line of a source of that number, counted from one. -/
def line? (source : Text) (n : Nat) : Option Text :=
  if n = 0 then none else (List.splitOn 10 source)[n - 1]?

theorem line?_succ (source : Text) (n : Nat) :
    source.line? (n + 1) = (List.splitOn 10 source)[n]? := if_neg (Nat.succ_ne_zero n)

theorem line?_above {source line : Text} {n : Nat} (h : source.line? (n + 2) = some line) :
    ∃ above, source.line? (n + 1) = some above := by
  rw [line?_succ] at h ⊢
  obtain ⟨hlt, -⟩ := List.getElem?_eq_some_iff.mp h
  exact ⟨_, List.getElem?_eq_getElem (Nat.lt_of_succ_lt hlt)⟩

theorem newline_notMem_line {source line : Text} {n : Nat}
    (h : source.line? n = some line) : 10 ∉ line := by
  unfold line? at h
  split at h
  · cases h
  · have hmem := List.mem_of_getElem? h
    rw [List.splitOn_eq_splitOnP, ← List.splitOnPPrepend_nil_right] at hmem
    exact newline_notMem_of_mem_splitOnPPrepend List.not_mem_nil hmem

/-- The lines that are cut out around a line are those of three numbers, as far as they
exist. -/
theorem window_eq {source : Text} {n : Nat} (h : 1 ≤ n) :
    ((source.splitOn "\n").take (n + 1)).drop (n - 2) =
      (source.line? (n - 1)).toList ++ (source.line? n).toList ++
      (source.line? (n + 1)).toList := by
  obtain ⟨n, rfl⟩ := Nat.exists_eq_add_of_le' h
  rw [splitOn_newline]
  cases n with
  | zero =>
      rw [List.take_add_one, List.take_add_one]
      rfl
  | succ n =>
      have hthree : n + 1 + 1 + 1 - n = 3 := by omega
      rw [List.drop_take, show n + 1 + 1 - 2 = n from rfl, hthree, List.take_add_one,
        List.take_add_one, List.take_add_one, List.getElem?_drop, List.getElem?_drop,
        List.getElem?_drop]
      rfl

end Text

/-! ## Rows -/

/-- A line of a snippet below the bar on top of it. -/
inductive Row where
  /-- A line of the source, under its number. -/
  | source (number : Nat) (line : Text)
  /-- A caret at a column of the line above. -/
  | caret (column : Nat)

namespace Row

/-- The number that a line is shown under. -/
def number? : Row → Option Nat
  | source n _ => some n
  | caret _ => none

/-- What stands to the left of the bars. -/
def label : Row → Text
  | source n _ => Text.ofNat n
  | caret _ => []

/-- What stands to the right of the bars. -/
def body : Row → Text
  | source _ line => line
  | caret column => Text.spaces (column - 1) ++ "^"

/-- A row as it is written, with labels of a width. -/
def print (width : Nat) (r : Row) : Text :=
  Text.concat [" ", r.label.padStart width, " | ", r.body]

/-- What stands to the left of a line or a caret, up to the bar and the blank after it. -/
def gutter (width : Nat) (r : Row) : Text :=
  Text.concat [" ", r.label.padStart width, " | "]

theorem print_eq (width : Nat) (r : Row) : r.print width = r.gutter width ++ r.body := by
  simp only [print, gutter, Text.concat, List.flatten_cons, List.flatten_nil,
    List.append_nil, List.append_assoc]

theorem length_gutter {width : Nat} {r : Row} (h : r.label.length ≤ width) :
    (r.gutter width).length = width + 4 := by
  have hsides : (Text.ofString " ").length = 1 ∧
      (Text.ofString " | ").length = 3 := by decide
  simp only [gutter, Text.concat, Text.padStart, Text.spaces, List.flatten_cons,
    List.flatten_nil, List.length_append, List.length_replicate, List.length_nil, hsides]
  omega

/-- Below a line whose label fits, the caret is as far to the right as the byte at its
column. -/
theorem caret_under {width n : Nat} (h : (Text.ofNat n).length ≤ width) (line : Text)
    (column : Nat) : ∃ gutter margin, (source n line).print width = gutter ++ line ∧
      (caret column).print width = margin ++ "^" ∧
      margin.length = gutter.length + (column - 1) := by
  have hline : (source n line).label.length ≤ width := h
  have hcaret : (caret column).label.length ≤ width := Nat.zero_le _
  refine ⟨(source n line).gutter width, (caret column).gutter width ++
    Text.spaces (column - 1), print_eq _ _, ?_, ?_⟩
  · rw [print_eq, List.append_assoc]
    rfl
  · rw [List.length_append, Text.spaces, List.length_replicate, length_gutter hline,
      length_gutter hcaret]

theorem newline_notMem_print {width : Nat} {r : Row} (hlabel : 10 ∉ r.label)
    (hbody : 10 ∉ r.body) : 10 ∉ r.print width := by
  have hspaces (n : Nat) : 10 ∉ Text.spaces n :=
    fun h => by cases List.eq_of_mem_replicate h
  have hsides : 10 ∉ Text.ofString " " ∧ 10 ∉ Text.ofString " | " := by decide
  simp only [print, Text.concat, List.flatten_cons, List.flatten_nil, List.append_nil,
    Text.padStart, List.mem_append, not_or]
  exact ⟨hsides.1, ⟨hspaces _, hlabel⟩, hsides.2, hbody⟩

end Row

/-- The rows of a snippet show where a place is in a source. -/
structure PointsAt (text : Text) (site : Site) (width : Nat) (rows : List Row) : Prop where
  /-- What is shown under a number is the line of that number, and the lines shown are
  that of the place and its neighbours, as far as they exist. -/
  numbered : ∀ (n : Nat) (line : Text), .source n line ∈ rows ↔
    (site.line - 1 ≤ n ∧ n ≤ site.line + 1) ∧ text.line? n = some line
  /-- No line is shown twice, and they stand in order. -/
  ordered : (rows.filterMap Row.number?).Pairwise (· < ·)
  /-- There is one caret, in the row after the line of the place and at its column, or at
  the first one if the column is none of a line. -/
  pointed : ∃ before line after,
    rows = before ++ .source site.line.toNat line ::
      .caret (max 1 site.column).toNat :: after ∧
      ∀ column, .caret column ∉ before ∧ .caret column ∉ after
  /-- The caret is as far to the right as the byte at its column. -/
  under : ∀ n line column, .source n line ∈ rows → .caret column ∈ rows →
    ∃ gutter margin, (Row.source n line).print width = gutter ++ line ∧
      (Row.caret column).print width = margin ++ "^" ∧
      margin.length = gutter.length + (column - 1)
  /-- Every row is one line of the output. -/
  whole : ∀ r ∈ rows, 10 ∉ r.print width

/-! ### The rows around a line -/

namespace Row

variable {text : Text} {m n : Nat} {line : Text}

/-- The row of a line, if there is one of that number. -/
def ofLine (text : Text) (n : Nat) : List Row := (text.line? n).toList.map (.source n)

theorem source_mem_ofLine : .source n line ∈ ofLine text m ↔
    n = m ∧ text.line? n = some line := by
  rw [ofLine, List.mem_map]
  constructor
  · rintro ⟨line, hline, h⟩
    cases h
    exact ⟨rfl, Option.mem_toList.mp hline⟩
  · rintro ⟨rfl, hline⟩
    exact ⟨line, Option.mem_toList.mpr hline, rfl⟩

theorem caret_notMem_ofLine (column : Nat) : .caret column ∉ ofLine text m := by
  simp [ofLine]

theorem numbers_ofLine (text : Text) (m : Nat) : (ofLine text m).filterMap number? =
    if (text.line? m).isSome then [m] else [] := by
  cases h : text.line? m <;> simp [ofLine, h, number?]

/-- The rows around a line, with a caret below it. -/
def around (text : Text) (n column : Nat) : List Row :=
  ofLine text (n - 1) ++ ofLine text n ++ .caret column :: ofLine text (n + 1)

/-- The last number in the rows around a line. -/
def lastAround (text : Text) (n : Nat) : Nat :=
  if (text.line? (n + 1)).isSome then n + 1 else n

theorem source_mem_around (h : 1 ≤ n) {column : Nat} :
    .source m line ∈ around text n column ↔
    (n - 1 ≤ m ∧ m ≤ n + 1) ∧ text.line? m = some line := by
  simp only [around, List.mem_append, List.mem_cons, source_mem_ofLine,
    reduceCtorEq, false_or]
  rw [← or_and_right, ← or_and_right]
  refine and_congr_left fun _ => ?_
  omega

theorem le_lastAround (h : 1 ≤ n) {column : Nat}
    (hmem : .source m line ∈ around text n column) : m ≤ lastAround text n := by
  obtain ⟨⟨-, hle⟩, hline⟩ := (source_mem_around h).mp hmem
  unfold lastAround
  split
  · exact hle
  · next hnone =>
      refine Nat.le_of_lt_succ (Nat.lt_of_le_of_ne hle ?_)
      rintro rfl
      exact hnone (hline ▸ rfl)

end Row

open Row in
theorem pointsAt_around {text line : Text} {site : Site} {n : Nat} (hn : site.line = n)
    (hpos : 1 ≤ n) (hline : text.line? n = some line) :
    PointsAt text site (Text.ofNat (lastAround text n)).length
      (around text n (max 1 site.column).toNat) := by
  have htoNat : site.line.toNat = n := by omega
  refine ⟨fun m l => ?_, ?_, ?_, fun m l column hmem _ => ?_, fun r hr => ?_⟩
  · rw [source_mem_around hpos, hn]
    refine and_congr_left fun _ => ?_
    omega
  · simp only [around, List.filterMap_append, List.filterMap_cons, numbers_ofLine, number?]
    split <;> split <;> split <;> simp <;> omega
  · refine ⟨ofLine text (n - 1), line, ofLine text (n + 1), ?_, fun column =>
      ⟨caret_notMem_ofLine column, caret_notMem_ofLine column⟩⟩
    have hown : ofLine text n = [.source n line] := by rw [ofLine, hline]; rfl
    rw [around, hown, htoNat, List.append_assoc]
    rfl
  · exact caret_under (Text.length_ofNat_mono (le_lastAround hpos hmem)) l column
  · cases r with
    | source m l =>
        exact newline_notMem_print (Text.newline_notMem_ofNat m)
          (Text.newline_notMem_line ((source_mem_around hpos).mp hr).2)
    | caret column =>
        refine newline_notMem_print List.not_mem_nil fun h => ?_
        rcases List.mem_append.mp h with h | h
        · cases List.eq_of_mem_replicate h
        · exact absurd h (by decide)

/-! ## What is written -/

namespace Diagnostic

/-- The bar on top of a snippet. -/
def bar (width : Nat) : Text := Text.concat [" ", Text.spaces width, " |"]

theorem lines_bar (width : Nat) (ts : List Text) : Text.lines (bar width :: ts) =
    Text.concat [" ", Text.spaces width, " |\n"] ++ Text.lines ts := by
  simp only [Text.lines, bar, Text.concat, List.map_cons, List.flatten_cons,
    List.flatten_nil, List.append_nil, List.append_assoc]
  rfl

/-- What is written in front of the snippet. -/
def header (d : Diagnostic) : Text :=
  Text.lines [Text.concat [d.severity.name, "[", d.code, "]: ", d.message],
    "  --> " ++ d.place]

/-- What is written after the snippet. -/
def notes (d : Diagnostic) : Text :=
  Text.concat ([noteText "derive" d.target, noteText "expected" d.expected,
      noteText "found" d.actual, noteText "help" d.suggestion]
    ++ d.examples.map (fun e => Text.concat ["   = try: ", e, "\n"])
    ++ [noteText "see" d.documentation])

/-- The diagnostic is shown with a snippet that points at its place. -/
def Points (d : Diagnostic) (source : Text) : Prop :=
  ∃ width rows, d.render =
      d.header ++ Text.lines (bar width :: rows.map (Row.print width)) ++ d.notes ∧
    PointsAt source d.site width rows

theorem render_of_snippet {d : Diagnostic} {s : Snippet} {ls : List Text}
    (hsnippet : d.snippet = some s) (hlines : s.lines = some ls) (hne : ls ≠ []) :
    d.render = d.header ++ d.snippetText ls ++ d.notes := by
  obtain ⟨l, ls, rfl⟩ := List.exists_cons_of_ne_nil hne
  simp only [render, hsnippet, Option.bind_some, hlines, header, notes,
    Text.lines, Text.concat, List.map_cons, List.map_nil, List.flatten_cons,
    List.flatten_nil, List.append_nil, List.cons_append, List.nil_append, List.append_assoc]
  rfl

variable {d : Diagnostic} {text line : Text} {n : Nat}

/-- The caret of a diagnostic. -/
def caret (d : Diagnostic) : Row := .caret (max 1 d.site.column).toNat

/-- The rows of lines with numbers from `m` on. -/
def rowsFrom (d : Diagnostic) (n : Nat) : Nat → List Text → List Row
  | _, [] => []
  | m, l :: ls =>
      (.source m l :: if m = n then [d.caret] else []) ++ rowsFrom d n (m + 1) ls

theorem print_caret (width : Nat) : Text.lines [d.caret.print width] =
    Text.concat [" ", Text.spaces width, " | ",
    Text.spaces (max 1 d.site.column - 1).toNat, "^\n"] := by
  have hcolumn : (max 1 d.site.column).toNat - 1 =
      (max 1 d.site.column - 1).toNat := by omega
  have hlabel : Text.padStart [] width = Text.spaces width := List.append_nil _
  simp only [Text.lines, caret, Row.print, Row.label, Row.body, hcolumn,
    hlabel, Text.concat, List.map_cons, List.map_nil, List.flatten_cons, List.flatten_nil,
    List.append_nil, List.append_assoc]
  rfl

theorem snippetLine_eq (hn : d.site.line = n) (width m : Nat) (l : Text) :
    d.snippetLine width m l =
      Text.lines ((.source m l :: if m = n then [d.caret] else []).map
      (Row.print width)) := by
  have hown : (m : Int) = d.site.line ↔ m = n := by omega
  have hline (rest : Text) : Text.concat
      [" ", (Text.ofInt m).padStart width, " | ", l, "\n", rest] =
      (Row.source m l).print width ++ [10] ++ rest := by
    simp only [Text.concat, Row.print, Row.label, Row.body, List.flatten_cons,
      List.flatten_nil, List.append_nil, List.append_assoc]
    rfl
  unfold snippetLine
  rw [hline, List.map_cons, Text.lines, List.map_cons, List.flatten_cons, ← print_caret]
  simp only [hown]
  split <;> rfl

theorem concat_snippetLines (hn : d.site.line = n) (width m : Nat) (ls : List Text) :
    Text.concat (ls.mapIdx fun i l => d.snippetLine width (m + i) l) =
      Text.lines ((d.rowsFrom n m ls).map (Row.print width)) := by
  induction ls generalizing m with
  | nil => rfl
  | cons l ls ih =>
      have hstep (i : Nat) (l : Text) : d.snippetLine width (m + (i + 1 : Nat)) l =
          d.snippetLine width ((m + 1 : Nat) + i) l := by
        congr 1
        omega
      rw [List.mapIdx_cons, Text.concat, List.flatten_cons, ← Text.concat]
      simp only [hstep]
      rw [ih, Int.ofNat_zero, Int.add_zero, snippetLine_eq hn, rowsFrom, List.map_append]
      simp only [Text.lines, List.map_append, List.flatten_append]

theorem rowsFrom_append (n m : Nat) (ls ls' : List Text) :
    d.rowsFrom n m (ls ++ ls') = d.rowsFrom n m ls ++ d.rowsFrom n (m + ls.length) ls' := by
  induction ls generalizing m with
  | nil => rfl
  | cons l ls ih =>
      rw [List.cons_append, rowsFrom, rowsFrom, ih, List.length_cons, List.append_assoc,
        Nat.add_right_comm, Nat.add_assoc]

theorem rowsFrom_line {m : Nat} (h : m ≠ n) :
    d.rowsFrom n m (text.line? m).toList = Row.ofLine text m := by
  unfold Row.ofLine
  cases text.line? m with
  | none => rfl
  | some l =>
      rw [Option.toList_some, rowsFrom, if_neg h]
      rfl

/-- The numbers begin with that of the line above, if there is one. -/
theorem firstLine_eq (hn : d.site.line = n) (hpos : 1 ≤ n)
    (hline : text.line? n = some line) :
    ∃ first : Nat, d.firstLine = first ∧
    first + (text.line? (n - 1)).toList.length = n := by
  obtain ⟨n, rfl⟩ := Nat.exists_eq_add_of_le' hpos
  rw [firstLine, hn]
  cases n with
  | zero => exact ⟨1, rfl, rfl⟩
  | succ n =>
      obtain ⟨above, habove⟩ := Text.line?_above hline
      refine ⟨n + 1, by omega, ?_⟩
      rw [Nat.add_sub_cancel, habove]
      rfl

theorem length_below (text : Text) (n : Nat) :
    n + (text.line? (n + 1)).toList.length = Row.lastAround text n := by
  unfold Row.lastAround
  cases text.line? (n + 1) <;> rfl

/-- The rows of a line and its neighbours, numbered from that of the first one shown. -/
theorem rowsFrom_window {first : Nat} (hpos : 1 ≤ n) (hline : text.line? n = some line)
    (hfirst : first + (text.line? (n - 1)).toList.length = n) :
    d.rowsFrom n first ((text.line? (n - 1)).toList ++ (text.line? n).toList ++
        (text.line? (n + 1)).toList) =
      Row.around text n (max 1 d.site.column).toNat := by
  have habove : d.rowsFrom n first (text.line? (n - 1)).toList =
      Row.ofLine text (n - 1) := by
    cases h : text.line? (n - 1) with
    | none =>
        rw [Row.ofLine, h]
        rfl
    | some above =>
        rw [h, Option.toList_some, List.length_singleton] at hfirst
        rw [← h, Nat.eq_sub_of_add_eq hfirst]
        exact rowsFrom_line (by omega)
  have hown : d.rowsFrom n n (text.line? n).toList = Row.ofLine text n ++ [d.caret] := by
    rw [Row.ofLine, hline, Option.toList_some, rowsFrom, if_pos rfl]
    rfl
  have hbelow : first + ((text.line? (n - 1)).toList ++ (text.line? n).toList).length =
      n + 1 := by
    rw [List.length_append, ← Nat.add_assoc, hfirst, hline]
    rfl
  rw [rowsFrom_append, rowsFrom_append, hfirst, hbelow, habove, hown,
    rowsFrom_line (by omega), Row.around, List.append_assoc, List.append_assoc,
    List.append_assoc]
  rfl

theorem snippetText_window (hn : d.site.line = n) (hpos : 1 ≤ n)
    (hline : text.line? n = some line) :
    let width := (Text.ofNat (Row.lastAround text n)).length
    d.snippetText ((text.line? (n - 1)).toList ++ (text.line? n).toList ++
        (text.line? (n + 1)).toList) =
      Text.lines (bar width :: (Row.around text n (max 1 d.site.column).toNat).map
        (Row.print width)) := by
  intro width
  obtain ⟨first, hfirst, habove⟩ := firstLine_eq hn hpos hline
  have hlast : (first : Int) + ((text.line? (n - 1)).toList ++ (text.line? n).toList ++
      (text.line? (n + 1)).toList).length - 1 = Row.lastAround text n := by
    rw [← length_below, List.length_append, List.length_append, hline, Option.toList_some,
      List.length_singleton]
    omega
  unfold snippetText
  dsimp only
  rw [hfirst, hlast, concat_snippetLines hn, rowsFrom_window hpos hline habove, lines_bar]
  rfl

end Diagnostic

/-! ## The statement -/

theorem points_of_window {d : Diagnostic} {source : Text} {n : Nat} (hn : d.site.line = n)
    (hpos : 1 ≤ n) (hlast : n ≤ (List.splitOn 10 source).length) {s : Snippet}
    (hsnippet : d.snippet = some s)
    (hlines : s.lines = some (((source.splitOn "\n").take (n + 1)).drop (n - 2))) :
    d.Points source := by
  obtain ⟨line, hline⟩ : ∃ line, source.line? n = some line := by
    obtain ⟨n, rfl⟩ := Nat.exists_eq_add_of_le' hpos
    exact ⟨_, (Text.line?_succ source n).trans (List.getElem?_eq_getElem hlast)⟩
  have hne : (source.line? (n - 1)).toList ++ (source.line? n).toList ++
      (source.line? (n + 1)).toList ≠ [] := by simp [hline]
  rw [Text.window_eq hpos] at hlines
  refine ⟨_, _, ?_, pointsAt_around hn hpos hline⟩
  rw [Diagnostic.render_of_snippet hsnippet hlines hne,
    Diagnostic.snippetText_window hn hpos hline]

theorem Diagnostic.site_withSource (d : Diagnostic) (lines : List Text) :
    (d.withSource lines).site = d.site := by
  unfold withSource
  dsimp only
  split <;> rfl

theorem Diagnostic.withSource_eq {d : Diagnostic} (hbare : d.snippet = none)
    (source : Text) {n : Nat}
    (hn : d.site.line = n) (hpos : 1 ≤ n) (hlast : n ≤ (List.splitOn 10 source).length) :
    ∃ s : Snippet, s.lines = some (((source.splitOn "\n").take (n + 1)).drop (n - 2)) ∧
      d.withSource (source.splitOn "\n") = { d with snippet := some s } := by
  have hinside : (d.snippet.isSome || decide (d.site.line < 1) ||
      decide ((source.splitOn "\n").length < d.site.line.toNat)) = false := by
    rw [hbare, hn, Int.toNat_natCast, Text.splitOn_newline]
    simp
    omega
  unfold withSource
  dsimp only
  rw [hinside, if_neg Bool.false_ne_true, hn, Int.toNat_natCast]
  exact ⟨_, rfl, rfl⟩

/-- A diagnostic whose place is in a line of the source is shown with that line and its
neighbours, each under its number, and with a caret at the place. This holds whatever the
diagnostic is, once it is given the lines, and of all that the source is reported with. -/
theorem withSource_points (source : Text) :
    (∀ d : Diagnostic, d.snippet = none → 1 ≤ d.site.line →
      d.site.line ≤ (List.splitOn 10 source).length →
        (∃ s, d.withSource (source.splitOn "\n") = { d with snippet := some s }) ∧
        (d.withSource (source.splitOn "\n")).Points source) ∧
    ∀ (o : BuildOptions) (path : Text), ∀ d ∈ (o.expandSource path source).diagnostics,
      1 ≤ d.site.line → d.site.line ≤ (List.splitOn 10 source).length →
        d.Points source := by
  have hline {d : Diagnostic} (hfirst : 1 ≤ d.site.line) : ∃ n : Nat, d.site.line = n :=
    ⟨_, (Int.toNat_of_nonneg (by omega)).symm⟩
  refine ⟨fun d hbare hfirst hlast => ?_, fun o path d hd hfirst hlast => ?_⟩
  · obtain ⟨n, hn⟩ := hline hfirst
    obtain ⟨s, hlines, heq⟩ :=
      Diagnostic.withSource_eq hbare source hn (by omega) (by omega)
    rw [heq]
    exact ⟨⟨s, rfl⟩, points_of_window hn (by omega) (by omega) rfl hlines⟩
  · obtain ⟨raw, file, hmade, rfl⟩ := o.raised_expandSource path source d hd
    have hbare : raw.snippet = none := hmade.elim (·.bare) (·.bare)
    obtain ⟨n, hn⟩ := hline hfirst
    have hraw : raw.site.line = n :=
      (congrArg Site.line (raw.site_withSource _)).symm.trans hn
    obtain ⟨s, hlines, heq⟩ :=
      Diagnostic.withSource_eq hbare source hraw (by omega) (by omega)
    exact points_of_window hn (by omega) (by omega) (congrArg Diagnostic.snippet heq) hlines

/-- A struct without a name in the second of three lines, and a name that is unknown in
the last. -/
theorem withSource_points_second :
    let source : Text := "struct A;\nstruct 1;\nenum B {}"
    let o : BuildOptions := { support := {} }
    let last := Position.diagnose ⟨3, 6⟩ (.unknownDerive "Copy")
    (last.withSource (source.splitOn "\n")).Points source ∧
      ∃ d ∈ (o.expandSource "a.rs" source).diagnostics, d.site = ⟨2, 8⟩ ∧
        d.Points source := by
  intro source o last
  obtain ⟨d, hd, hsite⟩ : ∃ d ∈ (o.expandSource "a.rs" source).diagnostics,
      d.site = ⟨2, 8⟩ := by
    decide +kernel
  have hlines : 3 ≤ (List.splitOn 10 source).length := by decide
  have hfirst : 1 ≤ d.site.line := by rw [hsite]; decide
  have hlast : d.site.line ≤ (List.splitOn 10 source).length := by
    rw [hsite]; dsimp only; omega
  exact ⟨((withSource_points source).1 last rfl (by decide) (by decide)).2,
    d, hd, hsite, (withSource_points source).2 o "a.rs" d hd hfirst hlast⟩

end Deriver
