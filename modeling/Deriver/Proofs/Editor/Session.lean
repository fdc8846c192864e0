import Deriver.Editor.Session
import Deriver.Proofs.Build.Cached
import Mathlib

/-!
# What a session holds

Main statement: `session_history`. Documents are opened, given new contents and closed, and
what a session then holds of each is what its last content gives on its own, although
parsed forms are kept by path, several URIs may lead to one path, and the same content again
is not even looked at. The index of symbols is kept up to date call by call and is at any
time the symbols of the open documents.

`Tracks` is the invariant. Only the parsed forms need an argument: an entry of a path is
taken when its key is that of the content, and that says what it was parsed from as far as
no two contents share a digest.
-/

namespace Deriver

/-- A call that changes what is open. -/
inductive SessionCall where
  | openDocument (uri content : Text)
  | update (uri content : Text) (version : Int)
  | close (uri : Text)
  deriving DecidableEq, Repr

namespace SessionCall

/-- The URI that a call names. -/
def uri : SessionCall → Text
  | .openDocument uri _ => uri
  | .update uri _ _ => uri
  | .close uri => uri

/-- The content and the version that a call leaves under its URI. -/
def leaves : SessionCall → Option (Text × Int)
  | .openDocument _ content => some (content, 1)
  | .update _ content version => some (content, version)
  | .close _ => none

/-- The content that a call gives. -/
def content? (c : SessionCall) : Option Text := c.leaves.map (·.1)

/-- What is open under a URI after some calls: what the last call that names it left. -/
def standing (h : List SessionCall) (uri : Text) : Option (Text × Int) :=
  if uri = [] then none else ((h.filter (·.uri == uri)).getLast?).bind leaves

theorem standing_nil (h : List SessionCall) : standing h [] = none := rfl

theorem standing_concat (h : List SessionCall) (c : SessionCall) (uri : Text) :
    standing (h ++ [c]) uri = if c.uri = uri ∧ uri ≠ [] then c.leaves
    else standing h uri := by
  unfold standing
  rw [List.filter_append]
  by_cases hempty : uri = []
  · rw [if_pos hempty, if_pos hempty, if_neg fun hc => hc.2 hempty]
  · by_cases hc : c.uri = uri
    · have hlast : [c].filter (·.uri == uri) = [c] := by simp [hc]
      rw [if_neg hempty, if_pos ⟨hc, hempty⟩, hlast, List.getLast?_concat, Option.bind_some]
    · have hlast : [c].filter (·.uri == uri) = [] := by simp [hc]
      have hother : ¬(c.uri = uri ∧ uri ≠ []) := fun hand => hc hand.1
      rw [hlast, List.append_nil, if_neg hother]

end SessionCall

/-- A content parsed and expanded on its own. -/
def Document.fresh (o : BuildOptions) (uri content : Text) (version : Int) : Document where
  uri := uri
  path := pathOfUri uri
  content := content
  version := version
  file := (parse content).file
  result := o.expandSource (pathOfUri uri) content
  symbols := Symbol.ofFile content (parse content).file

/-- The symbols of a document as an index holds them. -/
def Document.indexed (d : Document) : List IndexedSymbol :=
  d.symbols.map fun x => ⟨d.uri, x⟩

namespace Session

/-- The session after a call, which may fail. Closing cannot fail. -/
def call (s : Session) : SessionCall → Except SessionFault Session
  | .openDocument uri content => (s.openDocument uri content).map (·.2)
  | .update uri content version => (s.update uri content version).map (·.2)
  | .close uri => .ok (s.close uri)

/-- The session after a call. One that fails changes nothing. -/
def step (s : Session) (c : SessionCall) : Session := (s.call c).toOption.getD s

/-- The session after some calls. -/
def after (s : Session) (h : List SessionCall) : Session := h.foldl step s

end Session

/-! ## Parsed forms -/

namespace ParsedFiles

variable {c : ParsedFiles} {contents : List Text}

/-- Every entry is the parsed form of one of the contents, under its key. -/
def Sound (c : ParsedFiles) (contents : List Text) : Prop :=
  ∀ e ∈ c.entries, ∃ content ∈ contents,
    e.key = contentKey [] content ∧ e.parsed = Deriver.parse content

theorem parse_sound (h : c.Sound contents)
    (hdigest : CollisionFree (contents.map (keyedContent []))) (path : Text)
    {content : Text} (hmem : content ∈ contents) :
    (c.parse path content).1.parsed = Deriver.parse content ∧
      (c.parse path content).2.2.Sound contents := by
  have hfresh {entries : List ParsedSource} (he : ∀ e ∈ entries, e ∈ c.entries) :
      Sound { entries := ⟨path, contentKey [] content, Deriver.parse content⟩ :: entries }
        contents :=
    List.forall_mem_cons.mpr ⟨⟨content, hmem, rfl, rfl⟩, fun e hin => h e (he e hin)⟩
  unfold parse
  dsimp only
  split
  · next entry hentry =>
      split
      · next hkey =>
          refine ⟨?_, h⟩
          obtain ⟨other, hother, hk, hparsed⟩ := h entry (List.mem_of_find?_eq_some hentry)
          have heq : keyedContent [] other = keyedContent [] content :=
            hdigest _ (List.mem_map_of_mem hother) _ (List.mem_map_of_mem hmem)
              (hk.symm.trans (beq_iff_eq.mp hkey))
          rw [hparsed, (List.cons.inj (List.append_cancel_left heq)).2]
      · exact ⟨rfl, hfresh fun e he => (List.mem_filter.mp he).1⟩
  · exact ⟨rfl, hfresh fun e he => he⟩

theorem forget_sound (h : c.Sound contents) (path : Text) :
    (c.forget path).Sound contents :=
  fun e he => h e (List.mem_filter.mp he).1

end ParsedFiles

/-! ## Documents and their symbols -/

namespace Session

variable {s : Session} {uri other content : Text} {version : Int} {d : Document}

theorem find?_other (documents : List Document) (uri other : Text) :
    (documents.filter (·.uri != uri)).find? (·.uri == other) =
      if uri = other then none else documents.find? (·.uri == other) := by
  rw [List.find?_filter]
  split
  · next h =>
      subst h
      refine List.find?_eq_none.mpr fun d _ hd => ?_
      simp at hd
  · next h =>
      congr 1
      funext d
      by_cases hd : d.uri = other
      · simp [hd, Ne.symm h]
      · simp [hd]

theorem document?_put (s : Session) (d : Document) (uri : Text) :
    (s.put d).document? uri = if d.uri = uri then some d else s.document? uri := by
  unfold document? put
  rw [List.find?_cons]
  by_cases h : d.uri = uri
  · rw [if_pos h, beq_iff_eq.mpr h]
  · rw [if_neg h, beq_eq_false_iff_ne.mpr h]
    exact (find?_other ..).trans (if_neg h)

theorem forget_indexed (documents : List Document) (uri : Text) :
    (documents.flatMap Document.indexed).filter (·.uri != uri) =
      (documents.filter (·.uri != uri)).flatMap Document.indexed := by
  induction documents with
  | nil => rfl
  | cons d documents ih =>
      rw [List.flatMap_cons, List.filter_append, ih]
      by_cases h : d.uri = uri
      · have hnone : d.indexed.filter (·.uri != uri) = [] := by
          simp [Document.indexed, h]
        rw [hnone, List.nil_append, List.filter_cons_of_neg (by simp [h])]
      · have hall : d.indexed.filter (·.uri != uri) = d.indexed := by
          simp [Document.indexed, h]
        rw [hall, List.filter_cons_of_pos (by simp [h]), List.flatMap_cons]

/-- A document is one of those that are open, beside those of other URIs. -/
theorem documents_perm (hnodup : (s.documents.map (·.uri)).Nodup)
    (hd : s.document? uri = some d) :
    s.documents.Perm (d :: s.documents.filter (·.uri != uri)) := by
  unfold document? at hd
  generalize s.documents = documents at hnodup hd
  induction documents with
  | nil => cases hd
  | cons e documents ih =>
      obtain ⟨hnew, hnodup⟩ := List.nodup_cons.mp hnodup
      rw [List.find?_cons] at hd
      by_cases he : e.uri = uri
      · rw [beq_iff_eq.mpr he] at hd
        obtain rfl := Option.some.inj hd
        have hrest : documents.filter (·.uri != uri) = documents :=
          List.filter_eq_self.mpr fun x hx =>
            bne_iff_ne.mpr fun heq => hnew (List.mem_map.mpr ⟨x, hx, heq.trans he.symm⟩)
        rw [List.filter_cons_of_neg (by simp [he]), hrest]
      · rw [beq_eq_false_iff_ne.mpr he] at hd
        rw [List.filter_cons_of_pos (by simp [he])]
        exact ((ih hnodup hd).cons e).trans (List.Perm.swap ..)

/-- A session holds what its documents give on their own, and the index is that of the open
documents. -/
structure Tracks (o : BuildOptions) (contents : List Text)
    (standing : Text → Option (Text × Int)) (s : Session) : Prop where
  options : s.options = o
  document? : ∀ uri, s.document? uri = (standing uri).map fun e =>
    Document.fresh o uri e.1 e.2
  nodup : (s.documents.map (·.uri)).Nodup
  index : s.index.Perm (s.documents.flatMap Document.indexed)
  parsed : s.parsed.Sound contents

section Step

variable {o : BuildOptions} {contents : List Text} {standing standing' : Text →
  Option (Text × Int)}

/-- A document in place of the one of its URI leaves every URI with one document. -/
theorem nodup_put (h : (s.documents.map (·.uri)).Nodup) (d : Document) :
    ((s.put d).documents.map (·.uri)).Nodup := by
  refine List.nodup_cons.mpr ⟨fun hmem => ?_, h.sublist (List.filter_sublist.map _)⟩
  obtain ⟨e, he, heq⟩ := List.mem_map.mp hmem
  exact bne_iff_ne.mp (List.mem_filter.mp he).2 heq

theorem load_eq (h : s.Tracks o contents standing)
    (hdigest : CollisionFree (contents.map (keyedContent []))) (uri : Text) {content : Text}
    (hmem : content ∈ contents) (version : Int) :
    (s.load uri content version).1 = Document.fresh o uri content version ∧
      ∃ parsed : ParsedFiles, parsed.Sound contents ∧
        (s.load uri content version).2 = { s with parsed := parsed } := by
  obtain ⟨hparsed, hsound⟩ := ParsedFiles.parse_sound h.parsed hdigest (pathOfUri uri) hmem
  refine ⟨?_, _, hsound, rfl⟩
  unfold load Document.fresh BuildOptions.expandSource
  simp only [hparsed, h.options]

/-- What is open after a URI was given a content. -/
def gives (standing : Text → Option (Text × Int)) (uri content : Text) (version : Int)
    (other : Text) : Option (Text × Int) :=
  if uri = other then some (content, version) else standing other

theorem fresh_gives (o : BuildOptions) (standing : Text → Option (Text × Int))
    (uri content : Text) (version : Int) (other : Text) :
    (if uri = other then some (Document.fresh o uri content version)
      else (standing other).map fun e => Document.fresh o other e.1 e.2) =
    (gives standing uri content version other).map fun e =>
    Document.fresh o other e.1 e.2 := by
  unfold gives
  split
  · next h =>
      subst h
      rfl
  · rfl

theorem Tracks.set (h : s.Tracks o contents standing)
    (hdigest : CollisionFree (contents.map (keyedContent []))) (huri : uri ≠ [])
    (hmem : content ∈ contents) (version : Int) :
    ∃ t, s.set uri content version = .ok (Document.fresh o uri content version, t) ∧
      t.Tracks o contents (gives standing uri content version) := by
  obtain ⟨hd, parsed, hsound, hs⟩ := load_eq h hdigest uri hmem version
  unfold Session.set
  rw [if_neg (by simpa using huri)]
  dsimp only
  rw [hd, hs]
  refine ⟨_, rfl, h.options, fun other => ?_,
    nodup_put (s := { s with parsed := parsed }) h.nodup _, ?_, hsound⟩
  · rw [← fresh_gives, ← h.document?]
    exact document?_put { s with parsed := parsed } _ other
  · have hperm := h.index.filter (·.uri != uri)
    rw [forget_indexed] at hperm
    exact (hperm.append_right _).trans List.perm_append_comm

theorem Tracks.count (h : s.Tracks o contents standing) {was : Int}
    (hstanding : standing uri = some (content, was)) (version : Int) :
    (s.put (Document.fresh o uri content version)).Tracks o contents
      (gives standing uri content version) := by
  have hd : s.document? uri = some (Document.fresh o uri content was) := by
    rw [h.document?, hstanding]
    rfl
  refine ⟨h.options, fun other => ?_, nodup_put h.nodup _, ?_, h.parsed⟩
  · rw [← fresh_gives, ← h.document?]
    exact document?_put s _ other
  · exact h.index.trans ((documents_perm h.nodup hd).flatMap_right _)

theorem Tracks.close (h : s.Tracks o contents standing) (uri : Text) :
    (s.close uri).Tracks o contents fun other =>
    if uri = other then none else standing other := by
  refine ⟨h.options, fun other => ?_, h.nodup.sublist (List.filter_sublist.map _), ?_,
    ParsedFiles.forget_sound h.parsed _⟩
  · refine (find?_other s.documents uri other).trans ?_
    split
    · rfl
    · exact h.document? other
  · have hperm := h.index.filter (·.uri != uri)
    rw [forget_indexed] at hperm
    exact hperm

theorem call_empty (h : s.Tracks o contents standing) (hempty : standing [] = none)
    (content : Text) (version : Int) :
    s.call (.openDocument [] content) = .error .emptyUri ∧
      s.call (.update [] content version) = .error .emptyUri := by
  have hnone : s.document? [] = none := by rw [h.document?, hempty, Option.map_none]
  refine ⟨rfl, ?_⟩
  unfold call update
  simp only [hnone]
  rfl

/-- Closing what is not open leaves the documents and the index as they are. -/
theorem close_other (h : s.Tracks o contents standing) (hnone : standing uri = none) :
    (s.close uri).documents = s.documents ∧ (s.close uri).index = s.index := by
  have hd : ∀ d ∈ s.documents, d.uri ≠ uri := by
    have hnot := h.document? uri
    rw [hnone] at hnot
    exact fun d hd heq => List.find?_eq_none.mp hnot d hd (beq_iff_eq.mpr heq)
  refine ⟨List.filter_eq_self.mpr fun d hin => bne_iff_ne.mpr (hd d hin),
    List.filter_eq_self.mpr fun x hx => bne_iff_ne.mpr ?_⟩
  obtain ⟨d, hin, hx⟩ := List.mem_flatMap.mp (h.index.mem_iff.mp hx)
  obtain ⟨symbol, -, rfl⟩ := List.mem_map.mp hx
  exact hd d hin

/-- A content given under a URI, where the same content again only counts the version. -/
theorem Tracks.update (h : s.Tracks o contents standing)
    (hdigest : CollisionFree (contents.map (keyedContent []))) (huri : uri ≠ [])
    (hmem : content ∈ contents) (version : Int) :
    ∃ t, s.update uri content version = .ok (Document.fresh o uri content version, t) ∧
      t.Tracks o contents (gives standing uri content version) := by
  unfold Session.update
  have hd := h.document? uri
  cases hstanding : standing uri with
  | none =>
      rw [hstanding, Option.map_none] at hd
      simp only [hd]
      exact h.set hdigest huri hmem version
  | some e =>
      obtain ⟨old, was⟩ := e
      rw [hstanding, Option.map_some] at hd
      simp only [hd]
      split
      · next hsame =>
          obtain rfl : old = content := beq_iff_eq.mp hsame
          exact ⟨_, rfl, h.count hstanding version⟩
      · exact h.set hdigest huri hmem version

end Step

theorem Tracks.step {o : BuildOptions} {contents : List Text} {h : List SessionCall}
    (ht : s.Tracks o contents (SessionCall.standing h))
    (hdigest : CollisionFree (contents.map (keyedContent []))) (c : SessionCall)
    (hmem : ∀ content, c.content? = some content → content ∈ contents) :
    (s.step c).Tracks o contents (SessionCall.standing (h ++ [c])) := by
  have hgives (uri content : Text) (version : Int) (huri : uri ≠ []) (hc : c.uri = uri)
      (hleaves : c.leaves = some (content, version)) :
      SessionCall.standing (h ++ [c]) =
        gives (SessionCall.standing h) uri content version := by
    funext other
    rw [SessionCall.standing_concat, hc, hleaves]
    unfold gives
    by_cases heq : uri = other
    · rw [if_pos heq, if_pos ⟨heq, heq ▸ huri⟩]
    · rw [if_neg heq, if_neg fun hand => heq hand.1]
  have hempty (hc : c.uri = []) : SessionCall.standing (h ++ [c]) =
      SessionCall.standing h := by
    funext other
    rw [SessionCall.standing_concat, hc]
    exact if_neg fun hand => hand.2 hand.1.symm
  cases c with
  | openDocument uri content =>
      by_cases huri : uri = []
      · subst huri
        rw [hempty rfl]
        exact ht
      · obtain ⟨t, hset, ht'⟩ := ht.set hdigest huri (hmem content rfl) 1
        unfold Session.step call openDocument
        rw [hgives uri content 1 huri rfl rfl]
        simp only [hset]
        exact ht'
  | update uri content version =>
      by_cases huri : uri = []
      · subst huri
        unfold Session.step
        rw [hempty rfl, (call_empty ht (SessionCall.standing_nil h) content version).2]
        exact ht
      · obtain ⟨t, hset, ht'⟩ := ht.update hdigest huri (hmem content rfl) version
        unfold Session.step call
        rw [hgives uri content version huri rfl rfl]
        simp only [hset]
        exact ht'
  | close uri =>
      have hclose : SessionCall.standing (h ++ [.close uri]) =
          fun other => if uri = other then none else SessionCall.standing h other := by
        funext other
        rw [SessionCall.standing_concat]
        by_cases heq : uri = other
        · subst heq
          rw [if_pos rfl]
          split
          · rfl
          · next hnil =>
              obtain rfl : uri = [] := by
                by_contra hne
                exact hnil ⟨rfl, hne⟩
              rfl
        · rw [if_neg heq, if_neg fun hand => heq hand.1]
      rw [hclose]
      exact ht.close uri

theorem tracks_after (o : BuildOptions) (preview : Bool) {contents : List Text}
    (hdigest : CollisionFree (contents.map (keyedContent []))) {h : List SessionCall}
    (hmem : ∀ c ∈ h, ∀ content, c.content? = some content → content ∈ contents) :
    (after { options := o, preview := preview } h).Tracks o contents
    (SessionCall.standing h) := by
  induction h using List.reverseRecOn with
  | nil =>
      refine ⟨rfl, fun uri => ?_, List.nodup_nil, List.Perm.nil, fun e he => (nomatch he)⟩
      unfold SessionCall.standing
      split <;> rfl
  | append_singleton h c ih =>
      unfold after at ih ⊢
      rw [List.foldl_concat]
      refine (ih fun d hd => hmem d (List.mem_append_left _ hd)).step hdigest c ?_
      exact hmem c (List.mem_append_right _ List.mem_cons_self)

/-- What a session holds after any calls: of every URI what its last content gives on its
own, with the last version, and in the index the symbols of the open documents. A call
that gives an empty URI fails and changes nothing, and closing one leaves what is open as
it is. -/
theorem session_history (o : BuildOptions) (preview : Bool) (h : List SessionCall)
    (hdigest : CollisionFree ((h.filterMap SessionCall.content?).map (keyedContent []))) :
    let s := after { options := o, preview := preview } h
    (∀ uri, s.document? uri =
      (SessionCall.standing h uri).map fun e => Document.fresh o uri e.1 e.2) ∧
    (s.documents.map (·.uri)).Nodup ∧
    s.index.Perm (s.documents.flatMap Document.indexed) ∧
    (∀ content version,
      s.call (.openDocument [] content) = .error .emptyUri ∧
      s.call (.update [] content version) = .error .emptyUri ∧
      s.step (.openDocument [] content) = s ∧ s.step (.update [] content version) = s) ∧
    (s.close []).documents = s.documents ∧ (s.close []).index = s.index := by
  intro s
  have ht : s.Tracks o _ (SessionCall.standing h) := tracks_after o preview hdigest
    fun c hc content hcontent => List.mem_filterMap.mpr ⟨c, hc, hcontent⟩
  refine ⟨ht.document?, ht.nodup, ht.index, fun content version => ?_,
    close_other ht (SessionCall.standing_nil h)⟩
  obtain ⟨hopen, hupdate⟩ := call_empty ht (SessionCall.standing_nil h) content version
  exact ⟨hopen, hupdate, by rw [step, hopen]; rfl, by rw [step, hupdate]; rfl⟩

/-- Two URIs lead to one path; one document gets its old content again, the other is
closed. -/
def twoNames : List SessionCall :=
  [.openDocument "file:///a.rs" "struct A;", .openDocument "/a.rs" "struct B;",
    .update "file:///a.rs" "struct A;" 4, .close "/a.rs"]

theorem session_history_twoNames :
    CollisionFree ((twoNames.filterMap SessionCall.content?).map (keyedContent [])) ∧
      (after { options := { support := {} } } twoNames).document? "file:///a.rs" =
        some (Document.fresh { support := {} } "file:///a.rs" "struct A;" 4) ∧
      (after { options := { support := {} } } twoNames).document? "/a.rs" = none := by
  have hdigest : CollisionFree
      ((twoNames.filterMap SessionCall.content?).map (keyedContent [])) := by
    decide +kernel
  have h := (session_history { support := {} } true twoNames hdigest).1
  exact ⟨hdigest, h "file:///a.rs", h "/a.rs"⟩

/-- Not every call with an empty URI fails: closing it does nothing and succeeds. -/
theorem close_empty_succeeds :
    ¬∀ c : SessionCall, c.uri = [] →
      ∃ e, Session.call { options := { support := {} } } c = .error e := by
  intro h
  obtain ⟨e, he⟩ := h (.close []) rfl
  cases he

end Session

end Deriver

/-!
## The symbol at a position

Main statement: `Document.lookup_innermost`. Of the symbols whose range contains a
position a lookup finds an innermost one, and it finds one if there are any.

Ranges are compared by how many lines they go on for, then by how much further right they
end than they begin (`EditorRange.extent`). A range that goes on below may end further
left, so the second number may be negative; it is only looked at for ranges of as many
lines, and if one of these is inside the other, both begin on one line and end on one line.
-/

namespace Deriver

theorem EditorPosition.before_iff {p q : EditorPosition} :
    p.before q = true ↔ p.line < q.line ∨ p.line = q.line ∧ p.character < q.character := by
  simp [before]

namespace EditorRange

variable {a b : EditorRange} {p : EditorPosition}

/-! ### Ranges inside others -/

theorem contains_iff_not_before :
    a.contains p = true ↔ ¬p.before a.start = true ∧ ¬a.stop.before p = true := by
  simp [contains]

/-- Every position that is in a range is in another. -/
def Inside (a b : EditorRange) : Prop := ∀ p, a.contains p = true → b.contains p = true

/-- A range is inside another that has more positions. -/
def StrictlyInside (a b : EditorRange) : Prop := a.Inside b ∧ ¬b.Inside a

theorem contains_ends (h : a.contains p = true) :
    a.contains a.start = true ∧ a.contains a.stop = true := by
  simp only [contains_iff_not_before, EditorPosition.before_iff] at h ⊢
  omega

theorem inside_iff (h : a.contains p = true) :
    a.Inside b ↔ ¬a.start.before b.start = true ∧ ¬b.stop.before a.stop = true := by
  constructor
  · intro hinside
    obtain ⟨hstart, hstop⟩ := contains_ends h
    exact ⟨(contains_iff_not_before.mp (hinside _ hstart)).1,
      (contains_iff_not_before.mp (hinside _ hstop)).2⟩
  · rintro ⟨hstart, hstop⟩ q hq
    simp only [contains_iff_not_before, EditorPosition.before_iff] at hstart hstop hq ⊢
    omega

/-! ### How far ranges go -/

/-- How many lines further a range ends, and how many characters further right. -/
def extent (r : EditorRange) : ℕ ×ₗ ℤ :=
  toLex (r.stop.line - r.start.line, (r.stop.character : ℤ) - r.start.character)

theorem extent_lt_iff :
    a.extent < b.extent ↔ a.stop.line - a.start.line < b.stop.line - b.start.line ∨
      a.stop.line - a.start.line = b.stop.line - b.start.line ∧
        (a.stop.character : ℤ) - a.start.character < b.stop.character - b.start.character :=
  Prod.Lex.toLex_lt_toLex

theorem narrower_iff : a.narrower b = true ↔ a.extent < b.extent := by
  rw [extent_lt_iff, narrower]
  dsimp only
  split
  · next hlines => simp [hlines]
  · next hlines => simp [not_not.mp hlines]

/-- Of two ranges that contain a position, one strictly inside the other goes less far. -/
theorem StrictlyInside.extent_lt (h : a.StrictlyInside b) (hp : a.contains p = true) :
    a.extent < b.extent := by
  obtain ⟨hinside, houtside⟩ := h
  have hfurther := mt (inside_iff (hinside p hp)).mpr houtside
  obtain ⟨hstart, hstop⟩ := (inside_iff hp).mp hinside
  have hlines : a.start.line ≤ a.stop.line := by
    simp only [contains_iff_not_before, EditorPosition.before_iff] at hp
    omega
  simp only [EditorPosition.before_iff] at hstart hstop hfurther
  have hle : a.stop.line - a.start.line ≤ b.stop.line - b.start.line := by omega
  rw [extent_lt_iff]
  rcases Nat.lt_or_eq_of_le hle with hlt | heq
  · exact .inl hlt
  · -- both begin on one line and end on one line: what is left over is to the left or right
    have hfirst : a.start.line = b.start.line := by omega
    have hlast : a.stop.line = b.stop.line := by omega
    exact .inr ⟨heq, by omega⟩

end EditorRange

/-! ### Looking symbols up -/

namespace Symbol

variable {symbols : List Symbol} {p : EditorPosition} {s : Symbol}

theorem at?_eq_argmin (symbols : List Symbol) (p : EditorPosition) :
    at? symbols p = (symbols.filter (·.range.contains p)).argmin (·.range.extent) := by
  have hbetter : better = List.argAux fun x y => x.range.extent < y.range.extent := by
    funext best s
    cases best with
    | none => rfl
    | some b => simp only [better, List.argAux, EditorRange.narrower_iff]
  rw [at?, hbetter]
  rfl

theorem at?_eq_none_iff : at? symbols p = none ↔
    ∀ x ∈ symbols, x.range.contains p = false := by
  rw [at?_eq_argmin, List.argmin_eq_none, List.filter_eq_nil_iff]
  simp only [Bool.not_eq_true]

theorem mem_of_at? (h : at? symbols p = some s) :
    s ∈ symbols ∧ s.range.contains p = true := by
  rw [at?_eq_argmin] at h
  exact List.mem_filter.mp (List.argmin_mem h)

/-- No symbol that contains the position goes less far than the one found. -/
theorem extent_le_of_at? (h : at? symbols p = some s) {x : Symbol} (hx : x ∈ symbols)
    (hp : x.range.contains p = true) : s.range.extent ≤ x.range.extent := by
  rw [at?_eq_argmin] at h
  have hmem : x ∈ symbols.filter (·.range.contains p) := List.mem_filter.mpr ⟨hx, hp⟩
  exact List.le_of_mem_argmin (f := fun y : Symbol => y.range.extent) hmem h

/-- A symbol is found at a position if the range of some symbol contains it. -/
theorem at?_cases (symbols : List Symbol) (p : EditorPosition) :
    (at? symbols p = none ∧ ∀ x ∈ symbols, x.range.contains p = false) ∨
      ∃ x ∈ symbols, x.range.contains p = true ∧ at? symbols p = some x := by
  cases h : at? symbols p with
  | none => exact .inl ⟨rfl, at?_eq_none_iff.mp h⟩
  | some x =>
      obtain ⟨hmem, hin⟩ := mem_of_at? h
      exact .inr ⟨x, hmem, hin, rfl⟩

end Symbol

/-- A lookup finds nothing just when no symbol of the document contains the position. What
it finds is a symbol that does, and no other one that does lies strictly inside. -/
theorem Document.lookup_innermost (d : Document) (p : EditorPosition) :
    (Symbol.at? d.symbols p = none ↔ ∀ x ∈ d.symbols, x.range.contains p = false) ∧
      ∀ s, Symbol.at? d.symbols p = some s →
        s ∈ d.symbols ∧ s.range.contains p = true ∧
          ∀ x ∈ d.symbols, x.range.contains p = true → ¬x.range.StrictlyInside s.range := by
  refine ⟨Symbol.at?_eq_none_iff, fun s hs => ?_⟩
  obtain ⟨hmem, hin⟩ := Symbol.mem_of_at? hs
  refine ⟨hmem, hin, fun x hx hp hinside => ?_⟩
  exact not_lt_of_ge (Symbol.extent_le_of_at? hs hx hp) (hinside.extent_lt hp)

/-- In a struct on several lines its field is found, which is strictly inside. -/
theorem Document.lookup_innermost_field :
    let d := Document.fresh { support := {} } "file:///a.rs"
      "struct S \x7b\n    name: T,\n\x7d" 1
    ∃ field ∈ d.symbols, ∃ decl ∈ d.symbols,
      Symbol.at? d.symbols ⟨1, 6⟩ = some field ∧ decl.range.contains ⟨1, 6⟩ = true ∧
        field.range.StrictlyInside decl.range ∧ ¬decl.range.StrictlyInside field.range := by
  intro d
  let field : Symbol := ⟨"name", .field, ⟨⟨1, 4⟩, ⟨1, 8⟩⟩, "T", "S", []⟩
  let decl : Symbol := ⟨"S", .struct, ⟨⟨0, 0⟩, ⟨2, 1⟩⟩, "S", [], "struct"⟩
  have hsymbols : d.symbols = [decl, field] := by decide +kernel
  have hfound : Symbol.at? d.symbols ⟨1, 6⟩ = some field := by rw [hsymbols]; decide +kernel
  have hdecl : decl ∈ d.symbols := by simp [hsymbols]
  have hcontains : decl.range.contains ⟨1, 6⟩ = true := by decide
  obtain ⟨hfield, hin, hinnermost⟩ := (lookup_innermost d ⟨1, 6⟩).2 field hfound
  refine ⟨field, hfield, decl, hdecl, hfound, hcontains, ⟨?_, ?_⟩,
    hinnermost decl hdecl hcontains⟩
  · rw [EditorRange.inside_iff hin]
    decide
  · rw [EditorRange.inside_iff hcontains]
    decide

end Deriver
