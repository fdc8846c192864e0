import Deriver.Proofs.Build.Compose
import Deriver.Proofs.Build.Outputs
import Deriver.Proofs.Derive.Severity

/-!
# Runs that remember

Main statement: `trace_uncached`. Whatever becomes of the files and of what is stored
between the runs of a history, every run answers and leaves the files as it would if
nothing had been remembered.

An entry stands for a name and a content, which its key determines as long as no two of
the texts that are digested have one digest. Two things make such an entry as good as
the expansion it was taken from. Only an expansion that says nothing is stored, so a
result from the cache has nothing to report either; and of the path of a source its
generated code shows no more than the last component, which is part of the key. What a
result is saved from is the same from then on.
-/

namespace Deriver

open FileName (base)

/-! ## What is worth remembering -/

theorem severity_withSource (d : Diagnostic) (lines : List Text) :
    (d.withSource lines).severity = d.severity := by
  unfold Diagnostic.withSource
  dsimp only
  split <;> rfl

/-- A content that expands without anything to report. -/
structure Silent (support : Support) (content : Text) : Prop where
  parses : (parse content).errors = []
  expands : ((parse content).file.expand support).flatMap (·.diagnostics) = []

namespace BuildOptions

variable {o o' : BuildOptions} {path path' content : Text}

theorem severity_expandSource :
    ∀ d ∈ (o.expandSource path content).diagnostics, d.severity = .error ∨
    d.severity = .warning := by
  intro d hd
  obtain ⟨raw, file, hmade, rfl⟩ := o.raised_expandSource path content d hd
  rw [severity_withSource]
  exact hmade.imp Diagnostic.Made.severity Diagnostic.Made.severity

theorem diagnostics_eq_nil_iff :
    (o.expandSource path content).diagnostics = [] ↔ Silent o.support content := by
  by_cases hparses : (parse content).errors = []
  · rw [← List.map_eq_nil_iff (f := Diagnostic.bare), diagnostics_of_clean o path hparses,
      Diagnostic.stampFile, List.map_eq_nil_iff, List.map_eq_nil_iff]
    exact ⟨fun h => ⟨hparses, h⟩, fun h => h.expands⟩
  · refine ⟨fun h => absurd h ?_, fun h => absurd h.parses hparses⟩
    rw [expandSource, expandParsed, if_neg (by simpa using hparses)]
    simpa [placeDiagnostics, Diagnostic.stampFile] using hparses

theorem isClean_expandSource :
    isClean (o.expandSource path content) = true ↔ Silent o.support content := by
  rw [← diagnostics_eq_nil_iff, isClean, List.all_eq_true]
  constructor
  · intro h
    rw [List.eq_nil_iff_forall_not_mem]
    intro d hd
    rcases severity_expandSource d hd with hs | hs
    · simpa [hs] using h d hd
    · simpa [hs] using h d hd
  · intro h
    rw [h]
    exact List.forall_mem_nil _

theorem output_congr (hsilent : Silent o.support content)
    (hsupport : o'.support = o.support) (hbase : base path' = base path) :
    (o'.expandSource path' content).output = (o.expandSource path content).output := by
  rw [output_of_clean o' path' hsilent.parses,
    output_of_clean o path hsilent.parses, hsupport,
    generatedFile, generatedFile, generatedTop, generatedTop, hbase]

end BuildOptions

/-! ## Keys -/

/-- Whether no two of the texts have one digest. -/
def CollisionFree (texts : List Text) : Prop :=
  ∀ a ∈ texts, ∀ b ∈ texts, Sha256.digest a = Sha256.digest b → a = b

instance (texts : List Text) : Decidable (CollisionFree texts) :=
  inferInstanceAs (Decidable (∀ a ∈ texts, ∀ b ∈ texts, _))

theorem append_zero_inj {a b v w : Text} (ha : 0 ∉ a) (hb : 0 ∉ b)
    (h : a ++ 0 :: v = b ++ 0 :: w) : a = b ∧ v = w := by
  induction a generalizing b with
  | nil =>
      cases b with
      | nil => exact ⟨rfl, (List.cons.inj h).2⟩
      | cons c b =>
          exact absurd (List.cons.inj h).1 fun hc => hb (hc ▸ List.mem_cons_self ..)
  | cons c a ih =>
      cases b with
      | nil => exact absurd (List.cons.inj h).1 fun hc => ha (hc ▸ List.mem_cons_self ..)
      | cons c' b =>
          obtain ⟨hc, hrest⟩ := List.cons.inj h
          obtain ⟨hab, hvw⟩ := ih (fun h => ha (List.mem_cons_of_mem c h))
            (fun h => hb (List.mem_cons_of_mem c' h)) hrest
          exact ⟨hc ▸ hab ▸ rfl, hvw⟩

theorem not_mem_base {name : Text} (h : 0 ∉ name) : 0 ∉ base name := by
  unfold base
  dsimp only
  split
  · decide
  · split
    · decide
    · intro hmem
      have hmem := (List.takeWhile_sublist _).mem (List.mem_reverse.mp hmem)
      exact h (List.mem_reverse.mp ((List.dropWhile_sublist _).mem
        (List.mem_reverse.mp (List.mem_reverse.mp hmem))))

namespace BuildOptions

/-- What the digest of a source is taken of. -/
def digested (o : BuildOptions) (path content : Text) : Text :=
  keyedContent o.salt (base path ++ 0 :: content)

/-- The two share what shapes generated code. -/
structure Shares (o o' : BuildOptions) : Prop where
  support : o.support = o'.support
  salt : o.salt = o'.salt

variable {o o' : BuildOptions} {path path' content content' : Text}

theorem digested_inj (h : 0 ∉ base path) (h' : 0 ∉ base path')
    (heq : o.digested path content = o.digested path' content') :
    base path = base path' ∧ content = content' := by
  unfold digested keyedContent at heq
  rw [List.append_assoc, List.append_assoc] at heq
  have heq := (List.cons.inj (List.append_cancel_left heq)).2
  exact append_zero_inj h h' (List.cons.inj (List.append_cancel_left heq)).2

end BuildOptions

/-! ## What the entries of a cache are worth -/

section Sound

variable {o o' : BuildOptions} {texts : List Text}

/-- An entry that holds what a silent source expands to, under the key of the source. -/
def Remembers (o : BuildOptions) (texts : List Text) (mark : Text) (e : Text × Stored) :
    Prop :=
  ∃ path content, 0 ∉ base path ∧ o.digested path content ∈ texts ∧
    Silent o.support content ∧
    e.1 = mark ++ o.cacheKey path content ∧ e.2.value = (o.expandSource path content).output

/-- A cache whose entries are all worth what they stand for. -/
inductive Cache.Sound (o : BuildOptions) (texts : List Text) : Cache → Prop where
  | memory {store : MemoryStore} (h : ∀ e ∈ store.entries, Remembers o texts store.mark e) :
      Sound o texts (.memory store)
  | none : Sound o texts .none

namespace Cache

variable {c : Cache} {m : Moment}

theorem Sound.erase {store : MemoryStore} (h : Sound o texts (.memory store)) (key : Text) :
    Sound o texts (.memory (store.erase key)) := by
  cases h with
  | memory h => exact .memory fun e he => h e (List.mem_of_mem_filter he)

theorem Sound.lookup (h : c.Sound o texts) (m : Moment) (key : Text) :
    (c.lookup m key).2.Sound o texts := by
  cases h with
  | none => exact .none
  | @memory store h =>
      unfold Cache.lookup Cache.get
      dsimp only
      by_cases hcancelled : m.cancelled = true
      · rw [if_pos hcancelled]
        exact .memory h
      · rw [if_neg hcancelled]
        unfold MemoryStore.get
        cases store.entry? key with
        | none => exact .memory h
        | some s =>
            by_cases hexpired : s.expired m.now = true
            · simp only [hexpired, if_true]
              exact (Sound.memory h).erase key
            · simp only [hexpired]
              exact .memory h

theorem mem_of_lookup {key value : Text} {c' : Cache}
    (h : c.lookup m key = (some value, c')) :
    ∃ store s, c = .memory store ∧ (store.mark ++ key, s) ∈ store.entries ∧
    s.value = value := by
  cases c with
  | none => cases h
  | memory store =>
      unfold Cache.lookup Cache.get at h
      dsimp only at h
      by_cases hcancelled : m.cancelled = true
      · rw [if_pos hcancelled] at h
        cases h
      · rw [if_neg hcancelled] at h
        unfold MemoryStore.get at h
        cases hentry : store.entry? key with
        | none => rw [hentry] at h; cases h
        | some s =>
            simp only [hentry] at h
            by_cases hexpired : s.expired m.now = true
            · rw [if_pos hexpired] at h
              cases h
            · rw [if_neg hexpired] at h
              obtain ⟨pre, k, hk⟩ := List.lookup_eq_some_iff.mp hentry
              refine ⟨store, s, rfl, ?_, ?_⟩
              · rw [hk.1]
                exact List.mem_append_right _ (List.mem_cons_self ..)
              · cases h
                rfl

theorem Sound.store {path content : Text} (h : c.Sound o texts) (m : Moment)
    (hbase : 0 ∉ base path) (hmem : o.digested path content ∈ texts)
    (hsilent : Silent o.support content) :
    (c.store m (o.cacheKey path content) (o.expandSource path content).output).Sound o
    texts := by
  cases h with
  | none => exact .none
  | @memory store h =>
      unfold Cache.store Cache.set Cache.change
      dsimp only
      by_cases hcancelled : m.cancelled = true
      · rw [if_pos hcancelled]
        exact .memory h
      · rw [if_neg hcancelled]
        refine .memory fun e he => ?_
        rcases List.mem_cons.mp he with rfl | he
        · exact ⟨path, content, hbase, hmem, hsilent, rfl, rfl⟩
        · exact h e (List.mem_of_mem_filter he)

/-- A cache that has lost entries. -/
def keeping (kept : Text × Stored → Bool) : Cache → Cache
  | .memory store => .memory { store with entries := store.entries.filter kept }
  | .none => .none

theorem Sound.keeping (h : c.Sound o texts) (kept : Text × Stored → Bool) :
    (c.keeping kept).Sound o texts := by
  cases h with
  | none => exact .none
  | memory h => exact .memory fun e he => h e (List.mem_of_mem_filter he)

end Cache

theorem Cache.Sound.output_eq {c c' : Cache} {m : Moment} {path content output : Text}
    (h : c.Sound o texts) (htexts : CollisionFree texts) (ho : o'.Shares o)
    (hbase : 0 ∉ base path) (hmem : o'.digested path content ∈ texts)
    (hfound : c.lookup m (o'.cacheKey path content) = (some output, c')) :
    (o'.expandSource path content).output = output ∧
      (o'.expandSource path content).diagnostics = [] := by
  obtain ⟨store, s, rfl, hentry, rfl⟩ := mem_of_lookup hfound
  cases h with
  | memory h =>
      obtain ⟨path₀, content₀, hbase₀, hmem₀, hsilent, hkey, hvalue⟩ := h _ hentry
      have hsame : o'.digested path content = o.digested path content := by
        rw [BuildOptions.digested, BuildOptions.digested, ho.salt]
      have hkey := htexts _ hmem _ hmem₀ (List.append_cancel_left hkey)
      obtain ⟨hpath, rfl⟩ := BuildOptions.digested_inj hbase hbase₀ (hsame ▸ hkey)
      rw [BuildOptions.diagnostics_eq_nil_iff, ho.support]
      exact ⟨(BuildOptions.output_congr hsilent ho.support hpath).trans hvalue.symm,
        hsilent⟩

end Sound

/-! ## One file -/

/-- What a result says, wherever its output comes from. -/
def FileResult.plain (r : FileResult) : FileResult :=
  { r with decls := [], cached := false }

namespace BuildOptions

section File

variable {o o' : BuildOptions} {m : Moment} {path : Text} {s : BuildState}
  {texts : List Text}

theorem save_plain (o : BuildOptions) (r : FileResult) (t : FileTree) :
    o.save r.plain t = ((o.save r t).1.plain, (o.save r t).2) := by
  have houtput : r.plain.output = r.output := rfl
  have hpath : r.plain.outputPath = r.outputPath := rfl
  have hfailed : r.plain.failed = r.failed := rfl
  have hstore : store r.plain t = store r t := rfl
  unfold save
  rw [houtput, hpath, hfailed, hstore]
  by_cases hdry : o.dryRun = true
  · rw [if_pos hdry, if_pos hdry]
  · rw [if_neg hdry, if_neg hdry]
    by_cases hempty : r.output.isEmpty = true
    · rw [if_pos hempty, if_pos hempty]
      split <;> rfl
    · rw [if_neg hempty, if_neg hempty]
      by_cases hsame : ((t.read r.outputPath).toOption == some r.output) = true
      · rw [if_pos hsame, if_pos hsame]
      · rw [if_neg hsame, if_neg hsame]
        cases store r t <;> rfl

theorem save_congr (o : BuildOptions) {r r' : FileResult} (h : r.plain = r'.plain)
    (t : FileTree) :
    (o.save r t).1.plain = (o.save r' t).1.plain ∧ (o.save r t).2 = (o.save r' t).2 :=
  Prod.mk.inj (by rw [← save_plain, ← save_plain, h])

/-- The texts that are digested for a file. -/
def asked (o : BuildOptions) (path : Text) (t : FileTree) : List Text :=
  match t.read path with
  | .ok content => [o.digested path content]
  | .error _ => []

theorem runFile_none (o : BuildOptions) (m : Moment) {t : FileTree} {content : Text}
    (h : t.read path = .ok content) :
    o.runFile m path ⟨t, .none⟩ =
      ((o.save (o.expandSource path content) t).1,
        ⟨(o.save (o.expandSource path content) t).2, .none⟩) := by
  unfold runFile
  rw [h]
  dsimp only [Cache.lookup, Cache.get]
  split <;> rfl

theorem path_expandSource (o : BuildOptions) (path content : Text) :
    (o.expandSource path content).path = path := by
  unfold expandSource expandParsed
  dsimp only
  split <;> rfl

theorem written_expandSource (o : BuildOptions) (path content : Text) :
    (o.expandSource path content).written = false := by
  unfold expandSource expandParsed
  dsimp only
  split <;> rfl

/-- The result that is saved for a file, and the cache afterwards, are as good as what
its content expands to. -/
theorem runFile_remembers (hs : s.cache.Sound o texts) (htexts : CollisionFree texts)
    (ho : o'.Shares o) {content : Text} (hread : s.files.read path = .ok content)
    (hasked : o'.digested path content ∈ texts) (m : Moment) :
    ∃ r cache, o'.runFile m path s =
    ((o'.save r s.files).1, ⟨(o'.save r s.files).2, cache⟩) ∧
      r.plain = (o'.expandSource path content).plain ∧ cache.Sound o texts := by
  have hbase : 0 ∉ base path :=
    not_mem_base ((FileTree.read_eq_ok_iff.mp hread).1.2)
  have hlookup := hs.lookup m (o'.cacheKey path content)
  unfold runFile
  rw [hread]
  dsimp only
  generalize hfound : s.cache.lookup m (o'.cacheKey path content) = found at hlookup ⊢
  obtain ⟨output, cache⟩ := found
  cases output with
  | some output =>
      obtain ⟨houtput, hsilent⟩ := hs.output_eq htexts ho hbase hasked hfound
      refine ⟨_, cache, rfl, ?_, hlookup⟩
      rw [FileResult.plain, FileResult.plain, houtput, hsilent, outputPath_expandSource,
        path_expandSource, written_expandSource]
  | none =>
      refine ⟨_, _, rfl, rfl, ?_⟩
      dsimp only at hlookup ⊢
      split
      · next hclean =>
          have hsilent := ho.support ▸ isClean_expandSource.mp hclean
          have hsame : o'.cacheKey path content = o.cacheKey path content := by
            rw [cacheKey, cacheKey, ho.salt]
          have hmem : o.digested path content ∈ texts := by
            rwa [digested, ← ho.salt]
          rw [hsame, output_congr hsilent ho.support rfl]
          exact hlookup.store m hbase hmem hsilent
      · exact hlookup

theorem runFile_uncached (hs : s.cache.Sound o texts) (htexts : CollisionFree texts)
    (ho : o'.Shares o) (hasked : ∀ x ∈ o'.asked path s.files, x ∈ texts) (m : Moment) :
    (o'.runFile m path s).1.plain = (o'.runFile m path ⟨s.files, .none⟩).1.plain ∧
      (o'.runFile m path s).2.files = (o'.runFile m path ⟨s.files, .none⟩).2.files ∧
      (o'.runFile m path s).2.cache.Sound o texts := by
  cases hread : s.files.read path with
  | error e =>
      unfold runFile
      rw [hread]
      exact ⟨rfl, rfl, hs⟩
  | ok content =>
      have hmem : o'.digested path content ∈ texts := by
        refine hasked _ ?_
        rw [asked, hread]
        exact List.mem_singleton_self _
      obtain ⟨r, cache, hrun, hr, hcache⟩ := runFile_remembers hs htexts ho hread hmem m
      rw [hrun, runFile_none o' m hread]
      exact ⟨(save_congr o' hr s.files).1, (save_congr o' hr s.files).2, hcache⟩

end File

/-! ## Runs -/

/-- The texts that are digested for files. -/
def askedFiles (o : BuildOptions) (m : Moment) : List Text → FileTree → List Text
  | [], _ => []
  | path :: rest, t =>
      o.asked path t ++ o.askedFiles m rest (o.runFile m path ⟨t, .none⟩).2.files

variable {o o' : BuildOptions} {texts : List Text}

theorem runFiles_cons (o : BuildOptions) (m : Moment) (path : Text) (paths : List Text)
    (s : BuildState) : o.runFiles m (path :: paths) s =
      ((o.runFile m path s).1 :: (o.runFiles m paths (o.runFile m path s).2).1,
        (o.runFiles m paths (o.runFile m path s).2).2) := rfl

theorem state_runFile_none (o : BuildOptions) (m : Moment) (path : Text) (t : FileTree) :
    (o.runFile m path ⟨t, .none⟩).2 = ⟨(o.runFile m path ⟨t, .none⟩).2.files, .none⟩ := by
  cases hread : t.read path with
  | error e =>
      unfold runFile
      rw [hread]
  | ok content => rw [runFile_none o m hread]

theorem runFiles_uncached (htexts : CollisionFree texts) (ho : o'.Shares o) (m : Moment)
    (paths : List Text) {s : BuildState} (hs : s.cache.Sound o texts)
    (hasked : ∀ x ∈ o'.askedFiles m paths s.files, x ∈ texts) :
    (o'.runFiles m paths s).1.map FileResult.plain =
        (o'.runFiles m paths ⟨s.files, .none⟩).1.map FileResult.plain ∧
      (o'.runFiles m paths s).2.files = (o'.runFiles m paths ⟨s.files, .none⟩).2.files ∧
      (o'.runFiles m paths s).2.cache.Sound o texts := by
  induction paths generalizing s with
  | nil => exact ⟨rfl, rfl, hs⟩
  | cons path paths ih =>
      obtain ⟨hresult, hfiles, hcache⟩ := runFile_uncached hs htexts ho
        (fun x hx => hasked x (List.mem_append_left _ hx)) m
      obtain ⟨hresults, hrest⟩ := ih hcache fun x hx =>
        hasked x (List.mem_append_right _ (hfiles ▸ hx))
      rw [runFiles_cons, runFiles_cons, state_runFile_none, ← hfiles]
      exact ⟨List.cons_eq_cons.mpr ⟨hresult, hresults⟩, hrest⟩

/-- The texts that are digested for a run. -/
def askedRun (o : BuildOptions) (m : Moment) (paths : List Text) (t : FileTree) :
    List Text :=
  if m.cancelled then [] else o.askedFiles m paths t

end BuildOptions

/-- What a run answers, wherever its outputs come from. -/
def plainAnswer (answer : Except Text Report) : Except Text (List FileResult) :=
  answer.map fun r => r.files.map FileResult.plain

namespace BuildOptions

variable {o o' : BuildOptions} {texts : List Text}

theorem run_uncached (htexts : CollisionFree texts) (ho : o'.Shares o) (m : Moment)
    (paths : List Text) {s : BuildState} (hs : s.cache.Sound o texts)
    (hasked : ∀ x ∈ o'.askedRun m paths s.files, x ∈ texts) :
    plainAnswer (o'.run m paths s).1 = plainAnswer (o'.run m paths ⟨s.files, .none⟩).1 ∧
      (o'.run m paths s).2.files = (o'.run m paths ⟨s.files, .none⟩).2.files ∧
      (o'.run m paths s).2.cache.Sound o texts := by
  cases paths with
  | nil =>
      unfold run
      rw [List.isEmpty_nil, Bool.not_true, Bool.and_false]
      exact ⟨rfl, rfl, hs⟩
  | cons path paths =>
      unfold run
      by_cases hcancelled : m.cancelled = true
      · rw [if_pos (by simpa using hcancelled), if_pos (by simpa using hcancelled)]
        exact ⟨rfl, rfl, hs⟩
      · rw [if_neg (by simpa using hcancelled), if_neg (by simpa using hcancelled)]
        rw [askedRun, if_neg hcancelled] at hasked
        obtain ⟨hresults, hrest⟩ := runFiles_uncached htexts ho m (path :: paths) hs hasked
        exact ⟨congrArg Except.ok hresults, hrest⟩

theorem state_run_none (o : BuildOptions) (m : Moment) (paths : List Text) (t : FileTree) :
    (o.run m paths ⟨t, .none⟩).2 = ⟨(o.run m paths ⟨t, .none⟩).2.files, .none⟩ := by
  have hfiles (t : FileTree) : (o.runFiles m paths ⟨t, .none⟩).2 =
      ⟨(o.runFiles m paths ⟨t, .none⟩).2.files, .none⟩ := by
    induction paths generalizing t with
    | nil => rfl
    | cons path paths ih =>
        rw [runFiles_cons, state_runFile_none]
        exact ih _
  unfold run
  split
  · rfl
  · exact hfiles t

end BuildOptions

/-! ## Histories -/

/-- What can happen to a project and its cache. -/
inductive Incident where
  /-- The files are changed by somebody else. -/
  | change (f : FileTree → FileTree)
  /-- Entries of the cache are lost. -/
  | lose (kept : Text × Stored → Bool)
  | run (o : BuildOptions) (m : Moment) (paths : List Text)

/-- Runs share what shapes generated code with `o`. -/
def Incident.Shares (o : BuildOptions) : Incident → Prop
  | .run o' _ _ => o'.Shares o
  | _ => True

/-- What the runs of a history answer, each with the files it leaves. -/
def trace : List Incident → BuildState → List (Except Text Report × FileTree)
  | [], _ => []
  | .change f :: rest, s => trace rest { s with files := f s.files }
  | .lose kept :: rest, s => trace rest { s with cache := s.cache.keeping kept }
  | .run o m paths :: rest, s =>
      ((o.run m paths s).1, (o.run m paths s).2.files) :: trace rest (o.run m paths s).2

/-- The texts that are digested in a history. -/
def askedIn : List Incident → FileTree → List Text
  | [], _ => []
  | .change f :: rest, t => askedIn rest (f t)
  | .lose _ :: rest, t => askedIn rest t
  | .run o m paths :: rest, t =>
      o.askedRun m paths t ++ askedIn rest (o.run m paths ⟨t, .none⟩).2.files

variable {o : BuildOptions} {texts : List Text} in
/-- The step of `trace_uncached`: a history goes on in the same way from any two states
with the same files whose caches are worth what they stand for. -/
theorem trace_sound (htexts : CollisionFree texts) (history : List Incident)
    (ho : ∀ h ∈ history, h.Shares o) {s : BuildState} (hs : s.cache.Sound o texts)
    (hasked : ∀ x ∈ askedIn history s.files, x ∈ texts) :
    (trace history s).map (Prod.map plainAnswer id) =
      (trace history ⟨s.files, .none⟩).map (Prod.map plainAnswer id) := by
  induction history generalizing s with
  | nil => rfl
  | cons h history ih =>
      have ho' : ∀ h ∈ history, h.Shares o := fun h hh => ho h (List.mem_cons_of_mem _ hh)
      cases h with
      | change f => exact ih ho' (s := ⟨f s.files, s.cache⟩) hs hasked
      | lose kept =>
          exact ih ho' (s := ⟨s.files, s.cache.keeping kept⟩) (hs.keeping kept) hasked
      | run o' m paths =>
          obtain ⟨hanswer, hfiles, hcache⟩ := BuildOptions.run_uncached htexts
            (ho _ (List.mem_cons_self ..)) m paths hs
            fun x hx => hasked x (List.mem_append_left _ hx)
          have hrest :=
            ih ho' hcache fun x hx => hasked x (List.mem_append_right _ (hfiles ▸ hx))
          rw [trace, trace, List.map_cons, List.map_cons, hrest,
            BuildOptions.state_run_none, Prod.map_apply, Prod.map_apply, hanswer, hfiles]

/-- Runs that share a cache in memory answer, and leave the files, as runs that remember
nothing, if no two of the texts that are digested have one digest. Between the runs the
files may be changed in any way and any entries may be lost; the clock may show
anything, and entries expire as it says. -/
theorem trace_uncached (o : BuildOptions) (history : List Incident)
    (ho : ∀ h ∈ history, h.Shares o) (t : FileTree) (mark : Text) (keep : Int)
    (hdigest : CollisionFree (askedIn history t)) :
    (trace history ⟨t, .memory { mark := mark, keep := keep }⟩).map
    (Prod.map plainAnswer id) =
      (trace history ⟨t, .none⟩).map (Prod.map plainAnswer id) :=
  trace_sound hdigest history ho (.memory (List.forall_mem_nil _)) fun _ hx => hx

/-- One source in two directories. -/
def copies : FileTree := FileTree.ofFiles ["p"]
  [("a/x.rs", "#[derive(Default)] struct A;"), ("b/x.rs", "#[derive(Default)] struct A;")]

/-- Both copies are expanded; one is changed and expanded again. -/
def revision : List Incident :=
  [.run { support := {} } {} ["a/x.rs", "b/x.rs"],
    .change fun t => (t.write "a/x.rs" "struct A;").toOption.getD t,
    .run { support := {} } { now := 1 } ["a/x.rs", "b/x.rs"]]

/-- The second copy comes from the cache, and after the change the first does not. -/
theorem trace_uncached_copies :
    CollisionFree (askedIn revision copies) ∧
      (trace revision ⟨copies, .memory {}⟩).map (fun answer =>
        answer.1.toOption.map fun r => r.files.map (·.cached)) =
          [some [false, true], some [false, true]] ∧
      (trace revision ⟨copies, .memory {}⟩).map (Prod.map plainAnswer id) =
        (trace revision ⟨copies, .none⟩).map (Prod.map plainAnswer id) := by
  have hdigest : CollisionFree (askedIn revision copies) := by decide +kernel
  refine ⟨hdigest, by decide +kernel,
    trace_uncached { support := {} } revision ?_ copies [] 0 hdigest⟩
  simp only [revision, List.forall_mem_cons]
  exact ⟨⟨rfl, rfl⟩, trivial, ⟨rfl, rfl⟩, List.forall_mem_nil _⟩

end Deriver
