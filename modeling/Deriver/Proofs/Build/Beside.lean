import Deriver.Proofs.Build.Cached
import Deriver.Proofs.Files.Content

/-!
# Saving next to the source

Main statements: `runFile_beside` and `answer_again`. A generated file that goes next to its
source goes to a directory that is there. So what is done for it is settled by what is found
in its place, and whether anything is below that if it is a directory: `answered` says what
is reported, and `left` what stands there afterwards. What was left is found the next time,
and is left again.
-/

namespace Deriver

open FileName (lead way trail Direct moves last dir Proper mem_trail)

namespace FileName

variable {name : Text}

/-- The directory of a name that the system can know is one it can know. -/
theorem valid_dir (h : FileTree.Valid name) : FileTree.Valid (dir name) := by
  obtain ⟨-, hparts⟩ := FileTree.valid_iff.mp h
  obtain ⟨ps, hps⟩ := parts_last name
  refine FileTree.valid_clean fun part hpart => ?_
  have hmem := mem_parts_of_mem_stackOf hpart
  rw [← front, parts_front hps, List.mem_append, List.mem_singleton] at hmem
  rcases hmem with hmem | rfl
  · exact hparts part (hps ▸ List.mem_append_left _ hmem)
  · exact ⟨List.not_mem_nil, Nat.zero_le _⟩

end FileName

/-! ## What stands at a place -/

namespace FileTree

variable {t : FileTree} {p q : Place} {e : Option Entry} {name : Text}

/-- What a name leads to, if it is let through. -/
def look (t : FileTree) (name : Text) : Except FileFault (Option Entry) :=
  (t.resolve name).map t.at?

/-- The tree with something or nothing at a place; no other tree if that is so already. -/
def set (t : FileTree) (p : Place) (e : Option Entry) : FileTree :=
  if t.at? p = e then t
  else match e with
    | none => t.without p
    | some e => t.put p e

theorem set_at? (t : FileTree) (p : Place) : t.set p (t.at? p) = t := if_pos rfl

theorem set_cases (t : FileTree) (p : Place) (e : Option Entry) :
    t.set p e = t ∧ t.at? p = e ∨ e = none ∧ t.set p e = t.without p ∨
      ∃ e', e = some e' ∧ t.set p e = t.put p e' := by
  unfold set
  by_cases h : t.at? p = e
  · exact Or.inl ⟨if_pos h, h⟩
  · rw [if_neg h]
    cases e with
    | none => exact Or.inr (Or.inl ⟨rfl, rfl⟩)
    | some e => exact Or.inr (Or.inr ⟨e, rfl, rfl⟩)

theorem set_cwd (t : FileTree) (p : Place) (e : Option Entry) :
    (t.set p e).cwd = t.cwd := by
  rcases set_cases t p e with ⟨h, -⟩ | ⟨-, h⟩ | ⟨e', -, h⟩
  · rw [h]
  · rw [h]
    rfl
  · rw [h]
    rfl

theorem at?_set_self (hp : p ≠ []) : (t.set p e).at? p = e := by
  rcases set_cases t p e with ⟨h, he⟩ | ⟨he, h⟩ | ⟨e', he, h⟩
  · rw [h, he]
  · rw [h, he, at?_without_self hp]
  · rw [h, he, at?_put_self hp]

theorem at?_set (hq : q ≠ p) : (t.set p e).at? q = t.at? q := by
  rcases set_cases t p e with ⟨h, -⟩ | ⟨-, h⟩ | ⟨e', -, h⟩
  · rw [h]
  · rw [h, at?_without hq]
  · rw [h, at?_put hq]

theorem mem_set {x : Entry} (hq : q ≠ p) :
    (q, x) ∈ (t.set p e).entries ↔ (q, x) ∈ t.entries := by
  have hwithout : (q, x) ∈ (t.without p).entries ↔ (q, x) ∈ t.entries := by
    rw [without, List.mem_filter]
    exact and_iff_left (bne_iff_ne.mpr hq)
  rcases set_cases t p e with ⟨h, -⟩ | ⟨-, h⟩ | ⟨e', -, h⟩
  · rw [h]
  · rw [h, hwithout]
  · rw [h, put, List.mem_append, hwithout, List.mem_singleton]
    exact or_iff_left fun heq => hq (Prod.mk.inj heq).1

/-- A clean name is let through by its directory, unless the system cannot know it. -/
theorem resolve_of_hasDir (hclean : FileName.clean name = name)
    (hdir : t.hasDir (dir name) = true) :
    t.resolve name = .ok (lead t.cwd name) ∨ ¬ Valid name ∧
    ∃ f, t.resolve name = .error f := by
  have hway : ∀ q ∈ way t.cwd name, t.at? q = some .dir := fun q hq =>
    (hasDir_iff.mp hdir).2 q
      ((FileName.mem_trail_dir (FileName.direct_of_clean hclean)).mpr hq)
  cases h : t.resolve name with
  | ok p => exact Or.inl (congrArg _ (resolve_iff.mp h).2.2)
  | error f =>
      refine Or.inr ⟨fun hvalid => ?_, f, rfl⟩
      rw [resolve_iff.mpr ⟨hvalid, hway, rfl⟩] at h
      cases h

theorem makeDirs_of_hasDir (h : t.hasDir name = true) : t.makeDirs name = .ok t :=
  makeDirsLoop_of_hasDir h (Nat.lt_succ_self _)

end FileTree

namespace BuildOptions

open FileTree (Valid look set)

/-! ## One generated file -/

section Saving

variable {o : BuildOptions} {r : FileResult} {t : FileTree}

/-- What is reported of a generated file, by what is found in its place. -/
def answered (o : BuildOptions) (r : FileResult) (found : Except FileFault (Option Entry)) :
    FileResult :=
  if o.dryRun || r.output.isEmpty then r
  else match found with
    | .error f => r.notWritten ⟨"open", r.outputPath, f⟩
    | .ok none => { r with written := true }
    | .ok (some (.file content)) =>
        if content = r.output then r else { r with written := true }
    | .ok (some .dir) => r.notWritten ⟨"open", r.outputPath, .isDirectory⟩

/-- What is left in the place of a generated file, by what is found there and whether
nothing is below. -/
def left (o : BuildOptions) (r : FileResult) (found : Option Entry) (bare : Bool) :
    Option Entry :=
  if o.dryRun then found
  else if r.output.isEmpty then
    if r.failed then found
    else if found = some .dir ∧ bare = false then found
    else none
  else if found = some .dir then found
  else some (.file r.output)

theorem left_left (o : BuildOptions) (r : FileResult) (found : Option Entry) (bare : Bool) :
    o.left r (o.left r found bare) bare = o.left r found bare := by
  unfold left
  by_cases hdry : o.dryRun = true
  · simp only [hdry, if_true]
  · simp only [hdry]
    by_cases hempty : r.output.isEmpty = true
    · simp only [hempty, if_true]
      by_cases hfailed : r.failed = true
      · simp [hfailed]
      · simp only [hfailed]
        by_cases hdir : found = some .dir ∧ bare = false
        · simp [hdir]
        · simp [hdir]
    · simp only [hempty]
      by_cases hdir : found = some .dir
      · simp [hdir]
      · simp [hdir]

/-- Where something was left, the same is reported, but that nothing is written. -/
theorem answered_left (o : BuildOptions) (r : FileResult) (found : Option Entry)
    (bare : Bool) : o.answered r (.ok (o.left r found bare)) =
      { o.answered r (.ok found) with written := r.written } := by
  unfold answered
  by_cases hdry : o.dryRun = true
  · simp only [hdry, Bool.true_or, if_true]
  · by_cases hempty : r.output.isEmpty = true
    · simp only [hempty, Bool.or_true, if_true]
    · simp only [hdry, hempty, Bool.or_self]
      unfold left
      simp only [hdry, hempty]
      cases found with
      | none => simp
      | some e =>
          cases e with
          | dir => simp [FileResult.notWritten]
          | file content =>
              by_cases hsame : content = r.output
              · simp [hsame]
              · simp [hsame]

theorem answered_error (o : BuildOptions) (r : FileResult) (f : FileFault) :
    { o.answered r (.error f) with written := r.written } = o.answered r (.error f) := by
  unfold answered
  by_cases h : (o.dryRun || r.output.isEmpty) = true
  · simp only [h, if_true]
  · simp only [h]
    rfl

/-- What is removed is not there afterwards, unless it is a directory with something
below. -/
theorem remove_beside {name : Text} :
    (t.remove name).toOption.getD t = match t.look name with
      | .error _ => t
      | .ok found => t.set (lead t.cwd name)
          (if found = some .dir ∧ (t.below (lead t.cwd name)).isEmpty = false then found
            else none) := by
  unfold FileTree.remove look
  cases hresolve : t.resolve name with
  | error f => rfl
  | ok p =>
      obtain rfl := (FileTree.resolve_iff.mp hresolve).2.2
      simp only [Except.map, FileTree.ok_bind]
      cases hfound : t.at? (lead t.cwd name) with
      | none => exact (if_pos hfound).symm
      | some e =>
          cases e with
          | file content => exact (if_neg (by simp [hfound])).symm
          | dir =>
              dsimp only
              cases hbare : (t.below (lead t.cwd name)).isEmpty with
              | true => exact (if_neg (by simp [hfound])).symm
              | false => exact (if_pos hfound).symm

/-- What is written is there afterwards, unless a directory is. -/
theorem deposit_beside (hclean : FileName.clean r.outputPath = r.outputPath)
    (hdir : t.hasDir (dir r.outputPath) = true) :
    deposit r t = match t.look r.outputPath with
      | .error f => (r.notWritten ⟨"open", r.outputPath, f⟩, t)
      | .ok (some .dir) => (r.notWritten ⟨"open", r.outputPath, .isDirectory⟩, t)
      | .ok _ =>
          ({ r with written := true },
            t.put (lead t.cwd r.outputPath) (.file r.output)) := by
  unfold deposit look
  rw [FileTree.makeDirs_of_hasDir hdir]
  dsimp only
  rcases FileTree.resolve_of_hasDir hclean hdir with hresolve | ⟨-, f, hresolve⟩
  · rw [FileTree.write_of_resolve hresolve, hresolve]
    simp only [Except.map]
    cases t.at? (lead t.cwd r.outputPath) with
    | none => rfl
    | some e => cases e <;> rfl
  · rw [FileTree.write, hresolve]
    rfl

theorem look_eq_ok {name : Text} {found : Option Entry} (h : t.look name = .ok found) :
    t.resolve name = .ok (lead t.cwd name) ∧ t.at? (lead t.cwd name) = found := by
  unfold look at h
  cases hresolve : t.resolve name with
  | error f =>
      rw [hresolve] at h
      cases h
  | ok p =>
      obtain rfl := (FileTree.resolve_iff.mp hresolve).2.2
      rw [hresolve] at h
      exact ⟨rfl, Except.ok.inj h⟩

theorem read_look (t : FileTree) (name content : Text) :
    ((t.read name).toOption == some content) = true ↔
    t.look name = .ok (some (.file content)) := by
  rw [beq_iff_eq, toOption_eq_some]
  constructor
  · intro hread
    obtain ⟨hvalid, hway, hfile⟩ := FileTree.read_eq_ok_iff.mp hread
    rw [look, FileTree.resolve_iff.mpr ⟨hvalid, hway, rfl⟩]
    exact congrArg Except.ok hfile
  · intro hlook
    obtain ⟨hresolve, hfile⟩ := look_eq_ok hlook
    exact (FileTree.read_iff hresolve).mpr hfile

/-- What is saved next to a source depends on what is found in its place, and changes that
place only. -/
theorem save_beside (o : BuildOptions) (hclean : FileName.clean r.outputPath = r.outputPath)
    (hdir : t.hasDir (dir r.outputPath) = true) :
    (o.save r t).1 = o.answered r (t.look r.outputPath) ∧
      (o.save r t).2 = match t.look r.outputPath with
        | .error _ => t
        | .ok found => t.set (lead t.cwd r.outputPath)
            (o.left r found (t.below (lead t.cwd r.outputPath)).isEmpty) := by
  have hread := read_look t r.outputPath r.output
  rw [save_eq, deposit_beside hclean hdir, remove_beside]
  unfold answered left
  cases hlook : t.look r.outputPath with
  | error f =>
      rw [hlook] at hread
      have hunread := mt hread.mp nofun
      by_cases hdry : o.dryRun = true
      · simp [hdry]
      · by_cases hempty : r.output.isEmpty = true
        · simp [hdry, hempty]
        · simp [hdry, hempty, hunread]
  | ok found =>
      obtain ⟨-, hfound⟩ := look_eq_ok hlook
      have hstays : t.set (lead t.cwd r.outputPath) found = t := hfound ▸ t.set_at? _
      rw [hlook] at hread
      by_cases hdry : o.dryRun = true
      · simp [hdry, hstays]
      · by_cases hempty : r.output.isEmpty = true
        · by_cases hfailed : r.failed = true
          · simp [hdry, hempty, hfailed, hstays]
          · simp [hdry, hempty, hfailed]
        · have hput (hother : found ≠ some (.file r.output)) :
              t.set (lead t.cwd r.outputPath) (some (.file r.output)) =
                t.put (lead t.cwd r.outputPath) (.file r.output) :=
            if_neg (hfound ▸ hother)
          cases found with
          | none =>
              have hother := mt hread.mp nofun
              simp [hdry, hempty, hother, hput]
          | some e =>
              cases e with
              | dir =>
                  have hother := mt hread.mp nofun
                  simp [hdry, hempty, hother, hstays]
              | file content =>
                  by_cases hsame : content = r.output
                  · subst hsame
                    simp [hdry, hempty, hread.mpr rfl, hstays]
                  · have hother :
                        ¬ ((t.read r.outputPath).toOption == some r.output) = true :=
                      mt hread.mp (by simpa using hsame)
                    simp [hdry, hempty, hother, hsame, hput]

end Saving

/-! ## One source -/

section Source

variable {o : BuildOptions} {t v : FileTree} {p p' : Text} {cwd : Place} {m : Moment}
  {s : BuildState} {texts : List Text}

theorem last_output (ho : Ending o.suffix) (hp : last p ≠ []) :
    last (o.outputPath p) = stem p ++ o.suffix ∧ 47 ∉ stem p ++ o.suffix := by
  have hlast : last (o.outputPath p) = stem p ++ o.suffix := by
    rw [last_outputPath ho, last_stem hp]
  exact ⟨hlast, hlast ▸ (FileName.eq_last _).1⟩

/-- With no directory for all, a generated file goes to the directory of its source. -/
theorem dir_outputPath (ho : Ending o.suffix) (hout : o.outputDir = []) (hp : last p ≠ []) :
    dir (o.outputPath p) = dir p := by
  have hhome : o.outputHome p = dir p := if_pos (by rw [hout]; rfl)
  obtain ⟨hlast, hclear⟩ := last_output ho hp
  obtain ⟨hstack, habs⟩ :=
    FileName.stackOf_slash (u := dir p) (FileName.clean_ne_nil _)
      (ho.proper (stem p)) hclear
  have hpath : o.outputPath p = FileName.clean (dir p ++ 47 :: (stem p ++ o.suffix)) := by
    rw [outputPath_eq, hhome, List.append_assoc]
    rfl
  obtain ⟨hfront, habs'⟩ := FileName.stackOf_front (hlast ▸ ho.proper (stem p))
  rw [hlast, hpath, (FileName.stackOf_clean _).1, hstack, List.cons.injEq] at hfront
  rw [← FileName.clean_dir p, FileName.dir_eq (o.outputPath p),
    FileName.clean_eq_clean_iff, habs',
    hpath, (FileName.stackOf_clean _).2, habs, ← hfront.2]
  exact ⟨rfl, rfl⟩

theorem lead_outputPath (ho : Ending o.suffix) (hout : o.outputDir = []) (hp : last p ≠ [])
    (cwd : Place) :
    lead cwd (o.outputPath p) = lead cwd (dir p) ++ [stem p ++ o.suffix] := by
  obtain ⟨hlast, -⟩ := last_output ho hp
  rw [FileName.lead_eq_dir cwd (hlast ▸ ho.proper (stem p)),
    dir_outputPath ho hout hp, hlast]

/-- What is reported of a source that is expanded alone. -/
def answer (o : BuildOptions) (t : FileTree) (p : Text) : FileResult :=
  match t.read p with
  | .error e => o.unreadable p e
  | .ok content => o.answered (o.expandSource p content) (t.look (o.outputPath p))

/-- What then stands in the place of its generated file. -/
def leaves (o : BuildOptions) (t : FileTree) (p : Text) : Option Entry :=
  match t.read p, t.look (o.outputPath p) with
  | .ok content, .ok found =>
      o.left (o.expandSource p content) found
        (t.below (lead t.cwd (o.outputPath p))).isEmpty
  | _, _ => t.at? (lead t.cwd (o.outputPath p))

/-- A source whose directory is there changes the place of its generated file only, whatever
is remembered. -/
theorem runFile_beside (ho : Ending o.suffix) (hout : o.outputDir = []) (hp : last p ≠ [])
    (hs : s.cache.Sound o texts) (htexts : CollisionFree texts)
    (hasked : ∀ x ∈ o.asked p s.files, x ∈ texts) (hdir : s.files.hasDir (dir p) = true)
    (m : Moment) :
    (o.runFile m p s).1.plain = (o.answer s.files p).plain ∧
      (o.runFile m p s).2.files =
        s.files.set (lead s.files.cwd (o.outputPath p)) (o.leaves s.files p) ∧
      (o.runFile m p s).2.cache.Sound o texts := by
  unfold answer leaves
  cases hread : s.files.read p with
  | error e =>
      unfold runFile
      rw [hread]
      exact ⟨rfl, (FileTree.set_at? _ _).symm, hs⟩
  | ok content =>
      have hmem : o.digested p content ∈ texts := by
        refine hasked _ ?_
        rw [asked, hread]
        exact List.mem_singleton_self _
      obtain ⟨r, cache, hrun, hr, hcache⟩ :=
        runFile_remembers hs htexts ⟨rfl, rfl⟩ hread hmem m
      obtain ⟨hresult, hfiles⟩ := save_congr o hr s.files
      have hpath := outputPath_expandSource o p content
      obtain ⟨hanswer, htree⟩ :=
          save_beside (r := o.expandSource p content) (t := s.files) o
        (hpath ▸ clean_outputPath o p) (by rwa [hpath, dir_outputPath ho hout hp])
      rw [hpath] at hanswer htree
      rw [hrun]
      refine ⟨hresult.trans (by rw [hanswer]), hfiles.trans (htree.trans ?_), hcache⟩
      cases s.files.look (o.outputPath p) with
      | error f => exact (FileTree.set_at? _ _).symm
      | ok found => rfl

/-- Two trees that a source, and the place of its generated file, are alike in. -/
structure Alongside (o : BuildOptions) (p : Text) (t v : FileTree) : Prop where
  cwd : v.cwd = t.cwd
  dirs : ∀ q ∈ trail t.cwd (dir p), t.at? q = some .dir ∧ v.at? q = some .dir
  source : v.at? (lead t.cwd p) = t.at? (lead t.cwd p)
  bare : (v.below (lead t.cwd (o.outputPath p))).isEmpty =
    (t.below (lead t.cwd (o.outputPath p))).isEmpty

theorem Alongside.read_eq (h : Alongside o p t v) (hclean : FileName.clean p = p) :
    v.read p = t.read p := by
  refine FileTree.read_congr h.cwd fun q hq => ?_
  rw [h.cwd, mem_trail, ← FileName.mem_trail_dir (FileName.direct_of_clean hclean)] at hq
  rcases hq with hq | rfl
  · exact (h.dirs q hq).2.trans (h.dirs q hq).1.symm
  · exact h.source

/-- In a tree that is like another one in its surroundings, a source changes the place of
its generated file only. -/
theorem Alongside.runFile (h : Alongside o p t s.files) (ho : Ending o.suffix)
    (hout : o.outputDir = []) (hp : last p ≠ []) (hclean : FileName.clean p = p)
    (hvalid : Valid (dir p)) (hs : s.cache.Sound o texts) (htexts : CollisionFree texts)
    (hasked : ∀ x ∈ o.asked p t, x ∈ texts) (m : Moment) :
    (o.runFile m p s).1.plain = (o.answer s.files p).plain ∧
      (o.runFile m p s).2.files = s.files.set (lead t.cwd (o.outputPath p))
      (o.leaves s.files p) ∧ (o.runFile m p s).2.cache.Sound o texts := by
  have hdir : s.files.hasDir (dir p) = true :=
    FileTree.hasDir_iff.mpr ⟨hvalid, fun q hq => (h.dirs q (h.cwd ▸ hq)).2⟩
  rw [← h.cwd]
  refine runFile_beside ho hout hp hs htexts ?_ hdir m
  unfold asked
  rwa [h.read_eq hclean]

theorem Alongside.look_eq (h : Alongside o p t v) (hdir : dir (o.outputPath p) = dir p) :
    v.look (o.outputPath p) = (t.look (o.outputPath p)).map fun _ =>
      v.at? (lead t.cwd (o.outputPath p)) := by
  have hresolve : v.resolve (o.outputPath p) = t.resolve (o.outputPath p) := by
    refine FileTree.resolve_congr h.cwd fun q hq => ?_
    rw [h.cwd, ← FileName.mem_trail_dir (FileName.direct_of_clean (o.clean_outputPath p)),
      hdir] at hq
    exact (h.dirs q hq).2.trans (h.dirs q hq).1.symm
  unfold look
  rw [hresolve]
  cases hp : t.resolve (o.outputPath p) with
  | error f => rfl
  | ok q =>
      obtain rfl := (FileTree.resolve_iff.mp hp).2.2
      rfl

/-- What is found in the place of the generated file is what a source is expanded over. -/
theorem Alongside.same (h : Alongside o p t v) (hclean : FileName.clean p = p)
    (hdir : dir (o.outputPath p) = dir p)
    (hfound : v.at? (lead t.cwd (o.outputPath p)) = t.at? (lead t.cwd (o.outputPath p))) :
    o.answer v p = o.answer t p ∧ o.leaves v p = o.leaves t p := by
  have hlook : v.look (o.outputPath p) = t.look (o.outputPath p) := by
    rw [h.look_eq hdir]
    cases hlook : t.look (o.outputPath p) with
    | error f => rfl
    | ok found => exact congrArg Except.ok (hfound.trans (look_eq_ok hlook).2)
  unfold answer leaves
  rw [h.read_eq hclean, hlook, h.cwd, h.bare, hfound]
  exact ⟨rfl, rfl⟩

/-- Expanded over what it left, a source leaves that again, and all that is reported is the
same but that nothing is written. -/
theorem Alongside.again (h : Alongside o p t v) (hclean : FileName.clean p = p)
    (hdir : dir (o.outputPath p) = dir p)
    (hleft : v.at? (lead t.cwd (o.outputPath p)) = o.leaves t p) :
    o.answer v p = { o.answer t p with written := false } ∧
    o.leaves v p = o.leaves t p := by
  unfold answer leaves at *
  rw [h.look_eq hdir, h.read_eq hclean, h.cwd, h.bare]
  cases hread : t.read p with
  | error e => exact ⟨rfl, by rw [hleft, hread]⟩
  | ok content =>
      rw [hread] at hleft
      have hwritten := written_expandSource o p content
      cases hlook : t.look (o.outputPath p) with
      | error f =>
          rw [hlook] at hleft
          refine ⟨?_, hleft⟩
          have := answered_error o (o.expandSource p content) f
          rw [hwritten] at this
          exact this.symm
      | ok found =>
          rw [hlook] at hleft
          dsimp only [Except.map] at hleft ⊢
          rw [hleft]
          refine ⟨?_, left_left ..⟩
          have := answered_left o (o.expandSource p content) found
            (t.below (lead t.cwd (o.outputPath p))).isEmpty
          rw [hwritten] at this
          exact this

end Source

end BuildOptions

end Deriver
