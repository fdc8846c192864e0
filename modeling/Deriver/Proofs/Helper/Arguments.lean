import Deriver.Helper.Options
import Deriver.Proofs.Text.Basic
import Mathlib.Logic.Function.Basic
import Mathlib.Tactic.MkIffOfInductiveProp

/-!
# Arguments of a helper attribute

Main statement: `ofAttributes_eq_ok_iff`. The options of an item are read from its one
helper attribute. Without arguments the attribute is bare; a format string makes all that
is behind it its own; and otherwise every argument must be accepted, no key be written
twice and no two keys exclude each other. The options are then what the argument under
each key says: `asked`.

Arguments are read one by one, into options and a list of the keys that were seen. What
carries the reading is that the options are at every point those that are asked for by
what was read, found by its keys.
-/

namespace Deriver

namespace Attribute

/-- The arguments of an attribute. -/
def args (a : Attribute) : List Meta :=
  match a.arg with
  | .list _ _ items _ => items
  | _ => []

/-- Whether an attribute stands without arguments. -/
def isBare (a : Attribute) : Bool :=
  match a.arg with
  | .path .. | .list _ _ [] _ => true
  | _ => false

theorem args_of_isBare {a : Attribute} (h : a.isBare = true) : a.args = [] := by
  unfold isBare at h
  unfold args
  split at h
  · next harg => rw [harg]
  · next harg => rw [harg]
  · cases h

end Attribute

namespace Options

/-! ## What an argument says -/

/-- The keys that take no value. -/
def bareKeys : List Text :=
  ["ignore", "skip", "forward", "owned", "ref", "ref_mut", "source",
    "not(source)", "backtrace", "not(backtrace)"]

/-- The naming convention that `rename_all = "..."` names. -/
def casing? : Meta → Option Casing
  | .nameValue _ _ v _ => if v.kind = .str then Casing.ofName? v.value else none
  | _ => none

/-- The error type of `error(Type)` or `error(Type, conversion)`. -/
def customError? : Meta → Option CustomError
  | .list _ _ [type] _ => some ⟨type.raw, []⟩
  | .list _ _ [type, .path _ conv] _ => some ⟨type.raw, conv⟩
  | _ => none

/-- The types of `types(A, B)`. -/
def types? : Meta → Option (List Text)
  | .list _ _ (first :: rest) _ =>
      if (first :: rest).all isTypeLike then some ((first :: rest).map (·.raw)) else none
  | _ => none

/-- The literal that an argument is or has as its value. -/
def literal? : Meta → Option Lit
  | .lit _ v | .nameValue _ _ v _ => some v
  | _ => none

/-- An argument has the form that its key asks for. A key that means nothing asks for
none. -/
@[mk_iff]
structure Fits (m : Meta) : Prop where
  bare : keyOf m ∈ bareKeys → isBareKey m = true
  renameAll : keyOf m = "rename_all" → (casing? m).isSome = true
  error : keyOf m = "error" → (customError? m).isSome = true
  types : keyOf m = "types" → (types? m).isSome = true
  format : keyOf m = "format" → (literal? m).isSome = true

/-- An argument that may stand on a level: its key is one of those accepted there, and it
has the form for it. -/
@[mk_iff]
structure Accepts (level : Level) (params : Params) (m : Meta) : Prop where
  key : keyOf m ∈ params.on level
  fits : Fits m

/-- The key that an argument takes up: `skip` is another name of `ignore`. -/
def slot (m : Meta) : Text := if keyOf m = "skip" then "ignore" else keyOf m

/-- The argument that takes up a key. -/
def bySlot? (ms : List Meta) (k : Text) : Option Meta := ms.find? fun m => slot m == k

/-- No two arguments exclude each other. -/
def Compatible (arg? : Text → Option Meta) : Prop :=
  ∀ pair ∈ Reading.exclusive, arg? pair.1 = none ∨ arg? pair.2 = none

/-- What arguments ask for that are keys, by the argument under each key. -/
def asked (pos : Position) (arg? : Text → Option Meta) : Options where
  present := true
  ignore := (arg? "ignore").isSome
  forward := (arg? "forward").isSome
  owned := (arg? "owned").isSome
  ref := (arg? "ref").isSome
  refMut := (arg? "ref_mut").isSome
  accessors := (arg? "owned").isSome || (arg? "ref").isSome || (arg? "ref_mut").isSome
  renameAll := (arg? "rename_all").bind casing?
  source :=
    if (arg? "source").isSome then .on else
      if (arg? "not(source)").isSome then .off else .unset
  backtrace :=
    if (arg? "backtrace").isSome then .on
    else if (arg? "not(backtrace)").isSome then .off else .unset
  error := (arg? "error").bind customError?
  types := ((arg? "types").bind types?).getD []
  pos := pos

/-! ## One key -/

variable {attr : Text} {m : Meta} {o o' : Options}

theorem setRenameAll_eq_ok_iff : setRenameAll attr m o = .ok o' ↔
    ∃ c, casing? m = some c ∧ o' = { o with renameAll := some c } := by
  unfold setRenameAll casing?
  cases m with
  | nameValue pos p v raw =>
      dsimp only
      by_cases hkind : v.kind = .str
      · rw [if_pos hkind, if_pos hkind]
        cases Casing.ofName? v.value with
        | some c => simp [eq_comm]
        | none => cases Similar.best? v.value Casing.names {} <;> simp
      · rw [if_neg hkind, if_neg hkind]
        simp
  | _ => simp

theorem setError_eq_ok_iff : setError attr m o = .ok o' ↔
    ∃ e, customError? m = some e ∧ o' = { o with error := some e } := by
  unfold setError customError?
  cases m with
  | list pos p items raw =>
      match items with
      | [] => simp
      | [type] => simp [eq_comm]
      | [type, conv] => cases conv <;> simp [eq_comm]
      | _ :: second :: _ :: _ => cases second <;> simp
  | _ => simp

theorem setTypes_eq_ok_iff : setTypes attr m o = .ok o' ↔
    ∃ ts, types? m = some ts ∧ o' = { o with types := o.types ++ ts } := by
  unfold setTypes types?
  cases m with
  | list pos p items raw =>
      cases items with
      | nil => simp
      | cons first rest =>
          dsimp only
          cases hfind : (first :: rest).find? fun m => !isTypeLike m with
          | none =>
              rw [if_pos (List.all_eq_true.mpr fun m hm => by
                simpa using List.find?_eq_none.mp hfind m hm)]
              simp [eq_comm]
          | some m =>
              rw [if_neg fun hall => by
                have hm := List.all_eq_true.mp hall m (List.mem_of_find?_eq_some hfind)
                simpa [hm] using List.find?_some hfind]
              simp
  | _ => simp

theorem setFormat_eq_ok_iff {o' : Options} : setFormat m o = .ok o' ↔
    ∃ v, literal? m = some v ∧
    o' = { o with format := some ⟨m.raw, v.value, [], m.pos⟩ } := by
  cases m <;> simp [setFormat, literal?, eq_comm]

theorem setFlag?_isSome_iff (key : Text) :
    (setFlag? key).isSome = true ↔ key ∈ bareKeys := by
  simp [setFlag?, bareKeys]

theorem mapError_eq_ok_iff {ε ε' α : Type} {f : ε → ε'} {x : Except ε α} {v : α} :
    x.mapError f = .ok v ↔ x = .ok v := by
  cases x <;> simp [Except.mapError]

theorem fits_of_setKey (h : setKey attr (keyOf m) m o = .ok o') : Fits m := by
  have hbare := setFlag?_isSome_iff (keyOf m)
  unfold setKey at h
  cases hflag : setFlag? (keyOf m) with
  | some set =>
      rw [hflag] at h hbare
      have hkey := hbare.mp rfl
      refine ⟨fun _ => ?_, ?_, ?_, ?_, ?_⟩
      · dsimp only at h
        split at h
        · next hm => exact hm
        · cases h
      all_goals
        intro heq
        rw [heq] at hkey
        exact absurd hkey (by decide)
  | none =>
      rw [hflag] at h hbare
      dsimp only at h
      have hkey : keyOf m ∉ bareKeys := fun hmem => nomatch hbare.mpr hmem
      simp only [beq_iff_eq] at h
      refine ⟨fun hmem => absurd hmem hkey, ?_, ?_, ?_, ?_⟩
      · intro heq
        rw [if_pos heq, mapError_eq_ok_iff, setRenameAll_eq_ok_iff] at h
        obtain ⟨c, hc, -⟩ := h
        rw [hc]
        rfl
      · intro heq
        rw [if_neg (heq ▸ by decide), if_pos heq, mapError_eq_ok_iff,
          setError_eq_ok_iff] at h
        obtain ⟨e, he, -⟩ := h
        rw [he]
        rfl
      · intro heq
        rw [if_neg (heq ▸ by decide), if_neg (heq ▸ by decide), if_pos heq,
          mapError_eq_ok_iff, setTypes_eq_ok_iff] at h
        obtain ⟨ts, hts, -⟩ := h
        rw [hts]
        rfl
      · intro heq
        rw [if_neg (heq ▸ by decide), if_neg (heq ▸ by decide),
          if_neg (heq ▸ by decide), if_pos heq, setFormat_eq_ok_iff] at h
        obtain ⟨v, hv, -⟩ := h
        rw [hv]
        rfl

/-- What is set under a key that was not written before is what the argument asks for
under it. -/
theorem setKey_asked {pos : Position} {arg? : Text → Option Meta} (hfits : Fits m)
    (hformat : keyOf m ≠ "format") (hnew : arg? (slot m) = none)
    (hcompatible : Compatible (Function.update arg? (slot m) (some m))) :
    setKey attr (keyOf m) m (asked pos arg?) =
      .ok (asked pos (Function.update arg? (slot m) (some m))) := by
  unfold setKey
  cases hflag : setFlag? (keyOf m) with
  | some set =>
      have hbare := hfits.bare ((setFlag?_isSome_iff _).mp (by rw [hflag]; rfl))
      dsimp only
      rw [if_pos hbare]
      obtain ⟨⟨name, set⟩, hmem, rfl⟩ := Option.map_eq_some_iff.mp hflag
      have hkey : keyOf m = name := by simpa using List.find?_some hmem
      have hmem := List.mem_of_find?_eq_some hmem
      simp only [List.mem_cons, List.not_mem_nil, or_false, Prod.mk.injEq] at hmem
      unfold slot at hnew hcompatible ⊢
      rw [hkey] at hnew hcompatible ⊢
      rcases hmem with ⟨rfl, rfl⟩ | ⟨rfl, rfl⟩ | ⟨rfl, rfl⟩ | ⟨rfl, rfl⟩ | ⟨rfl, rfl⟩
        | ⟨rfl, rfl⟩ |
        ⟨rfl, rfl⟩ | ⟨rfl, rfl⟩ | ⟨rfl, rfl⟩ | ⟨rfl, rfl⟩
      all_goals
        simp_all [asked, Function.update_apply, Text.ofString_inj, Compatible,
          Reading.exclusive]
  | none =>
      have hkey : keyOf m ∉ bareKeys := fun hmem => by
        have hsome := (setFlag?_isSome_iff _).mpr hmem
        rw [hflag] at hsome
        cases hsome
      have hslot : slot m = keyOf m :=
        if_neg fun (heq : keyOf m = "skip") => hkey (heq ▸ by decide)
      rw [hslot] at hnew hcompatible ⊢
      simp only [beq_iff_eq]
      split_ifs with hrename herror htypes
      · obtain ⟨c, hc⟩ := Option.isSome_iff_exists.mp (hfits.renameAll hrename)
        refine mapError_eq_ok_iff.mpr (setRenameAll_eq_ok_iff.mpr ⟨c, hc, ?_⟩)
        simp [asked, Text.ofString_inj, hrename, hc]
      · obtain ⟨e, he⟩ := Option.isSome_iff_exists.mp (hfits.error herror)
        refine mapError_eq_ok_iff.mpr (setError_eq_ok_iff.mpr ⟨e, he, ?_⟩)
        simp [asked, Text.ofString_inj, herror, he]
      · obtain ⟨ts, hts⟩ := Option.isSome_iff_exists.mp (hfits.types htypes)
        refine mapError_eq_ok_iff.mpr (setTypes_eq_ok_iff.mpr ⟨ts, hts, ?_⟩)
        rw [htypes] at hnew
        simp [asked, Text.ofString_inj, htypes, hts, hnew]
      · simp only [bareKeys, List.mem_cons, List.not_mem_nil, or_false, not_or,
          eq_comm (a := keyOf m)] at hkey hrename herror htypes
        simp only [asked, Function.update_apply, hkey, hrename, herror, htypes, if_false]

theorem format_setKey {key : Text} (h : setKey attr key m o = .ok o') :
    o'.format = if key = "format" then (literal? m).map (⟨m.raw, ·.value, [], m.pos⟩)
    else o.format := by
  have hbare := setFlag?_isSome_iff key
  unfold setKey at h
  cases hflag : setFlag? key with
  | some set =>
      rw [hflag] at h hbare
      have hkey := hbare.mp rfl
      rw [if_neg fun (heq : key = "format") => absurd (heq ▸ hkey) (by decide)]
      dsimp only at h
      split at h
      · cases h
        obtain ⟨entry, hentry, rfl⟩ := Option.map_eq_some_iff.mp hflag
        have hmem := List.mem_of_find?_eq_some hentry
        simp only [List.mem_cons, List.not_mem_nil, or_false] at hmem
        rcases hmem with rfl | rfl | rfl | rfl | rfl | rfl | rfl | rfl | rfl | rfl <;> rfl
      · cases h
  | none =>
      rw [hflag] at h
      simp only [beq_iff_eq] at h
      split_ifs at h with hrename herror htypes hformat
      · rw [mapError_eq_ok_iff, setRenameAll_eq_ok_iff] at h
        obtain ⟨c, -, rfl⟩ := h
        rw [if_neg (hrename ▸ by decide)]
      · rw [mapError_eq_ok_iff, setError_eq_ok_iff] at h
        obtain ⟨e, -, rfl⟩ := h
        rw [if_neg (herror ▸ by decide)]
      · rw [mapError_eq_ok_iff, setTypes_eq_ok_iff] at h
        obtain ⟨ts, -, rfl⟩ := h
        rw [if_neg (htypes ▸ by decide)]
      · obtain ⟨v, hv, rfl⟩ := setFormat_eq_ok_iff.mp h
        rw [if_pos hformat, hv]
        rfl
      · rw [if_neg hformat, Except.ok.inj h]

theorem setKey_eq_noFormatText_iff {key : Text} :
    setKey attr key m o = .error .noFormatText ↔ key = "format" ∧ literal? m = none := by
  have hdiagnostic {x : Except Diagnostic Options} :
      x.mapError HelperFault.diagnostic ≠ .error .noFormatText := by
    cases x <;> simp [Except.mapError]
  have hbare := setFlag?_isSome_iff key
  unfold setKey
  cases hflag : setFlag? key with
  | some set =>
      rw [hflag] at hbare
      have hkey := hbare.mp rfl
      refine iff_of_false ?_ fun h => absurd (h.1 ▸ hkey) (by decide)
      dsimp only
      split_ifs <;> simp
  | none =>
      simp only [beq_iff_eq]
      split_ifs with hrename herror htypes hformat
      · exact iff_of_false hdiagnostic fun h => absurd (h.1.symm.trans hrename) (by decide)
      · exact iff_of_false hdiagnostic fun h => absurd (h.1.symm.trans herror) (by decide)
      · exact iff_of_false hdiagnostic fun h => absurd (h.1.symm.trans htypes) (by decide)
      · cases m <;> simp [setFormat, literal?, hformat]
      · simp [hformat]

theorem slot_ne_skip (m : Meta) : slot m ≠ "skip" := by
  unfold slot
  split
  · decide
  · next h => exact h

/-! ## Reading one argument -/

namespace Reading

variable {g : Grammar} {raw k : Text} {r r' : Reading} {ms : List Meta}

/-- What is remembered of an argument. -/
def entries (m : Meta) : List (Text × Position) :=
  (slot m, m.pos) :: if keyOf m = "skip" then [(keyOf m, m.pos)] else []

theorem at?_eq_none_iff : r.at? k = none ↔ ∀ e ∈ r.seen, e.1 ≠ k := by
  simp [at?]

theorem at?_after {o : Options} (hk : k ≠ "skip") :
    (⟨o, r.seen ++ entries m⟩ : Reading).at? k = none ↔ r.at? k = none ∧ slot m ≠ k := by
  rw [at?_eq_none_iff, at?_eq_none_iff, List.forall_mem_append, entries,
    List.forall_mem_cons]
  refine and_congr_right fun _ => and_iff_left ?_
  split
  · next hskip => exact List.forall_mem_singleton.mpr fun heq => hk (heq.symm.trans hskip)
  · exact List.forall_mem_nil _

theorem item_of_new (hkey : keyOf m ∈ g.params.on g.level) (hnew : r.at? (slot m) = none) :
    r.item g m = (setKey g.attr (keyOf m) m r.options).map fun o =>
    ⟨o, r.seen ++ entries m⟩ := by
  have hall : keyOf m ∈ g.params.all := by
    simp only [Params.all, Text.mem_distinct, List.mem_append]
    revert hkey
    cases g.level <;> simp +contextual [Params.on]
  unfold slot at hnew
  unfold item
  dsimp only
  rw [if_neg (by simpa using hall), if_neg (by simpa using hkey), if_neg (by simp [hnew])]
  cases setKey g.attr (keyOf m) m r.options with
  | error e => rfl
  | ok o =>
      unfold entries slot
      simp only [beq_iff_eq, List.append_assoc, List.singleton_append]
      rfl

theorem item_of_not_new (h : ¬ (keyOf m ∈ g.params.on g.level ∧ r.at? (slot m) = none)) :
    ∃ d, r.item g m = .error (.diagnostic d) := by
  unfold item
  dsimp only
  by_cases hall : keyOf m ∈ g.params.all
  · by_cases hkey : keyOf m ∈ g.params.on g.level
    · have hseen : (r.at? (slot m)).isSome = true :=
        Option.ne_none_iff_isSome.mp fun hnone => h ⟨hkey, hnone⟩
      unfold slot at hseen
      rw [if_neg (by simpa using hall), if_neg (by simpa using hkey),
        if_pos (by simpa using hseen)]
      exact ⟨_, rfl⟩
    · rw [if_neg (by simpa using hall), if_pos (by simpa using hkey)]
      exact ⟨_, rfl⟩
  · rw [if_pos (by simpa using hall)]
    exact ⟨_, rfl⟩

theorem item_eq_ok_iff : r.item g m = .ok r' ↔
    keyOf m ∈ g.params.on g.level ∧ r.at? (slot m) = none ∧
      ∃ o, setKey g.attr (keyOf m) m r.options = .ok o ∧ r' = ⟨o, r.seen ++ entries m⟩ := by
  by_cases hnew : keyOf m ∈ g.params.on g.level ∧ r.at? (slot m) = none
  · rw [item_of_new hnew.1 hnew.2]
    cases setKey g.attr (keyOf m) m r.options <;> simp [Except.map, hnew, eq_comm]
  · obtain ⟨d, hd⟩ := item_of_not_new hnew
    rw [hd]
    refine iff_of_false nofun fun h => hnew ⟨h.1, h.2.1⟩

theorem item_eq_noFormatText_iff : r.item g m = .error .noFormatText ↔
    keyOf m ∈ g.params.on g.level ∧ r.at? (slot m) = none ∧
      keyOf m = "format" ∧ literal? m = none := by
  by_cases hnew : keyOf m ∈ g.params.on g.level ∧ r.at? (slot m) = none
  · have hset : setKey g.attr (keyOf m) m r.options = .error .noFormatText ↔ _ :=
      setKey_eq_noFormatText_iff
    rw [item_of_new hnew.1 hnew.2, ← hset]
    cases setKey g.attr (keyOf m) m r.options <;> simp [Except.map, hnew]
  · obtain ⟨d, hd⟩ := item_of_not_new hnew
    rw [hd]
    refine iff_of_false nofun fun h => hnew ⟨h.1, h.2.1⟩

/-- Once an argument is read that is no format, there is a format only if there was one. -/
theorem format_item (h : r.item g m = .ok r') :
    r'.options.format =
      if keyOf m = "format" then (literal? m).map (⟨m.raw, ·.value, [], m.pos⟩)
      else r.options.format := by
  obtain ⟨-, -, o, ho, rfl⟩ := item_eq_ok_iff.mp h
  exact format_setKey ho

/-! ## Reading all arguments -/

/-- None of the arguments takes up a key that was seen, or one that another takes up. -/
def Fresh (r : Reading) (ms : List Meta) : Prop :=
  (∀ m ∈ ms, r.at? (slot m) = none) ∧ (ms.map slot).Nodup

theorem fresh_cons {o : Options} :
    Fresh r (m :: ms) ↔ r.at? (slot m) = none ∧ Fresh ⟨o, r.seen ++ entries m⟩ ms := by
  simp only [Fresh, List.forall_mem_cons, List.map_cons, List.nodup_cons,
    at?_after (slot_ne_skip _), List.mem_map, not_exists, not_and, forall_and, and_assoc]
  refine and_congr_right fun _ => and_congr_right fun _ => and_congr_left fun _ => ?_
  exact ⟨fun h m' hm' heq => h m' hm' heq.symm, fun h m' hm' heq => h m' hm' heq.symm⟩

section Items

variable {r₁ : Reading} {isFirst : Bool}

theorem items_of_error {e : HelperFault} (h : r.item g m = .error e) :
    items g raw r isFirst (m :: ms) = .error e := by
  rw [items, h]
  rfl

theorem items_of_plain (h : r.item g m = .ok r₁) (hplain : r₁.options.format = none) :
    items g raw r isFirst (m :: ms) = items g raw r₁ false ms := by
  rw [items, h]
  dsimp only [bind, Except.bind]
  rw [hplain]

/-- A format takes all that is behind it, and is refused behind anything else. -/
theorem items_of_format {f : FormatSpec} (h : r.item g m = .ok r₁)
    (hf : r₁.options.format = some f) : items g raw r isFirst (m :: ms) =
      if isFirst then
        .ok { r₁ with options :=
          { r₁.options with
            format := some { f with args := ms.map fun arg => arg.raw.trim } } }
      else .error (.diagnostic (m.pos.diagnose (.malformedValue g.attr "format"
        "the format string as the first argument" raw))) := by
  rw [items, h]
  dsimp only [bind, Except.bind]
  rw [hf]
  rfl

end Items

/-- Arguments that are read without a format are accepted, and take up keys of their own. -/
theorem accepted_of_items {isFirst : Bool} (hplain : r.options.format = none)
    (hfirst : isFirst = true → ∀ m ∈ ms.head?, keyOf m ≠ "format")
    (h : items g raw r isFirst ms = .ok r') :
    (∀ m ∈ ms, keyOf m ≠ "format" ∧ Accepts g.level g.params m) ∧ Fresh r ms ∧
      r'.seen = r.seen ++ ms.flatMap entries := by
  induction ms generalizing r isFirst with
  | nil =>
      cases h
      exact ⟨List.forall_mem_nil _, ⟨List.forall_mem_nil _, List.nodup_nil⟩,
        (List.append_nil _).symm⟩
  | cons m ms ih =>
      cases hitem : r.item g m with
      | error e =>
          rw [items_of_error hitem] at h
          cases h
      | ok r₁ =>
          have hformat := format_item hitem
          obtain ⟨hkey, hnew, o, ho, rfl⟩ := item_eq_ok_iff.mp hitem
          have hfits := fits_of_setKey ho
          by_cases heq : keyOf m = "format"
          · -- a format behind another argument is refused
            obtain ⟨v, hv⟩ := Option.isSome_iff_exists.mp (hfits.format heq)
            rw [if_pos heq, hv] at hformat
            rw [items_of_format hitem hformat,
              if_neg fun hisFirst => hfirst hisFirst m rfl heq] at h
            cases h
          · rw [if_neg heq, hplain] at hformat
            rw [items_of_plain hitem hformat] at h
            obtain ⟨haccepts, hfresh, hseen⟩ := ih hformat (absurd · Bool.false_ne_true) h
            refine ⟨List.forall_mem_cons.mpr ⟨⟨heq, hkey, hfits⟩, haccepts⟩,
              fresh_cons.mpr ⟨hnew, hfresh⟩, ?_⟩
            rw [hseen, List.flatMap_cons, List.append_assoc]

/-- What is found by its key in some arguments, or else in those behind them. -/
def overlay (arg? : Text → Option Meta) (ms : List Meta) (k : Text) : Option Meta :=
  (arg? k).or (bySlot? ms k)

theorem overlay_cons {arg? : Text → Option Meta} (hnew : arg? (slot m) = none) :
    overlay arg? (m :: ms) = overlay (Function.update arg? (slot m) (some m)) ms := by
  funext k
  unfold overlay bySlot?
  rw [Function.update_apply, List.find?_cons]
  by_cases hk : k = slot m
  · rw [if_pos hk, hk, hnew, beq_self_eq_true]
    rfl
  · rw [if_neg hk, beq_eq_false_iff_ne.mpr (Ne.symm hk)]

theorem compatible_of_overlay {arg? : Text → Option Meta}
    (h : Compatible (overlay arg? ms)) : Compatible arg? := fun pair hpair =>
  (h pair hpair).imp (fun hnone => (Option.or_eq_none_iff.mp hnone).1)
    fun hnone => (Option.or_eq_none_iff.mp hnone).1

/-- Accepted arguments with keys of their own are read, and ask for what they say. -/
theorem items_asked {isFirst : Bool} {pos : Position} {arg? : Text → Option Meta}
    (hknown : ∀ k : Text, k ≠ "skip" → r.at? k = none → arg? k = none)
    (hoptions : r.options = asked pos arg?)
    (haccepts : ∀ m ∈ ms, keyOf m ≠ "format" ∧ Accepts g.level g.params m)
    (hfresh : Fresh r ms) (hcompatible : Compatible (overlay arg? ms)) :
    items g raw r isFirst ms =
      .ok ⟨asked pos (overlay arg? ms), r.seen ++ ms.flatMap entries⟩ := by
  induction ms generalizing r isFirst arg? with
  | nil =>
      have hoverlay : overlay arg? [] = arg? := funext fun k => Option.or_none
      rw [items, List.flatMap_nil, List.append_nil, hoverlay, ← hoptions]
  | cons m ms ih =>
      obtain ⟨⟨hformat, hkey, hfits⟩, haccepts⟩ := List.forall_mem_cons.mp haccepts
      obtain ⟨hnew, hfresh⟩ := fresh_cons.mp hfresh
      have hunset := hknown _ (slot_ne_skip m) hnew
      rw [overlay_cons hunset] at hcompatible ⊢
      have hset : setKey g.attr (keyOf m) m r.options =
          .ok (asked pos (Function.update arg? (slot m) (some m))) := by
        rw [hoptions]
        exact setKey_asked hfits hformat hunset (compatible_of_overlay hcompatible)
      have hitem := item_eq_ok_iff.mpr ⟨hkey, hnew, _, hset, rfl⟩
      rw [items_of_plain hitem rfl, List.flatMap_cons, ← List.append_assoc]
      refine ih (fun k hk hnone => ?_) rfl haccepts hfresh hcompatible
      obtain ⟨hold, hne⟩ := (at?_after hk).mp hnone
      rw [Function.update_of_ne (Ne.symm hne)]
      exact hknown k hk hold

/-- No conflict is found if and only if the arguments do not exclude each other. -/
theorem conflict?_eq_none_iff {attr : Text} (hseen : r.seen = ms.flatMap entries) :
    r.conflict? attr = none ↔ Compatible (bySlot? ms) := by
  have hat (k : Text) (hk : k ≠ "skip") : r.at? k = none ↔ bySlot? ms k = none := by
    simp only [at?_eq_none_iff, hseen, List.mem_flatMap, forall_exists_index,
      and_imp, bySlot?, List.find?_eq_none, beq_iff_eq]
    refine ⟨fun h m hm => h _ m hm List.mem_cons_self, fun h e m hm he => ?_⟩
    rcases List.mem_cons.mp he with rfl | he
    · exact h m hm
    · split at he
      · next hskip =>
          obtain rfl := List.mem_singleton.mp he
          exact fun heq => hk (heq.symm.trans hskip)
      · cases he
  have hkeys : ∀ pair ∈ exclusive, pair.1 ≠ ("skip" : Text) ∧
      pair.2 ≠ ("skip" : Text) := by decide
  rw [conflict?, List.findSome?_eq_none_iff]
  refine forall₂_congr fun ⟨first, second⟩ hpair => ?_
  rw [← hat _ (hkeys _ hpair).1, ← hat _ (hkeys _ hpair).2]
  dsimp only
  cases r.at? first <;> cases r.at? second <;> simp

/-- The state in which the reading of an attribute's arguments begins. -/
def start (pos : Position) : Reading := ⟨{ present := true, pos := pos }, []⟩

theorem fresh_start {pos : Position} : Fresh (start pos) ms ↔ (ms.map slot).Nodup :=
  and_iff_right fun _ _ => rfl

/-- What arguments ask for, of which the first is a format. -/
theorem items_format_iff {attr : Text} {pos : Position} {o : Options}
    (hm : keyOf m = "format") :
    (∃ r, items g raw (start pos) true (m :: ms) = .ok r ∧ r.conflict? attr = none ∧
      r.options = o) ↔
    keyOf m ∈ g.params.on g.level ∧ ∃ v, literal? m = some v ∧
      o = { (start pos).options with
        format := some ⟨m.raw, v.value, ms.map fun arg => arg.raw.trim, m.pos⟩ } := by
  have hset (o : Options) : setKey g.attr (keyOf m) m o = setFormat m o := by
    rw [hm]
    rfl
  -- the format takes up its own key alone, and nothing else was seen
  have hclear (o : Options) : (⟨o, [] ++ entries m⟩ : Reading).conflict? attr = none := by
    unfold entries slot
    rw [hm]
    rfl
  have hitem {v : Lit} (hkey : keyOf m ∈ g.params.on g.level) (hv : literal? m = some v) :
      (start pos).item g m = .ok ⟨{ (start pos).options with
        format := some ⟨m.raw, v.value, [], m.pos⟩ }, [] ++ entries m⟩ :=
    item_eq_ok_iff.mpr
      ⟨hkey, rfl, _, (hset _).trans (setFormat_eq_ok_iff.mpr ⟨v, hv, rfl⟩), rfl⟩
  constructor
  · rintro ⟨r, hok, -, rfl⟩
    cases hfirst : (start pos).item g m with
    | error e =>
        rw [items_of_error hfirst] at hok
        cases hok
    | ok r₁ =>
        obtain ⟨hkey, -, o, ho, -⟩ := item_eq_ok_iff.mp hfirst
        obtain ⟨v, hv, -⟩ := setFormat_eq_ok_iff.mp ((hset _).symm.trans ho)
        rw [items_of_format (hitem hkey hv) rfl, if_pos rfl] at hok
        exact ⟨hkey, v, hv, by rw [← Except.ok.inj hok]⟩
  · rintro ⟨hkey, v, hv, rfl⟩
    exact ⟨_, (items_of_format (hitem hkey hv) rfl).trans (if_pos rfl), hclear _, rfl⟩

theorem items_keys_iff {attr : Text} {pos : Position} {o : Options}
    (hm : keyOf m ≠ "format") :
    (∃ r, items g raw (start pos) true (m :: ms) = .ok r ∧ r.conflict? attr = none ∧
      r.options = o) ↔
    (∀ m' ∈ m :: ms, keyOf m' ≠ "format" ∧ Accepts g.level g.params m') ∧
      ((m :: ms).map slot).Nodup ∧ Compatible (bySlot? (m :: ms)) ∧
      o = asked pos (bySlot? (m :: ms)) := by
  -- accepted arguments that do not exclude each other are read
  have hread (haccepts : ∀ m' ∈ m :: ms, keyOf m' ≠ "format" ∧ Accepts g.level g.params m')
      (hnodup : ((m :: ms).map slot).Nodup) (hcompatible : Compatible (bySlot? (m :: ms))) :
      items g raw (start pos) true (m :: ms) =
        .ok ⟨asked pos (bySlot? (m :: ms)), (m :: ms).flatMap entries⟩ := by
    have hoverlay : overlay (fun _ => none) (m :: ms) = bySlot? (m :: ms) :=
      funext fun k => rfl
    rw [← hoverlay] at hcompatible ⊢
    exact items_asked (fun _ _ _ => rfl) rfl haccepts (fresh_start.mpr hnodup) hcompatible
  constructor
  · rintro ⟨r, hok, hconflict, rfl⟩
    have hfirst : true = true → ∀ m' ∈ (m :: ms).head?, keyOf m' ≠ "format" := by
      rintro - m' hm'
      rwa [← Option.some.inj hm']
    obtain ⟨haccepts, hfresh, hseen⟩ := accepted_of_items rfl hfirst hok
    have hnodup := fresh_start.mp hfresh
    have hcompatible := (conflict?_eq_none_iff hseen).mp hconflict
    rw [hread haccepts hnodup hcompatible] at hok
    exact ⟨haccepts, hnodup, hcompatible, by rw [← Except.ok.inj hok]⟩
  · rintro ⟨haccepts, hnodup, hcompatible, rfl⟩
    exact ⟨_, hread haccepts hnodup hcompatible,
      (conflict?_eq_none_iff rfl).mpr hcompatible, rfl⟩

end Reading

/-- What an attribute asks for on a level. -/
inductive Asks (level : Level) (params : Params) (a : Attribute) : Options → Prop
  | bare (h : a.isBare = true) :
      Asks level params a { present := true, bare := true, pos := a.pos }
  | format {m : Meta} {rest : List Meta} {v : Lit} (hargs : a.args = m :: rest)
      (hformat : keyOf m = "format") (hkey : keyOf m ∈ params.on level)
        (hv : literal? m = some v) :
      Asks level params a
        { present := true
          format := some ⟨m.raw, v.value, rest.map fun arg => arg.raw.trim, m.pos⟩
          pos := a.pos }
  | keys (hargs : a.args ≠ [])
      (haccepts : ∀ m ∈ a.args, keyOf m ≠ "format" ∧ Accepts level params m)
      (hnodup : (a.args.map slot).Nodup) (hcompatible : Compatible (bySlot? a.args)) :
      Asks level params a (asked a.pos (bySlot? a.args))

section Asks

variable {level : Level} {params : Params} {a : Attribute} {o : Options}

theorem asks_bare_iff (h : a.isBare = true) :
    Asks level params a o ↔ o = { present := true, bare := true, pos := a.pos } := by
  have hargs := Attribute.args_of_isBare h
  constructor
  · rintro (_ | ⟨hcons, -⟩ | ⟨hne⟩)
    · rfl
    · rw [hargs] at hcons
      cases hcons
    · exact absurd hargs hne
  · rintro rfl
    exact .bare h

theorem asks_cons_iff {m : Meta} {ms : List Meta} (hargs : a.args = m :: ms) :
    Asks level params a o ↔
    ∃ r, Reading.items ⟨a.path, level, params⟩ a.raw (Reading.start a.pos)
      true (m :: ms) = .ok r ∧ r.conflict? a.path = none ∧ r.options = o := by
  have hbare : a.isBare = false := by
    unfold Attribute.args at hargs
    unfold Attribute.isBare
    split at hargs
    · next h => rw [h, hargs]
    · cases hargs
  by_cases hm : keyOf m = "format"
  · rw [Reading.items_format_iff hm]
    constructor
    · rintro (h | ⟨hcons, -, hkey, hv⟩ | ⟨-, haccepts, -⟩)
      · rw [hbare] at h
        cases h
      · obtain ⟨rfl, rfl⟩ := List.cons.inj (hargs.symm.trans hcons)
        exact ⟨hkey, _, hv, rfl⟩
      · exact absurd hm (haccepts m (hargs ▸ List.mem_cons_self)).1
    · rintro ⟨hkey, v, hv, rfl⟩
      exact .format hargs hm hkey hv
  · rw [Reading.items_keys_iff hm, ← hargs]
    constructor
    · rintro (h | ⟨hcons, hformat, -⟩ | ⟨-, haccepts, hnodup, hcompatible⟩)
      · rw [hbare] at h
        cases h
      · obtain ⟨rfl, rfl⟩ := List.cons.inj (hargs.symm.trans hcons)
        exact absurd hformat hm
      · exact ⟨haccepts, hnodup, hcompatible, rfl⟩
    · rintro ⟨haccepts, hnodup, hcompatible, rfl⟩
      exact .keys (hargs ▸ List.cons_ne_nil m ms) haccepts hnodup hcompatible

theorem not_asks (hbare : a.isBare = false) (hargs : a.args = []) :
    ¬ Asks level params a o := by
  rintro (h | ⟨hcons, -⟩ | ⟨hne⟩)
  · rw [hbare] at h
    cases h
  · rw [hargs] at hcons
    cases hcons
  · exact hne hargs

end Asks

/-! ## One attribute -/

section Attribute

variable {attrs : List Attribute} {names : List Text} {level : Level} {params : Params}
  {a : Attribute} {o : Options}

theorem ofAttributes_of_bare (hone : Attribute.named attrs names = [a])
    (hbare : a.isBare = true) :
    ofAttributes attrs names level params =
    .ok { present := true, bare := true, pos := a.pos } := by
  unfold ofAttributes
  rw [hone]
  unfold Attribute.isBare at hbare
  dsimp only
  split at hbare
  · next harg => rw [harg]
  · next harg => rw [harg]
  · cases hbare

/-- Arguments are read, and then those that exclude each other are looked for. -/
theorem ofAttributes_of_args {m : Meta} {ms : List Meta}
    (hone : Attribute.named attrs names = [a])
    (hargs : a.args = m :: ms) : ofAttributes attrs names level params =
      (Reading.items ⟨a.path, level, params⟩ a.raw (Reading.start a.pos) true
      (m :: ms)).bind fun r => match r.conflict? a.path with
          | some d => .error (.diagnostic d)
          | none => .ok r.options := by
  unfold ofAttributes
  rw [hone]
  unfold Attribute.args at hargs
  dsimp only
  split at hargs
  · next harg =>
      rw [harg, hargs]
      rfl
  · cases hargs

theorem ofAttributes_of_other (hone : Attribute.named attrs names = [a])
    (hbare : a.isBare = false) (hargs : a.args = []) :
    ∃ d, ofAttributes attrs names level params = .error (.diagnostic d) := by
  unfold ofAttributes
  rw [hone]
  unfold Attribute.isBare at hbare
  unfold Attribute.args at hargs
  dsimp only
  cases harg : a.arg with
  | path => rw [harg] at hbare; cases hbare
  | list pos path items =>
      rw [harg] at hbare hargs
      obtain rfl : items = [] := hargs
      cases hbare
  | _ => exact ⟨_, rfl⟩

theorem ofAttributes_of_many {b c : Attribute} {rest : List Attribute}
    (hmany : Attribute.named attrs names = b :: c :: rest) :
    ∃ d, ofAttributes attrs names level params = .error (.diagnostic d) := by
  unfold ofAttributes
  rw [hmany]
  exact ⟨_, rfl⟩

theorem ofAttributes_of_none (hnone : Attribute.named attrs names = []) :
    ofAttributes attrs names level params = .ok {} := by
  unfold ofAttributes
  rw [hnone]

end Attribute

/-- The options of an item are those that its one helper attribute asks for. -/
theorem ofAttributes_eq_ok_iff {attrs : List Attribute} {names : List Text} {level : Level}
    {params : Params} {o : Options} : ofAttributes attrs names level params = .ok o ↔
      (Attribute.named attrs names = [] ∧ o = {}) ∨
      ∃ a, Attribute.named attrs names = [a] ∧ Asks level params a o := by
  match hnamed : Attribute.named attrs names with
  | [] =>
      rw [ofAttributes_of_none hnamed]
      simp [eq_comm]
  | _ :: _ :: _ =>
      obtain ⟨d, hd⟩ := ofAttributes_of_many hnamed
      rw [hd]
      simp
  | [a] =>
      have hone : (∃ b, [a] = [b] ∧ Asks level params b o) ↔
          Asks level params a o := by simp
      rw [hone, or_iff_right fun h => nomatch h.1]
      cases hbare : a.isBare with
      | true =>
          rw [ofAttributes_of_bare hnamed hbare, asks_bare_iff hbare,
            Except.ok.injEq, eq_comm]
      | false =>
          cases hargs : a.args with
          | nil =>
              obtain ⟨d, hd⟩ := ofAttributes_of_other hnamed hbare hargs
              exact iff_of_false (by rw [hd]; exact nofun) (not_asks hbare hargs)
          | cons m ms =>
              rw [ofAttributes_of_args hnamed hargs, asks_cons_iff hargs]
              cases Reading.items ⟨a.path, level, params⟩ a.raw (Reading.start a.pos) true
                (m :: ms) with
              | error e => exact iff_of_false nofun fun ⟨r, hr, _⟩ => nomatch hr
              | ok r =>
                  simp only [Except.bind, Except.ok.injEq, exists_eq_left']
                  cases r.conflict? a.path <;> simp

end Options

end Deriver
