import Deriver.Cache.Basic
import Deriver.Proofs.Entries
import Mathlib.Data.List.Induction

/-!
# A cache in memory is a map whose values expire

Main statement: `memory_history`. What a cache in memory answers is told by the calls that
were made: a value is found while the last call that bears on its key is the one that
stored it and its time has not passed. That the cache drops an expired value only when it
meets it, and prunes now and then, shows in no answer.

One step lemma carries the invariant: `value?_step` says of every call what is found under
every key from then on. It needs a clock that does not go back, since a value that was
dropped does not come back with its time.
-/

namespace Deriver

/-- A call of a cache. -/
inductive CacheCall where
  | set (key value : Text) (ttl : Int)
  | get (key : Text)
  | holds (key : Text)
  | delete (key : Text)
  | clear
  | prune
  deriving DecidableEq, Repr

/-- What a call of a cache answers. -/
inductive CacheAnswer where
  | value (value : Text)
  | holds (found : Bool)
  | done
  | failed (fault : CacheFault)
  deriving DecidableEq, Repr

/-- Whether a value is still there at a moment that was stored at another, for a time to
live or, if that is zero, for the usual time. -/
def Lives (keep stored ttl now : Int) : Prop :=
  let ttl := if ttl = 0 then keep else ttl
  ttl ≤ 0 ∨ now ≤ stored + ttl

instance (keep stored ttl now : Int) : Decidable (Lives keep stored ttl now) :=
  inferInstanceAs (Decidable (_ ∨ _))

namespace CacheCall

/-- The key that a call names. -/
def key? : CacheCall → Option Text
  | .set key _ _ => some key
  | .get key => some key
  | .holds key => some key
  | .delete key => some key
  | .clear => none
  | .prune => none

/-- Whether what is found under a key is decided by a call, if that is carried out. -/
def decides (key : Text) : CacheCall → Bool
  | .set k _ _ => k == key
  | .delete k => k == key
  | .clear => true
  | _ => false

/-- What a call that decides about a key leaves to be found under it. -/
def leaves (keep stored now : Int) : CacheCall → Option Text
  | .set _ value ttl => if Lives keep stored ttl now then some value else none
  | _ => none

/-- Whether a call only looks. Looking drops what has expired, and so does pruning. -/
def looks : CacheCall → Bool
  | .get _ => true
  | .holds _ => true
  | .prune => true
  | _ => false

end CacheCall

namespace Cache

/-- What a call answers, and the cache afterwards. Pruning asks for no moment but the
clock. -/
def call (c : Cache) (m : Moment) : CacheCall → CacheAnswer × Cache
  | .set key value ttl => changed (c.set m key value ttl)
  | .get key =>
      match c.get m key with
      | (.ok value, c) => (.value value, c)
      | (.error e, c) => (.failed e, c)
  | .holds key =>
      match c.exists? m key with
      | (.ok found, c) => (.holds found, c)
      | (.error e, c) => (.failed e, c)
  | .delete key => changed (c.delete m key)
  | .clear => changed (c.clear m)
  | .prune =>
      match c with
      | .memory store => (.done, .memory (store.prune m.now))
      | .none => (.done, .none)
where
  /-- A change that fails leaves the cache as it is. -/
  changed : Except CacheFault Cache → CacheAnswer × Cache
    | .ok c => (.done, c)
    | .error e => (.failed e, c)

/-- The cache after a history of calls. -/
def after (c : Cache) (h : List (Moment × CacheCall)) : Cache :=
  h.foldl (fun c e => (c.call e.1 e.2).2) c

/-- What a history of calls makes of an empty cache in memory. -/
def ofHistory (mark : Text) (keep : Int) (h : List (Moment × CacheCall)) : Cache :=
  after (.memory { mark := mark, keep := keep }) h

end Cache

/-! ## What is found under a key -/

/-- What an entry is worth at a moment. -/
def Stored.worth (now : Int) (e : Stored) : Option Text :=
  if e.expired now then none else some e.value

theorem Stored.worth_of_expired {e : Stored} {now later : Int} (h : e.expired now = true)
    (hle : now ≤ later) : e.worth later = none := by
  refine if_pos ?_
  unfold expired at h ⊢
  cases he : e.expires with
  | none =>
      rw [he] at h
      cases h
  | some moment =>
      rw [he] at h
      simp only [decide_eq_true_eq] at h ⊢
      omega

namespace MemoryStore

variable {s u : MemoryStore} {now later : Int} {key other value : Text}
  {ttl : Int} {m : Moment}
  {call : CacheCall}

/-- What is found under a key. -/
def value? (s : MemoryStore) (now : Int) (key : Text) : Option Text := (s.get now key).1

theorem value?_eq (s : MemoryStore) (now : Int) (key : Text) :
    s.value? now key = (s.entry? key).bind (Stored.worth now) := by
  unfold value? get Stored.worth
  cases s.entry? key with
  | none => rfl
  | some e =>
      simp only [Option.bind_some]
      split <;> rfl

theorem entry?_erase (s : MemoryStore) (key other : Text) :
    entry? (s.erase key) other = if key = other then none else s.entry? other := by
  split
  · next h =>
      subst h
      exact Entries.lookup_filter_self s.entries
  · next h =>
      exact Entries.lookup_filter_ne s.entries fun heq =>
        h (List.append_cancel_left heq).symm

theorem entry?_insert (s : MemoryStore) (now : Int) (key value : Text) (ttl : Int)
    (other : Text) : entry? (s.insert now key value ttl) other =
      if key = other then
        some ⟨value, if 0 < (if ttl = 0 then s.keep else ttl) then
          some (now + if ttl = 0 then s.keep else ttl) else none⟩
      else s.entry? other := by
  by_cases h : key = other
  · subst h
    rw [if_pos rfl]
    exact List.lookup_cons_self
  · have hne : s.mark ++ other ≠ s.mark ++ key :=
      fun heq => h (List.append_cancel_left heq).symm
    rw [if_neg h]
    unfold entry? insert
    rw [List.lookup_cons, beq_eq_false_iff_ne.mpr hne]
    exact Entries.lookup_filter_ne s.entries hne

/-- Every key has one entry. -/
def Tidy (s : MemoryStore) : Prop := (s.entries.map (·.1)).Nodup

theorem entry?_prune (h : s.Tidy) (now : Int) (key : Text) :
    entry? (s.prune now) key = (s.entry? key).filter (!·.expired now) :=
  Entries.lookup_filter h _

theorem Tidy.filter (h : s.Tidy) (p : Text × Stored → Bool) :
    Tidy { s with entries := s.entries.filter p } :=
  h.sublist (List.filter_sublist.map _)

theorem Tidy.insert (h : s.Tidy) (now : Int) (key value : Text) (ttl : Int) :
    (s.insert now key value ttl).Tidy := by
  refine List.nodup_cons.mpr ⟨fun hmem => ?_, h.filter _⟩
  obtain ⟨e, he, heq⟩ := List.mem_map.mp hmem
  exact bne_iff_ne.mp (List.mem_filter.mp he).2 heq

/-! ## One call -/

/-- The store after a call. -/
def step (s : MemoryStore) (m : Moment) : CacheCall → MemoryStore
  | .prune => s.prune m.now
  | .set key value ttl => if m.cancelled then s else s.insert m.now key value ttl
  | .get key => if m.cancelled then s else (s.get m.now key).2
  | .holds key => if m.cancelled then s else (s.get m.now key).2
  | .delete key => if m.cancelled then s else s.erase key
  | .clear => if m.cancelled then s else s.clear

/-- What a call answers goes by what is found under its key. -/
def answer (s : MemoryStore) (m : Moment) : CacheCall → CacheAnswer
  | .prune => .done
  | .get key =>
      if m.cancelled then .failed .cancelled
      else ((s.value? m.now key).map .value).getD (.failed (.miss key))
  | .holds key =>
      if m.cancelled then .failed .cancelled else .holds (s.value? m.now key).isSome
  | _ => if m.cancelled then .failed .cancelled else .done

theorem call_eq (s : MemoryStore) (m : Moment) (call : CacheCall) :
    (Cache.memory s).call m call = (s.answer m call, .memory (s.step m call)) := by
  cases call with
  | prune => rfl
  | set key value ttl =>
      unfold Cache.call Cache.set Cache.change answer step
      cases m.cancelled <;> rfl
  | delete key =>
      unfold Cache.call Cache.delete Cache.change answer step
      cases m.cancelled <;> rfl
  | clear =>
      unfold Cache.call Cache.clear Cache.change answer step
      cases m.cancelled <;> rfl
  | get key =>
      unfold Cache.call Cache.get answer step value?
      cases m.cancelled with
      | true => rfl
      | false =>
          simp only [Bool.false_eq_true, if_false]
          obtain ⟨found, u⟩ := s.get m.now key
          cases found <;> rfl
  | holds key =>
      unfold Cache.call Cache.exists? Cache.get answer step value?
      cases m.cancelled with
      | true => rfl
      | false =>
          simp only [Bool.false_eq_true, if_false]
          obtain ⟨found, u⟩ := s.get m.now key
          cases found <;> rfl

theorem get_cases (s : MemoryStore) (now : Int) (key : Text) :
    (s.get now key).2 = s ∨
      ∃ e, s.entry? key = some e ∧ e.expired now = true ∧
      (s.get now key).2 = s.erase key := by
  unfold get
  cases hentry : s.entry? key with
  | none => exact Or.inl rfl
  | some e =>
      dsimp only
      cases hexpired : e.expired now with
      | true => exact Or.inr ⟨e, rfl, hexpired, rfl⟩
      | false => exact Or.inl rfl

/-- A call leaves every key with one entry, and the settings as they are. -/
theorem step_settings (s : MemoryStore) (m : Moment) (call : CacheCall) :
    (s.step m call).keep = s.keep ∧ (s.Tidy → (s.step m call).Tidy) := by
  have hget (key : Text) : (s.get m.now key).2.keep = s.keep ∧
      (s.Tidy → (s.get m.now key).2.Tidy) := by
    rcases s.get_cases m.now key with h | ⟨e, -, -, h⟩
    · rw [h]
      exact ⟨rfl, id⟩
    · rw [h]
      exact ⟨rfl, fun ht => ht.filter _⟩
  cases call with
  | prune => exact ⟨rfl, fun ht => ht.filter _⟩
  | set key value ttl =>
      unfold step
      cases m.cancelled with
      | true => exact ⟨rfl, id⟩
      | false => exact ⟨rfl, fun ht => ht.insert ..⟩
  | get key =>
      unfold step
      cases m.cancelled with
      | true => exact ⟨rfl, id⟩
      | false => exact hget key
  | holds key =>
      unfold step
      cases m.cancelled with
      | true => exact ⟨rfl, id⟩
      | false => exact hget key
  | delete key =>
      unfold step
      cases m.cancelled with
      | true => exact ⟨rfl, id⟩
      | false => exact ⟨rfl, fun ht => ht.filter _⟩
  | clear =>
      unfold step
      cases m.cancelled with
      | true => exact ⟨rfl, id⟩
      | false => exact ⟨rfl, fun _ => List.nodup_nil⟩

/-! ## What a call leaves under a key -/

theorem value?_erase (s : MemoryStore) (now : Int) (key other : Text) :
    (s.erase key).value? now other = if key = other then none else s.value? now other := by
  rw [value?_eq, entry?_erase, value?_eq]
  split <;> rfl

theorem worth_insert (keep stored now : Int) (value : Text) (ttl : Int) :
    (Stored.mk value (if 0 < (if ttl = 0 then keep else ttl) then
        some (stored + if ttl = 0 then keep else ttl) else none)).worth now =
      if Lives keep stored ttl now then some value else none := by
  have hspan (span : Int) :
      (Stored.mk value (if 0 < span then some (stored + span) else none)).worth now =
        if span ≤ 0 ∨ now ≤ stored + span then some value else none := by
    unfold Stored.worth Stored.expired
    by_cases hspan : 0 < span
    · simp only [if_pos hspan, decide_eq_true_eq]
      by_cases hlater : stored + span < now
      · rw [if_pos hlater, if_neg (by omega)]
      · rw [if_neg hlater, if_pos (by omega)]
    · simp only [if_neg hspan, Bool.false_eq_true, if_false]
      rw [if_pos (by omega)]
  exact hspan _

theorem value?_insert (s : MemoryStore) (stored now : Int) (key value : Text) (ttl : Int)
    (other : Text) :
    (s.insert stored key value ttl).value? now other =
      if key = other then (if Lives s.keep stored ttl now then some value else none)
      else s.value? now other := by
  rw [value?_eq, entry?_insert, value?_eq]
  split
  · exact worth_insert ..
  · rfl

theorem value?_prune (h : s.Tidy) (hle : now ≤ later) (key : Text) :
    (s.prune now).value? later key = s.value? later key := by
  rw [value?_eq, entry?_prune h, value?_eq]
  cases s.entry? key with
  | none => rfl
  | some e =>
      rw [Option.filter_some]
      cases hexpired : e.expired now with
      | false => rfl
      | true => exact (Stored.worth_of_expired hexpired hle).symm

theorem value?_get (s : MemoryStore) (hle : now ≤ later) (key other : Text) :
    (s.get now key).2.value? later other = s.value? later other := by
  rcases s.get_cases now key with h | ⟨e, hentry, hexpired, h⟩
  · rw [h]
  · rw [h, value?_erase]
    split
    · next heq =>
        subst heq
        rw [value?_eq, hentry]
        exact (Stored.worth_of_expired hexpired hle).symm
    · rfl

theorem step_cancelled (s : MemoryStore) (hm : m.cancelled = true) (hcall : call ≠ .prune) :
    s.step m call = s := by
  cases call with
  | prune => exact absurd rfl hcall
  | _ => exact if_pos hm

/-- Only a call that decides about a key, and is carried out, changes what is found under it
from then on. -/
theorem value?_step (h : s.Tidy) (hle : m.now ≤ now) (call : CacheCall) (key : Text) :
    (s.step m call).value? now key =
      if m.cancelled = false ∧ call.decides key = true then call.leaves s.keep m.now now
      else s.value? now key := by
  by_cases hprune : call = .prune
  · subst hprune
    exact (value?_prune h hle key).trans (if_neg fun hd => Bool.false_ne_true hd.2).symm
  cases hm : m.cancelled with
  | true => rw [step_cancelled s hm hprune, if_neg fun hd => Bool.false_ne_true hd.1.symm]
  | false =>
      cases call with
      | prune => exact absurd rfl hprune
      | get other =>
          simp only [step, hm, Bool.false_eq_true, if_false, CacheCall.decides, and_false]
          exact value?_get s hle other key
      | holds other =>
          simp only [step, hm, Bool.false_eq_true, if_false, CacheCall.decides, and_false]
          exact value?_get s hle other key
      | set other value ttl =>
          simp only [step, hm, Bool.false_eq_true, if_false, CacheCall.decides, beq_iff_eq,
            true_and, CacheCall.leaves]
          exact value?_insert ..
      | delete other =>
          simp only [step, hm, Bool.false_eq_true, if_false, CacheCall.decides, beq_iff_eq,
            true_and, CacheCall.leaves]
          exact value?_erase ..
      | clear =>
          simp only [step, hm, Bool.false_eq_true, if_false, CacheCall.decides,
            CacheCall.leaves, and_self, if_true]
          rfl

/-- The store after a history of calls. -/
def after (s : MemoryStore) (h : List (Moment × CacheCall)) : MemoryStore :=
  h.foldl (fun s e => s.step e.1 e.2) s

theorem after_eq (s : MemoryStore) (h : List (Moment × CacheCall)) :
    (Cache.memory s).after h = .memory (s.after h) := by
  induction h generalizing s with
  | nil => rfl
  | cons e h ih =>
      unfold Cache.after after
      rw [List.foldl_cons, List.foldl_cons, call_eq]
      exact ih _

/-- Two stores in which the same is found, from a moment on, under the keys of a kind. -/
structure Agree (p : Text → Prop) (now : Int) (s u : MemoryStore) : Prop where
  keep : s.keep = u.keep
  tidy : s.Tidy ∧ u.Tidy
  value? : ∀ later key, now ≤ later → p key → s.value? later key = u.value? later key

/-- What two stores agree on shows in the answer of no call that names only such a key. -/
theorem Agree.answer {p : Text → Prop} (h : Agree p now s u) (hle : now ≤ m.now)
    (hkey : ∀ key, call.key? = some key → p key) : s.answer m call = u.answer m call := by
  cases call with
  | get key =>
      simp only [MemoryStore.answer, h.value? m.now key hle (hkey key rfl)]
  | holds key =>
      simp only [MemoryStore.answer, h.value? m.now key hle (hkey key rfl)]
  | _ => rfl

theorem Agree.step {p : Text → Prop} (h : Agree p now s u) (hle : now ≤ m.now)
    (call : CacheCall) : Agree p m.now (s.step m call) (u.step m call) where
  keep := by rw [(s.step_settings m call).1, (u.step_settings m call).1, h.keep]
  tidy := ⟨(s.step_settings m call).2 h.tidy.1, (u.step_settings m call).2 h.tidy.2⟩
  value? later key hlater hp := by
    rw [value?_step h.tidy.1 hlater, value?_step h.tidy.2 hlater, h.keep,
      h.value? later key (Int.le_trans hle hlater) hp]

/-- After the same calls on both, two stores that agreed give one answer. -/
theorem Agree.after {p : Text → Prop} {rest : List (Moment × CacheCall)}
    (h : Agree p now s u)
    (hclock : (now :: (rest ++ [(m, call)]).map (·.1.now)).Pairwise (· ≤ ·))
    (hkey : ∀ key, call.key? = some key → p key) :
    (s.after rest).answer m call = (u.after rest).answer m call := by
  induction rest generalizing now s u with
  | nil =>
      have hle : now ≤ m.now := List.rel_of_pairwise_cons hclock (List.mem_singleton_self _)
      exact h.answer hle hkey
  | cons e rest ih =>
      have hle : now ≤ e.1.now := List.rel_of_pairwise_cons hclock List.mem_cons_self
      exact ih (h.step hle e.2) (List.pairwise_cons.mp hclock).2

/-- A call that names another key changes nothing of what is found under a key. -/
theorem agree_of_other (h : s.Tidy) (hkey : call.key? = some other) :
    Agree (· ≠ other) m.now (s.step m call) s where
  keep := (s.step_settings m call).1
  tidy := ⟨(s.step_settings m call).2 h, h⟩
  value? later key hle hne := by
    rw [value?_step h hle, if_neg]
    rintro ⟨-, hdecides⟩
    cases call with
    | set k _ _ => exact hne ((beq_iff_eq.mp hdecides).symm.trans (Option.some.inj hkey))
    | delete k => exact hne ((beq_iff_eq.mp hdecides).symm.trans (Option.some.inj hkey))
    | clear => cases hkey
    | get k => cases hdecides
    | holds k => cases hdecides
    | prune => cases hdecides

/-- A call that only looks changes nothing of what is found under any key. -/
theorem agree_of_looks (h : s.Tidy) (hlooks : call.looks = true) :
    Agree (fun _ => True) m.now (s.step m call) s where
  keep := (s.step_settings m call).1
  tidy := ⟨(s.step_settings m call).2 h, h⟩
  value? later key hle _ := by
    rw [value?_step h hle, if_neg]
    rintro ⟨-, hdecides⟩
    cases call with
    | set k _ _ => cases hlooks
    | delete k => cases hlooks
    | clear => cases hlooks
    | get k => cases hdecides
    | holds k => cases hdecides
    | prune => cases hdecides

end MemoryStore

/-! ## Histories -/

/-- A history of calls tells of a value under a key at a moment: the last call that decides
about the key, of those that were carried out, stored the value, and its time has not
passed. -/
def Holds (keep : Int) (h : List (Moment × CacheCall)) (now : Int) (key value : Text) :
    Prop :=
  ∃ before m ttl after, h = before ++ (m, .set key value ttl) :: after ∧
    m.cancelled = false ∧
    (∀ e ∈ after, e.1.cancelled = false → e.2.decides key = false) ∧
      Lives keep m.now ttl now

/-- The clock does not go back. -/
def InOrder (h : List (Moment × CacheCall)) : Prop := (h.map (·.1.now)).Pairwise (· ≤ ·)

instance (h : List (Moment × CacheCall)) : Decidable (InOrder h) :=
  inferInstanceAs (Decidable (List.Pairwise ..))

namespace Holds

variable {keep now : Int} {h : List (Moment × CacheCall)} {m : Moment} {call : CacheCall}
  {key value : Text}

theorem concat_decides (hm : m.cancelled = false) (hdecides : call.decides key = true) :
    Holds keep (h ++ [(m, call)]) now key value ↔
    call.leaves keep m.now now = some value := by
  constructor
  · rintro ⟨before, n, ttl, after, heq, -, hafter, hlives⟩
    rcases List.eq_nil_or_concat after with rfl | ⟨after, e, rfl⟩
    · obtain ⟨-, heq⟩ := List.append_inj' heq rfl
      obtain ⟨rfl, rfl⟩ := Prod.mk.inj (List.singleton_inj.mp heq)
      exact if_pos hlives
    · rw [List.concat_eq_append] at heq hafter
      rw [← List.cons_append, ← List.append_assoc] at heq
      obtain ⟨-, heq⟩ := List.append_inj' heq rfl
      rw [← List.singleton_inj.mp heq] at hafter
      rw [hafter (m, call) (List.mem_append_right _ List.mem_cons_self) hm] at hdecides
      cases hdecides
  · intro hleaves
    cases call with
    | set k v ttl =>
        obtain rfl : k = key := beq_iff_eq.mp hdecides
        rw [CacheCall.leaves, Option.ite_none_right_eq_some] at hleaves
        obtain ⟨hlives, hvalue⟩ := hleaves
        obtain rfl := Option.some.inj hvalue
        exact ⟨h, m, ttl, [], rfl, hm, fun e he => (nomatch he), hlives⟩
    | _ => cases hleaves

theorem concat_other (hcall : m.cancelled = false → call.decides key = false) :
    Holds keep (h ++ [(m, call)]) now key value ↔ Holds keep h now key value := by
  constructor
  · rintro ⟨before, n, ttl, after, heq, hn, hafter, hlives⟩
    rcases List.eq_nil_or_concat after with rfl | ⟨after, e, rfl⟩
    · obtain ⟨-, heq⟩ := List.append_inj' heq rfl
      obtain ⟨rfl, rfl⟩ := Prod.mk.inj (List.singleton_inj.mp heq)
      have hne := hcall hn
      rw [CacheCall.decides, beq_self_eq_true] at hne
      cases hne
    · rw [List.concat_eq_append] at heq hafter
      rw [← List.cons_append, ← List.append_assoc] at heq
      obtain ⟨rfl, -⟩ := List.append_inj' heq rfl
      exact ⟨before, n, ttl, after, rfl, hn,
        fun e he => hafter e (List.mem_append_left _ he), hlives⟩
  · rintro ⟨before, n, ttl, after, rfl, hn, hafter, hlives⟩
    refine ⟨before, n, ttl, after ++ [(m, call)], by simp, hn, fun e he => ?_, hlives⟩
    rcases List.mem_append.mp he with he | he
    · exact hafter e he
    · rw [List.mem_singleton.mp he]
      exact hcall

end Holds

namespace MemoryStore

variable {h : List (Moment × CacheCall)}

/-- What a history of calls makes of an empty store: what is found in it from the last call
on is what the history tells. -/
theorem after_history (mark : Text) (keep : Int) (hclock : InOrder h) :
    let s := after { mark := mark, keep := keep } h
    s.Tidy ∧ s.keep = keep ∧ ∀ now key value, (∀ e ∈ h, e.1.now ≤ now) →
      (s.value? now key = some value ↔ Holds keep h now key value) := by
  induction h using List.reverseRecOn with
  | nil =>
      refine ⟨List.nodup_nil, rfl, fun now key value _ => ⟨fun hv => (nomatch hv), ?_⟩⟩
      rintro ⟨before, m, ttl, after, heq, -⟩
      exact absurd heq.symm (by simp)
  | append_singleton h e ih =>
      obtain ⟨m, call⟩ := e
      unfold InOrder at hclock
      rw [List.map_append, List.pairwise_append] at hclock
      obtain ⟨htidy, hkeep, hfound⟩ := ih hclock.1
      have hafter : after { mark := mark, keep := keep } (h ++ [(m, call)]) =
          (after { mark := mark, keep := keep } h).step m call := List.foldl_concat ..
      rw [hafter]
      refine ⟨(step_settings _ m call).2 htidy, (step_settings _ m call).1.trans hkeep, ?_⟩
      intro now key value hnow
      have hle : m.now ≤ now := hnow _ (List.mem_append_right _ List.mem_cons_self)
      rw [value?_step htidy hle, hkeep]
      split
      · next hdecides => exact (Holds.concat_decides hdecides.1 hdecides.2).symm
      · next hdecides =>
          rw [hfound now key value fun e he => hnow e (List.mem_append_left _ he)]
          refine (Holds.concat_other fun hm => ?_).symm
          exact Bool.eq_false_iff.mpr fun hd => hdecides ⟨hm, hd⟩

end MemoryStore

/-- A cache in memory is a map whose values expire. What is found under a key is what the
history of calls tells; a call that names another key, or only looks, shows in no later
answer; and a call that was called off fails and changes nothing. -/
theorem memory_history (mark : Text) (keep : Int)
    (h : List (Moment × CacheCall)) (m : Moment)
    (hclock : InOrder h) (hnow : ∀ e ∈ h, e.1.now ≤ m.now) :
    let c := Cache.ofHistory mark keep h
    (m.cancelled = false → ∀ key,
      (∀ value, (c.call m (.get key)).1 = .value value ↔ Holds keep h m.now key value) ∧
      ((c.call m (.get key)).1 = .failed (.miss key) ↔
        ∀ value, ¬ Holds keep h m.now key value) ∧
      ((c.call m (.holds key)).1 = .holds true ↔ ∃ value, Holds keep h m.now key value) ∧
      ((c.call m (.holds key)).1 = .holds false ↔
        ∀ value, ¬ Holds keep h m.now key value)) ∧
    (∀ call other rest last key, InOrder ((m, call) :: rest ++ [last]) →
      call.key? = some other → last.2.key? = some key → key ≠ other →
      (((c.call m call).2.after rest).call last.1 last.2).1 =
        ((c.after rest).call last.1 last.2).1) ∧
    (∀ call rest last, InOrder ((m, call) :: rest ++ [last]) → call.looks = true →
      (((c.call m call).2.after rest).call last.1 last.2).1 =
        ((c.after rest).call last.1 last.2).1) ∧
    (m.cancelled = true → ∀ call, call ≠ .prune →
      c.call m call = (.failed .cancelled, c)) := by
  intro c
  obtain ⟨htidy, -, hfound⟩ := MemoryStore.after_history mark keep hclock
  have hc : c = .memory (MemoryStore.after { mark := mark, keep := keep } h) :=
    MemoryStore.after_eq ..
  generalize MemoryStore.after { mark := mark, keep := keep } h = s at htidy hfound hc
  have hlater {p : Text → Prop} {call rest} {last : Moment × CacheCall}
      (hin : InOrder ((m, call) :: rest ++ [last]))
        (hagree : (s.step m call).Agree p m.now s)
      (hkey : ∀ key, last.2.key? = some key → p key) :
      (((c.call m call).2.after rest).call last.1 last.2).1 =
        ((c.after rest).call last.1 last.2).1 := by
    rw [hc, MemoryStore.call_eq, MemoryStore.after_eq, MemoryStore.after_eq,
      MemoryStore.call_eq, MemoryStore.call_eq]
    exact hagree.after hin hkey
  refine ⟨fun hm key => ?_, ?_, ?_, ?_⟩
  · have hvalue value := hfound m.now key value hnow
    simp only [hc, MemoryStore.call_eq, MemoryStore.answer, hm,
      Bool.false_eq_true, if_false, ← hvalue]
    cases s.value? m.now key <;> simp
  · intro call other rest last key hin hcall hlast hne
    refine hlater hin (MemoryStore.agree_of_other htidy hcall) fun k hk => ?_
    rwa [← Option.some.inj (hlast.symm.trans hk)]
  · intro call rest last hin hlooks
    exact hlater hin (MemoryStore.agree_of_looks htidy hlooks) fun _ _ => trivial
  · intro hm call hcall
    rw [hc, MemoryStore.call_eq, MemoryStore.step_cancelled s hm hcall]
    cases call with
    | prune => exact absurd rfl hcall
    | _ => simp only [MemoryStore.answer, hm, if_true]

/-- A key is stored twice and another forgotten. -/
def overwritten : List (Moment × CacheCall) :=
  [(⟨0, false⟩, .set "k" "v" 5), (⟨1, false⟩, .set "j" "u" (-1)),
    (⟨2, false⟩, .set "k" "w" 0), (⟨3, false⟩, .delete "j"), (⟨4, true⟩, .delete "k"),
    (⟨9, false⟩, .prune)]

/-- The second value is found until the usual time has passed. -/
theorem memory_history_overwritten :
    InOrder overwritten ∧ (∀ e ∈ overwritten, e.1.now ≤ 12) ∧
      Holds 10 overwritten 12 "k" "w" ∧ ¬ Holds 10 overwritten 12 "k" "v" := by
  have hclock : InOrder overwritten := by decide
  have hnow : ∀ e ∈ overwritten, e.1.now ≤ 12 := by decide
  have hget := (memory_history "p." 10 overwritten ⟨12, false⟩ hclock hnow).1 rfl "k"
  refine ⟨hclock, hnow, (hget.1 _).mp (by decide), fun hv => ?_⟩
  exact absurd ((hget.1 _).mpr hv) (by decide)

end Deriver
