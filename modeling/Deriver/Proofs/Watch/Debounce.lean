import Deriver.Watch.Watcher
import Mathlib

/-!
# A debouncer among its timers

Main statement: `run_exact`. Files are added, timers run out and hand over what is pending,
and at some time everything is stopped, in any order. Only what a debouncer does while it
holds its lock is one step: a timer that has run out may wait for the lock while more files
are added, another timer may take what it was set for, and what it took is passed on after
the lock was given back. Setting a new timer asks the old one to stop, but that may be too
late, so any timer that was ever set may run out.

The invariant (`Fits`) reads everything off the log of what was done under the lock: pending
are the files that were added since the last batch was taken (`Waits`). What each step adds
to the log it says in terms of the log before, so the log is never looked through again.
-/

namespace Deriver

namespace Text

theorem le_total (s t : Text) : (le s t || le t s) = true := by
  induction s generalizing t with
  | nil => rfl
  | cons a s ih =>
      cases t with
      | nil => rfl
      | cons b t =>
          have hst := ih t
          unfold le
          grind

theorem le_trans (s t u : Text) (hst : le s t = true) (htu : le t u = true) :
    le s u = true := by
  induction s generalizing t u with
  | nil => rfl
  | cons a s ih =>
      cases t with
      | nil => cases hst
      | cons b t =>
          cases u with
          | nil => cases htu
          | cons c u =>
              have hstu := ih t u
              unfold le at hst htu ⊢
              grind

theorem pairwise_sort (ts : List Text) : (sort ts).Pairwise (le · · = true) :=
  List.pairwise_mergeSort le_trans le_total ts

end Text

/-- How far a timer is that was set. -/
inductive Timer where
  /-- It may still run out, also after it was asked to stop. -/
  | running
  /-- It ran out and waits for the lock. -/
  | due
  /-- It took a batch and passes it on. -/
  | handing (batch : List Text)
  | finished
  deriving DecidableEq, Repr

/-- What is done under the lock. -/
inductive Note where
  | added (file : Text)
  | took (batch : List Text)
  | stopped (dropped : List Text)
  deriving DecidableEq, Repr

/-- A debouncer with all the timers that were set, what was passed on, and the log. -/
structure Debouncing where
  changes : Debouncer := {}
  timers : List Timer := []
  delivered : List (List Text) := []
  log : List Note := []
  deriving DecidableEq, Repr

/-- What may happen next. -/
inductive Turn where
  | add (file : Text)
  | runOut (timer : Nat)
  /-- The timer has the lock. -/
  | hand (timer : Nat)
  | deliver (timer : Nat)
  | stop
  deriving DecidableEq, Repr

/-- The batch that a timer holds. -/
def Timer.batch? : Timer → Option (List Text)
  | .handing batch => some batch
  | _ => none

/-- The batch that was taken. -/
def Note.batch? : Note → Option (List Text)
  | .took batch => some batch
  | _ => none

/-- The turn that a note tells of, unless a timer took a batch. -/
def Note.turn? : Note → Option Turn
  | .added file => some (.add file)
  | .took _ => none
  | .stopped _ => some .stop

/-- Whether a turn is not one of a timer. -/
def Turn.isCall : Turn → Bool
  | .add _ => true
  | .stop => true
  | _ => false

namespace Debouncing

/-- What happens in a turn. A turn that is not to be had yet changes nothing. -/
def turn (w : Debouncing) : Turn → Debouncing
  | .add file =>
      { w with
        changes := w.changes.add file
        timers := if w.changes.stopped then w.timers else w.timers ++ [.running]
        log := w.log ++ [.added file] }
  | .runOut k =>
      match w.timers[k]? with
      | some .running => { w with timers := w.timers.set k .due }
      | _ => w
  | .hand k =>
      match w.timers[k]? with
      | some .due =>
          match w.changes.fire with
          | (some batch, changes) =>
              { w with
                changes := changes
                timers := w.timers.set k (.handing batch)
                log := w.log ++ [.took batch] }
          | (none, changes) =>
              { w with changes := changes, timers := w.timers.set k .finished }
      | _ => w
  | .deliver k =>
      match w.timers[k]? with
      | some (.handing batch) =>
          { w with timers := w.timers.set k .finished, delivered := w.delivered ++ [batch] }
      | _ => w
  | .stop =>
      { w with changes := w.changes.stop, log := w.log ++ [.stopped w.changes.pending] }

/-- What a sequence of turns makes of a new debouncer. -/
def run (ts : List Turn) : Debouncing := ts.foldl turn {}

end Debouncing

/-! ## The log -/

/-- A file was added and has been neither taken nor dropped since. -/
def Waits (log : List Note) (file : Text) : Prop :=
  ∃ before after, log = before ++ .added file :: after ∧ (∀ batch, .took batch ∉ after) ∧
    ∀ dropped, .stopped dropped ∉ before ++ after

/-- What became of an addition, by the log behind it and what is pending in the end: the
next batch holds the file, or it was dropped at the stop, or it is pending. -/
inductive Accounted (file : Text) (after : List Note) (pending : List Text) : Prop where
  | taken (between rest : List Note) (batch : List Text)
      (split : after = between ++ .took batch :: rest)
      (additions : ∀ n ∈ between, ∃ other, n = .added other) (mem : file ∈ batch)
  | dropped (between rest : List Note) (dropped : List Text)
      (split : after = between ++ .stopped dropped :: rest)
      (additions : ∀ n ∈ between, ∃ other, n = .added other) (mem : file ∈ dropped)
  | pending (additions : ∀ n ∈ after, ∃ other, n = .added other) (mem : file ∈ pending)

/-- A batch is what was added since the one before, each file once and in order. -/
structure Exact (log : List Note) (batch : List Text) : Prop where
  sorted : batch.Pairwise (Text.le · · = true)
  nodup : batch.Nodup
  nonempty : batch ≠ []
  mem : ∀ file, file ∈ batch ↔ Waits log file

namespace Waits

variable {log : List Note} {file other : Text}

theorem nil : ¬ Waits [] file := by
  rintro ⟨before, after, heq, -⟩
  exact List.append_ne_nil_of_right_ne_nil _ (List.cons_ne_nil _ _) heq.symm

/-- What waits behind one more note is what was added by it or waited before. -/
theorem of_concat {n : Note} (h : Waits (log ++ [n]) file) :
    (n = .added file ∧ ∀ dropped, .stopped dropped ∉ log) ∨
      (Waits log file ∧ n.batch? = none ∧ ∀ dropped, n ≠ .stopped dropped) := by
  obtain ⟨before, after, heq, htook, hstopped⟩ := h
  rcases List.eq_nil_or_concat' after with rfl | ⟨after, last, rfl⟩
  · obtain ⟨rfl, hn⟩ := List.append_inj' heq rfl
    rw [List.append_nil] at hstopped
    exact Or.inl ⟨List.singleton_inj.mp hn, hstopped⟩
  · rw [← List.cons_append, ← List.append_assoc] at heq
    obtain ⟨rfl, hn⟩ := List.append_inj' heq rfl
    obtain rfl := List.singleton_inj.mp hn
    refine Or.inr ⟨⟨before, after, rfl, fun b hb => ?_, fun d hd => ?_⟩, ?_,
      fun d heq => ?_⟩
    · exact htook b (List.mem_append_left _ hb)
    · exact hstopped d (by rw [← List.append_assoc]; exact List.mem_append_left _ hd)
    · cases n with
      | took b => exact absurd (List.mem_append_right _ List.mem_cons_self) (htook b)
      | _ => rfl
    · subst heq
      exact hstopped d (List.mem_append_right _
        (List.mem_append_right _ List.mem_cons_self))

theorem concat_added :
    Waits (log ++ [.added other]) file ↔
      Waits log file ∨ (file = other ∧ ∀ dropped, .stopped dropped ∉ log) := by
  constructor
  · intro h
    rcases h.of_concat with ⟨hn, hstopped⟩ | ⟨h, -⟩
    · exact Or.inr ⟨(Note.added.inj hn).symm, hstopped⟩
    · exact Or.inl h
  · rintro (⟨before, after, rfl, htook, hstopped⟩ | ⟨rfl, hstopped⟩)
    · refine ⟨before, after ++ [.added other], by simp, fun b hb => ?_, fun d hd => ?_⟩
      · exact htook b (by simpa using hb)
      · exact hstopped d (by simpa using hd)
    · exact ⟨log, [], rfl, fun b hb => (nomatch hb), by simpa using hstopped⟩

theorem concat_took {batch : List Text} : ¬ Waits (log ++ [.took batch]) file := by
  intro h
  rcases h.of_concat with ⟨hn, -⟩ | ⟨-, hn, -⟩
  · cases hn
  · cases hn

theorem concat_stopped {dropped : List Text} :
    ¬ Waits (log ++ [.stopped dropped]) file := by
  intro h
  rcases h.of_concat with ⟨hn, -⟩ | ⟨-, -, hn⟩
  · cases hn
  · exact hn dropped rfl

end Waits

/-- A note that stands in a log with one more note is that one or stood there before. -/
theorem concat_prefix {before log : List Note} {n last : Note} :
    before ++ [n] <+: log ++ [last] ↔ (before = log ∧ n = last) ∨
    before ++ [n] <+: log := by
  rw [List.prefix_concat_iff]
  refine or_congr_left ⟨fun h => ?_, fun h => by rw [h.1, h.2]⟩
  obtain ⟨hbefore, hn⟩ := List.append_inj' h rfl
  exact ⟨hbefore, List.singleton_inj.mp hn⟩

/-- A log tells what a debouncer holds, and every batch in it is exact. -/
structure Tells (log : List Note) (d : Debouncer) : Prop where
  nodup : d.pending.Nodup
  stopped : d.stopped = true ↔ ∃ dropped, .stopped dropped ∈ log
  pending : ∀ file, file ∈ d.pending ↔ Waits log file
  took : ∀ before batch, before ++ [.took batch] <+: log → Exact before batch
  dropped : ∀ before dropped, before ++ [.stopped dropped] <+: log →
    ∀ file, file ∈ dropped ↔ Waits before file

namespace Tells

variable {log : List Note} {d : Debouncer}

theorem new : Tells [] {} where
  nodup := List.nodup_nil
  stopped := ⟨fun h => (nomatch h), fun ⟨_, h⟩ => (nomatch h)⟩
  pending _ := ⟨fun h => (nomatch h), fun h => absurd h Waits.nil⟩
  took before batch h := absurd (List.prefix_nil.mp h) (by simp)
  dropped before dropped h := absurd (List.prefix_nil.mp h) (by simp)

theorem mem_add (file other : Text) :
    other ∈ (d.add file).pending ↔
      other ∈ d.pending ∨ (other = file ∧ d.stopped = false) := by
  unfold Debouncer.add
  cases hstopped : d.stopped with
  | true => simp
  | false =>
      by_cases hmem : file ∈ d.pending
      · simp only [Bool.false_or, List.contains_eq_mem, hmem, decide_true,
          if_true, and_true]
        exact ⟨Or.inl, fun h => h.elim id fun heq => heq ▸ hmem⟩
      · simp [hmem]

theorem add (h : Tells log d) (file : Text) :
    Tells (log ++ [.added file]) (d.add file) where
  nodup := by
    unfold Debouncer.add
    split
    · exact h.nodup
    · next hnew =>
        have hnew : file ∉ d.pending := fun hmem => hnew (by simp [hmem])
        exact List.nodup_append.mpr ⟨h.nodup, List.nodup_singleton _, by grind⟩
  stopped := by
    have heq : (d.add file).stopped = d.stopped := by
      unfold Debouncer.add
      split <;> rfl
    rw [heq, h.stopped]
    simp
  pending other := by
    rw [mem_add, h.pending, Waits.concat_added]
    refine or_congr_right (and_congr_right fun _ => ?_)
    rw [← Bool.not_eq_true, h.stopped, not_exists]
  took before batch hpre := by
    rcases concat_prefix.mp hpre with ⟨-, hn⟩ | hpre
    · cases hn
    · exact h.took before batch hpre
  dropped before dropped hpre := by
    rcases concat_prefix.mp hpre with ⟨-, hn⟩ | hpre
    · cases hn
    · exact h.dropped before dropped hpre

/-- A batch that is taken is exact, and nothing waits behind it. -/
theorem take (h : Tells log d) (hne : d.pending ≠ []) :
    Tells (log ++ [.took (Text.sort d.pending)]) { d with pending := [] } where
  nodup := List.nodup_nil
  stopped := by
    rw [h.stopped]
    simp
  pending file := ⟨fun hmem => (nomatch hmem), fun hw => absurd hw Waits.concat_took⟩
  took before batch hpre := by
    rcases concat_prefix.mp hpre with ⟨rfl, hn⟩ | hpre
    · obtain rfl := Note.took.inj hn
      have hperm : (Text.sort d.pending).Perm d.pending := List.mergeSort_perm _ _
      exact {
        sorted := Text.pairwise_sort d.pending
        nodup := hperm.nodup_iff.mpr h.nodup
        nonempty := fun heq => hne (List.nil_perm.mp (heq ▸ hperm))
        mem := fun file => by rw [hperm.mem_iff, h.pending] }
    · exact h.took before batch hpre
  dropped before dropped hpre := by
    rcases concat_prefix.mp hpre with ⟨-, hn⟩ | hpre
    · cases hn
    · exact h.dropped before dropped hpre

theorem stop (h : Tells log d) : Tells (log ++ [.stopped d.pending]) d.stop where
  nodup := List.nodup_nil
  stopped := ⟨fun _ => ⟨d.pending, by simp⟩, fun _ => rfl⟩
  pending file := ⟨fun hmem => (nomatch hmem), fun hw => absurd hw Waits.concat_stopped⟩
  took before batch hpre := by
    rcases concat_prefix.mp hpre with ⟨-, hn⟩ | hpre
    · cases hn
    · exact h.took before batch hpre
  dropped before dropped hpre := by
    rcases concat_prefix.mp hpre with ⟨rfl, hn⟩ | hpre
    · obtain rfl := Note.stopped.inj hn
      exact h.pending
    · exact h.dropped before dropped hpre

theorem stopped_of_took {before : List Note} {batch : List Text} (h : Tells log d)
    (hpre : before ++ [.took batch] <+: log) (dropped : List Text) :
    .stopped dropped ∉ before := by
  obtain ⟨_, _, hnonempty, hmem⟩ := h.took before batch hpre
  obtain ⟨file, hfile⟩ := List.exists_mem_of_ne_nil batch hnonempty
  obtain ⟨front, after, rfl, -, hstopped⟩ := (hmem file).mp hfile
  intro hin
  refine hstopped dropped ?_
  simpa using hin

end Tells

namespace Debouncing

variable {w : Debouncing}

/-- Whether a timer has still to hand over what is pending. -/
def Pends (t : Timer) : Prop := t = .running ∨ t = .due

/-- The timer that was set last has still to hand over what is pending. -/
def Latest (timers : List Timer) : Prop := ∃ before t, timers = before ++ [t] ∧ Pends t

/-- What holds after any turns. -/
structure Fits (w : Debouncing) : Prop where
  tells : Tells w.log w.changes
  latest : w.changes.pending ≠ [] → Latest w.timers
  /-- What was taken is passed on once, or a timer holds it. -/
  held : (w.delivered ++ w.timers.filterMap Timer.batch?).Perm (w.log.filterMap Note.batch?)

theorem set_eq {timers : List Timer} {k : Nat} {t : Timer} (h : timers[k]? = some t)
    (next : Timer) :
    ∃ before after, timers = before ++ t :: after ∧
    timers.set k next = before ++ next :: after := by
  obtain ⟨hk, rfl⟩ := List.getElem?_eq_some_iff.mp h
  obtain ⟨before, after, heq, -, hset⟩ := List.exists_of_set hk
  exact ⟨before, after, heq, hset⟩

theorem filterMap_set {timers : List Timer} {k : Nat} {t : Timer} (h : timers[k]? = some t)
    (next : Timer) (hbatch : next.batch? = t.batch?) :
    (timers.set k next).filterMap Timer.batch? = timers.filterMap Timer.batch? := by
  obtain ⟨before, after, heq, hset⟩ := set_eq h next
  rw [hset, heq, List.filterMap_append, List.filterMap_append, List.filterMap_cons,
    List.filterMap_cons, hbatch]

theorem Latest.set {timers : List Timer} {k : Nat} {t next : Timer} (hl : Latest timers)
    (h : timers[k]? = some t) (hnext : Pends t → Pends next) :
    Latest (timers.set k next) := by
  obtain ⟨before, last, heq, hlast⟩ := hl
  obtain ⟨front, after, hfront, hset⟩ := set_eq h next
  rw [hset]
  rcases List.eq_nil_or_concat' after with rfl | ⟨after, last', rfl⟩
  · obtain ⟨-, hsame⟩ := List.append_inj' (heq.symm.trans hfront) rfl
    exact ⟨front, next, rfl, hnext (List.singleton_inj.mp hsame ▸ hlast)⟩
  · rw [← List.cons_append, ← List.append_assoc] at hfront
    obtain ⟨-, hsame⟩ := List.append_inj' (heq.symm.trans hfront) rfl
    exact ⟨front ++ next :: after, last', by simp, List.singleton_inj.mp hsame ▸ hlast⟩

theorem filterMap_concat {n : Note} (log : List Note) (hn : n.batch? = none) :
    (log ++ [n]).filterMap Note.batch? = log.filterMap Note.batch? := by
  rw [List.filterMap_append, List.filterMap_cons_none hn, List.filterMap_nil,
    List.append_nil]

theorem Fits.add (h : w.Fits) (file : Text) : (w.turn (.add file)).Fits where
  tells := h.tells.add file
  latest hne := by
    unfold turn
    dsimp only
    cases hstopped : w.changes.stopped with
    | true =>
        have hsame : w.changes.add file = w.changes := if_pos (by rw [hstopped]; rfl)
        exact h.latest (hsame ▸ hne)
    | false => exact ⟨w.timers, .running, rfl, Or.inl rfl⟩
  held := by
    have htimers : (if w.changes.stopped then w.timers else
        w.timers ++ [.running]).filterMap
        Timer.batch? = w.timers.filterMap Timer.batch? := by
      split
      · rfl
      · rw [List.filterMap_append]
        exact List.append_nil _
    unfold turn
    dsimp only
    rw [htimers, filterMap_concat w.log rfl]
    exact h.held

/-- A timer that has the lock takes all that is pending, or is finished. -/
theorem Fits.hand (h : w.Fits) {k : Nat} (hk : w.timers[k]? = some .due) :
    (w.turn (.hand k)).Fits := by
  unfold turn Debouncer.fire
  simp only [hk]
  cases hpending : w.changes.pending with
  | nil =>
      refine ⟨h.tells, fun hne => absurd hpending hne, ?_⟩
      change (w.delivered ++ (w.timers.set k .finished).filterMap Timer.batch?).Perm _
      rw [filterMap_set hk .finished rfl]
      exact h.held
  | cons file files =>
      have htells := h.tells.take (hpending ▸ List.cons_ne_nil file files)
      rw [hpending] at htells
      refine ⟨htells, fun hne => absurd rfl hne, ?_⟩
      obtain ⟨before, after, heq, hset⟩ := set_eq hk (.handing (Text.sort (file :: files)))
      have hheld := h.held
      simp only [heq, List.filterMap_append, List.filterMap_cons, Timer.batch?] at hheld
      simp only [List.isEmpty_cons, Bool.false_eq_true, if_false, hset,
        List.filterMap_append, List.filterMap_cons, List.filterMap_nil, Timer.batch?,
        Note.batch?]
      rw [← List.append_assoc] at hheld ⊢
      exact List.perm_middle.trans
        ((hheld.cons _).trans (List.perm_append_singleton _ _).symm)

theorem Fits.deliver (h : w.Fits) {k : Nat} {batch : List Text}
    (hk : w.timers[k]? = some (.handing batch)) : (w.turn (.deliver k)).Fits := by
  unfold turn
  simp only [hk]
  refine ⟨h.tells, fun hne => (h.latest hne).set hk fun hp => ?_, ?_⟩
  · rcases hp with hp | hp <;> cases hp
  · obtain ⟨before, after, heq, hset⟩ := set_eq hk .finished
    refine List.Perm.trans ?_ h.held
    dsimp only
    rw [hset, heq]
    simp only [List.filterMap_append, List.filterMap_cons, Timer.batch?, List.append_assoc,
      List.cons_append, List.nil_append]
    exact List.Perm.append_left _ List.perm_middle.symm

theorem Fits.turn (h : w.Fits) (t : Turn) : (w.turn t).Fits := by
  cases t with
  | add file => exact h.add file
  | runOut k =>
      unfold Debouncing.turn
      dsimp only
      split
      · next hk =>
          refine ⟨h.tells, fun hne => (h.latest hne).set hk fun _ => Or.inr rfl, ?_⟩
          dsimp only
          rw [filterMap_set hk .due rfl]
          exact h.held
      · exact h
  | hand k =>
      by_cases hk : w.timers[k]? = some .due
      · exact h.hand hk
      · unfold Debouncing.turn
        dsimp only
        split
        · next hdue => exact absurd hdue hk
        · exact h
  | deliver k =>
      cases hk : w.timers[k]? with
      | none => simpa only [Debouncing.turn, hk] using h
      | some t =>
          cases t with
          | handing batch => exact h.deliver hk
          | _ => simpa only [Debouncing.turn, hk] using h
  | stop =>
      refine ⟨h.tells.stop, fun hne => absurd rfl hne, ?_⟩
      unfold Debouncing.turn
      dsimp only
      rw [filterMap_concat w.log rfl]
      exact h.held

theorem fits_run (ts : List Turn) : (run ts).Fits := by
  induction ts using List.reverseRecOn with
  | nil => exact ⟨Tells.new, fun hne => absurd rfl hne, List.Perm.nil⟩
  | append_singleton ts t ih =>
      unfold run at ih ⊢
      rw [List.foldl_concat]
      exact ih.turn t

/-- The log tells of the turns that are not a timer's, in their order. -/
theorem log_run (ts : List Turn) :
    (run ts).log.filterMap Note.turn? = ts.filter Turn.isCall := by
  induction ts using List.reverseRecOn with
  | nil => rfl
  | append_singleton ts t ih =>
      have hrun : run (ts ++ [t]) = (run ts).turn t := List.foldl_concat ..
      rw [hrun, List.filter_append, ← ih]
      generalize run ts = w
      cases t with
      | add file => exact List.filterMap_append
      | stop => exact List.filterMap_append
      | runOut k =>
          unfold turn
          dsimp only
          split <;> exact (List.append_nil _).symm
      | deliver k =>
          unfold turn
          dsimp only
          split <;> exact (List.append_nil _).symm
      | hand k =>
          unfold turn
          dsimp only
          split
          · split
            · rw [List.filterMap_append]
              rfl
            · exact (List.append_nil _).symm
          · exact (List.append_nil _).symm

/-- A log begins with additions, up to the first batch or stop. -/
theorem split_additions (log : List Note) :
    (∀ n ∈ log, ∃ other, n = .added other) ∨
      ∃ between n rest, log = between ++ n :: rest ∧
      (∀ n ∈ between, ∃ other, n = .added other) ∧ ∀ other, n ≠ .added other := by
  induction log with
  | nil => exact Or.inl fun n hn => (nomatch hn)
  | cons n log ih =>
      cases n with
      | added file =>
          rcases ih with h | ⟨between, n, rest, rfl, h, hn⟩
          · exact Or.inl (List.forall_mem_cons.mpr ⟨⟨file, rfl⟩, h⟩)
          · exact Or.inr ⟨.added file :: between, n, rest, rfl,
              List.forall_mem_cons.mpr ⟨⟨file, rfl⟩, h⟩, hn⟩
      | took batch =>
          exact Or.inr ⟨[], .took batch, log, rfl, fun n hn => (nomatch hn),
            fun _ h => (nomatch h)⟩
      | stopped dropped =>
          exact Or.inr ⟨[], .stopped dropped, log, rfl, fun n hn => (nomatch hn),
            fun _ h => (nomatch h)⟩

/-- Behind an addition the next batch or the stop comes first, or neither. -/
theorem Fits.accounted (h : w.Fits) {before after : List Note} {file : Text}
    (hlog : w.log = before ++ .added file :: after)
    (hbefore : ∀ dropped, .stopped dropped ∉ before) :
    Accounted file after w.changes.pending := by
  have hwaits {between : List Note} (hb : ∀ n ∈ between, ∃ other, n = .added other) :
      Waits (before ++ .added file :: between) file := by
    refine ⟨before, between, rfl, fun b hmem => ?_, fun d hmem => ?_⟩
    · obtain ⟨other, hn⟩ := hb _ hmem
      cases hn
    · rcases List.mem_append.mp hmem with hmem | hmem
      · exact hbefore d hmem
      · obtain ⟨other, hn⟩ := hb _ hmem
        cases hn
  rcases split_additions after with hall | ⟨between, n, rest, rfl, hb, hn⟩
  · exact .pending hall ((h.tells.pending file).mpr (hlog ▸ hwaits hall))
  · have hpre : (before ++ .added file :: between) ++ [n] <+: w.log :=
      ⟨rest, by simp [hlog]⟩
    cases n with
    | added other => exact absurd rfl (hn other)
    | took batch =>
        exact .taken between rest batch rfl hb
          (((h.tells.took _ _ hpre).mem file).mpr (hwaits hb))
    | stopped dropped =>
        exact .dropped between rest dropped rfl hb
          ((h.tells.dropped _ _ hpre file).mpr (hwaits hb))

/-- A debouncer loses nothing and duplicates nothing, whatever the turns are. Every batch
that is taken is passed on once, or a timer holds it; a batch is sorted and is what was
added since the one before; what was added before the stop is in the next batch, pending,
or was dropped at the stop; and after the stop nothing is taken and nothing is pending. -/
theorem run_exact (ts : List Turn) :
    let w := run ts
    w.log.filterMap Note.turn? = ts.filter Turn.isCall ∧
    (w.delivered ++ w.timers.filterMap Timer.batch?).Perm (w.log.filterMap Note.batch?) ∧
    (∀ before batch, before ++ [.took batch] <+: w.log → Exact before batch) ∧
    (∀ before file after, w.log = before ++ .added file :: after →
      (∀ dropped, .stopped dropped ∉ before) → Accounted file after w.changes.pending) ∧
    (w.changes.pending ≠ [] → Latest w.timers) ∧
    (∀ before dropped after, w.log = before ++ .stopped dropped :: after →
      (∀ batch, .took batch ∉ after) ∧ w.changes.pending = []) := by
  intro w
  have h : w.Fits := fits_run ts
  refine ⟨log_run ts, h.held, h.tells.took, fun before file after => h.accounted, h.latest,
    fun before dropped after hlog => ⟨fun batch hmem => ?_, ?_⟩⟩
  · obtain ⟨between, rest, rfl⟩ := List.append_of_mem hmem
    have hpre : (before ++ .stopped dropped :: between) ++ [.took batch] <+: w.log :=
      ⟨rest, by simp [hlog]⟩
    exact h.tells.stopped_of_took hpre dropped (by simp)
  · refine List.eq_nil_iff_forall_not_mem.mpr fun file hfile => ?_
    obtain ⟨front, rest, heq, -, hstopped⟩ := (h.tells.pending file).mp hfile
    have hmem : Note.stopped dropped ∈ w.log := by rw [hlog]; simp
    rw [heq] at hmem
    exact hstopped dropped (by simpa using hmem)

/-- The first timer takes what was added after it ran out, and the second runs out too
late. -/
def staleTurns : List Turn :=
  [.add "b", .runOut 0, .add "a", .hand 0, .add "b", .runOut 1, .deliver 0, .stop,
    .add "c", .hand 1]

theorem run_exact_stale :
    (run staleTurns).log =
        [.added "b", .added "a", .took ["a", "b"], .added "b", .stopped ["b"], .added "c"] ∧
      Exact [.added "b", .added "a"] ["a", "b"] := by
  have hlog : (run staleTurns).log =
      [.added "b", .added "a", .took ["a", "b"], .added "b", .stopped ["b"],
        .added "c"] := by
    cbv
  exact ⟨hlog, (run_exact staleTurns).2.2.1 _ _ ⟨_, hlog.symm⟩⟩

end Debouncing

end Deriver