import Deriver.Text.Utf8

/-!
# Changing a text in rounds

A rule that changes a text letter by letter, and may look ahead, is applied in
rounds. In each round it sees a window of at most 128 bytes, and the room for
what it writes is bounded too. A letter that it cannot settle within the window or
the room is left to the next round, which begins with that letter. What the rule
remembers from one round to the next is its state; everything else it knew about
the letters behind it is forgotten, so the place where a round ends can show in
the result.

As long as a rule changes nothing, every round has the room of a full window.
From the first change on all output shares one space, which grows only when a
round cannot write a single letter.
-/

namespace Deriver.Text

/-- A character, or a byte that belongs to none. -/
abbrev Letter := Char ⊕ UInt8

def ofLetter : Letter → Text
  | .inl c => ofChar c
  | .inr b => [b]

def ofLetters (ls : List Letter) : Text := ls.flatMap ofLetter

/-- Why a round ends. -/
inductive RoundEnd where
  /-- All letters of the window are settled, or the next window is needed. -/
  | window
  /-- The next letter does not fit into the room. -/
  | room
  deriving DecidableEq, Repr

/-- What a round did: the letters it wrote, those of the window that it left, and
the state it leaves behind. -/
structure Round (σ : Type) where
  written : Text
  left : List Letter
  state : σ
  ending : RoundEnd

/-- A rule: from its state, the room, the window, and whether the text ends with
the window, one round. -/
abbrev RoundRule (σ : Type) := σ → Nat → List Letter → Bool → Round σ

/-- The letters of a text that fit into so many bytes, and those behind them. -/
def fitting : Nat → List Letter → List Letter × List Letter
  | _, [] => ([], [])
  | n, l :: ls =>
      let size := (ofLetter l).length
      if size ≤ n then
        let (inside, beyond) := fitting (n - size) ls
        (l :: inside, beyond)
      else ([], l :: ls)

def windowSize : Nat := 128

def grown (size : Nat) : Nat :=
  if size ≤ 32 then 64 else if size ≤ 256 then 2 * size else size + size / 2

/-- One round at the front of some letters: what it wrote, and the letters it left. -/
def oneRound {σ : Type} (rule : RoundRule σ) (s : σ) (room : Nat) (ls : List Letter) :
    Text × List Letter × σ × RoundEnd :=
  let (inside, beyond) := fitting windowSize ls
  let r := rule s room inside beyond.isEmpty
  (r.written, r.left ++ beyond, r.state, r.ending)

/-- The rounds from the first change on; `size` is the space for output and `done`
the part of it that is written. -/
def changedRounds {σ : Type} (rule : RoundRule σ) :
    Nat → σ → Nat → Text → List Letter → Text
  | 0, _, _, done, _ => done
  | fuel + 1, s, size, done, ls =>
      if ls.isEmpty then done
      else
        let (written, left, s, ending) := oneRound rule s (size - done.length) ls
        let size := if ending = .room && written.isEmpty then grown size else size
        changedRounds rule fuel s size (done ++ written) left

/-- The rounds up to the first change; `same` is the text behind, which is as it
was, and `total` the length of the whole text. -/
def unchangedRounds {σ : Type} (rule : RoundRule σ) (total : Nat) :
    Nat → σ → Text → List Letter → Text
  | 0, _, same, _ => same
  | fuel + 1, s, same, ls =>
      if ls.isEmpty then same
      else
        let (written, left, s, ending) := oneRound rule s windowSize ls
        let taken := ofLetters (ls.take (ls.length - left.length))
        if written == taken && ending = .window && left.length < ls.length then
          unchangedRounds rule total fuel s (same ++ written) left
        else
          let done := same ++ written
          let kept := if written == taken then done else same
          let size :=
            if !kept.isEmpty && done.length > windowSize
              then total + written.length - taken.length
            else windowSize
          changedRounds rule (2 * left.length + 1) s size done left

def inRounds {σ : Type} (rule : RoundRule σ) (s : σ) (t : Text) : Text :=
  unchangedRounds rule t.length (t.length + 1) s [] t.units

end Deriver.Text
