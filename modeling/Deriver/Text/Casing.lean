import Deriver.Text.Round
import Deriver.Text.Class.Cased

/-!
# Lower, upper and title case

The full mappings of the Unicode standard, without tailoring to a language. A
capital sigma at the end of a word becomes the final small sigma, and title case
looks for words: their first cased letter is raised and the others are lowered.
Bytes that belong to no character stay as they are. Lower and title case work in
rounds (`Deriver.Text.Round`), because a sigma has to look ahead.

The casing of whole texts is left to an outside library that is no part of the program.
`lower`, `upper` and `title` are defined by what is documented of it. Theorems need two
facts of them and nothing else: the bytes of names are lowered to bytes of names
(`wordy_lower`), and ASCII is lowered letter by letter (`lower_ascii`).
-/

namespace Deriver.Text

/-! ## One character -/

def lowerChar (c : Char) : Char := Char.ofNat (shiftBy lowerShifts c.toNat)

def upperChar (c : Char) : Char := Char.ofNat (shiftBy upperShifts c.toNat)

/-- The full lower-case form. Only the dotted capital I needs two characters. -/
def lowerForm (c : Char) : Text :=
  if c.toNat = 0x130 then ofChars ['i', Char.ofNat 0x307] else ofChar (lowerChar c)

def upperForm (c : Char) : Text :=
  match upperWide.find? (·.1 == c.toNat) with
  | some (_, form) => form.flatMap ofCodePoint
  | none => ofChar (upperChar c)

def titleForm (c : Char) : Text :=
  match titleWide.find? (·.1 == c.toNat) with
  | some (_, form) => form.flatMap ofCodePoint
  | none =>
      if inRuns titleFixed c.toNat then ofChar c
      else
        match shiftBy titleShifts c.toNat with
        | n => if n = c.toNat then ofChar (upperChar c) else ofCodePoint n

/-! ## Whole texts -/

/-- The capital sigma, whose small form depends on its place. -/
def sigma : Char := Char.ofNat 0x3A3

def isPassed : Letter → Bool
  | .inl c => isCaseIgnorable c
  | .inr _ => false

def hasCase : Letter → Bool
  | .inl c => isCased c
  | .inr _ => false

def isWordBreak : Letter → Bool
  | .inl c => !isWordPart c
  | .inr _ => true

/-- The signs that join the letters on both sides into one word, if there is only
one of them. -/
def joiners : List Nat :=
  [0x27, 0x2E, 0x3A, 0xB7, 0x387, 0x55F, 0x5F4, 0x2018, 0x2019, 0x2024, 0x2027,
    0xFE13, 0xFE52,
   0xFE55, 0xFF07, 0xFF0E, 0xFF1A]

def isJoiner : Letter → Bool
  | .inl c => joiners.contains c.toNat
  | .inr _ => false

def sigmaReach : Nat := 31

/-- The letters behind a sigma that casing passes over, and those behind them. -/
def passedOver (ls : List Letter) : List Letter × List Letter :=
  let passed := (ls.take sigmaReach).takeWhile isPassed
  (passed, ls.drop passed.length)

/-- What a sigma inside a word comes to: it is settled, with its small form and the
letters that were passed over, or more room or more of the text is needed. -/
inductive SigmaForm where
  | settled (form : Text) (rest : List Letter)
  | noRoom
  | undecided

/-- The small form of a sigma inside a word, together with the letters behind it
that casing passes over: it is final unless a cased letter follows them. -/
def sigmaForm (room : Nat) (after : List Letter) (atEnd : Bool) : SigmaForm :=
  let (passed, rest) := passedOver after
  let form (n : Nat) : Text := ofCodePoint n ++ ofLetters passed
  if (form 0x3C2).length > room then .noRoom
  else if passed.length = sigmaReach then .settled (form 0x3C2) rest
  else
    match rest with
    | [] => if atEnd then .settled (form 0x3C2) [] else .undecided
    | l :: _ => .settled (form (if hasCase l then 0x3C3 else 0x3C2)) rest

/-- The state of a round with one more piece of output before it. -/
def Round.before {σ : Type} (t : Text) (r : Round σ) : Round σ :=
  { r with written := t ++ r.written }

/-- A round of lower-casing; `inWord` says whether a cased letter came before in the
same word and the same round. The fuel is the number of letters. -/
def lowerRound : Nat → Bool → Nat → List Letter → Bool → Round Unit
  | 0, _, _, ls, _ => ⟨[], ls, (), .window⟩
  | _ + 1, _, _, [], _ => ⟨[], [], (), .window⟩
  | fuel + 1, inWord, room, l :: rest, atEnd =>
      let settle (inWord : Bool) (form : Text) (rest : List Letter) : Round Unit :=
        if form.length > room then ⟨[], l :: rest, (), .room⟩
        else (lowerRound fuel inWord (room - form.length) rest atEnd).before form
      match l with
      | .inr b => settle false [b] rest
      | .inl c =>
          if inWord && c == sigma then
            match sigmaForm room rest atEnd with
            | .settled form rest => settle true form rest
            | .noRoom => ⟨[], l :: rest, (), .room⟩
            | .undecided => ⟨[], l :: rest, (), .window⟩
          else if isCased c then settle true (lowerForm c) rest
          else settle (inWord && isCaseIgnorable c) (ofChar c) rest

/-- Lower case as the outside library has it. -/
def lower (t : Text) : Text :=
  inRounds (fun _ room ls atEnd => lowerRound ls.length false room ls atEnd) () t

/-- Upper case as the outside library has it. -/
def upper (t : Text) : Text :=
  t.units.flatMap fun
    | .inl c => upperForm c
    | .inr b => [b]

/-- Whether the word goes on behind the letters that a sigma passed over: no break
and no two joiners in a row are among them. -/
def wordGoesOn (passed : List Letter) : Bool :=
  let pairs := passed.zip (passed.drop 1)
  !passed.any isWordBreak && !pairs.any fun (a, b) => isJoiner a && isJoiner b

/-- One letter of title case: `form` is written for it, the letters `rest` follow,
and `inWord` says whether the word's first cased letter has passed. -/
inductive TitleStep where
  | settled (form : Text) (rest : List Letter) (inWord : Bool)
  | unsettled (ending : RoundEnd) (inWord : Bool)

/-- The title case of the first of some letters. Where a sigma cannot be settled, a
break behind it has already ended the word. -/
def titleStep (inWord : Bool) (room : Nat) (l : Letter) (rest : List Letter)
    (atEnd : Bool) : TitleStep :=
  let settle (form : Text) (inWord : Bool) (after : Bool) : TitleStep :=
    if form.length > room then .unsettled .room inWord else .settled form rest after
  match l with
  | .inr b => settle [b] inWord false
  | .inl c =>
      if !isCased c then settle (ofChar c) inWord (inWord && isWordPart c)
      else if !inWord then settle (titleForm c) inWord true
      else if c == sigma then
        let (passed, _) := passedOver rest
        match sigmaForm room rest atEnd with
        | .settled form rest => .settled form rest (wordGoesOn passed)
        | .undecided => .unsettled .window (wordGoesOn passed)
        | .noRoom =>
            let written := (fitting (room - 2) passed).1.length + 1
            .unsettled .room (room < 2 || wordGoesOn (passed.take written))
      else settle (lowerForm c) inWord true

/-- A round of title case. A joiner inside a word is settled only together with the
letter behind it: `held` is what was written for it, and `from` the letters from it
on. `joined` says whether the last letter of the round was a joiner. -/
def titleRound : Nat → Bool → Bool → Text → List Letter → Nat → List Letter →
    Bool → Round Bool
  | 0, inWord, _, _, held, _, _, _ => ⟨[], held, inWord, .window⟩
  | _ + 1, inWord, _, written, held, _, [], atEnd =>
      if atEnd then ⟨written, [], inWord, .window⟩ else ⟨[], held, inWord, .window⟩
  | fuel + 1, inWord, joined, written, held, room, l :: rest, atEnd =>
      let inWord := inWord && !(joined && isJoiner l)
      match titleStep inWord room l rest atEnd with
      | .unsettled ending inWord => ⟨[], held, inWord, ending⟩
      | .settled form rest inWord =>
          let room := room - form.length
          let written := written ++ form
          if inWord && isJoiner l
            then titleRound fuel inWord true written held room rest atEnd
          else (titleRound fuel inWord (isJoiner l) [] rest room rest atEnd).before written

/-- Title case as the outside library has it. -/
def title (t : Text) : Text :=
  inRounds (fun inWord room ls atEnd => titleRound (ls.length + 1) inWord false
    [] ls room ls atEnd)
    false t

/-! ## Letter by letter -/

/-- The text with every character in its simple lower-case form, for comparing
without regard to case. Bytes that belong to no character are replaced. -/
def fold (t : Text) : Text :=
  ofChars (t.chars.map fun c => Char.ofNat
    (shiftBy (lowerShifts ++ laterLowerShifts) c.toNat))

/-- The text with every character in its simple upper-case form. Bytes that belong
to no character are replaced. -/
def capitals (t : Text) : Text :=
  ofChars (t.chars.map fun c => Char.ofNat
    (shiftBy (upperShifts ++ laterUpperShifts) c.toNat))

end Deriver.Text
