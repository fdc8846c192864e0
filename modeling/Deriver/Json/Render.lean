import Deriver.Json.Basic

/-!
# Writing JSON

Strings are written so that the text can stand in a web page: besides what the
format itself demands, the angle brackets, the ampersand and the two Unicode
line separators are escaped. A byte that belongs to no character is written as
the escape of the replacement character.
-/

namespace Deriver.Json

def escaped (n : Nat) : Text := "\\u" ++ Text.hex 4 n

/-- How a character is written inside a string. -/
def writeChar (c : Char) : Text :=
  match c with
  | '"' => "\\\""
  | '\\' => "\\\\"
  | '\n' => "\\n"
  | '\r' => "\\r"
  | '\t' => "\\t"
  | _ =>
      let n := c.toNat
      if n = 8 then "\\b"
      else if n = 12 then "\\f"
      else if n < 32 || n = 60 || n = 62 || n = 38 || n = 0x2028 || n = 0x2029 then
        escaped n
      else Text.ofChar c

def quote (t : Text) : Text :=
  [34] ++ t.units.flatMap (fun
    | .inl c => writeChar c
    | .inr _ => escaped 0xFFFD) ++ [34]

mutual

/-- The value on one line, without spaces. -/
def compact : Json → Text
  | .null => "null"
  | .bool true => "true"
  | .bool false => "false"
  | .int n => Text.ofInt n
  | .real t => t
  | .str t => quote t
  | .arr items => "[" ++ Text.join "," (compactItems items) ++ "]"
  | .obj fields => "\x7b" ++ Text.join "," (compactFields fields) ++ "\x7d"

def compactItems : List Json → List Text
  | [] => []
  | j :: rest => compact j :: compactItems rest

def compactFields : List (Text × Json) → List Text
  | [] => []
  | (name, j) :: rest => (quote name ++ ":" ++ compact j) :: compactFields rest

end

def newline (depth : Nat) : Text := "\n" ++ Text.times "  " depth

mutual

/-- The value over several lines, the nested ones indented by two spaces each. -/
def indentedAt (depth : Nat) : Json → Text
  | .null => "null"
  | .bool true => "true"
  | .bool false => "false"
  | .int n => Text.ofInt n
  | .real t => t
  | .str t => quote t
  | .arr [] => "[]"
  | .arr (j :: rest) =>
      "[" ++ Text.join "," (indentedItems (depth + 1) (j :: rest)) ++ newline depth ++ "]"
  | .obj [] => "\x7b\x7d"
  | .obj (f :: rest) =>
      "\x7b" ++ Text.join "," (indentedFields (depth + 1) (f :: rest)) ++
        newline depth ++ "\x7d"

def indentedItems (depth : Nat) : List Json → List Text
  | [] => []
  | j :: rest => (newline depth ++ indentedAt depth j) :: indentedItems depth rest

def indentedFields (depth : Nat) : List (Text × Json) → List Text
  | [] => []
  | (name, j) :: rest =>
      (newline depth ++ quote name ++ ": " ++ indentedAt depth j) ::
        indentedFields depth rest

end

def indented (j : Json) : Text := indentedAt 0 j

end Deriver.Json
