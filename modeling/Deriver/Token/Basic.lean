import Deriver.Number.Binary64
import Deriver.Position

/-!
# Tokens

A token is a kind together with the piece of source it was read from. The
angle brackets are never merged into shifts, so nested argument lists close one
bracket at a time, and `union` is an ordinary keyword here; the grammar decides
where it is a name.
-/

namespace Deriver

/-- The kinds of token, keywords last. -/
inductive TokenKind where
  | eof
  | error
  | lparen
  | rparen
  | lbrace
  | rbrace
  | lbracket
  | rbracket
  | comma
  | semicolon
  | colon
  | doubleColon
  | dot
  | dotDot
  | hash
  | bang
  | question
  | atSign
  | dollar
  | tilde
  | equals
  | eqEq
  | notEq
  | lt
  | gt
  | arrow
  | fatArrow
  | amp
  | doubleAmp
  | pipe
  | plus
  | minus
  | star
  | slash
  | percent
  | caret
  | ident
  | lifetime
  | str
  | char
  | int
  | float
  | structKw
  | enumKw
  | unionKw
  | pubKw
  | crateKw
  | superKw
  | selfValueKw
  | selfTypeKw
  | whereKw
  | implKw
  | fnKw
  | forKw
  | mutKw
  | constKw
  | dynKw
  | asKw
  | inKw
  | unsafeKw
  | externKw
  | typeKw
  | useKw
  | modKw
  | traitKw
  | staticKw
  | macroKw
  | trueKw
  | falseKw
  deriving DecidableEq, Repr, Inhabited

namespace TokenKind

/-- The kinds with their names, in order. -/
def table : List (TokenKind × String) :=
  [(.eof, "EOF"), (.error, "ERROR"), (.lparen, "LPAREN"), (.rparen, "RPAREN"),
   (.lbrace, "LBRACE"), (.rbrace, "RBRACE"), (.lbracket, "LBRACKET"),
   (.rbracket, "RBRACKET"),
   (.comma, "COMMA"), (.semicolon, "SEMICOLON"), (.colon, "COLON"),
   (.doubleColon, "DOUBLE_COLON"), (.dot, "DOT"), (.dotDot, "DOT_DOT"), (.hash, "HASH"),
   (.bang, "BANG"), (.question, "QUESTION"), (.atSign, "AT"), (.dollar, "DOLLAR"),
   (.tilde, "TILDE"), (.equals, "EQUALS"), (.eqEq, "EQ"), (.notEq, "NEQ"), (.lt, "LT"),
   (.gt, "GT"), (.arrow, "ARROW"), (.fatArrow, "FAT_ARROW"), (.amp, "AMP"),
   (.doubleAmp, "DOUBLE_AMP"), (.pipe, "PIPE"), (.plus, "PLUS"), (.minus, "MINUS"),
   (.star, "STAR"), (.slash, "SLASH"), (.percent, "PERCENT"), (.caret, "CARET"),
   (.ident, "IDENTIFIER"), (.lifetime, "LIFETIME"), (.str, "STRING_LITERAL"),
   (.char, "CHAR_LITERAL"), (.int, "INT_LITERAL"), (.float, "FLOAT_LITERAL"),
   (.structKw, "STRUCT"), (.enumKw, "ENUM"), (.unionKw, "UNION"), (.pubKw, "PUB"),
   (.crateKw, "CRATE"), (.superKw, "SUPER"), (.selfValueKw, "SELF_VALUE"),
   (.selfTypeKw, "SELF_TYPE"), (.whereKw, "WHERE"), (.implKw, "IMPL"), (.fnKw, "FN"),
   (.forKw, "FOR"), (.mutKw, "MUT"), (.constKw, "CONST"), (.dynKw, "DYN"), (.asKw, "AS"),
   (.inKw, "IN"), (.unsafeKw, "UNSAFE"), (.externKw, "EXTERN"), (.typeKw, "TYPE"),
   (.useKw, "USE"), (.modKw, "MOD"), (.traitKw, "TRAIT"), (.staticKw, "STATIC"),
   (.macroKw, "MACRO"), (.trueKw, "TRUE"), (.falseKw, "FALSE")]

def name (k : TokenKind) : Text :=
  match table.find? (·.1 == k) with
  | some (_, n) => n
  | none => []

/-- The name of the kind with a number; a number that is none's says so. -/
def nameAt (n : Int) : Text :=
  match if 0 ≤ n then table[n.toNat]? else none with
  | some (_, name) => name
  | none => "UNKNOWN(" ++ Text.ofInt n ++ ")"

def keywords : List (String × TokenKind) :=
  [("struct", .structKw), ("enum", .enumKw), ("union", .unionKw), ("pub", .pubKw),
   ("crate", .crateKw), ("super", .superKw), ("self", .selfValueKw), ("Self", .selfTypeKw),
   ("where", .whereKw), ("impl", .implKw), ("fn", .fnKw), ("for", .forKw), ("mut", .mutKw),
   ("const", .constKw), ("dyn", .dynKw), ("as", .asKw), ("in", .inKw),
   ("unsafe", .unsafeKw), ("extern", .externKw), ("type", .typeKw), ("use", .useKw),
   ("mod", .modKw), ("trait", .traitKw), ("static", .staticKw), ("macro_rules", .macroKw),
   ("true", .trueKw), ("false", .falseKw)]

def ofKeyword? (word : Text) : Option TokenKind :=
  (keywords.find? fun (w, _) => (w : Text) == word).map (·.2)

def isKeyword (k : TokenKind) : Bool := keywords.any (·.2 == k)

def isOpening : TokenKind → Bool
  | .lparen | .lbracket | .lbrace => true
  | _ => false

def isClosing : TokenKind → Bool
  | .rparen | .rbracket | .rbrace => true
  | _ => false

end TokenKind

/-- The value of a literal token. -/
inductive Literal where
  /-- The decoded bytes of a string. -/
  | str (value : Text)
  /-- The first character between the quotes. -/
  | char (value : Char)
  /-- An integer below `2 ^ 63`. -/
  | int (value : Nat)
  /-- The bit pattern of a double. -/
  | float (bits : Nat)
  | bool (value : Bool)
  deriving DecidableEq, Repr

/-- The value as text: a character as its number, a float with the fewest digits. -/
def Literal.render : Literal → Text
  | .str v => v
  | .char c => Text.ofNat c.toNat
  | .int n => Text.ofNat n
  | .float bits => Binary64.render bits
  | .bool true => "true"
  | .bool false => "false"

/-- A token: its kind, the bytes it was read from, its value if it is a literal
that has one, and where it begins. -/
structure Token where
  kind : TokenKind
  lexeme : Text
  value : Option Literal
  pos : Position
  offset : Nat
  deriving DecidableEq, Repr

namespace Token

def none : Token := ⟨.eof, [], .none, .unknown, 0⟩

instance : Inhabited Token := ⟨none⟩

def stop (t : Token) : Nat := t.offset + t.lexeme.length

/-- The token on one line, for people. -/
def render (t : Token) : Text :=
  let value : Text :=
    match t.value with
    | some v => " = " ++ v.render
    | .none => []
  Text.concat [t.kind.name, "(", t.lexeme, ")", value, " at ", t.pos.render]

end Token

/-!
## Lexical errors

A fault says what is wrong with a lexeme; an error adds where the lexeme began
and how it starts. A fault never stops the scan.
-/

/-- What can be wrong with a lexeme. -/
inductive Fault where
  /-- A byte that begins no token. -/
  | unexpected (byte : UInt8)
  | openComment
  | openChar
  | openString
  | openRawString
  /-- The hashes of a raw string are not followed by a quote. -/
  | noRawQuote
  /-- Two bytes after a backslash and `x` that are not hexadecimal digits. -/
  | hexEscape (digits : Text)
  /-- Braces after a backslash and `u` that hold no 32-bit hexadecimal number. -/
  | unicodeEscape (digits : Text)
  | noUnicodeBrace
  | emptyExponent
  /-- A float that no double is near, or a fraction in another radix than ten. -/
  | badFloat (lexeme : Text)
  deriving DecidableEq, Repr

/-- The message of a fault in a lexeme that begins at `start`. -/
def Fault.message (start : Position) : Fault → Text
  | .unexpected b => "Unexpected character: '" ++ [b] ++ "'"
  | .openComment => "Unterminated block comment"
  | .openChar => "Unterminated character literal"
  | .openString => "Unterminated string starting at " ++ start.render
  | .openRawString => "Unterminated raw string starting at " ++ start.render
  | .noRawQuote => "Invalid raw string: expected '\"'"
  | .hexEscape digits => "Invalid escape sequence: \\x" ++ digits
  | .unicodeEscape digits => "Invalid unicode escape: \\u\x7b" ++ digits ++ "\x7d"
  | .noUnicodeBrace => "Invalid unicode escape: expected '\x7b'"
  | .emptyExponent => "Invalid number: expected digits after exponent"
  | .badFloat lexeme => "Invalid float literal: " ++ lexeme

/-- A fault, where its lexeme begins, and at most twenty bytes of the lexeme as
far as it was read when the fault was noticed. -/
structure LexError where
  fault : Fault
  pos : Position
  lexeme : Text
  deriving DecidableEq, Repr

namespace LexError

def message (e : LexError) : Text := e.fault.message e.pos

def render (e : LexError) : Text :=
  Text.concat ["Lexical error at ", e.pos.render, ": ", e.message, " (near '",
    e.lexeme, "')"]

end LexError

end Deriver
