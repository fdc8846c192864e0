import Deriver.Text.Quoted
import Deriver.Text.Casing

/-!
# Addresses of resources

A URL is a scheme, an authority, a path, a query and a fragment, most of which
may be missing. Escapes of the form `%2F` stand for bytes. The host may be an address
of the internet protocol.
-/

/-!
## Addresses of the internet protocol

An address has four decimal fields with points between them, or eight hexadecimal ones with
colons between them, of which one run of zeros may be left out. The last two hexadecimal
fields may be spelt as four decimal ones, and a zone may follow behind a percent sign. Only
whether a text is an address, and of which kind, is asked here.
-/

namespace Deriver.IpAddress

/-- The two kinds of addresses. -/
inductive Kind where
  | four
  | six
  deriving DecidableEq, Repr

/-- Why a text is no address. A fault may show the rest of the text that it was found at. -/
inductive Fault where
  | noAddress
  | onlyZone
  | leadingZero
  | fieldTooLarge
  | noDigit (rest : Text)
  | tooManyFields
  | strayByte (rest : Text)
  | tooFewFields
  | noZone
  | longGroup (rest : Text)
  | emptyGroup (rest : Text)
  | misplacedFields (rest : Text)
  | noRoom (rest : Text)
  | noColon (rest : Text)
  | lastColon (rest : Text)
  | twoGaps (rest : Text)
  | garbage (rest : Text)
  | tooShort
  | emptyGap
  deriving DecidableEq, Repr

/-- The reason of a fault, and where it was found. -/
def Fault.reason : Fault → Text × Text
  | .noAddress => ("unable to parse IP", [])
  | .onlyZone => ("missing IPv6 address", [])
  | .leadingZero => ("IPv4 field has octet with leading zero", [])
  | .fieldTooLarge => ("IPv4 field has value >255", [])
  | .noDigit rest => ("IPv4 field must have at least one digit", rest)
  | .tooManyFields => ("IPv4 address too long", [])
  | .strayByte rest => ("unexpected character", rest)
  | .tooFewFields => ("IPv4 address too short", [])
  | .noZone => ("zone must be a non-empty string", [])
  | .longGroup rest => ("each group must have 4 or less digits", rest)
  | .emptyGroup rest => ("each colon-separated field must have at least one digit", rest)
  | .misplacedFields rest =>
      ("embedded IPv4 address must replace the final 2 fields of the address", rest)
  | .noRoom rest =>
      ("too many hex fields to fit an embedded IPv4 at the end of the address", rest)
  | .noColon rest => ("unexpected character, want colon", rest)
  | .lastColon rest => ("colon must be followed by more characters", rest)
  | .twoGaps rest => ("multiple :: in address", rest)
  | .garbage rest => ("trailing garbage after address", rest)
  | .tooShort => ("address string too short", [])
  | .emptyGap => ("the :: must expand to at least one field of zeros", [])

def Fault.message (t : Text) (f : Fault) : Text :=
  let (reason, rest) := f.reason
  Text.concat ["ParseAddr(", t.quoted, "): ", reason,
    if rest.isEmpty then [] else Text.concat [" (at ", rest.quoted, ")"]]

/-- Checks four decimal fields from a place in them on: `first` says that nothing was read,
`field` is the number of fields before this one, and `digits` those of this one so far. -/
def checkFour (first : Bool) (field : Nat) (digits : Text) : Text → Except Fault Unit
  | [] => if field < 3 then .error .tooFewFields else .ok ()
  | b :: rest =>
      if Text.isDigitByte b then
        if digits == [48] then .error .leadingZero
        else if 255 < ((digits ++ [b]).toNat? 10).getD 0 then .error .fieldTooLarge
        else checkFour false field (digits ++ [b]) rest
      else if b == 46 then
        if first || rest.isEmpty || digits.isEmpty then .error (.noDigit (b :: rest))
        else if field = 3 then .error .tooManyFields
        else checkFour false (field + 1) [] rest
      else .error (.strayByte (b :: rest))

/-- Checks hexadecimal fields: `size` is the number of bytes that were read, and `gap` says
that a run of zeros was left out before. `fuel` is one more than the number of fields. -/
def checkSix (gap : Bool) : Nat → Nat → Text → Except Fault Unit
  | 0, _, t => if t.isEmpty then finish 16 gap else .error (.garbage t)
  | fuel + 1, size, t =>
      if 16 ≤ size then if t.isEmpty then finish size gap else .error (.garbage t)
      else
        let (digits, rest) := t.span fun b => (Text.hexDigit? b).isSome
        if 4 < digits.length then .error (.longGroup t)
        else if digits.isEmpty then .error (.emptyGroup t)
        else
          match rest with
          | 46 :: _ =>
              if !gap && size ≠ 12 then .error (.misplacedFields t)
              else if 12 < size then .error (.noRoom t)
              else do
                checkFour true 0 [] t
                finish (size + 4) gap
          | [] => finish (size + 2) gap
          | 58 :: next =>
              match next with
              | [] => .error (.lastColon rest)
              | 58 :: after =>
                  if gap then .error (.twoGaps next)
                  else if after.isEmpty then finish (size + 2) true
                  else checkSix true fuel (size + 2) after
              | _ => checkSix gap fuel (size + 2) next
          | _ => .error (.noColon rest)
where
  /-- Checks that all fields are there. -/
  finish (size : Nat) (gap : Bool) : Except Fault Unit :=
    if size < 16 then if gap then .ok () else .error .tooShort
    else if gap then .error .emptyGap else .ok ()

/-- Checks an address with colons, which may have a zone. -/
def checkColons (t : Text) : Except Fault Unit := do
  let body ← match t.cut? "%" with
    | some (_, []) => throw .noZone
    | some (body, _) => pure body
    | none => pure t
  match Text.dropStart? body "::" with
  | some rest => if rest.isEmpty then return else checkSix true 9 0 rest
  | none => checkSix false 9 0 body

/-- The kind of the address that a text is. -/
def kindOf (t : Text) : Except Fault Kind :=
  match List.find? (fun b => b == 46 || b == 58 || b == 37) t with
  | some 46 => (checkFour true 0 [] t).map fun _ => .four
  | some 58 => (checkColons t).map fun _ => .six
  | some _ => .error .onlyZone
  | none => .error .noAddress

end Deriver.IpAddress

/-! ## Addresses with a scheme -/

namespace Deriver

/-- A URL taken apart; escapes in host and path are decoded. -/
structure Url where
  scheme : Text := []
  /-- What follows the scheme if that is no path. -/
  opaqueText : Text := []
  host : Text := []
  path : Text := []
  query : Text := []
  deriving DecidableEq, Repr

/-- Why a text is no URL. -/
inductive UrlFault where
  | controlCharacter
  | empty
  | noScheme
  | notAbsolute
  | colonInFirstSegment
  | noBracket
  | badLiteral
  | badHost (reason : Text)
  | badPort (port : Text)
  | badEscape (escape : Text)
  | badHostCharacter (char : Text)
  | badUser
  deriving DecidableEq, Repr

def UrlFault.message : UrlFault → Text
  | .controlCharacter => "net/url: invalid control character in URL"
  | .empty => "empty url"
  | .noScheme => "missing protocol scheme"
  | .notAbsolute => "invalid URI for request"
  | .colonInFirstSegment => "first path segment in URL cannot contain colon"
  | .noBracket => "missing ']' in host"
  | .badLiteral => "invalid IP-literal"
  | .badHost reason => "invalid host: " ++ reason
  | .badPort port => Text.concat ["invalid port ", port.quoted, " after host"]
  | .badEscape escape => "invalid URL escape " ++ escape.quoted
  | .badHostCharacter char =>
      Text.concat ["invalid character ", char.quoted, " in host name"]
  | .badUser => "net/url: invalid userinfo"

namespace Url

/-- Where a text stands in a URL; what may stand there unescaped depends on it. -/
inductive Part where
  | host
  /-- What follows a percent sign in a host between brackets. -/
  | zone
  | path
  | queryPart
  | user
  deriving DecidableEq, Repr

def isAlnum (b : UInt8) : Bool :=
  Text.isDigitByte b || Text.isUpperByte b || Text.isLowerByte b

/-- The bytes that may stand in a host beside letters and digits. -/
def hostMarks : Text := "-_.~!$&'()*+,;=:[]<>\""

def isHostByte (b : UInt8) : Bool := 128 ≤ b || isAlnum b || hostMarks.contains b

/-- Whether the byte of an escape may be escaped. A host has escapes only for percent signs
and bytes outside ASCII, a zone also for blanks and for what need not be escaped. -/
def isEscapable (part : Part) (b : UInt8) : Bool :=
  match part with
  | .host => 128 ≤ b || b == 37
  | .zone => b == 37 || b == 32 || (b < 128 && isHostByte b)
  | _ => true

def unescape (part : Part) : Text → Except UrlFault Text
  | [] => .ok []
  | 37 :: a :: b :: rest =>
      match Text.hexDigit? a, Text.hexDigit? b with
      | some x, some y => do
          let byte := (x * 16 + y).toUInt8
          if !isEscapable part byte then throw (.badEscape [37, a, b])
          return byte :: (← unescape part rest)
      | _, _ => .error (.badEscape [37, a, b])
  | 37 :: rest => .error (.badEscape (37 :: rest))
  | b :: rest => do
      if (part == .host || part == .zone) && !isHostByte b
        then throw (.badHostCharacter [b])
      let tail ← unescape part rest
      return (if part == .queryPart && b == 43 then 32 else b) :: tail

/-- What comes before the first colon, if it can be a scheme, and what comes
after. -/
def splitScheme (t : Text) : Except UrlFault (Text × Text) :=
  let isSchemeByte (b : UInt8) : Bool := isAlnum b || b == 43 || b == 45 || b == 46
  let name := t.takeWhile isSchemeByte
  match t.drop name.length, name with
  | 58 :: _, [] => .error .noScheme
  | 58 :: rest, first :: _ =>
      .ok (if Text.isUpperByte first || Text.isLowerByte first then (name, rest) else
        ([], t))
  | _, _ => .ok ([], t)

/-- Whether a text is empty, or a colon and digits. -/
def isPort : Text → Bool
  | [] => true
  | 58 :: digits => digits.all Text.isDigitByte
  | _ => false

def checkPort (port : Text) : Except UrlFault Unit :=
  if isPort port then .ok () else .error (.badPort port)

/-- An address between brackets, decoded, which has to be one of the longer kind. -/
def readLiteral (t : Text) : Except UrlFault Text := do
  let name ← match t.find? "%25" with
    | some n => pure ((← unescape .host (t.take n)) ++ (← unescape .zone (t.drop n)))
    | none => unescape .host t
  match IpAddress.kindOf name with
  | .ok .six => return name
  | .ok .four => throw .badLiteral
  | .error f => throw (.badHost (f.message name))

/-- The host of an authority, checked and decoded. -/
def readHost (host : Text) : Except UrlFault Text := do
  match host.findLast? "[" with
  | some 0 =>
      match host.findLast? "]" with
      | none => throw .noBracket
      | some n =>
          checkPort (host.drop (n + 1))
          let port ← unescape .host (host.drop (n + 1))
          return Text.concat ["[", ← readLiteral ((host.take n).drop 1), "]", port]
  | some _ => throw .badLiteral
  | none =>
      if let some n := host.findLast? ":" then checkPort (host.drop n)
      unescape .host host

def userMarks : Text := "-._:~!$&'()*+,;=%@"

/-- The host of an authority that may name a user. -/
def readAuthority (authority : Text) : Except UrlFault Text := do
  match authority.findLast? "@" with
  | none => readHost authority
  | some n =>
      let host ← readHost (authority.drop (n + 1))
      let user := authority.take n
      if !user.all (fun b => isAlnum b || userMarks.contains b) then throw .badUser
      let (name, password) := (Text.cut? user ":").getD (user, [])
      let _ ← unescape .user name
      let _ ← unescape .user password
      return host

/-- Takes a URL without fragment apart. A request needs an absolute path or a
scheme. -/
def ofText (request : Bool) (t : Text) : Except UrlFault Url := do
  if t.any (fun b => b < 32 || b == 127) then throw .controlCharacter
  if t.isEmpty && request then throw .empty
  if t == "*" then return { path := "*" }
  let (scheme, rest) ← splitScheme t
  let scheme := scheme.fold
  let (rest, query) := (rest.cut? "?").getD (rest, [])
  if !rest.startsWith "/" then
    if !scheme.isEmpty then return { scheme := scheme, opaqueText := rest, query := query }
    if request then throw .notAbsolute
    if ((rest.cut? "/").map (·.1)).getD rest |>.contains 58 then throw .colonInFirstSegment
  if (!scheme.isEmpty || (!request && !rest.startsWith "///")) && rest.startsWith "//" then
    let authority := (rest.drop 2).takeWhile (· ≠ 47)
    let host ← readAuthority authority
    let path ← unescape .path ((rest.drop 2).dropWhile (· ≠ 47))
    return { scheme := scheme, host := host, path := path, query := query }
  return { scheme := scheme, path := ← unescape .path rest, query := query }

/-- Takes a URL apart; its fragment has to be well-formed and is dropped. -/
def parse (t : Text) : Except Text Url :=
  let fail (u : Text) (e : UrlFault) : Text :=
    Text.concat ["parse ", u.quoted, ": ", e.message]
  let (u, fragment) := (t.cut? "#").getD (t, [])
  match ofText false u, unescape .path fragment with
  | .error e, _ => .error (fail u e)
  | .ok _, .error e => .error (fail t e)
  | .ok url, .ok _ => .ok url

/-- The parameters of a query; what cannot be read is left out. -/
def parameters (u : Url) : List (Text × Text) :=
  (u.query.splitOn "&").filterMap fun item =>
    if item.isEmpty || item.contains 59 then none
    else
      let (key, value) := (item.cut? "=").getD (item, [])
      match unescape .queryPart key, unescape .queryPart value with
      | .ok key, .ok value => some (key, value)
      | _, _ => none

end Url

end Deriver
