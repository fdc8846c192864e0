import Deriver.Parse.Basic
import Deriver.Parse.Ty

/-!
# Parsing declarations

The items of a file are taken one after the other. An item that is no struct,
enum or union is passed over, and so is one that fails to parse: the tokens up to
its end are dropped, wherever in it the error was, and the next item is parsed as
if nothing had happened.
-/

/-!
## Parsing attributes

An attribute may belong to any tool, so its argument may be any balanced run of
tokens. What does not have one of the known shapes is captured as it stands.
-/

namespace Deriver.Parse

def isLiteral : TokenKind → Bool
  | .str | .int | .float | .char | .trueKw | .falseKw => true
  | _ => false

/-- Whether a kind of token can begin an attribute path, whose segments may be
reserved words. -/
def startsMetaPath (k : TokenKind) : Bool :=
  k == .ident || k == .doubleColon || (k.isKeyword && k != .trueKw && k != .falseKw)

def endsMeta : TokenKind → Bool
  | .comma | .rparen | .rbracket | .eof => true
  | _ => false

def litOf (t : Token) : Lit :=
  match t.kind, t.value with
  | .str, some (.str v) => ⟨.str, v, t.lexeme⟩
  | .int, _ => ⟨.int, t.lexeme, t.lexeme⟩
  | .float, _ => ⟨.float, t.lexeme, t.lexeme⟩
  | .char, _ => ⟨.char, t.lexeme, t.lexeme⟩
  | .trueKw, _ => ⟨.bool, t.lexeme, t.lexeme⟩
  | .falseKw, _ => ⟨.bool, t.lexeme, t.lexeme⟩
  | _, _ => ⟨.str, t.lexeme, t.lexeme⟩

/-- The segments of an attribute path, with the separators between them, at the
front of the tokens; `none` if they do not begin with one. -/
def metaSegments? : Nat → List Token → Option (Text × List Token)
  | 0, _ => none
  | n + 1, ts =>
      let t := ts.headD Token.none
      if !startsMetaPath t.kind || t.kind == .doubleColon then none
      else
        let rest := behind ts
        let next := kindOf rest 1
        if kindOf rest 0 == .doubleColon && startsMetaPath next && next != .doubleColon then
          (metaSegments? n (behind rest)).map fun (p, rest) =>
            (Text.concat [t.lexeme, "::", p], rest)
        else some (t.lexeme, rest)

def metaPath? (ts : List Token) : Option (Text × List Token) :=
  if kindOf ts 0 == .doubleColon then
    (metaSegments? ts.length (behind ts)).map fun (p, rest) => ("::" ++ p, rest)
  else metaSegments? ts.length ts

variable (source : Text)

/-- An argument of no known shape, up to the next comma. -/
def metaOther (pos : Position) : Parser Meta := do
  return .other pos [] (← capture source true [.comma])

def metaItem : Nat → Parser Meta
  | 0 => failHere .tooDeep
  | fuel + 1 => do
      let t ← peek
      let pos := t.pos
      if isLiteral t.kind then
        let _ ← take
        return .lit pos (litOf t)
      let start ← get
      match if startsMetaPath t.kind then metaPath? start else none with
      | none => metaOther source pos
      | some (path, rest) =>
          if kindOf rest 0 == .lparen then
            set (behind rest)
            let items ← commaList .rparen (metaItem fuel)
            let _ ← expect .rparen "')' to close attribute arguments"
            return .list pos path items (← textSince source start)
          else if kindOf rest 0 == .equals then
            set (behind rest)
            let value ← peek
            if isLiteral value.kind && endsMeta (← peekKind 1) then
              let _ ← take
              return .nameValue pos path (litOf value) (← textSince source start)
            let _ ← capture source true [.comma]
            return .other pos path (← textSince source start)
          else if endsMeta (kindOf rest 0) then
            set rest
            return .path pos path
          else metaOther source pos

def wholeMeta : Parser Meta := do
  metaItem source (budget (← get))

/-- `#[path]`, `#[path(...)]` or `#[path = lit]`; `unsafe(...)` around the
argument is looked through. -/
def oneAttribute : Parser Attribute := do
  let hash ← take
  let _ ← expect .lbracket "'[' after '#'"
  if (← check .unsafeKw) && (← peekKind 1) == .lparen then
    let _ ← take
    let _ ← take
    let arg ← wholeMeta source
    let _ ← expect .rparen "')' after unsafe attribute"
    let _ ← expect .rbracket "']' to close attribute"
    return ⟨arg, arg.raw, hash.pos⟩
  let start ← get
  let arg ← wholeMeta source
  let raw ← textSince source start
  let _ ← expect .rbracket "']' to close attribute"
  return ⟨arg, raw, hash.pos⟩

/-- The loop of `attributes`. -/
def attributeLoop : Nat → Parser (List Attribute)
  | 0 => return []
  | n + 1 => do
      if ← check .hash then
        if (← peekKind 1) == .bang then
          let _ ← take
          let _ ← take
          modify (skipGroup 0)
          attributeLoop n
        else
          let a ← oneAttribute source
          return a :: (← attributeLoop n)
      else return []

/-- The attributes at the front. Those written `#![...]` are passed over. -/
def attributes : Parser (List Attribute) := do
  attributeLoop source (← get).length

end Deriver.Parse

namespace Deriver.Parse

variable (source : Text)

/-! ## Generics -/

/-- The lifetimes behind a colon, if there is one. -/
def outlived : Parser (List Text) := do
  if ← accept .colon then lifetimes .plus ((← get).length) else return []

/-- The bounds behind a colon, if there is one. -/
def bounded : Parser (List Bound) := do
  if ← accept .colon then bounds source else return []

/-- The type behind an equals sign, if there is one, as text. -/
def defaultTy : Parser Text := do
  if ← accept .equals then Ty.render <$> wholeTy source else return []

/-- The constant behind an equals sign, if there is one, as text. -/
def defaultConst : Parser Text := do
  if ← accept .equals then capture source false [.comma, .gt] else return []

def genericParam : Parser GenericParam := do
  let t ← peek
  match t.kind with
  | .lifetime =>
      let _ ← take
      let names ← outlived
      return ⟨.lifetime, t.lexeme, names.map (.outlives []), [], t.pos⟩
  | .constKw =>
      let _ ← take
      let name ← expect .ident "const parameter name"
      let _ ← expect .colon "':' after const parameter name"
      let constTy ← wholeTy source
      let default ← defaultConst source
      return ⟨.const constTy, name.lexeme, [], default, t.pos⟩
  | .ident =>
      let _ ← take
      let bs ← bounded source
      let default ← defaultTy source
      return ⟨.type, t.lexeme, bs, default, t.pos⟩
  | _ => failHere (.expectedFound "generic parameter")

/-- The parameter list of a declaration, if it has one. -/
def genericParams : Parser (List GenericParam) := do
  if ← accept .lt then
    let params ← commaList .gt (do
      let _ ← attributes source
      genericParam source)
    let _ ← expect .gt "'>' to close generic parameters"
    return params
  return []

def wherePredicate : Parser WherePredicate := do
  let names ← binder?
  if ← check .lifetime then
    let name ← take
    let _ ← expect .colon "':' in lifetime predicate"
    let bs ← lifetimes .plus ((← get).length)
    return .lifetime names name.lexeme (bs.map (.outlives []))
  let bounded ← wholeTy source
  let _ ← expect .colon "':' in where predicate"
  return .type names bounded (← bounds source)

/-- The predicates of a where clause, up to a brace or a semicolon. -/
def whereLoop : Nat → Parser (List WherePredicate)
  | 0 => return []
  | n + 1 => do
      if (← check .lbrace) || (← check .semicolon) || (← atEnd) then return []
      let p ← wherePredicate source
      if ← accept .comma then
        return p :: (← whereLoop n)
      return [p]

/-- A where clause, if there is one. -/
def whereClause : Parser (List WherePredicate) := do
  if ← accept .whereKw then whereLoop source ((← get).length + 1) else return []

/-! ## Fields and variants -/

/-- Whether a kind of token behind a parenthesis makes it the scope of a `pub`. -/
def startsScope : TokenKind → Bool
  | .crateKw | .superKw | .selfValueKw | .inKw => true
  | _ => false

/-- The scope of a `pub`, if it has one. -/
def scope : Parser Unit := do
  if (← check .lparen) && startsScope (← peekKind 1) then modify (skipGroup 0)

/-- `pub`, `pub(crate)` and the like, as written. -/
def visibility : Parser Text := do
  let start ← get
  if ← accept .pubKw then
    scope
    textSince source start
  else return []

def number (fields : List Field) : List Field :=
  fields.mapIdx fun i f => { f with index := i }

def fieldName : Parser Token := do
  if (← check .ident) || (← check .unionKw) then take else failHere (.expected "field name")

def namedField : Parser Field := do
  let attrs ← attributes source
  let vis ← visibility source
  let name ← fieldName
  let _ ← expect .colon "':' after field name"
  let fieldTy ← wholeTy source
  return ⟨attrs, vis, some name.lexeme, 0, fieldTy, name.pos⟩

def namedFields : Parser Fields := do
  let _ ← expect .lbrace "'\x7b' before fields"
  let fields ← commaList .rbrace (namedField source)
  let _ ← expect .rbrace "'\x7d' after fields"
  return ⟨.named, number fields⟩

def tupleField : Parser Field := do
  let attrs ← attributes source
  let vis ← visibility source
  let start ← peek
  let fieldTy ← wholeTy source
  return ⟨attrs, vis, none, 0, fieldTy, start.pos⟩

def tupleFields : Parser Fields := do
  let _ ← expect .lparen "'(' before fields"
  let fields ← commaList .rparen (tupleField source)
  let _ ← expect .rparen "')' after fields"
  return ⟨.tuple, number fields⟩

/-- The fields of a variant, if it has any. -/
def variantFields : Parser Fields := do
  if ← check .lbrace then namedFields source
  else if ← check .lparen then tupleFields source
  else return .unit

/-- The discriminant of a variant, if it has one. -/
def discriminant : Parser Text := do
  if ← accept .equals then
    let text ← capture source false [.comma, .rbrace]
    if text.isEmpty then failHere (.expected "discriminant expression after '='")
    else return text
  return []

def variant : Parser Variant := do
  let attrs ← attributes source
  let _ ← visibility source
  let name ← expect .ident "variant name"
  let fields ← variantFields source
  let value ← discriminant source
  return ⟨attrs, name.lexeme, fields, value, name.pos⟩

/-! ## Declarations -/

/-- The name, generics and content of a struct, behind its keyword. -/
def structBody : Parser (Text × Generics × Data) := do
  let name ← expect .ident "struct name"
  let params ← genericParams source
  if ← check .lparen then
    let fields ← tupleFields source
    let preds ← whereClause source
    let _ ← expect .semicolon "';' after tuple struct"
    return (name.lexeme, ⟨params, preds⟩, .struct fields)
  if ← accept .semicolon then
    return (name.lexeme, ⟨params, []⟩, .struct .unit)
  let preds ← whereClause source
  if ← accept .semicolon then
    return (name.lexeme, ⟨params, preds⟩, .struct .unit)
  if ← check .lbrace then
    let fields ← namedFields source
    return (name.lexeme, ⟨params, preds⟩, .struct fields)
  failHere (.expected "'\x7b', '(' or ';' after struct name")

/-- The name, generics and content of an enum, behind its keyword. -/
def enumBody : Parser (Text × Generics × Data) := do
  let name ← expect .ident "enum name"
  let params ← genericParams source
  let preds ← whereClause source
  let _ ← expect .lbrace "'\x7b' after enum name"
  let variants ← commaList .rbrace (variant source)
  let _ ← expect .rbrace "'\x7d' after enum variants"
  return (name.lexeme, ⟨params, preds⟩, .enum variants)

/-- The name, generics and content of a union, behind its keyword. -/
def unionBody : Parser (Text × Generics × Data) := do
  let name ← expect .ident "union name"
  let params ← genericParams source
  let preds ← whereClause source
  let fields ← namedFields source
  return (name.lexeme, ⟨params, preds⟩, .union fields)

def derivesOf (attrs : List Attribute) : List DeriveRequest :=
  (Attribute.named attrs ["derive"]).flatMap fun a =>
    match a.arg with
    | .list _ _ items _ => items.filterMap fun
        | .path pos p =>
            let name := match p.findLast? "::" with
              | some n => p.drop (n + 2)
              | none => p
            some ⟨name, p, pos⟩
        | _ => none
    | _ => []

/-! ## Items -/

/-- The tokens behind the next item. An item ends at a semicolon outside all
brackets or at the brace that closes its body, with a semicolon behind that. -/
def skipItem : Int → List Token → List Token
  | _, [] => []
  | depth, t :: ts =>
      if t.kind == .eof then t :: ts
      else if t.kind.isOpening then skipItem (depth + 1) ts
      else if t.kind == .rbrace then
        if depth ≤ 1 then if kindOf ts 0 == .semicolon then ts.drop 1 else ts
        else skipItem (depth - 1) ts
      else if t.kind.isClosing then skipItem (depth - 1) ts
      else if t.kind == .semicolon && depth ≤ 0 then ts
      else skipItem depth ts

/-- What one item amounts to. -/
inductive Item where
  | decl (decl : Decl)
  | error (error : ParseError)
  | inlineModule (m : InlineModule)
  /-- An item of another kind. -/
  | skipped
  /-- Attributes with nothing behind them. -/
  | nothing

/-- The declaration behind its attributes and visibility, if the next token
announces one. -/
def body? (ts : List Token) : Option (Parser (Text × Generics × Data)) :=
  match kindOf ts 0 with
  | .structKw => some (structBody source)
  | .enumKw => some (enumBody source)
  | .unionKw => if kindOf ts 1 == .ident then some (unionBody source) else none
  | _ => none

/-- The item behind its attributes and visibility; `start` is where it began. -/
def itemBody (start : List Token) (attrs : List Attribute) (vis : Text) (ts : List Token) :
    Item × List Token :=
  let keyword := ts.headD Token.none
  match body? source ts with
  | some body =>
      match body (behind ts) with
      | .ok ((name, generics, data), rest) =>
          let first := (start.headD Token.none).offset
          let stop := (((between start rest).getLast?).getD Token.none).stop
          (.decl ⟨attrs, vis, name, generics, data, derivesOf attrs,
            keyword.pos, first, stop⟩, rest)
      | .error e => (.error e, skipItem 0 start)
  | none =>
      if kindOf ts 0 == .modKw && kindOf ts 1 == .ident && kindOf ts 2 == .lbrace then
        (.inlineModule ⟨((ts[1]?).getD Token.none).lexeme, keyword.pos⟩,
          skipItem 0 (ts.drop 2))
      else if keyword.kind.isClosing then (.error ⟨.closing, keyword⟩, behind ts)
      else (.skipped, skipItem 0 ts)

/-- The first item, and the tokens behind it. -/
def item (start : List Token) : Item × List Token :=
  match attributes source start with
  | .error e => (.error e, skipItem 0 start)
  | .ok (attrs, ts) =>
      if kindOf ts 0 == .eof then (.nothing, ts)
      else
        match visibility source ts with
        | .error e => (.error e, skipItem 0 start)
        | .ok (vis, ts) => itemBody source start attrs vis ts

/-- The items of a token list, for at most as many rounds as given. -/
def itemLoop : Nat → List Token → List Item
  | 0, _ => []
  | n + 1, ts =>
      if kindOf ts 0 == .eof then []
      else
        let (i, rest) := item source ts
        i :: itemLoop n rest

def items (ts : List Token) : List Item := itemLoop source ts.length ts

end Deriver.Parse
