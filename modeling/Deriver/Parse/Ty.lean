import Deriver.Parse.Basic

/-!
# Parsing types

The rules of the type grammar call each other, so each takes a budget of nested
calls as its first argument; `Parse.budget` is enough for the tokens at hand.
-/

namespace Deriver.Parse

def isPathIdent : TokenKind → Bool
  | .ident | .selfTypeKw | .selfValueKw | .crateKw | .superKw | .unionKw => true
  | _ => false

def startsBound (k : TokenKind) : Bool :=
  match k with
  | .lifetime | .question | .forKw | .lparen | .tilde | .doubleColon => true
  | _ => isPathIdent k

def startsFn : TokenKind → Bool
  | .fnKw | .unsafeKw | .externKw => true
  | _ => false

def startsConst : TokenKind → Bool
  | .int | .char | .str | .trueKw | .falseKw | .minus | .lbrace => true
  | _ => false

/-- A lifetime, if it is there. -/
def lifetime? : Parser (Option Text) := do
  if ← check .lifetime then return some (← take).lexeme
  return none

/-- Lifetimes with a separator between and perhaps behind them. -/
def lifetimes (sep : TokenKind) : Nat → Parser (List Text)
  | 0 => return []
  | n + 1 => do
      if ← check .lifetime then
        let t ← take
        if ← accept sep then
          return t.lexeme :: (← lifetimes sep n)
        return [t.lexeme]
      return []

/-- `for<'a, 'b>` -/
def binder : Parser (List Text) := do
  let _ ← expect .forKw "'for'"
  let _ ← expect .lt "'<' after 'for'"
  let names ← lifetimes .comma ((← get).length)
  let _ ← expect .gt "'>' after higher-ranked lifetimes"
  return names

/-- `for<'a, 'b>`, if it is there. -/
def binder? : Parser (List Text) := do
  if ← check .forKw then binder else return []

/-- `mut` or `const` behind the star of a pointer; whether it is `mut`. -/
def pointerKind : Parser Bool := do
  if ← accept .mutKw then return true
  let _ ← expect .constKw "'const' or 'mut' after '*'"
  return false

/-- The elements of a tuple type behind its first one: a comma before the closing
parenthesis adds none. -/
def tupleRest (elem : Parser Ty) : Nat → Parser (List Ty)
  | 0 => failHere .tooDeep
  | n + 1 => do
      if ← accept .comma then
        if ← check .rparen then return []
        let t ← elem
        return t :: (← tupleRest elem n)
      return []

/-- The name of an argument with its colon, if it has one. -/
def argName : Parser Unit := do
  if ((← check .ident) || (← check .selfValueKw)) && (← peekKind 1) == .colon then
    let _ ← take
    let _ ← take

/-- The arguments of a function pointer, which may have names, and whether dots
end them. -/
def fnInputs (elem : Parser Ty) : Nat → Parser (List Ty × Bool)
  | 0 => failHere .tooDeep
  | n + 1 => do
      if (← check .rparen) || (← atEnd) then return ([], false)
      if ← accept .dotDot then return ([], true)
      argName
      let t ← elem
      if ← accept .comma then
        let (ts, variadic) ← fnInputs elem n
        return (t :: ts, variadic)
      return ([t], false)

/-- `extern "C"`, if it is there. -/
def abi? : Parser (Option Text) := do
  if ← accept .externKw then
    if ← check .str then return some (← take).lexeme
    return some "\"C\""
  return none

/-- `-> C`, if it is there. -/
def output? (elem : Parser Ty) : Parser (Option Ty) := do
  if ← accept .arrow then return some (← elem)
  return none

/-- `unsafe extern "C" fn(A, B) -> C`, behind its binder. -/
def fnType (elem : Parser Ty) (names : List Text) (pos : Position) : Parser Ty := do
  let isUnsafe ← accept .unsafeKw
  let abi ← abi?
  let _ ← expect .fnKw "'fn'"
  let _ ← expect .lparen "'(' after 'fn'"
  let (inputs, variadic) ← fnInputs elem ((← get).length + 1)
  let _ ← expect .rparen "')' after fn arguments"
  let output ← output? elem
  return .fn pos ⟨names, isUnsafe, abi, inputs, variadic, output⟩

/-- Bounds with plus signs between and perhaps behind them. -/
def boundLoop (elem : Parser Bound) : Nat → Parser (List Bound)
  | 0 => failHere .tooDeep
  | n + 1 => do
      if !startsBound (← peekKind 0) then return []
      let b ← elem
      if ← accept .plus then
        return b :: (← boundLoop elem n)
      return [b]

/-- Bounds with plus signs between and perhaps behind them; there may be none. -/
def boundList (elem : Parser Bound) : Parser (List Bound) := do
  boundLoop elem ((← get).length + 1)

def segmentLoop (elem : Parser Segment) : Nat → Parser (List Segment)
  | 0 => failHere .tooDeep
  | n + 1 => do
      let s ← elem
      if (← check .doubleColon) && isPathIdent (← peekKind 1) then
        let _ ← take
        return s :: (← segmentLoop elem n)
      return [s]

/-- `as Trait`, if it is there. -/
def asTrait? (elem : Parser Path) : Parser (Option Path) := do
  if ← accept .asKw then return some (← elem)
  return none

/-- The segments behind a qualified self type. -/
def qualifiedLoop (elem : Parser Segment) : Nat → Parser (List Segment)
  | 0 => failHere .tooDeep
  | n + 1 => do
      if ← accept .doubleColon then
        let s ← elem
        return s :: (← qualifiedLoop elem n)
      return []

/-- The `::` in front of `<`, which may be left out. -/
def turbofish : Parser Unit := do
  if (← check .doubleColon) && (← peekKind 1) == .lt then
    let _ ← take

/-- `~const`, if it is there. -/
def tildeConst : Parser Unit := do
  if ← accept .tilde then
    let _ ← accept .constKw

def bindFirst (names : List Text) : List Bound → List Bound
  | [] => []
  | .outlives _ l :: rest => .outlives names l :: rest
  | .trait _ maybe p :: rest => .trait names maybe p :: rest

variable (source : Text)

mutual

def ty : Nat → Parser Ty
  | 0 => failHere .tooDeep
  | fuel + 1 => do
      let t ← peek
      let pos := t.pos
      match t.kind with
      | .lparen =>
          let _ ← take
          if ← accept .rparen then return .tuple pos []
          let first ← ty fuel
          if ← accept .rparen then return .paren pos first
          let rest ← tupleRest (ty fuel) ((← get).length + 1)
          let _ ← expect .rparen "')' after tuple type"
          return .tuple pos (first :: rest)
      | .lbracket =>
          let _ ← take
          let elem ← ty fuel
          if ← accept .semicolon then
            let len ← capture source false [.rbracket]
            let _ ← expect .rbracket "']' after array length"
            return .array pos elem len
          let _ ← expect .rbracket "']' after slice type"
          return .slice pos elem
      | .amp => reference fuel pos
      | .doubleAmp => return .ref pos none false (← reference fuel pos)
      | .star =>
          let _ ← take
          let isMut ← pointerKind
          return .ptr pos isMut (← ty fuel)
      | .bang =>
          let _ ← take
          return .never pos
      | .forKw =>
          let names ← binder
          if startsFn (← peekKind 0) then fnType (ty fuel) names pos
          else return .traitObject pos false (bindFirst names (← boundList (bound fuel)))
      | .dynKw =>
          let _ ← take
          return .traitObject pos true (← boundList (bound fuel))
      | .implKw =>
          let _ ← take
          return .implTrait pos (← boundList (bound fuel))
      | .lt =>
          let _ ← take
          let self ← ty fuel
          let trait ← asTrait? (path fuel)
          let _ ← expect .gt "'>' to close qualified path"
          let segments ← qualifiedLoop (segment fuel) ((← get).length + 1)
          if segments.isEmpty then failHere (.expected "'::' after qualified path")
          else return .path ⟨some ⟨self, trait⟩, false, segments, pos⟩
      | .ident =>
          if t.lexeme == "_" then
            let _ ← take
            return .infer pos
          pathOrMacro fuel pos
      | .doubleColon => pathOrMacro fuel pos
      | k =>
          if startsFn k then fnType (ty fuel) [] pos
          else if isPathIdent k then pathOrMacro fuel pos
          else failHere (.expectedFound "type")

def reference : Nat → Position → Parser Ty
  | 0, _ => failHere .tooDeep
  | fuel + 1, pos => do
      let _ ← take
      let lifetime ← lifetime?
      let isMut ← accept .mutKw
      return .ref pos lifetime isMut (← ty fuel)

/-- A path, or a macro call that begins with one. -/
def pathOrMacro : Nat → Position → Parser Ty
  | 0, _ => failHere .tooDeep
  | fuel + 1, pos => do
      let start ← get
      let p ← path fuel
      if ← accept .bang then
        modify (skipGroup 0)
        return .macroCall pos (← textSince source start)
      return .path p

def path : Nat → Parser Path
  | 0 => failHere .tooDeep
  | fuel + 1 => do
      let t ← peek
      let isGlobal ← accept .doubleColon
      let segments ← segmentLoop (segment fuel) ((← get).length + 1)
      return ⟨none, isGlobal, segments, t.pos⟩

/-- One segment of a path with its arguments. -/
def segment : Nat → Parser Segment
  | 0 => failHere .tooDeep
  | fuel + 1 => do
      let t ← peek
      if !isPathIdent t.kind then failHere (.expectedFound "path segment")
      else
        let _ ← take
        turbofish
        if ← accept .lt then
          let args ← commaList .gt (genericArg fuel)
          let _ ← expect .gt "'>' to close generic arguments"
          return ⟨t.lexeme, .angled args⟩
        if ← accept .lparen then
          let inputs ← commaList .rparen (ty fuel)
          let _ ← expect .rparen "')' after arguments"
          let output ← output? (ty fuel)
          return ⟨t.lexeme, .call inputs output⟩
        return ⟨t.lexeme, .none⟩

def genericArg : Nat → Parser GenericArg
  | 0 => failHere .tooDeep
  | fuel + 1 => do
      let t ← peek
      if t.kind == .lifetime then
        let _ ← take
        return .lifetime t.lexeme
      if startsConst t.kind then
        return .const (← capture source false [.comma, .gt])
      if t.kind == .ident then
        let next ← peekKind 1
        if next == .equals then
          let _ ← take
          let _ ← take
          return .binding t.lexeme (← ty fuel)
        if next == .colon then
          let _ ← take
          let _ ← take
          return .constraint t.lexeme (← boundList (bound fuel))
      return .ty (← ty fuel)

def bound : Nat → Parser Bound
  | 0 => failHere .tooDeep
  | fuel + 1 => do
      if ← check .lifetime then
        return .outlives [] (← take).lexeme
      if ← accept .lparen then
        let b ← bound fuel
        let _ ← expect .rparen "')' after parenthesized bound"
        return b
      let names ← binder?
      tildeConst
      let maybe ← accept .question
      return .trait names maybe (← path fuel)

end

def bounds : Parser (List Bound) := do
  boundList (bound source (budget (← get)))

def wholeTy : Parser Ty := do
  ty source (budget (← get))

end Deriver.Parse
