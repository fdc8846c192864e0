import Deriver.Parse.File

/-!
# Parsing with a cursor

The parser of `Parse` drops an item at its first error. This one works in place: it
holds an index into the tokens, notes the error and goes on in a panic until it is back
at the item, which it then passes over. In a panic no further error is noted and the
loops over lists end, but all other steps are taken: tokens are looked at and taken, and
text is captured.

What goes wrong on the way is a `Fault`, which breaks the run off: an index at which
there is no token, a part of the source that it does not have, a declaration that is
looked at and was not made. A run that never comes to an end has no outcome at all, so
nothing here bounds the rounds of a loop or the depth of calls.
-/

namespace Deriver

/-- A place in the tokens, and what was noted on the way there. -/
structure Cursor where
  /-- The index of the next token. -/
  pos : Nat := 0
  /-- Whether an error was met in the item at hand. -/
  panicking : Bool := false
  errors : List ParseError := []

namespace Cursor

/-- What is parsed: tokens, and the source they were read from, which may be empty. -/
structure Input where
  tokens : List Token
  source : Text

/-- Why a run breaks off. -/
inductive Fault where
  /-- There is no token at an index. -/
  | token (index : Nat)
  /-- There are no tokens from one index to another. -/
  | tokens (start stop : Nat)
  /-- The source has no part from one offset to another. -/
  | slice (start stop : Nat)
  /-- There is no declaration. -/
  | absent
  deriving DecidableEq, Repr

/-- What moves a cursor and yields a value. `none` is a run without an end. -/
abbrev Step (α : Type) := StateT Cursor (ExceptT Fault Option) α

variable (i : Input)

/-! ## Looking and taking -/

/-- The token at an index. -/
def token (n : Nat) : Step Token :=
  match i.tokens[n]? with
  | some t => return t
  | none => throw (.token n)

/-- The token `n` places ahead; past the end it is the last one. -/
def peekAt (n : Nat) : Step Token := do
  let pos := (← get).pos + n
  if i.tokens.length ≤ pos then
    if i.tokens.isEmpty then return Token.none
    token i (i.tokens.length - 1)
  else token i pos

/-- The next token. -/
def peek : Step Token := peekAt i 0

/-- The token that was taken last. -/
def previous : Step Token := do
  let pos := (← get).pos
  if i.tokens.isEmpty || pos == 0 then return Token.none
  token i (pos - 1)

/-- Whether no token is left but the one that marks the end. -/
def atEnd : Step Bool := do
  let pos := (← get).pos
  if i.tokens.length ≤ pos then return true
  return (← token i pos).kind == .eof

/-- Takes the next token, which stays if it marks the end. -/
def take : Step Token := do
  if !(← atEnd i) then modify fun c => { c with pos := c.pos + 1 }
  previous i

/-- Whether the next token is of a kind. -/
def check (kind : TokenKind) : Step Bool := do
  if ← atEnd i then return false
  return (← peek i).kind == kind

/-- Takes the next token if it is of a kind, and says whether it did. -/
def accept (kind : TokenKind) : Step Bool := do
  if ← check i kind then
    let _ ← take i
    return true
  return false

/-- Whether an error was met in the item at hand. -/
def inPanic : Step Bool := return (← get).panicking

/-- Notes a problem at a token, unless one was noted before in the item at hand. -/
def note (problem : Problem) (t : Token) : Step Unit :=
  modify fun c =>
    if c.panicking then c
    else { c with panicking := true, errors := c.errors ++ [⟨problem, t⟩] }

/-- Notes a problem at the next token. -/
def noteHere (problem : Problem) : Step Unit := do
  note problem (← peek i)

/-- Takes a token of a kind, or notes that it is missing. -/
def expect (kind : TokenKind) (what : Text) : Step Token := do
  if ← check i kind then take i
  else
    noteHere i (.expected what)
    return ⟨.error, [], none, .unknown, 0⟩

/-- Whether a list ends here: at its closing token, at the end, or in a panic. -/
def done (close : TokenKind) : Step Bool := do
  if ← check i close then return true
  if ← atEnd i then return true
  inPanic

/-- Elements with commas between and perhaps behind them, up to a closing token, which is
left in place. An element that came to nothing is left out. -/
def Input.commaLoop (i : Input) {α : Type} (close : TokenKind) (elem : Step (Option α)) :
    Step (List α) := do
  if ← done i close then return []
  let x ← elem
  if ← accept i .comma then
    return x.toList ++ (← i |>.commaLoop close elem)
  return x.toList
partial_fixpoint

/-! ## Captured text -/

/-- The text from one token up to another. Without a source it is their lexemes. -/
def textBetween (start stop : Nat) : Step Text := do
  if stop ≤ start then return []
  if i.source.isEmpty then
    if i.tokens.length < stop then throw (.tokens start stop)
    return Text.join " " (((i.tokens.drop start).take (stop - start)).map (·.lexeme))
  let first := (← token i start).offset
  let last := (← token i (stop - 1)).stop
  if last < first || i.source.length < last then throw (.slice first last)
  return Text.trim ((i.source.drop first).take (last - first))

/-- The text from an index up to the next token. -/
def textSince (start : Nat) : Step Text := do
  textBetween i start (← get).pos

/-- The text from the last token in front of an index with the offset of `t`. -/
def textFromLoop (t : Token) : Nat → Step Text
  | 0 => return t.lexeme
  | n + 1 => do
      if (← token i n).offset == t.offset then textSince i n
      else textFromLoop t n

/-- The text from a token that was taken up to the next one. -/
def textFrom (t : Token) : Step Text := do
  textFromLoop i t (← get).pos

/-- Passes over a balanced group that begins with the next token. -/
def Input.skipGroup (i : Input) (depth : Int) : Step Unit := do
  if ← atEnd i then return ()
  let t ← take i
  let depth :=
    if t.kind.isOpening then depth + 1 else if t.kind.isClosing then depth - 1 else depth
  if depth ≤ 0 then return ()
  i |>.skipGroup depth
partial_fixpoint

/-- Passes over one item. -/
def Input.skipItem (i : Input) (depth : Int) : Step Unit := do
  if ← atEnd i then return ()
  let t ← take i
  if t.kind.isOpening then i |>.skipItem (depth + 1)
  else if t.kind == .rbrace then
    if depth ≤ 1 then
      let _ ← accept i .semicolon
      return ()
    else i |>.skipItem (depth - 1)
  else if t.kind.isClosing then i |>.skipItem (depth - 1)
  else if t.kind == .semicolon && depth ≤ 0 then return ()
  else i |>.skipItem depth
partial_fixpoint

/-- Passes over tokens up to one of `stops` outside all brackets, or to a bracket that
closes more than was opened. -/
def Input.captureLoop (i : Input) (angles : Bool) (stops : List TokenKind) (depth : Nat) :
    Step Unit := do
  if ← atEnd i then return ()
  let t ← peek i
  if depth == 0 && stops.contains t.kind then return ()
  if t.kind.isOpening || (angles && t.kind == .lt) then
    let _ ← take i
    i |>.captureLoop angles stops (depth + 1)
  else if t.kind.isClosing then
    if depth == 0 then return ()
    let _ ← take i
    i |>.captureLoop angles stops (depth - 1)
  else
    let _ ← take i
    i |>.captureLoop angles stops (if angles && t.kind == .gt then depth - 1 else depth)
partial_fixpoint

/-- Takes tokens up to one of `stops` and yields their text. -/
def capture (angles : Bool) (stops : List TokenKind) : Step Text := do
  let start := (← get).pos
  i.captureLoop angles stops 0
  textSince i start

/-! ## Types -/

/-- Lifetimes with a separator between and perhaps behind them. -/
def Input.lifetimes (i : Input) (sep : TokenKind) : Step (List Text) := do
  if ← check i .lifetime then
    let t ← take i
    if ← accept i sep then
      return t.lexeme :: (← i |>.lifetimes sep)
    return [t.lexeme]
  return []
partial_fixpoint

/-- `for<'a, 'b>` -/
def binder : Step (List Text) := do
  let _ ← expect i .forKw "'for'"
  let _ ← expect i .lt "'<' after 'for'"
  let names ← i.lifetimes .comma
  let _ ← expect i .gt "'>' after higher-ranked lifetimes"
  return names

/-- `for<'a, 'b>`, if it is there. -/
def binder? : Step (List Text) := do
  if ← check i .forKw then binder i else return []

/-- `mut` or `const` behind the star of a pointer; whether it is `mut`. -/
def pointerKind : Step Bool := do
  if ← accept i .mutKw then return true
  let _ ← expect i .constKw "'const' or 'mut' after '*'"
  return false

/-- The name of an argument with its colon, if it has one. -/
def argName : Step Unit := do
  if (← check i .ident) || (← check i .selfValueKw) then
    if (← peekAt i 1).kind == .colon then
      let _ ← take i
      let _ ← take i

/-- `extern "C"`, if it is there. -/
def abi? : Step (Option Text) := do
  if ← accept i .externKw then
    if ← check i .str then return some (← take i).lexeme
    return some "\"C\""
  return none

/-- A lifetime, if it is there. -/
def lifetime? : Step (Option Text) := do
  if ← check i .lifetime then return some (← take i).lexeme
  return none

/-- The `::` in front of `<`, which may be left out. -/
def turbofish : Step Unit := do
  if ← check i .doubleColon then
    if (← peekAt i 1).kind == .lt then
      let _ ← take i

/-- `~const`, if it is there. -/
def tildeConst : Step Unit := do
  if ← accept i .tilde then
    let _ ← accept i .constKw

open Parse (isPathIdent startsBound startsFn startsConst bindFirst)

mutual

/-- A type. -/
def Input.ty (i : Input) : Step Ty := do
  let t ← peek i
  let pos := t.pos
  match t.kind with
  | .lparen => i |>.tupleOrParen pos
  | .lbracket => i |>.arrayOrSlice pos
  | .amp => i |>.reference pos
  | .doubleAmp => return .ref pos none false (← i |>.reference pos)
  | .star => do
      let _ ← take i
      let isMut ← pointerKind i
      return .ptr pos isMut (← i |>.ty)
  | .bang => do
      let _ ← take i
      return .never pos
  | .forKw => do
      let names ← binder i
      if startsFn (← peek i).kind then i |>.fnType names pos
      else return .traitObject pos false (bindFirst names (← i |>.boundLoop))
  | .dynKw => do
      let _ ← take i
      return .traitObject pos true (← i |>.boundLoop)
  | .implKw => do
      let _ ← take i
      return .implTrait pos (← i |>.boundLoop)
  | .lt => i |>.qualified pos
  | .ident => do
      if t.lexeme == "_" then
        let _ ← take i
        return .infer pos
      i |>.pathOrMacro pos
  | .doubleColon => i |>.pathOrMacro pos
  | k => do
      if startsFn k then i |>.fnType [] pos
      else if isPathIdent k then i |>.pathOrMacro pos
      else
        note (.expectedFound "type") t
        return .infer pos
partial_fixpoint

/-- `()`, `(T)`, `(T,)` and `(A, B)` -/
def Input.tupleOrParen (i : Input) (pos : Position) : Step Ty := do
  let _ ← take i
  if ← accept i .rparen then return .tuple pos []
  let first ← i |>.ty
  if ← accept i .rparen then return .paren pos first
  let rest ← i |>.tupleRest
  let _ ← expect i .rparen "')' after tuple type"
  return .tuple pos (first :: rest)
partial_fixpoint

/-- The elements of a tuple type behind its first one. -/
def Input.tupleRest (i : Input) : Step (List Ty) := do
  if ← accept i .comma then
    if ← check i .rparen then return []
    if ← inPanic then return []
    let t ← i |>.ty
    return t :: (← i |>.tupleRest)
  return []
partial_fixpoint

/-- `[T; N]` and `[T]` -/
def Input.arrayOrSlice (i : Input) (pos : Position) : Step Ty := do
  let _ ← take i
  let elem ← i |>.ty
  if ← accept i .semicolon then
    let len ← capture i false [.rbracket]
    let _ ← expect i .rbracket "']' after array length"
    return .array pos elem len
  let _ ← expect i .rbracket "']' after slice type"
  return .slice pos elem
partial_fixpoint

/-- What follows a reference sign. -/
def Input.reference (i : Input) (pos : Position) : Step Ty := do
  let _ ← take i
  let lifetime ← lifetime? i
  let isMut ← accept i .mutKw
  return .ref pos lifetime isMut (← i |>.ty)
partial_fixpoint

/-- `unsafe extern "C" fn(A, B) -> C`, behind its binder. -/
def Input.fnType (i : Input) (names : List Text) (pos : Position) : Step Ty := do
  let isUnsafe ← accept i .unsafeKw
  let abi ← abi? i
  let _ ← expect i .fnKw "'fn'"
  let _ ← expect i .lparen "'(' after 'fn'"
  let (inputs, variadic) ← i |>.fnInputs
  let _ ← expect i .rparen "')' after fn arguments"
  let output ← i |>.output?
  return .fn pos ⟨names, isUnsafe, abi, inputs, variadic, output⟩
partial_fixpoint

/-- The arguments of a function pointer, and whether dots end them. -/
def Input.fnInputs (i : Input) : Step (List Ty × Bool) := do
  if ← done i .rparen then return ([], false)
  if ← accept i .dotDot then return ([], true)
  argName i
  let t ← i |>.ty
  if ← accept i .comma then
    let (ts, variadic) ← i |>.fnInputs
    return (t :: ts, variadic)
  return ([t], false)
partial_fixpoint

/-- `-> C`, if it is there. -/
def Input.output? (i : Input) : Step (Option Ty) := do
  if ← accept i .arrow then return some (← i |>.ty)
  return none
partial_fixpoint

/-- `<T as Trait>::Assoc` and `<T>::Assoc` -/
def Input.qualified (i : Input) (pos : Position) : Step Ty := do
  let _ ← take i
  let self ← i |>.ty
  let trait ← i |>.asTrait?
  let _ ← expect i .gt "'>' to close qualified path"
  let segments ← i |>.qualifiedLoop
  if segments.isEmpty then
    noteHere i (.expected "'::' after qualified path")
  return .path ⟨some ⟨self, trait⟩, false, segments, pos⟩
partial_fixpoint

/-- `as Trait`, if it is there. -/
def Input.asTrait? (i : Input) : Step (Option Path) := do
  if ← accept i .asKw then return some (← i |>.path)
  return none
partial_fixpoint

/-- The segments behind a qualified self type. -/
def Input.qualifiedLoop (i : Input) : Step (List Segment) := do
  if ← accept i .doubleColon then
    if ← inPanic then return []
    let s ← i |>.segment
    return s :: (← i |>.qualifiedLoop)
  return []
partial_fixpoint

/-- A path, or a macro call that begins with one. -/
def Input.pathOrMacro (i : Input) (pos : Position) : Step Ty := do
  let start := (← get).pos
  let p ← i |>.path
  if ← accept i .bang then
    i.skipGroup 0
    return .macroCall pos (← textSince i start)
  return .path p
partial_fixpoint

/-- A path without a qualified self type. -/
def Input.path (i : Input) : Step Path := do
  let t ← peek i
  let isGlobal ← accept i .doubleColon
  let segments ← i |>.segmentLoop
  return ⟨none, isGlobal, segments, t.pos⟩
partial_fixpoint

/-- The segments of a path. -/
def Input.segmentLoop (i : Input) : Step (List Segment) := do
  if ← inPanic then return []
  let s ← i |>.segment
  if ← check i .doubleColon then
    if isPathIdent (← peekAt i 1).kind then
      let _ ← take i
      return s :: (← i |>.segmentLoop)
  return [s]
partial_fixpoint

/-- One segment of a path with its arguments. -/
def Input.segment (i : Input) : Step Segment := do
  let t ← peek i
  if !isPathIdent t.kind then
    note (.expectedFound "path segment") t
    return ⟨[], .none⟩
  else
    let _ ← take i
    turbofish i
    if ← accept i .lt then
      let args ← i |>.genericArgs
      let _ ← expect i .gt "'>' to close generic arguments"
      return ⟨t.lexeme, .angled args⟩
    if ← accept i .lparen then
      let inputs ← i |>.segmentInputs
      let _ ← expect i .rparen "')' after arguments"
      let output ← i |>.output?
      return ⟨t.lexeme, .call inputs output⟩
    return ⟨t.lexeme, .none⟩
partial_fixpoint

/-- The arguments in parentheses behind a segment. -/
def Input.segmentInputs (i : Input) : Step (List Ty) := do
  if ← done i .rparen then return []
  let t ← i |>.ty
  if ← accept i .comma then
    return t :: (← i |>.segmentInputs)
  return [t]
partial_fixpoint

/-- The arguments in angle brackets behind a segment. -/
def Input.genericArgs (i : Input) : Step (List GenericArg) := do
  if ← done i .gt then return []
  let a ← i |>.genericArg
  if ← accept i .comma then
    return a :: (← i |>.genericArgs)
  return [a]
partial_fixpoint

/-- One generic argument. -/
def Input.genericArg (i : Input) : Step GenericArg := do
  let t ← peek i
  if t.kind == .lifetime then
    let _ ← take i
    return .lifetime t.lexeme
  if startsConst t.kind then
    return .const (← capture i false [.comma, .gt])
  if t.kind == .ident then
    let next := (← peekAt i 1).kind
    if next == .equals then
      let _ ← take i
      let _ ← take i
      return .binding t.lexeme (← i |>.ty)
    if next == .colon then
      let _ ← take i
      let _ ← take i
      return .constraint t.lexeme (← i |>.boundLoop)
  return .ty (← i |>.ty)
partial_fixpoint

/-- Bounds with plus signs between and perhaps behind them; there may be none. -/
def Input.boundLoop (i : Input) : Step (List Bound) := do
  if ← inPanic then return []
  if !startsBound (← peek i).kind then return []
  let b ← i |>.bound
  if ← accept i .plus then
    return b :: (← i |>.boundLoop)
  return [b]
partial_fixpoint

/-- One bound. -/
def Input.bound (i : Input) : Step Bound := do
  if ← check i .lifetime then
    return .outlives [] (← take i).lexeme
  if ← accept i .lparen then
    let b ← i |>.bound
    let _ ← expect i .rparen "')' after parenthesized bound"
    return b
  let names ← binder? i
  tildeConst i
  let maybe ← accept i .question
  return .trait names maybe (← i |>.path)
partial_fixpoint

end

/-! ## Attributes -/

open Parse (startsMetaPath endsMeta isLiteral litOf startsScope number derivesOf)

/-- The segments of an attribute path, with the separators between them; `none` if they
do not begin with one. -/
def Input.metaSegments (i : Input) : Step (Option Text) := do
  let t ← peek i
  if !startsMetaPath t.kind || t.kind == .doubleColon then return none
  let _ ← take i
  if ← check i .doubleColon then
    let next := (← peekAt i 1).kind
    if startsMetaPath next && next != .doubleColon then
      let _ ← take i
      return (← i |>.metaSegments).map fun p => Text.concat [t.lexeme, "::", p]
  return some t.lexeme
partial_fixpoint

/-- An attribute path. Where there is none the cursor may have moved. -/
def metaPath : Step (Option Text) := do
  if ← accept i .doubleColon then
    return (← i.metaSegments).map fun p => "::" ++ p
  i.metaSegments

/-- An argument of no known shape: the cursor goes back to where it began. -/
def metaOther (start : Nat) (pos : Position) : Step Meta := do
  modify fun c => { c with pos := start }
  return .other pos [] (← capture i true [.comma])

mutual

/-- An attribute argument. -/
def Input.metaItem (i : Input) : Step Meta := do
  let start := (← get).pos
  let t ← peek i
  let pos := t.pos
  if isLiteral t.kind then
    let _ ← take i
    return .lit pos (litOf t)
  if !startsMetaPath t.kind then
    return .other pos [] (← capture i true [.comma])
  match ← metaPath i with
  | none => metaOther i start pos
  | some path =>
      if ← accept i .lparen then
        let items ← i |>.metaItems
        let _ ← expect i .rparen "')' to close attribute arguments"
        return .list pos path items (← textSince i start)
      if ← accept i .equals then
        let value ← peek i
        if isLiteral value.kind then
          if endsMeta (← peekAt i 1).kind then
            let _ ← take i
            return .nameValue pos path (litOf value) (← textSince i start)
        let _ ← capture i true [.comma]
        return .other pos path (← textSince i start)
      if endsMeta (← peek i).kind then return .path pos path
      metaOther i start pos
partial_fixpoint

/-- The arguments in parentheses. -/
def Input.metaItems (i : Input) : Step (List Meta) := do
  if ← done i .rparen then return []
  let m ← i |>.metaItem
  if ← accept i .comma then
    return m :: (← i |>.metaItems)
  return [m]
partial_fixpoint

end

/-- The argument in `unsafe(...)`, if that is here, up to the end of the attribute. -/
def unsafeArg? : Step (Option Meta) := do
  if ← check i .unsafeKw then
    if (← peekAt i 1).kind == .lparen then
      let _ ← take i
      let _ ← take i
      let arg ← i.metaItem
      let _ ← expect i .rparen "')' after unsafe attribute"
      let _ ← expect i .rbracket "']' to close attribute"
      return some arg
  return none

/-- `#[path]`, `#[path(...)]` or `#[path = lit]`, if it is not broken; `unsafe(...)` around
the argument is looked through, and is an attribute even if it is broken. -/
def oneAttribute : Step (Option Attribute) := do
  let hash ← take i
  let _ ← expect i .lbracket "'[' after '#'"
  if ← inPanic then return none
  let start := (← get).pos
  match ← unsafeArg? i with
  | some arg => return some ⟨arg, arg.raw, hash.pos⟩
  | none =>
      let arg ← i.metaItem
      let raw ← textSince i start
      let _ ← expect i .rbracket "']' to close attribute"
      if ← inPanic then return none
      return some ⟨arg, raw, hash.pos⟩

/-- The attributes here. Those written `#![...]` are passed over. -/
def Input.attributes (i : Input) : Step (List Attribute) := do
  if ← check i .hash then
    if ← inPanic then return []
    if (← peekAt i 1).kind == .bang then
      let _ ← take i
      let _ ← take i
      i.skipGroup 0
      i |>.attributes
    else
      let a ← oneAttribute i
      return a.toList ++ (← i |>.attributes)
  else return []
partial_fixpoint

/-! ## Generics -/

/-- The lifetimes behind a colon, if there is one. -/
def outlived : Step (List Text) := do
  if ← accept i .colon then i.lifetimes .plus else return []

/-- The bounds behind a colon, if there is one. -/
def bounded : Step (List Bound) := do
  if ← accept i .colon then i.boundLoop else return []

/-- The type behind an equals sign, if there is one, as text. -/
def defaultTy : Step Text := do
  if ← accept i .equals then return (← i.ty).render
  return []

/-- The constant behind an equals sign, if there is one, as text. -/
def defaultConst : Step Text := do
  if ← accept i .equals then capture i false [.comma, .gt] else return []

/-- A generic parameter, if there is one. -/
def genericParam : Step (Option GenericParam) := do
  let t ← peek i
  match t.kind with
  | .lifetime => do
      let _ ← take i
      let names ← outlived i
      return some ⟨.lifetime, t.lexeme, names.map (.outlives []), [], t.pos⟩
  | .constKw => do
      let _ ← take i
      let name ← expect i .ident "const parameter name"
      let _ ← expect i .colon "':' after const parameter name"
      let constTy ← i.ty
      let default ← defaultConst i
      return some ⟨.const constTy, name.lexeme, [], default, t.pos⟩
  | .ident => do
      let _ ← take i
      let bs ← bounded i
      let default ← defaultTy i
      return some ⟨.type, t.lexeme, bs, default, t.pos⟩
  | _ => do
      note (.expectedFound "generic parameter") t
      return none

/-- The parameter list of a declaration, if it has one. -/
def genericParams : Step (List GenericParam) := do
  if ← accept i .lt then
    let params ← i.commaLoop .gt (do
      let _ ← i.attributes
      genericParam i)
    let _ ← expect i .gt "'>' to close generic parameters"
    return params
  return []

/-- One predicate of a where clause. -/
def wherePredicate : Step WherePredicate := do
  let names ← binder? i
  if ← check i .lifetime then
    let name ← take i
    let _ ← expect i .colon "':' in lifetime predicate"
    let bs ← i.lifetimes .plus
    return .lifetime names name.lexeme (bs.map (.outlives []))
  let bounded ← i.ty
  let _ ← expect i .colon "':' in where predicate"
  return .type names bounded (← i.boundLoop)

/-- The predicates of a where clause, up to a brace or a semicolon. -/
def Input.whereLoop (i : Input) : Step (List WherePredicate) := do
  if ← check i .lbrace then return []
  if ← done i .semicolon then return []
  let p ← wherePredicate i
  if ← accept i .comma then
    return p :: (← i |>.whereLoop)
  return [p]
partial_fixpoint

/-- A where clause, if there is one. -/
def whereClause : Step (List WherePredicate) := do
  if ← accept i .whereKw then i.whereLoop else return []

/-! ## Fields and variants -/

/-- The scope of a `pub`, if it has one. -/
def scope : Step Unit := do
  if ← check i .lparen then
    if startsScope (← peekAt i 1).kind then i.skipGroup 0

/-- `pub`, `pub(crate)` and the like, as written. -/
def visibility : Step Text := do
  if ← check i .pubKw then
    let start ← take i
    scope i
    textFrom i start
  else return []

/-- The name of a field. -/
def fieldName : Step Token := do
  if ← check i .ident then take i
  else if ← check i .unionKw then take i
  else
    noteHere i (.expected "field name")
    return ⟨.error, [], none, .unknown, 0⟩

/-- Fields with a name, up to a closing brace. -/
def Input.namedFieldLoop (i : Input) : Step (List Field) := do
  if ← done i .rbrace then return []
  let attrs ← i.attributes
  let vis ← visibility i
  let name ← fieldName i
  let _ ← expect i .colon "':' after field name"
  if ← inPanic then return []
  let fieldTy ← i.ty
  let field : Field := ⟨attrs, vis, some name.lexeme, 0, fieldTy, name.pos⟩
  if ← accept i .comma then
    return field :: (← i |>.namedFieldLoop)
  return [field]
partial_fixpoint

/-- Fields in braces. -/
def namedFields : Step Fields := do
  let _ ← expect i .lbrace "'\x7b' before fields"
  let fields ← i.namedFieldLoop
  let _ ← expect i .rbrace "'\x7d' after fields"
  return ⟨.named, number fields⟩

/-- One field without a name. -/
def tupleField : Step Field := do
  let attrs ← i.attributes
  let vis ← visibility i
  let start ← peek i
  let fieldTy ← i.ty
  return ⟨attrs, vis, none, 0, fieldTy, start.pos⟩

/-- Fields in parentheses. -/
def tupleFields : Step Fields := do
  let _ ← expect i .lparen "'(' before fields"
  let fields ← i.commaLoop .rparen (some <$> tupleField i)
  let _ ← expect i .rparen "')' after fields"
  return ⟨.tuple, number fields⟩

/-- The fields of a variant, if it has any. -/
def variantFields : Step Fields := do
  if ← check i .lbrace then namedFields i
  else if ← check i .lparen then tupleFields i
  else return .unit

/-- The discriminant of a variant, if it has one. -/
def discriminant : Step Text := do
  if ← accept i .equals then
    let text ← capture i false [.comma, .rbrace]
    if text.isEmpty then noteHere i (.expected "discriminant expression after '='")
    return text
  return []

/-- One variant of an enum, if it has a name. -/
def variant : Step (Option Variant) := do
  let attrs ← i.attributes
  let _ ← visibility i
  let name ← expect i .ident "variant name"
  if ← inPanic then return none
  let fields ← variantFields i
  let value ← discriminant i
  return some ⟨attrs, name.lexeme, fields, value, name.pos⟩

/-! ## Declarations -/

/-- The name, generics and content of a struct, if it has a name. -/
def structBody : Step (Option (Text × Generics × Data)) := do
  let _ ← take i
  let name ← expect i .ident "struct name"
  if ← inPanic then return none
  let params ← genericParams i
  if ← check i .lparen then
    let fields ← tupleFields i
    let preds ← whereClause i
    let _ ← expect i .semicolon "';' after tuple struct"
    return some (name.lexeme, ⟨params, preds⟩, .struct fields)
  if ← accept i .semicolon then
    return some (name.lexeme, ⟨params, []⟩, .struct .unit)
  let preds ← whereClause i
  if ← accept i .semicolon then
    return some (name.lexeme, ⟨params, preds⟩, .struct .unit)
  if ← check i .lbrace then
    let fields ← namedFields i
    return some (name.lexeme, ⟨params, preds⟩, .struct fields)
  noteHere i (.expected "'\x7b', '(' or ';' after struct name")
  return some (name.lexeme, ⟨params, preds⟩, .struct .unit)

/-- The name, generics and content of an enum, if it has a name. -/
def enumBody : Step (Option (Text × Generics × Data)) := do
  let _ ← take i
  let name ← expect i .ident "enum name"
  if ← inPanic then return none
  let params ← genericParams i
  let preds ← whereClause i
  let _ ← expect i .lbrace "'\x7b' after enum name"
  let variants ← i.commaLoop .rbrace (variant i)
  let _ ← expect i .rbrace "'\x7d' after enum variants"
  return some (name.lexeme, ⟨params, preds⟩, .enum variants)

/-- The name, generics and content of a union, if it has a name. -/
def unionBody : Step (Option (Text × Generics × Data)) := do
  let _ ← take i
  let name ← expect i .ident "union name"
  if ← inPanic then return none
  let params ← genericParams i
  let preds ← whereClause i
  let fields ← namedFields i
  return some (name.lexeme, ⟨params, preds⟩, .union fields)

/-! ## Items -/

/-- Goes back to where an item began and passes over it; the panic is over. -/
def recover (start : Nat) : Step Unit := do
  modify fun c => { c with pos := start }
  i.skipItem 0
  if (← get).pos == start then
    let _ ← take i
  modify fun c => { c with panicking := false }

/-- Keeps what a rule made of the item that began at a token. -/
def keep (file : SourceFile) (start : Nat) (first : Token)
    (attrs : List Attribute) (vis : Text)
    (rule : Step (Option (Text × Generics × Data))) : Step SourceFile := do
  let keyword ← peek i
  let body ← rule
  if ← inPanic then
    recover i start
    return file
  match body with
  | none => throw .absent
  | some (name, generics, data) =>
      let stop := (← previous i).stop
      return { file with decls := file.decls ++
        [⟨attrs, vis, name, generics, data, derivesOf attrs, keyword.pos,
          first.offset, stop⟩] }

/-- Whether an inline module begins here. -/
def atModule : Step Bool := do
  if ← check i .modKw then
    if (← peekAt i 1).kind == .ident then
      return (← peekAt i 2).kind == .lbrace
  return false

/-- Takes what is no declaration: an inline module, a closing delimiter or another item. -/
def passOver (file : SourceFile) : Step SourceFile := do
  let keyword ← peek i
  if ← atModule i then
    let _ ← take i
    let name ← take i
    i.skipItem 0
    return { file with modules := file.modules ++ [⟨name.lexeme, keyword.pos⟩] }
  if keyword.kind.isClosing then
    note .closing keyword
    let _ ← take i
    modify fun c => { c with panicking := false }
    return file
  i.skipItem 0
  return { file with skipped := file.skipped + 1 }

/-- The rule for the declaration that the next token announces, if it announces one. -/
def rule? : Step (Option (Step (Option (Text × Generics × Data)))) := do
  if ← check i .structKw then return some (structBody i)
  if ← check i .enumKw then return some (enumBody i)
  if ← check i .unionKw then
    if (← peekAt i 1).kind == .ident then return some (unionBody i)
  return none

/-- Takes one item. -/
def item (file : SourceFile) : Step SourceFile := do
  let start := (← get).pos
  let first ← peek i
  let attrs ← i.attributes
  if ← inPanic then
    recover i start
    return file
  if ← atEnd i then return file
  let vis ← visibility i
  match ← rule? i with
  | some rule => keep i file start first attrs vis rule
  | none => passOver i file

/-- Takes items up to the end. -/
def Input.itemLoop (i : Input) (file : SourceFile) : Step SourceFile := do
  if ← atEnd i then return file
  i |>.itemLoop (← item i file)
partial_fixpoint

/-- A file without anything. -/
def noItems : SourceFile := ⟨[], 0, []⟩

/-- What the run over all tokens comes to. -/
def run : Option (Except Fault (SourceFile × Cursor)) := i.itemLoop noItems {}

end Cursor

end Deriver
