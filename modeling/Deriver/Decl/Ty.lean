import Deriver.Position

/-!
# Type expressions

The types that can stand in a declaration, with the positions they were written
at, and their canonical spelling `Ty.render`. Two types count as the same when
they are spelled the same: generated code contains nothing else of them.
-/

namespace Deriver

mutual

/-- A type expression. -/
inductive Ty where
  /-- `a::b::C<T>` or `<T as Trait>::Assoc` -/
  | path (path : Path)
  /-- `&'a mut T` -/
  | ref (pos : Position) (lifetime : Option Text) (isMut : Bool) (elem : Ty)
  /-- `*const T` or `*mut T` -/
  | ptr (pos : Position) (isMut : Bool) (elem : Ty)
  /-- `(A, B)`; the unit type has no elements -/
  | tuple (pos : Position) (elems : List Ty)
  /-- `[T; N]`, the length as written -/
  | array (pos : Position) (elem : Ty) (len : Text)
  /-- `[T]` -/
  | slice (pos : Position) (elem : Ty)
  /-- `(T)` -/
  | paren (pos : Position) (elem : Ty)
  /-- a function pointer -/
  | fn (pos : Position) (sig : FnSig)
  /-- `dyn A + B`, or bare bounds behind a `for` -/
  | traitObject (pos : Position) (dyn : Bool) (bounds : List Bound)
  /-- `impl A + B` -/
  | implTrait (pos : Position) (bounds : List Bound)
  /-- `!` -/
  | never (pos : Position)
  /-- `_` -/
  | infer (pos : Position)
  /-- a macro call in type position, as written -/
  | macroCall (pos : Position) (raw : Text)

/-- A path: segments, after a leading `::` or a qualified self type. -/
structure Path where
  qself : Option QSelf
  isGlobal : Bool
  segments : List Segment
  pos : Position

/-- The `<T as Trait>` in front of a qualified path. -/
structure QSelf where
  ty : Ty
  trait : Option Path

/-- One component of a path. -/
structure Segment where
  ident : Text
  args : Args

/-- The arguments of a path component. -/
inductive Args where
  | none
  /-- `<'a, T, N, Item = U>` -/
  | angled (args : List GenericArg)
  /-- `(A, B) -> C` -/
  | call (inputs : List Ty) (output : Option Ty)

/-- An entry of an angle-bracketed argument list. -/
inductive GenericArg where
  | ty (ty : Ty)
  | lifetime (name : Text)
  /-- a constant expression as written -/
  | const (expr : Text)
  /-- `Output = T` -/
  | binding (name : Text) (ty : Ty)
  /-- `Item: Copy` -/
  | constraint (name : Text) (bounds : List Bound)

/-- One `+`-separated bound. The binder is the list of a `for<'a>` in front. -/
inductive Bound where
  | outlives (binder : List Text) (lifetime : Text)
  | trait (binder : List Text) (maybe : Bool) (path : Path)

/-- The signature of a function pointer. -/
structure FnSig where
  binder : List Text
  isUnsafe : Bool
  /-- The ABI with its quotes, if the pointer is to a foreign function. -/
  abi : Option Text
  inputs : List Ty
  variadic : Bool
  output : Option Ty

end

/-- The text of a `for<'a, 'b>` binder with a space behind it; none is no text. -/
def binderText (binder : List Text) : Text :=
  if binder.isEmpty then [] else Text.concat ["for<", Text.join ", " binder, "> "]

/-- The last argument of a function with a variable number of them. -/
def dots (variadic : Bool) : List Text := if variadic then ["..."] else []

mutual

def Ty.render : Ty → Text
  | .path p => p.render
  | .ref _ lifetime isMut elem =>
      Text.concat ["&", lifetime.getD [], Text.when lifetime.isSome " ",
        Text.when isMut "mut ", elem.render]
  | .ptr _ isMut elem => (if isMut then "*mut " else "*const ") ++ elem.render
  | .tuple _ [elem] => Text.concat ["(", elem.render, ",)"]
  | .tuple _ elems => Text.concat ["(", Text.join ", " (renderTys elems), ")"]
  | .array _ elem len => Text.concat ["[", elem.render, "; ", len, "]"]
  | .slice _ elem => Text.concat ["[", elem.render, "]"]
  | .paren _ elem => Text.concat ["(", elem.render, ")"]
  | .fn _ sig => sig.render
  | .traitObject _ dyn bounds =>
      Text.when dyn "dyn " ++ Text.join " + " (renderBoundList bounds)
  | .implTrait _ bounds => "impl " ++ Text.join " + " (renderBoundList bounds)
  | .never _ => "!"
  | .infer _ => "_"
  | .macroCall _ raw => raw

def renderTys : List Ty → List Text
  | [] => []
  | t :: ts => t.render :: renderTys ts

def Path.render : Path → Text
  | ⟨none, isGlobal, segments, _⟩ =>
      Text.when isGlobal "::" ++ Text.join "::" (renderSegments segments)
  | ⟨some qself, _, segments, _⟩ =>
      Text.concat (qself.render :: (renderSegments segments).map ("::" ++ ·))

def QSelf.render : QSelf → Text
  | ⟨ty, none⟩ => Text.concat ["<", ty.render, ">"]
  | ⟨ty, some trait⟩ => Text.concat ["<", ty.render, " as ", trait.render, ">"]

def renderSegments : List Segment → List Text
  | [] => []
  | s :: ss => s.render :: renderSegments ss

/-- The spelling of a segment; an empty argument list is left out. -/
def Segment.render : Segment → Text
  | ⟨ident, .none⟩ => ident
  | ⟨ident, .angled args⟩ =>
      if args.isEmpty then ident
      else Text.concat [ident, "<", Text.join ", " (renderArgs args), ">"]
  | ⟨ident, .call inputs none⟩ =>
      Text.concat [ident, "(", Text.join ", " (renderTys inputs), ")"]
  | ⟨ident, .call inputs (some output)⟩ =>
      Text.concat [ident, "(", Text.join ", " (renderTys inputs), ") -> ", output.render]

def renderArgs : List GenericArg → List Text
  | [] => []
  | a :: as => a.render :: renderArgs as

def GenericArg.render : GenericArg → Text
  | .ty t => t.render
  | .lifetime name => name
  | .const expr => expr
  | .binding name t => Text.concat [name, " = ", t.render]
  | .constraint name bounds =>
      Text.concat [name, ": ", Text.join " + " (renderBoundList bounds)]

def renderBoundList : List Bound → List Text
  | [] => []
  | b :: bs => b.render :: renderBoundList bs

def Bound.render : Bound → Text
  | .outlives _ lifetime => lifetime
  | .trait binder maybe path =>
      Text.concat [binderText binder, Text.when maybe "?", path.render]

def FnSig.render : FnSig → Text
  | ⟨binder, isUnsafe, abi, inputs, variadic, none⟩ =>
      Text.concat [binderText binder, Text.when isUnsafe "unsafe ",
        (abi.map fun a => Text.concat ["extern ", a, " "]).getD [],
        "fn(", Text.join ", " (renderTys inputs ++ dots variadic), ")"]
  | ⟨binder, isUnsafe, abi, inputs, variadic, some output⟩ =>
      Text.concat [binderText binder, Text.when isUnsafe "unsafe ",
        (abi.map fun a => Text.concat ["extern ", a, " "]).getD [],
        "fn(", Text.join ", " (renderTys inputs ++ dots variadic), ") -> ",
        output.render]

end

def renderBounds (bounds : List Bound) : Text := Text.join " + " (bounds.map Bound.render)

namespace Path

def simple (ident : Text) : Path := ⟨none, false, [⟨ident, .none⟩], .unknown⟩

/-- A path spelled without arguments, such as `::core::ops::Add`. -/
def ofText (t : Text) : Path :=
  let (isGlobal, t) :=
    match t.dropStart? "::" with
    | some rest => (true, rest)
    | none => (false, t)
  ⟨none, isGlobal, (t.splitOn "::").map (⟨·, .none⟩), .unknown⟩

/-- Whether a path is the one plain identifier `name`. -/
def isIdent (p : Path) (name : Text) : Bool :=
  match p with
  | ⟨none, false, [⟨ident, .none⟩], _⟩ => ident == name
  | ⟨none, false, [⟨ident, .angled []⟩], _⟩ => ident == name
  | _ => false

def lastIdent (p : Path) : Text := (p.segments.getLast?.map Segment.ident).getD []

end Path

namespace Ty

def pos : Ty → Position
  | .path p => p.pos
  | .ref pos .. | .ptr pos .. | .tuple pos .. | .array pos .. | .slice pos
    .. | .paren pos ..
  | .fn pos .. | .traitObject pos .. | .implTrait pos .. | .never pos | .infer pos
  | .macroCall pos .. => pos

def same (a b : Ty) : Bool := a.render == b.render

def unparen : Ty → Ty
  | .paren _ elem => elem.unparen
  | t => t

def distinct (ts : List Ty) : List Ty :=
  ts.foldl (fun seen t => if seen.any t.same then seen else seen ++ [t]) []

end Ty

/-!
## Walking a type

A type is walked depth first, from the outside in. The walk is the list of what
it meets: every nested type, every lifetime and every constant expression. The
trait of a bound or of a qualified path is no type of its own, but its arguments
are met.
-/

/-- Something met on a walk through a type. -/
inductive Visit where
  | ty (ty : Ty)
  | lifetime (name : Text)
  | const (expr : Text)

def constVisit (expr : Text) : List Visit := if expr.isEmpty then [] else [.const expr]

mutual

/-- What a walk through a type meets, in order. -/
def Ty.visits (t : Ty) : List Visit :=
  .ty t :: match t with
    | .path p => p.visits
    | .ref _ lifetime _ elem => (lifetime.map Visit.lifetime).toList ++ elem.visits
    | .ptr _ _ elem => elem.visits
    | .tuple _ elems => visitTys elems
    | .array _ elem len => elem.visits ++ constVisit len
    | .slice _ elem => elem.visits
    | .paren _ elem => elem.visits
    | .fn _ sig => sig.visits
    | .traitObject _ _ bounds => visitBounds bounds
    | .implTrait _ bounds => visitBounds bounds
    | .never _ => []
    | .infer _ => []
    | .macroCall .. => []

def visitTys : List Ty → List Visit
  | [] => []
  | t :: ts => t.visits ++ visitTys ts

/-- What a walk through a path meets, the path itself apart. -/
def Path.visits : Path → List Visit
  | ⟨none, _, segments, _⟩ => visitSegments segments
  | ⟨some qself, _, segments, _⟩ => qself.visits ++ visitSegments segments

def QSelf.visits : QSelf → List Visit
  | ⟨ty, none⟩ => ty.visits
  | ⟨ty, some trait⟩ => ty.visits ++ trait.visits

def visitSegments : List Segment → List Visit
  | [] => []
  | s :: ss => s.visits ++ visitSegments ss

def Segment.visits : Segment → List Visit
  | ⟨_, .none⟩ => []
  | ⟨_, .angled args⟩ => visitArgs args
  | ⟨_, .call inputs none⟩ => visitTys inputs
  | ⟨_, .call inputs (some output)⟩ => visitTys inputs ++ output.visits

def visitArgs : List GenericArg → List Visit
  | [] => []
  | a :: as => a.visits ++ visitArgs as

/-- What a walk through a generic argument meets. -/
def GenericArg.visits : GenericArg → List Visit
  | .ty t => t.visits
  | .lifetime name => [.lifetime name]
  | .const expr => constVisit expr
  | .binding _ t => t.visits
  | .constraint _ bounds => visitBounds bounds

def visitBounds : List Bound → List Visit
  | [] => []
  | b :: bs => b.visits ++ visitBounds bs

def Bound.visits : Bound → List Visit
  | .outlives _ lifetime => [.lifetime lifetime]
  | .trait _ _ path => path.visits

def FnSig.visits : FnSig → List Visit
  | ⟨_, _, _, inputs, _, none⟩ => visitTys inputs
  | ⟨_, _, _, inputs, _, some output⟩ => visitTys inputs ++ output.visits

end

/-- The visit on one line, for people. -/
def Visit.render : Visit → Text
  | .ty t => "type " ++ t.render
  | .lifetime name => "lifetime " ++ name
  | .const expr => "const " ++ expr

end Deriver
