import Deriver.Decl.Ty

/-!
# Generic parameters and where clauses
-/

namespace Deriver

/-- What a generic parameter stands for. -/
inductive ParamKind where
  | lifetime
  | type
  /-- a constant of the given type -/
  | const (ty : Ty)

/-- One declared generic parameter. -/
structure GenericParam where
  kind : ParamKind
  /-- The name, with the quote of a lifetime. -/
  name : Text
  bounds : List Bound
  /-- The default as written; empty if there is none. -/
  default : Text
  pos : Position

/-- One predicate of a where clause. -/
inductive WherePredicate where
  | lifetime (binder : List Text) (name : Text) (bounds : List Bound)
  | type (binder : List Text) (ty : Ty) (bounds : List Bound)

/-- The parameters and where clause of a declaration. -/
structure Generics where
  params : List GenericParam
  predicates : List WherePredicate

namespace GenericParam

/-- The parameter as an implementation header declares it: with its bounds and
without its default. -/
def declare (p : GenericParam) : Text :=
  match p.kind with
  | .const ty => Text.concat ["const ", p.name, ": ", ty.render]
  | _ =>
      if p.bounds.isEmpty then p.name else Text.concat [p.name, ": ", renderBounds p.bounds]

def isLifetime (p : GenericParam) : Bool := p.kind matches .lifetime

def isType (p : GenericParam) : Bool := p.kind matches .type

def isConst (p : GenericParam) : Bool := p.kind matches .const _

end GenericParam

def WherePredicate.render : WherePredicate → Text
  | .lifetime binder name bounds =>
      Text.concat [binderText binder, name, ": ", renderBounds bounds]
  | .type binder ty bounds =>
      Text.concat [binderText binder, ty.render, ": ", renderBounds bounds]

namespace Generics

def empty : Generics := ⟨[], []⟩

def param? (g : Generics) (name : Text) : Option GenericParam :=
  g.params.find? (·.name == name)

/-- The names of the type parameters, in order. -/
def typeNames (g : Generics) : List Text := (g.params.filter (·.isType)).map (·.name)

/-- The names of the constant parameters, in order. -/
def constNames (g : Generics) : List Text := (g.params.filter (·.isConst)).map (·.name)

/-- The names of the lifetime parameters, in order. -/
def lifetimeNames (g : Generics) : List Text :=
  (g.params.filter (·.isLifetime)).map (·.name)

def isEmpty (g : Generics) : Bool := g.params.isEmpty && g.predicates.isEmpty

end Generics

end Deriver
