import Deriver.Decl.Generics
import Deriver.Decl.Ty

/-!
# Bounds and headers

## Which types need a bound

A field type gets a bound in the generated code if it mentions a parameter of the
declaration, for then it may or may not have the trait, and if it does not
contain the declared type itself, for then the bound would be circular.
-/

namespace Deriver

/-- Whether a byte can stand in a word: an ASCII letter, digit or underscore. -/
def isWordByte (b : UInt8) : Bool :=
  Text.isDigitByte b || Text.isUpperByte b || Text.isLowerByte b || b == 95

/-- Whether exactly one of two neighbours is a word byte; no neighbour is none. -/
def isWordEdge (before after : Option UInt8) : Bool :=
  before.any isWordByte != after.any isWordByte

/-- Whether `name` occurs with a word edge on both sides; `before` is the byte in
front of the text. The program looks for names by a regular expression, and there is none
for a name with a byte of no character, as `N\xff` is: its derive then fails with `GEN001`.
That is left out here, and such a name is looked for like any other. -/
def hasWord (name : Text) : Option UInt8 → Text → Bool
  | _, [] => false
  | before, b :: rest =>
      (name.isPrefixOf (b :: rest) && isWordEdge before (some b) &&
          isWordEdge name.getLast? ((b :: rest).drop name.length).head?) ||
        hasWord name (some b) rest

/-- Whether one thing met on a walk mentions a parameter. -/
def Visit.mentions (g : Generics) : Visit → Bool
  | .ty (.path ⟨none, false, s :: _, _⟩) =>
      g.typeNames.contains s.ident || g.constNames.contains s.ident
  | .ty _ => false
  | .lifetime name => g.lifetimeNames.contains name
  | .const expr => g.constNames.any fun name => hasWord name none expr

def Ty.mentions (t : Ty) (g : Generics) : Bool := t.visits.any (Visit.mentions g)

def Ty.lastSegment : Ty → Text
  | .path p => (p.segments.getLast?.map Segment.render).getD []
  | _ => []

/-- Whether one thing met on a walk is the subject: `Self`, the subject as it is
spelled, or a longer path that ends like it. -/
def Visit.isSubject (subject : Ty) : Visit → Bool
  | .ty (.path p) =>
      p.qself.isNone &&
        (p.isIdent "Self" || p.render == subject.render ||
          (!subject.lastSegment.isEmpty && 1 < p.segments.length &&
            (Ty.path p).lastSegment == subject.lastSegment))
  | _ => false

def Ty.containsSubject (t subject : Ty) : Bool := t.visits.any (Visit.isSubject subject)

/-- The predicates for the distinct field types that mention a parameter and do
not contain the subject. -/
def fieldPredicates (fields : List Ty) (subject : Ty) (g : Generics) (bound : Ty → Text) :
    List Text :=
  ((Ty.distinct fields).filter fun t => t.mentions g && !t.containsSubject subject).map
    fun t => Text.concat [t.render, ": ", bound t]

/-!
## Headers of implementations

An implementation repeats the parameters and predicates of the declaration and
may add some of its own. What is added never touches the declaration, and an
added predicate is written once however often it is asked for.
-/

/-- The generics of a declaration with what an implementation adds to them. -/
structure ImplGenerics where
  declared : Generics
  /-- Added lifetimes, written before all other parameters but the declared lifetimes. -/
  lifetimes : List Text
  /-- Added type and constant parameters, written last. -/
  params : List Text
  predicates : List Text

/-- The three pieces of a header: the parameters, the arguments of the type and
the where clause, each empty if there is nothing to say. -/
structure HeaderParts where
  params : Text
  args : Text
  clause : Text
  deriving DecidableEq, Repr

namespace ImplGenerics

def ofGenerics (g : Generics) : ImplGenerics := ⟨g, [], [], []⟩

/-- One more predicate, if it is not there yet. -/
def addPredicate (g : ImplGenerics) (pred : Text) : ImplGenerics :=
  if g.predicates.contains pred then g else { g with predicates := g.predicates ++ [pred] }

def addBound (g : ImplGenerics) (ty : Ty) (bound : Text) : ImplGenerics :=
  g.addPredicate (Text.concat [ty.render, ": ", bound])

def addParamBound (g : ImplGenerics) (name bound : Text) : ImplGenerics :=
  g.addPredicate (Text.concat [name, ": ", bound])

/-- One more parameter; what begins with a quote is a lifetime. -/
def addParam (g : ImplGenerics) (decl : Text) : ImplGenerics :=
  if decl.startsWith "'" then { g with lifetimes := g.lifetimes ++ [decl] }
  else { g with params := g.params ++ [decl] }

def addFieldBounds (g : ImplGenerics) (fields : List Ty) (subject : Ty)
    (bound : Ty → Text) : ImplGenerics :=
  (fieldPredicates fields subject g.declared bound).foldl addPredicate g

/-- The pieces in angle brackets, or nothing. -/
def angled (pieces : List Text) : Text :=
  if pieces.isEmpty then [] else Text.concat ["<", Text.join ", " pieces, ">"]

def parts (g : ImplGenerics) : HeaderParts :=
  let (lifetimes, others) := g.declared.params.partition (·.isLifetime)
  let preds := g.declared.predicates.map WherePredicate.render ++ g.predicates
  { params := angled
      (lifetimes.map (·.declare) ++ g.lifetimes ++ others.map (·.declare) ++ g.params)
    args := angled (g.declared.params.map (·.name))
    clause := if preds.isEmpty then [] else "where " ++ Text.join ", " preds }

/-- The header of an implementation of a trait, or of none if the trait is empty. -/
def header (g : ImplGenerics) (trait name : Text) : Text :=
  let p := g.parts
  Text.concat ["impl", p.params, " ", if trait.isEmpty then [] else
    trait ++ " for ", name, p.args, if p.clause.isEmpty then [] else " " ++ p.clause]

def inherentHeader (g : ImplGenerics) (name : Text) : Text := g.header [] name

end ImplGenerics

end Deriver
