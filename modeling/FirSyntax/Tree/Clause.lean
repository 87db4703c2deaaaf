import FirSyntax.Tree.Expr

/-!
# Declaration clauses

A clause declares names of one type, with or without an initial value. The same clauses make up
constants, variables and parameters. Parts of a tree are not required to be filled in: an empty
list of segments is a type that the source does not give.
-/
namespace FirSyntax

/-- The location of the first name. -/
def locationOf (names : List Name) : Location :=
  match names with
  | first :: _ => first.location
  | [] => Location.unwritten

/-- A path such as `a.b.c`. -/
structure DottedName where
  names : List Name
deriving DecidableEq, Repr

def DottedName.location (path : DottedName) : Location := locationOf path.names

structure TypeRef where
  optional : Bool
  segments : List String
  location : Location
deriving DecidableEq, Repr

namespace TypeRef

def unspecified : TypeRef := ⟨false, [], Location.unwritten⟩

def isSpecified (t : TypeRef) : Bool := !t.segments.isEmpty

/-- Whether two types are written alike, wherever they stand. -/
def same (s t : TypeRef) : Bool := s.optional == t.optional && s.segments == t.segments

end TypeRef

structure Clause where
  names : List Name
  type : TypeRef
  value : Option Expr
deriving DecidableEq, Repr

def Clause.location (clause : Clause) : Location := locationOf clause.names

end FirSyntax
