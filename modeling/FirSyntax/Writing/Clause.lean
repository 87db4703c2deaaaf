import FirSyntax.Tree.Clause
import FirSyntax.Writing.Expr

/-!
# Declarations as text

Neighbouring clauses without a value are written as one clause when their types are the same.
-/
namespace FirSyntax

def DottedName.write (path : DottedName) : String :=
  ".".intercalate (path.names.map (·.text))

def TypeRef.write (t : TypeRef) : String :=
  (if t.optional then "optional " else "") ++ ".".intercalate t.segments

namespace Clause

def writeType (clause : Clause) : String :=
  if clause.type.isSpecified then ": " ++ clause.type.write else ""

def writeValue (clause : Clause) : String :=
  match clause.value with
  | some value => " = " ++ value.write
  | none => ""

def write (clause : Clause) : String :=
  ", ".intercalate (clause.names.map (·.text)) ++ clause.writeType ++ clause.writeValue

/-- Whether the names of `b` may be written in the clause `a`. -/
def joins (a b : Clause) : Bool := a.value.isNone && b.value.isNone && a.type.same b.type

/-- The groups of `group` followed by clauses, where `group` takes in what joins it. -/
def coalesceFrom (group : Clause) : List Clause → List Clause
  | [] => [group]
  | clause :: rest =>
    if group.joins clause then coalesceFrom { group with names := group.names ++ clause.names } rest
    else group :: coalesceFrom clause rest

/-- Clauses with neighbours of the same type and without a value put together. -/
def coalesce : List Clause → List Clause
  | [] => []
  | clause :: rest => coalesceFrom clause rest

def writeAll (clauses : List Clause) : String :=
  "; ".intercalate ((coalesce clauses).map write)

end Clause

end FirSyntax
