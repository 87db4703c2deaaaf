/-!
# Places in a source text

A location is a line and a column, both counted from one; a column counts code points. Locations
are ordered as they follow each other in the text.
-/
namespace FirSyntax

structure Location where
  line : Nat
  column : Nat
deriving DecidableEq, Repr

namespace Location

/-- The first code point of a text. -/
def start : Location := ⟨1, 1⟩

/-- The location of a part that the source does not spell out. -/
def unwritten : Location := ⟨0, 0⟩

instance : Inhabited Location := ⟨unwritten⟩

instance : LT Location :=
  ⟨fun a b => a.line < b.line ∨ a.line = b.line ∧ a.column < b.column⟩

instance : LE Location :=
  ⟨fun a b => a.line < b.line ∨ a.line = b.line ∧ a.column ≤ b.column⟩

instance (a b : Location) : Decidable (a < b) :=
  inferInstanceAs (Decidable (a.line < b.line ∨ a.line = b.line ∧ a.column < b.column))

instance (a b : Location) : Decidable (a ≤ b) :=
  inferInstanceAs (Decidable (a.line < b.line ∨ a.line = b.line ∧ a.column ≤ b.column))

/-- One code point further on the same line. -/
def nextColumn (l : Location) : Location := { l with column := l.column + 1 }

/-- The start of the following line. -/
def nextLine (l : Location) : Location := ⟨l.line + 1, 1⟩

end Location

end FirSyntax
