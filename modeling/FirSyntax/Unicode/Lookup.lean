/-!
# Sorted tables

A table is an array of keyed entries in ascending order of their keys. A search doubles down from a
power of two above the table's size, so it takes as many steps as that size has binary digits.
-/
namespace FirSyntax.Unicode.Lookup

variable {α : Type}

/-- The number of leading entries whose key is at most `key`, given that `found` of them are and
that fewer than `2 ^ bits` more can be. -/
def count (table : Array (Nat × α)) (key : Nat) : Nat → Nat → Nat
  | 0, found => found
  | bits + 1, found =>
    let more := found + 2 ^ bits
    match table[more - 1]? with
    | some entry => count table key bits (if entry.1 ≤ key then more else found)
    | none => count table key bits found

/-- The last entry whose key is at most `key`. -/
def floor? (table : Array (Nat × α)) (key : Nat) : Option (Nat × α) :=
  match count table key (table.size.log2 + 1) 0 with
  | 0 => none
  | n + 1 => table[n]?

/-- The entry of `key`. -/
def find? (table : Array (Nat × α)) (key : Nat) : Option α :=
  match floor? table key with
  | some (k, value) => if k = key then some value else none
  | none => none

/-- Whether `key` lies in one of the ranges, each given by its ends. -/
def covers (ranges : Array (Nat × Nat)) (key : Nat) : Bool :=
  match floor? ranges key with
  | some (_, last) => key ≤ last
  | none => false

end FirSyntax.Unicode.Lookup
