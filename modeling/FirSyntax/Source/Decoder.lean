import FirSyntax.Source.Piece

/-!
# Walking over bytes

A decoder stands at a code point of its input and looks at the one behind it. Code points are decoded one
at a time, each from the next four bytes only, and bytes that encode none are taken as U+FFFD. What the
decoder has walked over are the pieces of the input.
-/
namespace FirSyntax.Source

/-- Where bytes cease to be UTF-8. -/
structure Fault where
  /-- The number of bytes in front that are UTF-8. -/
  validUpTo : Nat
  /-- The number of bytes behind them that no byte can continue; none where an encoding is cut off by the
  end of the bytes. -/
  length? : Option Nat
deriving DecidableEq, Repr

/-- The fault as seen from `n` bytes before. -/
def Fault.behind (n : Nat) (fault : Fault) : Fault := { fault with validUpTo := n + fault.validUpTo }

/-- The code points of bytes that are UTF-8 throughout. -/
def validate : List UInt8 → Except Fault (List Char)
  | [] => .ok []
  | b :: bs =>
    match piece b (tail b bs) with
    | .char c =>
      ((validate (bs.drop (tail b bs).length)).map (c :: ·)).mapError
        (.behind (1 + (tail b bs).length))
    | .invalid _ =>
      .error ⟨0, if (Lead.ofByte? b).isSome ∧ (tail b bs).length = bs.length then none
        else some (1 + (tail b bs).length)⟩
termination_by bytes => bytes.length
decreasing_by simp only [List.length_cons, List.length_drop]; omega

/-- The bytes of the input from position `i` up to `j`. -/
def slice (input : Array UInt8) (i j : Nat) : List UInt8 := (input.extract i j).toList

/-- The first of some code points and the length of its encoding. -/
def firstOf : List Char → Option Char × Nat
  | c :: _ => (some c, c.utf8Size)
  | [] => (some '\uFFFD', 1)

/-- The code point that bytes begin with and the number of its bytes. Those at the end may be cut off
from their encoding, so the bytes are looked at again as far as they are valid. -/
def firstIn (head : List UInt8) : Option Char × Nat :=
  match validate head with
  | .ok cs => firstOf cs
  | .error fault =>
    if 0 < fault.validUpTo then firstOf ((validate (head.take fault.validUpTo)).toOption.getD [])
    else (some '\uFFFD', fault.length?.getD head.length)

/-- The code point at a position, none at the end of the input, and the number of its bytes. It is found
in the next four bytes. -/
def codePointAt (input : Array UInt8) (pos : Nat) : Option Char × Nat :=
  if input.size ≤ pos then (none, 0) else firstIn (slice input pos (pos + 4))

theorem length_firstOf_pos (cs : List Char) : 0 < (firstOf cs).2 := by
  cases cs with
  | nil => exact Nat.one_pos
  | cons c cs => exact c.utf8Size_pos

/-- Bytes that cannot be continued are more than none. -/
theorem length_fault_pos {bytes : List UInt8} :
    ∀ {fault}, validate bytes = .error fault → ∀ n ∈ fault.length?, 0 < n := by
  fun_induction validate bytes with
  | case1 =>
    intro fault h
    cases h
  | case2 b bs c _ ih =>
    intro fault h
    cases hrest : validate (bs.drop (tail b bs).length) with
    | ok cs =>
      rw [hrest] at h
      cases h
    | error later =>
      rw [hrest] at h
      cases h
      exact @ih later hrest
  | case3 b bs =>
    intro fault h n hn
    cases h
    dsimp only at hn
    split at hn
    · cases hn
    · cases hn
      omega

theorem length_firstIn_pos {head : List UInt8} (h : head ≠ []) : 0 < (firstIn head).2 := by
  rw [firstIn]
  split
  · exact length_firstOf_pos _
  · next fault hfault =>
    split
    · exact length_firstOf_pos _
    · cases hlength : fault.length? with
      | none => exact List.length_pos_iff.mpr h
      | some n => exact length_fault_pos hfault n hlength

theorem length_codePointAt_pos {input : Array UInt8} {pos : Nat} (h : pos < input.size) :
    0 < (codePointAt input pos).2 := by
  rw [codePointAt, if_neg (Nat.not_le.mpr h)]
  refine length_firstIn_pos (List.length_pos_iff.mp ?_)
  rw [slice, Array.length_toList, Array.size_extract]
  omega

/-- The length of the byte order mark in front. -/
def markLength (input : Array UInt8) : Nat :=
  if slice input 0 3 = [0xEF, 0xBB, 0xBF] then 3 else 0

/-- The code point at `currentPos` and the one behind it, which reaches from `nextPos` to `nextEnd`;
none where the input has ended. -/
structure Decoder where
  input : Array UInt8
  current? : Option Char
  currentPos : Nat
  next? : Option Char
  nextPos : Nat
  nextEnd : Nat
deriving DecidableEq, Repr

namespace Decoder

/-- Another code point is looked at. -/
def fill (d : Decoder) : Decoder :=
  let next := codePointAt d.input d.nextEnd
  { d with next? := next.1, nextPos := d.nextEnd, nextEnd := d.nextEnd + next.2 }

/-- To the code point looked at. -/
def shift (d : Decoder) : Decoder := { d with current? := d.next?, currentPos := d.nextPos }.fill

/-- In front of an input, behind its byte order mark. -/
def start (input : Array UInt8) : Decoder :=
  let mark := markLength input
  (⟨input, none, mark, none, mark, mark⟩ : Decoder).fill.shift

/-- To the next code point, unless the input has ended. -/
def advance (d : Decoder) : Decoder := if d.current?.isNone then d else d.shift

/-- Whether bytes that encode no code point stand here, and not U+FFFD. -/
def atMalformed (d : Decoder) : Bool :=
  d.current? == some '\uFFFD' &&
    slice d.input d.currentPos (d.currentPos + 3) != String.utf8EncodeChar '\uFFFD'

/-- The text of the input from position `i` up to `j`. -/
def text (d : Decoder) (i j : Nat) : String :=
  match validate (slice d.input i j) with
  | .ok cs => String.ofList cs
  | .error _ => shown (decode (slice d.input i j))

/-- The piece here, which shows as `c`. -/
def piece (d : Decoder) (c : Char) : Piece :=
  if d.atMalformed then .invalid (slice d.input d.currentPos d.nextPos) else .char c

/-- The bytes that are not looked at, and the code points that are. -/
def remaining (d : Decoder) : Nat :=
  d.input.size - d.nextEnd + d.next?.isSome.toNat + d.current?.isSome.toNat

theorem advance_of_some {d : Decoder} {c : Char} (h : d.current? = some c) : d.advance = d.shift := by
  rw [advance, h]
  rfl

theorem remaining_advance {d : Decoder} {c : Char} (h : d.current? = some c) :
    d.advance.remaining < d.remaining := by
  have hnow : d.current?.isSome.toNat = 1 := by rw [h]; rfl
  rw [advance_of_some h, remaining, remaining, hnow]
  dsimp only [shift, fill]
  by_cases hend : d.input.size ≤ d.nextEnd
  · rw [codePointAt, if_pos hend]
    simp
  · have hlength := length_codePointAt_pos (Nat.lt_of_not_le hend)
    have hone := Bool.toNat_le (codePointAt d.input d.nextEnd).1.isSome
    omega

/-- The pieces from here on, behind those already found (`done`, the latest first). -/
def piecesOnto (done : List Piece) (d : Decoder) : List Piece :=
  match _ : d.current? with
  | some c => piecesOnto (d.piece c :: done) d.advance
  | none => done.reverse
termination_by d.remaining
decreasing_by exact remaining_advance ‹_›

end Decoder

/-- The pieces of a source file. -/
def ofBytes (bytes : List UInt8) : List Piece := (Decoder.start bytes.toArray).piecesOnto []

end FirSyntax.Source
