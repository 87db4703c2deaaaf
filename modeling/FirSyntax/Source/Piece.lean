/-!
# Bytes as pieces of text

Any list of bytes is read as UTF-8. A piece is a code point, or a longest run of bytes that begins
an encoding and cannot be continued; such a run is shown as U+FFFD. Pieces keep their bytes apart
from what is shown, so a genuine U+FFFD is never taken for a fault.
-/
namespace FirSyntax.Source

/-- A code point of the input, or bytes that encode none. -/
inductive Piece where
  | char (c : Char)
  | invalid (bytes : List UInt8)
deriving DecidableEq, Repr

namespace Piece

/-- The bytes of the input that the piece stands for. -/
def bytes : Piece → List UInt8
  | char c => String.utf8EncodeChar c
  | invalid bs => bs

/-- The code point that shows the piece. -/
def shown : Piece → Char
  | char c => c
  | invalid _ => '\uFFFD'

def isInvalid : Piece → Bool
  | char _ => false
  | invalid _ => true

/-- Whether the piece is a code point with property `p`. -/
def isChar (p : Char → Bool) : Piece → Bool
  | char c => p c
  | invalid _ => false

end Piece

/-- The text of a list of pieces. -/
def shown (pieces : List Piece) : String :=
  String.ofList (pieces.map Piece.shown)

/-- What a lead byte asks of the bytes after it. -/
structure Lead where
  /-- The number of continuation bytes. -/
  tails : Nat
  /-- The least and the greatest byte that may come first among them. -/
  low : UInt8
  high : UInt8
  /-- The bits of the code point that the lead byte holds. -/
  bits : Nat

/-- The encodings that begin with a byte: overlong forms, surrogates and values above U+10FFFF
are ruled out by the range of the second byte. -/
def Lead.ofByte? (b : UInt8) : Option Lead :=
  if b < 0x80 then some ⟨0, 0x80, 0xBF, b.toNat⟩
  else if b < 0xC2 then none
  else if b < 0xE0 then some ⟨1, 0x80, 0xBF, b.toNat - 0xC0⟩
  else if b = 0xE0 then some ⟨2, 0xA0, 0xBF, 0⟩
  else if b = 0xED then some ⟨2, 0x80, 0x9F, 0xD⟩
  else if b < 0xF0 then some ⟨2, 0x80, 0xBF, b.toNat - 0xE0⟩
  else if b = 0xF0 then some ⟨3, 0x90, 0xBF, 0⟩
  else if b < 0xF4 then some ⟨3, 0x80, 0xBF, b.toNat - 0xF0⟩
  else if b = 0xF4 then some ⟨3, 0x80, 0x8F, 4⟩
  else none

/-- The continuation bytes in front, up to `n`, the first of them between `low` and `high`. -/
def continuation : Nat → UInt8 → UInt8 → List UInt8 → List UInt8
  | 0, _, _, _ => []
  | _ + 1, _, _, [] => []
  | n + 1, low, high, b :: bs =>
    if low ≤ b ∧ b ≤ high then b :: continuation n 0x80 0xBF bs else []

/-- The bytes after `b` that belong to its piece. -/
def tail (b : UInt8) (bs : List UInt8) : List UInt8 :=
  match Lead.ofByte? b with
  | some lead => continuation lead.tails lead.low lead.high bs
  | none => []

/-- The piece made of `b` and the bytes `t` that follow it. -/
def piece (b : UInt8) (t : List UInt8) : Piece :=
  match Lead.ofByte? b with
  | some lead =>
    if t.length = lead.tails then
      .char (Char.ofNat (t.foldl (fun v c => v * 64 + c.toNat % 64) lead.bits))
    else .invalid (b :: t)
  | none => .invalid (b :: t)

/-- The pieces of `bytes`, behind those already found (`done`, the latest first). -/
def decodeOnto (done : List Piece) : List UInt8 → List Piece
  | [] => done.reverse
  | b :: bs => decodeOnto (piece b (tail b bs) :: done) (bs.drop (tail b bs).length)
termination_by bytes => bytes.length
decreasing_by simp only [List.length_cons, List.length_drop]; omega

/-- The pieces of a list of bytes. -/
def decode (bytes : List UInt8) : List Piece := decodeOnto [] bytes

theorem decodeOnto_eq (done : List Piece) (bytes : List UInt8) :
    decodeOnto done bytes = done.reverse ++ decode bytes := by
  induction h : bytes.length using Nat.strongRecOn generalizing done bytes with
  | ind n ih =>
    subst h
    cases bytes with
    | nil => simp [decode, decodeOnto]
    | cons b bs =>
      have hlt : (bs.drop (tail b bs).length).length < (b :: bs).length := by
        simp only [List.length_cons, List.length_drop]
        omega
      rw [decode, decodeOnto, decodeOnto, ih _ hlt _ _ rfl, ih _ hlt [_] _ rfl]
      simp

@[simp] theorem decode_nil : decode [] = [] := by
  simp [decode, decodeOnto]

theorem decode_cons (b : UInt8) (bs : List UInt8) :
    decode (b :: bs) = piece b (tail b bs) :: decode (bs.drop (tail b bs).length) := by
  rw [decode, decodeOnto, decodeOnto_eq]
  simp

/-- The bytes of a text. -/
def utf8 (text : String) : List UInt8 := text.toList.flatMap String.utf8EncodeChar

end FirSyntax.Source
