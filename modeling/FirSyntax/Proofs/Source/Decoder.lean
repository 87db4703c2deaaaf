import FirSyntax.Proofs.Source.Tiling
import FirSyntax.Source.Decoder
import Mathlib.Logic.Function.Iterate

/-!
# A decoder walks over the pieces

Four bytes are enough to find the piece in front, so a decoder stands at one piece after the other.
-/
namespace FirSyntax.Source

variable {bytes bs : List UInt8} {pieces back : List Piece} {p : Piece} {cs : List Char} {k n : Nat}

/-! ## Valid bytes -/

/-- What the validation of bytes says of their pieces. -/
inductive Validated (bytes : List UInt8) : Except Fault (List Char) → Prop where
  | ok {cs : List Char} : decode bytes = cs.map .char → Validated bytes (.ok cs)
  | error {cs : List Char} {bs : List UInt8} {back : List Piece} {fault : Fault} :
      decode bytes = cs.map .char ++ .invalid bs :: back → fault.validUpTo = width (cs.map .char) →
      fault.length?.getD (width (.invalid bs :: back)) = bs.length → Validated bytes (.error fault)

theorem validated (bytes : List UInt8) : Validated bytes (validate bytes) := by
  fun_induction validate bytes with
  | case1 => exact .ok decode_nil
  | case2 b bs c hpiece ih =>
    have hall := decode_cons b bs
    have hbytes := congrArg List.length (bytes_piece b bs)
    rw [hpiece] at hall hbytes
    have hone : (Piece.char c).bytes.length = 1 + (tail b bs).length := by
      rw [hbytes, List.length_cons, Nat.add_comm]
    generalize validate (bs.drop (tail b bs).length) = r at ih
    cases ih with
    | ok h => exact .ok (by rw [hall, h]; rfl)
    | @error cs _ _ fault h hvalid hlength =>
      refine @Validated.error _ (c :: cs) _ _ _ (by rw [hall, h]; rfl) ?_ hlength
      rw [List.map_cons, width_cons, hone, ← hvalid]
      rfl
  | case3 b bs ts hpiece =>
    have hall := decode_cons b bs
    have hbytes := bytes_piece b bs
    rw [hpiece] at hall hbytes
    have hts : ts = b :: tail b bs := hbytes
    refine @Validated.error _ [] _ _ _ hall rfl ?_
    subst hts
    dsimp only
    split
    · next hend =>
      rw [hend.2, List.drop_length, decode_nil, width_cons, width_nil]
      rfl
    · simp [Nat.add_comm]

/-- Bytes without an invalid piece are valid. -/
theorem validate_of_chars (h : decode bytes = cs.map .char) : validate bytes = .ok cs := by
  have hvalidated := validated bytes
  generalize validate bytes = r at hvalidated
  cases hvalidated with
  | ok h' =>
    have hinj : Function.Injective Piece.char := fun _ _ => Piece.char.inj
    rw [List.map_injective_iff.mpr hinj (h'.symm.trans h)]
  | @error ds bs back _ h' =>
    have hmem : Piece.invalid bs ∈ cs.map .char := by
      rw [← h, h']
      exact List.mem_append_right _ List.mem_cons_self
    simp at hmem

/-! ## The code point in front -/

/-- What is told of the first of some pieces: the code point that it shows and its length. -/
def told : List Piece → Option Char × Nat
  | p :: _ => (some p.shown, p.bytes.length)
  | [] => (none, 0)

theorem slice_eq (bytes : List UInt8) (i j : Nat) :
    slice bytes.toArray i j = (bytes.drop i).take (j - i) := by
  rw [slice, Array.toList_extract]

/-- Four bytes tell the piece in front. -/
theorem told_take (bytes : List UInt8) : told (decode (bytes.take 4)) = told (decode bytes) := by
  cases bytes with
  | nil => rfl
  | cons b bs =>
    obtain ⟨p, rest, hbytes, hleads⟩ := exists_leads b bs
    rw [hbytes, List.take_append, List.take_of_length_le hleads.length_le,
      hleads.decode_eq _ (List.take_prefix _ _), hleads.decode_append]
    rfl

theorem firstOf_eq_told (hne : cs ≠ []) : firstOf cs = told (cs.map .char ++ back) := by
  cases cs with
  | nil => exact absurd rfl hne
  | cons c cs => exact congrArg (some c, ·) (String.length_utf8EncodeChar c).symm

theorem firstIn_eq_told (hne : bytes ≠ []) : firstIn bytes = told (decode bytes) := by
  have hvalidated := validated bytes
  have hwidth := width_decode bytes
  rw [firstIn]
  generalize validate bytes = r at hvalidated
  cases hvalidated with
  | @ok cs h =>
    have hcs : cs ≠ [] := by
      rintro rfl
      exact hne (eq_nil_of_decode h)
    rw [h, ← List.append_nil (cs.map _)]
    exact firstOf_eq_told hcs
  | @error cs bs back fault h hvalid hlength =>
    dsimp only
    rw [h] at hwidth ⊢
    by_cases hcs : cs = []
    · subst hcs
      rw [if_neg (by simp [hvalid]), ← hwidth]
      exact congrArg (some '\uFFFD', ·) hlength
    · -- The valid bytes in front are decoded on their own as they are in front of the others.
      have hfront : decode (bytes.take fault.validUpTo) = cs.map .char := by
        have htake := decode_take_width bytes cs.length
        rwa [h, List.take_left' (by simp), ← hvalid] at htake
      have hpos : 0 < fault.validUpTo :=
        Nat.pos_of_ne_zero fun hzero => hcs (by simpa [hzero] using hfront.symm)
      rw [if_pos hpos, validate_of_chars hfront]
      exact firstOf_eq_told hcs

theorem codePointAt_eq_told (bytes : List UInt8) (pos : Nat) :
    codePointAt bytes.toArray pos = told (decode (bytes.drop pos)) := by
  rw [codePointAt, List.size_toArray]
  split
  · next hend =>
    rw [List.drop_eq_nil_of_le hend, decode_nil]
    rfl
  · next hend =>
    rw [slice_eq, Nat.add_sub_cancel_left, firstIn_eq_told (by simpa using hend), told_take]

/-- An encoding that is cut off behind the four bytes, and one that is cut off by the end of the input. -/
example : codePointAt #[0x61, 0x61, 0x61, 0xC3, 0xA9] 0 = (some 'a', 1) ∧
    codePointAt #[0x61, 0x61, 0x61, 0xC3] 3 = (some '\uFFFD', 1) := by decide +kernel

/-- Whether U+FFFD is in front is told by three bytes. -/
theorem take_eq_replacement_iff (h : decode bytes = p :: back) :
    bytes.take 3 = String.utf8EncodeChar '\uFFFD' ↔ p = .char '\uFFFD' := by
  constructor
  · intro htake
    rw [← List.take_append_drop 3 bytes, htake, decode_utf8EncodeChar] at h
    exact (List.cons.inj h).1.symm
  · rintro rfl
    obtain ⟨rest, rfl, -⟩ := leads_of_decode h
    exact List.take_left' (by decide)

/-! ## Positions -/

theorem exists_mark (bytes : List UInt8) :
    ∃ mark, bytes = mark ++ withoutMark bytes ∧ mark.length = markLength bytes.toArray := by
  rw [markLength, slice_eq, Nat.sub_zero, List.drop_zero]
  split
  · next hmark =>
    refine ⟨_, ?_, congrArg List.length hmark⟩
    have hall := List.take_append_drop 3 bytes
    rw [hmark] at hall ⊢
    rw [← hall]
    rfl
  · next hmark =>
    refine ⟨[], ?_, rfl⟩
    unfold withoutMark
    split
    · exact absurd rfl hmark
    · rfl

theorem drop_markLength (bytes : List UInt8) :
    bytes.drop (markLength bytes.toArray) = withoutMark bytes := by
  obtain ⟨mark, hbytes, hmark⟩ := exists_mark bytes
  rw [← hmark]
  exact (congrArg _ hbytes).trans List.drop_left

/-- Where the piece `k` of a source begins; behind the last piece, where the source ends. -/
def begins (bytes : List UInt8) (k : Nat) : Nat :=
  markLength bytes.toArray + width ((decode (withoutMark bytes)).take k)

theorem decode_drop_begins (bytes : List UInt8) (k : Nat) :
    decode (bytes.drop (begins bytes k)) = (decode (withoutMark bytes)).drop k := by
  rw [begins, ← List.drop_drop, drop_markLength, decode_drop_width]

theorem begins_add (bytes : List UInt8) (k n : Nat) :
    begins bytes (k + n) = begins bytes k + width (((decode (withoutMark bytes)).drop k).take n) := by
  rw [begins, begins, List.take_add, width_append, Nat.add_assoc]

theorem begins_of_le (h : (decode (withoutMark bytes)).length ≤ k) :
    begins bytes k = bytes.length := by
  obtain ⟨mark, hbytes, hmark⟩ := exists_mark bytes
  rw [begins, List.take_of_length_le h, width_decode, ← hmark, ← List.length_append, ← hbytes]

theorem begins_mono (bytes : List UInt8) (k n : Nat) : begins bytes k ≤ begins bytes (k + n) := by
  rw [begins_add]
  exact Nat.le_add_right _ _

theorem begins_le (bytes : List UInt8) (k : Nat) : begins bytes k ≤ bytes.length := by
  rw [← begins_of_le (Nat.le_add_left (decode (withoutMark bytes)).length k)]
  exact begins_mono bytes k _

/-- The bytes from one piece to another. -/
theorem slice_begins (bytes : List UInt8) (k n : Nat) :
    slice bytes.toArray (begins bytes k) (begins bytes (k + n)) =
      (((decode (withoutMark bytes)).drop k).take n).flatMap Piece.bytes := by
  rw [slice_eq, begins_add, Nat.add_sub_cancel_left, ← decode_drop_begins, take_width]

/-- Bytes from one piece to another are decoded on their own as they are in place. -/
theorem decode_slice_begins (bytes : List UInt8) (k n : Nat) :
    decode (slice bytes.toArray (begins bytes k) (begins bytes (k + n))) =
      ((decode (withoutMark bytes)).drop k).take n := by
  rw [slice_eq, begins_add, Nat.add_sub_cancel_left, ← decode_drop_begins, decode_take_width]

theorem codePointAt_begins (bytes : List UInt8) (k : Nat) :
    (codePointAt bytes.toArray (begins bytes k)).1 =
        (decode (withoutMark bytes))[k]?.map Piece.shown ∧
      begins bytes k + (codePointAt bytes.toArray (begins bytes k)).2 = begins bytes (k + 1) := by
  rw [codePointAt_eq_told, begins_add, decode_drop_begins]
  generalize decode (withoutMark bytes) = pieces
  by_cases hk : k < pieces.length
  · rw [List.drop_eq_getElem_cons hk, List.getElem?_eq_getElem hk, List.take_succ_cons]
    exact ⟨rfl, by simp [told]⟩
  · rw [List.drop_eq_nil_of_le (Nat.le_of_not_lt hk), List.getElem?_eq_none (Nat.le_of_not_lt hk)]
    exact ⟨rfl, rfl⟩

namespace Decoder

/-- The decoder in front of the piece `k`. -/
def atPiece (bytes : List UInt8) (k : Nat) : Decoder :=
  let pieces := decode (withoutMark bytes)
  ⟨bytes.toArray, pieces[k]?.map Piece.shown, begins bytes k,
    pieces[k + 1]?.map Piece.shown, begins bytes (k + 1), begins bytes (k + 2)⟩

theorem atPiece_of_le (h : (decode (withoutMark bytes)).length ≤ k) :
    atPiece bytes k =
      ⟨bytes.toArray, none, bytes.length, none, bytes.length, bytes.length⟩ := by
  have hone := Nat.le_add_right_of_le (k := 1) h
  have htwo := Nat.le_add_right_of_le (k := 2) h
  rw [atPiece, List.getElem?_eq_none h, List.getElem?_eq_none hone, begins_of_le h, begins_of_le hone,
    begins_of_le htwo]
  rfl

theorem fill_begins {d : Decoder} (hinput : d.input = bytes.toArray)
    (hend : d.nextEnd = begins bytes k) :
    d.fill = ⟨bytes.toArray, d.current?, d.currentPos, (decode (withoutMark bytes))[k]?.map Piece.shown,
      begins bytes k, begins bytes (k + 1)⟩ := by
  obtain ⟨hnext, hlength⟩ := codePointAt_begins bytes k
  rw [fill, hinput, hend, hnext, hlength]

theorem start_eq (bytes : List UInt8) : start bytes.toArray = atPiece bytes 0 := by
  have hmark : markLength bytes.toArray = begins bytes 0 := rfl
  rw [start, hmark, fill_begins rfl rfl, shift, fill_begins rfl rfl]
  rfl

theorem advance_atPiece (bytes : List UInt8) (k : Nat) :
    (atPiece bytes k).advance = atPiece bytes (k + 1) := by
  by_cases hk : k < (decode (withoutMark bytes)).length
  · have hsome : (atPiece bytes k).current? = some (decode (withoutMark bytes))[k].shown := by
      rw [atPiece, List.getElem?_eq_getElem hk]
      rfl
    rw [advance_of_some hsome, shift, fill_begins rfl rfl]
    rfl
  · have hle := Nat.le_of_not_lt hk
    rw [atPiece_of_le hle, atPiece_of_le (Nat.le_add_right_of_le hle)]
    rfl

theorem iterate_advance (bytes : List UInt8) (n : Nat) :
    advance^[n] (start bytes.toArray) = atPiece bytes n := by
  induction n with
  | zero => exact start_eq bytes
  | succ n ih => rw [Function.iterate_succ_apply', ih, advance_atPiece]

/-- Bytes that encode nothing are told apart from a genuine U+FFFD. -/
theorem atMalformed_atPiece (h : (decode (withoutMark bytes))[k]? = some p) :
    (atPiece bytes k).atMalformed = p.isInvalid := by
  obtain ⟨hk, hp⟩ := List.getElem?_eq_some_iff.mp h
  have hrest := decode_drop_begins bytes k
  rw [List.drop_eq_getElem_cons hk, hp] at hrest
  have hslice : slice bytes.toArray (begins bytes k) (begins bytes k + 3) =
      (bytes.drop (begins bytes k)).take 3 := by
    rw [slice_eq, Nat.add_sub_cancel_left]
  rw [atMalformed, atPiece, h]
  dsimp only
  rw [hslice, Bool.eq_iff_iff]
  simp only [Option.map_some, Bool.and_eq_true, beq_iff_eq, bne_iff_ne, Option.some.injEq, ne_eq,
    take_eq_replacement_iff hrest]
  cases p with
  | char c => simp [Piece.shown, Piece.isInvalid]
  | invalid bs => simp [Piece.shown, Piece.isInvalid]

theorem slice_atPiece (h : (decode (withoutMark bytes))[k]? = some p) :
    slice bytes.toArray (begins bytes k) (begins bytes (k + 1)) = p.bytes := by
  obtain ⟨hk, hp⟩ := List.getElem?_eq_some_iff.mp h
  rw [slice_begins, List.drop_eq_getElem_cons hk, hp]
  simp

theorem piece_atPiece (h : (decode (withoutMark bytes))[k]? = some p) :
    (atPiece bytes k).piece p.shown = p := by
  rw [piece, atMalformed_atPiece h]
  cases p with
  | char c => rfl
  | invalid bs => exact congrArg Piece.invalid (slice_atPiece h)

theorem piecesOnto_atPiece (done : List Piece) (bytes : List UInt8) (k : Nat) :
    (atPiece bytes k).piecesOnto done = done.reverse ++ (decode (withoutMark bytes)).drop k := by
  induction hn : (decode (withoutMark bytes)).length - k generalizing done k with
  | zero =>
    have hle := Nat.le_of_sub_eq_zero hn
    rw [piecesOnto, atPiece_of_le hle, List.drop_eq_nil_of_le hle, List.append_nil]
  | succ n ih =>
    have hk : k < (decode (withoutMark bytes)).length := by omega
    have hpiece := List.getElem?_eq_getElem hk
    have hcurrent : (atPiece bytes k).current? = some (decode (withoutMark bytes))[k].shown := by
      rw [atPiece, hpiece]
      rfl
    rw [piecesOnto]
    split
    · next c hc =>
      obtain rfl := Option.some.inj (hc.symm.trans hcurrent)
      rw [piece_atPiece hpiece, advance_atPiece, ih _ _ (by omega), List.reverse_cons,
        List.append_assoc, List.singleton_append, ← List.drop_eq_getElem_cons hk]
    · next hc => cases hc.symm.trans hcurrent

end Decoder

/-- The decoder finds the pieces of the source behind its byte order mark. -/
theorem ofBytes_eq (bytes : List UInt8) : ofBytes bytes = decode (withoutMark bytes) := by
  rw [ofBytes, Decoder.start_eq, Decoder.piecesOnto_atPiece]
  rfl

@[simp] theorem ofBytes_nil : ofBytes [] = [] := (ofBytes_eq []).trans decode_nil

/-- The pieces of a text that does not begin with a byte order mark. -/
theorem ofBytes_utf8 {text : String} (h : text.toList.head? ≠ some '\uFEFF') :
    ofBytes (utf8 text) = text.toList.map .char := by
  rw [ofBytes_eq, withoutMark_of_head, decode_utf8]
  rw [decode_utf8, List.head?_map]
  cases hhead : text.toList.head? with
  | none => simp
  | some c => simpa [hhead] using h

end FirSyntax.Source
