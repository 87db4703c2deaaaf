import FirSyntax.Proofs.Source.Utf8
import Mathlib.Data.List.Basic

/-!
# Pieces tile the bytes

The bytes of the pieces, one behind the other, are the bytes they were found in: a code point stands for
its encoding. How a piece is read does not depend on where the bytes behind it are cut off, so bytes from
the beginning of one piece to the beginning of another are decoded on their own as they are in place.
-/
namespace FirSyntax.Source

/-! ## Code points -/

/-- What a lead byte says of the code points that it begins. -/
inductive Lead.Allows (b : UInt8) : Lead → Prop where
  | one {low high} : b.toNat < 0x80 → Allows b ⟨0, low, high, b.toNat⟩
  | two {low high} : 0xC2 ≤ b.toNat → b.toNat < 0xE0 → Allows b ⟨1, low, high, b.toNat - 0xC0⟩
  | three {low high bits} : 0xE0 + bits = b.toNat → b.toNat < 0xF0 →
      (b.toNat = 0xE0 → 0xA0 ≤ low.toNat) → (b.toNat = 0xED → high.toNat ≤ 0x9F) →
      Allows b ⟨2, low, high, bits⟩
  | four {low high bits} : 0xF0 + bits = b.toNat → b.toNat ≤ 0xF4 →
      (b.toNat = 0xF0 → 0x90 ≤ low.toNat) → (b.toNat = 0xF4 → high.toNat ≤ 0x8F) →
      Allows b ⟨3, low, high, bits⟩

variable {b low high : UInt8} {t xs ys zs : List UInt8} {lead : Lead} {n k : Nat}

theorem Lead.allows_of_ofByte (h : Lead.ofByte? b = some lead) : lead.Allows b := by
  simp only [ofByte?, UInt8.lt_iff_toNat_lt, ← UInt8.toNat_inj, UInt8.reduceToNat] at h
  repeat' split at h
  all_goals cases h
  · exact .one ‹_›
  · exact .two (by omega) (by omega)
  · exact .three (by omega) (by omega) (fun _ => Nat.le_refl _) (by omega)
  · exact .three (by omega) (by omega) (by omega) (fun _ => Nat.le_refl _)
  · exact .three (by omega) (by omega) (by omega) (by omega)
  · exact .four (by omega) (by omega) (fun _ => Nat.le_refl _) (by omega)
  · exact .four (by omega) (by omega) (by omega) (by omega)
  · exact .four (by omega) (by omega) (by omega) (fun _ => Nat.le_refl _)

theorem of_continuation_cons {x : UInt8} (h : continuation n low high (x :: xs) = x :: xs) :
    ∃ m, n = m + 1 ∧ low.toNat ≤ x.toNat ∧ x.toNat ≤ high.toNat ∧
      continuation m 0x80 0xBF xs = xs := by
  cases n with
  | zero => cases h
  | succ m =>
    rw [continuation] at h
    split at h
    · next hx =>
      exact ⟨m, rfl, UInt8.le_iff_toNat_le.mp hx.1, UInt8.le_iff_toNat_le.mp hx.2,
        (List.cons.inj h).2⟩
    · cases h

theorem toNat_ofNat_of_valid (h : n < 0xD800 ∨ 0xDFFF < n ∧ n < 0x110000) :
    (Char.ofNat n).toNat = n := by
  have hvalid : n.isValidChar := h
  rw [Char.ofNat, dif_pos hvalid]
  rfl

theorem ofNat_eq_of_toNat {x : UInt8} (h : n = x.toNat) : UInt8.ofNat n = x := by
  rw [h, UInt8.ofNat_toNat]

/-- Bytes that go together are the encoding of their code point. -/
theorem utf8EncodeChar_lead_tail (hlead : Lead.ofByte? b = some lead)
    (ht : continuation lead.tails lead.low lead.high t = t) (hlen : t.length = lead.tails) :
    String.utf8EncodeChar (Char.ofNat (t.foldl (fun v c => v * 64 + c.toNat % 64) lead.bits)) =
      b :: t := by
  obtain ⟨hlow, hhigh⟩ := Lead.range_of_ofByte hlead
  have hval (c : Char) : c.val.toNat = c.toNat := rfl
  simp only [UInt8.le_iff_toNat_le, UInt8.reduceToNat] at hlow hhigh
  unfold String.utf8EncodeChar
  simp only [hval]
  cases Lead.allows_of_ofByte hlead with
  | one hb =>
    obtain rfl := List.eq_nil_of_length_eq_zero hlen
    dsimp only at *
    rw [List.foldl_nil, toNat_ofNat_of_valid (by omega), if_pos (by omega), UInt8.ofNat_toNat]
  | two hlead hb =>
    obtain ⟨x, rfl⟩ := List.length_eq_one_iff.mp hlen
    obtain ⟨_, -, hx, hx', -⟩ := of_continuation_cons ht
    dsimp only at *
    rw [List.foldl_cons, List.foldl_nil, toNat_ofNat_of_valid (by omega), if_neg (by omega),
      if_pos (by omega)]
    simp only [List.cons.injEq, and_true]
    exact ⟨ofNat_eq_of_toNat (by omega), ofNat_eq_of_toNat (by omega)⟩
  | three hlead hb hoverlong hsurrogate =>
    obtain ⟨x, y, rfl⟩ := List.length_eq_two.mp hlen
    obtain ⟨_, _, hx, hx', ht⟩ := of_continuation_cons ht
    obtain ⟨_, _, hy, hy', -⟩ := of_continuation_cons ht
    simp only [UInt8.reduceToNat] at *
    rw [List.foldl_cons, List.foldl_cons, List.foldl_nil, toNat_ofNat_of_valid (by omega),
      if_neg (by omega), if_neg (by omega), if_pos (by omega)]
    simp only [List.cons.injEq, and_true]
    exact ⟨ofNat_eq_of_toNat (by omega), ofNat_eq_of_toNat (by omega), ofNat_eq_of_toNat (by omega)⟩
  | four hlead hb hoverlong hlarge =>
    obtain ⟨x, y, z, rfl⟩ := List.length_eq_three.mp hlen
    obtain ⟨_, _, hx, hx', ht⟩ := of_continuation_cons ht
    obtain ⟨_, _, hy, hy', ht⟩ := of_continuation_cons ht
    obtain ⟨_, _, hz, hz', -⟩ := of_continuation_cons ht
    simp only [UInt8.reduceToNat] at *
    rw [List.foldl_cons, List.foldl_cons, List.foldl_cons, List.foldl_nil,
      toNat_ofNat_of_valid (by omega), if_neg (by omega), if_neg (by omega), if_neg (by omega)]
    simp only [List.cons.injEq, and_true]
    exact ⟨ofNat_eq_of_toNat (by omega), ofNat_eq_of_toNat (by omega), ofNat_eq_of_toNat (by omega),
      ofNat_eq_of_toNat (by omega)⟩

/-! ## One piece -/

theorem length_continuation_le (n : Nat) (low high : UInt8) (bs : List UInt8) :
    (continuation n low high bs).length ≤ n := by
  induction bs generalizing n low high with
  | nil => cases n <;> exact Nat.zero_le _
  | cons b bs ih =>
    cases n with
    | zero => exact Nat.le_refl _
    | succ n =>
      rw [continuation]
      split
      · exact Nat.succ_le_succ (ih n _ _)
      · exact Nat.zero_le _

theorem continuation_take (n : Nat) (low high : UInt8) (bs : List UInt8) (k : Nat) :
    continuation n low high (bs.take k) = (continuation n low high bs).take k := by
  induction bs generalizing n low high k with
  | nil => cases n <;> simp [continuation]
  | cons b bs ih =>
    cases n with
    | zero => simp [continuation]
    | succ n =>
      cases k with
      | zero => rfl
      | succ k =>
        rw [List.take_succ_cons, continuation, continuation, ih]
        split
        · rfl
        · rfl

theorem tail_take (b : UInt8) (bs : List UInt8) (k : Nat) :
    tail b (bs.take k) = (tail b bs).take k := by
  unfold tail
  split
  · exact continuation_take _ _ _ _ _
  · exact List.take_nil.symm

/-- What belongs to a piece still does where the bytes behind it are cut off. -/
theorem tail_cut (h : tail b (xs ++ zs) = xs) (hys : ys <+: zs) : tail b (xs ++ ys) = xs := by
  have hprefix : xs ++ ys <+: xs ++ zs := (List.prefix_append_right_inj xs).mpr hys
  rw [List.prefix_iff_eq_take.mp hprefix, tail_take, h, List.take_of_length_le]
  simp

theorem length_tail_le (b : UInt8) (bs : List UInt8) : (tail b bs).length ≤ 3 := by
  unfold tail
  split
  · next lead hlead =>
    refine Nat.le_trans (length_continuation_le _ _ _ _) ?_
    cases Lead.allows_of_ofByte hlead with
    | one | two | three | four => simp
  · exact Nat.zero_le _

theorem tail_tail (b : UInt8) (bs : List UInt8) : tail b (tail b bs) = tail b bs := by
  obtain ⟨rest, hrest⟩ := prefix_tail b bs
  simpa using tail_cut (by rw [hrest]) (List.nil_prefix : [] <+: rest)

theorem bytes_piece (b : UInt8) (bs : List UInt8) : (piece b (tail b bs)).bytes = b :: tail b bs := by
  have h := tail_tail b bs
  unfold piece
  split
  · next lead hlead =>
    split
    · next hlen =>
      rw [tail, hlead] at h
      exact utf8EncodeChar_lead_tail hlead h hlen
    · rfl
  · rfl

/-- In front of `rest` the piece is found, whatever part of `rest` is there. -/
structure Leads (p : Piece) (rest : List UInt8) : Prop where
  length_pos : 0 < p.bytes.length
  length_le : p.bytes.length ≤ 4
  decode_eq : ∀ ys, ys <+: rest → decode (p.bytes ++ ys) = p :: decode ys

theorem Leads.decode_append {p : Piece} {rest : List UInt8} (h : Leads p rest) :
    decode (p.bytes ++ rest) = p :: decode rest :=
  h.decode_eq rest List.prefix_rfl

/-- Bytes begin with a piece. -/
theorem exists_leads (b : UInt8) (bs : List UInt8) :
    ∃ p rest, b :: bs = p.bytes ++ rest ∧ Leads p rest := by
  obtain ⟨rest, hrest⟩ := prefix_tail b bs
  have htail (ys) (hys : ys <+: rest) : tail b (tail b bs ++ ys) = tail b bs :=
    tail_cut (by rw [hrest]) hys
  have hbytes := bytes_piece b bs
  refine ⟨piece b (tail b bs), rest, by rw [hbytes, List.cons_append, hrest], ?_, ?_, fun ys hys => ?_⟩
  · rw [hbytes]
    exact Nat.succ_pos _
  · rw [hbytes]
    exact Nat.succ_le_succ (length_tail_le b bs)
  · rw [hbytes, List.cons_append, decode_cons, htail ys hys, List.drop_left]

theorem leads_of_decode {bytes : List UInt8} {p : Piece} {back : List Piece}
    (h : decode bytes = p :: back) : ∃ rest, bytes = p.bytes ++ rest ∧ Leads p rest := by
  cases bytes with
  | nil =>
    rw [decode_nil] at h
    cases h
  | cons b bs =>
    obtain ⟨first, rest, hbytes, hleads⟩ := exists_leads b bs
    rw [hbytes, hleads.decode_append] at h
    obtain ⟨rfl, -⟩ := List.cons.inj h
    exact ⟨rest, hbytes, hleads⟩

/-! ## All pieces -/

/-- The number of bytes that pieces take. -/
def width (pieces : List Piece) : Nat := (pieces.flatMap Piece.bytes).length

@[simp] theorem width_nil : width [] = 0 := rfl

@[simp] theorem width_cons (p : Piece) (pieces : List Piece) :
    width (p :: pieces) = p.bytes.length + width pieces := by
  rw [width, List.flatMap_cons, List.length_append]
  rfl

theorem width_append (front back : List Piece) : width (front ++ back) = width front + width back := by
  rw [width, List.flatMap_append, List.length_append]
  rfl

theorem eq_nil_of_decode {bytes : List UInt8} (h : decode bytes = []) : bytes = [] := by
  cases bytes with
  | nil => rfl
  | cons b bs =>
    rw [decode_cons] at h
    cases h

/-- Bytes are cut in front of a piece. -/
theorem exists_cut (bytes : List UInt8) (k : Nat) :
    ∃ front back, bytes = front ++ back ∧ front = ((decode bytes).take k).flatMap Piece.bytes ∧
      decode front = (decode bytes).take k ∧ decode back = (decode bytes).drop k := by
  induction k generalizing bytes with
  | zero => exact ⟨[], bytes, by simp⟩
  | succ k ih =>
    cases bytes with
    | nil => exact ⟨[], [], by simp⟩
    | cons b bs =>
      obtain ⟨p, rest, hbytes, hleads⟩ := exists_leads b bs
      obtain ⟨front, back, rfl, hfront, hdecode, hback⟩ := ih rest
      rw [hbytes, hleads.decode_append, List.take_succ_cons, List.drop_succ_cons, List.flatMap_cons, ← hfront]
      exact ⟨p.bytes ++ front, back, by rw [List.append_assoc], rfl,
        by rw [hleads.decode_eq _ (List.prefix_append _ _), hdecode], hback⟩

theorem take_width (bytes : List UInt8) (k : Nat) :
    bytes.take (width ((decode bytes).take k)) = ((decode bytes).take k).flatMap Piece.bytes := by
  obtain ⟨front, back, hbytes, hfront, -⟩ := exists_cut bytes k
  rw [width, ← hfront]
  exact (congrArg _ hbytes).trans List.take_left

theorem decode_take_width (bytes : List UInt8) (k : Nat) :
    decode (bytes.take (width ((decode bytes).take k))) = (decode bytes).take k := by
  obtain ⟨front, back, hbytes, hfront, hdecode, -⟩ := exists_cut bytes k
  rw [take_width, ← hfront, hdecode]

theorem decode_drop_width (bytes : List UInt8) (k : Nat) :
    decode (bytes.drop (width ((decode bytes).take k))) = (decode bytes).drop k := by
  obtain ⟨front, back, hbytes, hfront, -, hback⟩ := exists_cut bytes k
  have hdrop : bytes.drop front.length = back := (congrArg _ hbytes).trans List.drop_left
  rw [width, ← hfront, hdrop, hback]

/-- The bytes of the pieces are the bytes they were found in. -/
theorem flatMap_decode (bytes : List UInt8) : (decode bytes).flatMap Piece.bytes = bytes := by
  obtain ⟨front, back, hbytes, hfront, -, hback⟩ := exists_cut bytes (decode bytes).length
  rw [List.drop_length] at hback
  rw [List.take_length] at hfront
  rw [eq_nil_of_decode hback, List.append_nil] at hbytes
  rw [← hfront, ← hbytes]

theorem width_decode (bytes : List UInt8) : width (decode bytes) = bytes.length :=
  congrArg List.length (flatMap_decode bytes)

/-- A piece takes from one to four bytes. -/
theorem length_of_mem_decode {bytes : List UInt8} {p : Piece} (h : p ∈ decode bytes) :
    0 < p.bytes.length ∧ p.bytes.length ≤ 4 := by
  obtain ⟨front, back, heq⟩ := List.append_of_mem h
  have hdrop := decode_drop_width bytes front.length
  rw [heq, List.drop_left] at hdrop
  obtain ⟨rest, -, hleads⟩ := leads_of_decode hdrop
  exact ⟨hleads.length_pos, hleads.length_le⟩

end FirSyntax.Source
