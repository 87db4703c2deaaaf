import FirSyntax.Source.Piece

/-!
# Encoded code points

The encoding of a code point is decoded to that code point, whatever bytes follow. Bytes in front of
a code point are decoded as they are on their own, since no encoding goes on into the next one.
-/
namespace FirSyntax.Source

/-- Whether a byte may only stand behind the first one of an encoding. -/
def isContinuation (b : UInt8) : Bool := 0x80 ≤ b && b ≤ 0xBF

theorem toNat_ofNat_of_lt {n : Nat} (h : n < 256) : (UInt8.ofNat n).toNat = n := by
  simpa using h

theorem continuation_cons {n : Nat} {low high b : UInt8} {bs : List UInt8} (hlow : low ≤ b)
    (hhigh : b ≤ high) :
    continuation (n + 1) low high (b :: bs) = b :: continuation n 0x80 0xBF bs := by
  rw [continuation, if_pos ⟨hlow, hhigh⟩]

namespace Lead

variable {b : UInt8}

theorem ofByte_one (h : b.toNat < 0x80) : ofByte? b = some ⟨0, 0x80, 0xBF, b.toNat⟩ := by
  rw [ofByte?, if_pos (UInt8.lt_iff_toNat_lt.mpr h)]

theorem ofByte_two (hlow : 0xC2 ≤ b.toNat) (hhigh : b.toNat < 0xE0) :
    ofByte? b = some ⟨1, 0x80, 0xBF, b.toNat - 0xC0⟩ := by
  simp only [ofByte?, UInt8.lt_iff_toNat_lt]
  rw [if_neg (by simp; omega), if_neg (by simp; omega), if_pos (by simpa using hhigh)]

/-- The lead byte of three bytes allows the second byte `t` of an encoding. -/
theorem ofByte_three {t : Nat} (hlow : 0xE0 ≤ b.toNat) (hhigh : b.toNat < 0xF0) (htlow : 0x80 ≤ t)
    (hthigh : t ≤ 0xBF) (hoverlong : b.toNat = 0xE0 → 0xA0 ≤ t)
    (hsurrogate : b.toNat = 0xED → t ≤ 0x9F) :
    ∃ low high, ofByte? b = some ⟨2, low, high, b.toNat - 0xE0⟩ ∧ low.toNat ≤ t ∧
      t ≤ high.toNat := by
  simp only [ofByte?, UInt8.lt_iff_toNat_lt, ← UInt8.toNat_inj]
  rw [if_neg (by simp; omega), if_neg (by simp; omega), if_neg (by simp; omega)]
  split
  · next h => exact ⟨0xA0, 0xBF, by simp_all, by simpa using hoverlong h, by simpa using hthigh⟩
  · split
    · next h => exact ⟨0x80, 0x9F, by simp_all, by simpa using htlow, by simpa using hsurrogate h⟩
    · rw [if_pos (by simpa using hhigh)]
      exact ⟨0x80, 0xBF, rfl, by simpa using htlow, by simpa using hthigh⟩

theorem ofByte_four {t : Nat} (hlow : 0xF0 ≤ b.toNat) (hhigh : b.toNat ≤ 0xF4) (htlow : 0x80 ≤ t)
    (hthigh : t ≤ 0xBF) (hoverlong : b.toNat = 0xF0 → 0x90 ≤ t) (hlarge : b.toNat = 0xF4 → t ≤ 0x8F) :
    ∃ low high, ofByte? b = some ⟨3, low, high, b.toNat - 0xF0⟩ ∧ low.toNat ≤ t ∧
      t ≤ high.toNat := by
  simp only [ofByte?, UInt8.lt_iff_toNat_lt, ← UInt8.toNat_inj]
  rw [if_neg (by simp; omega), if_neg (by simp; omega), if_neg (by simp; omega),
    if_neg (by simp; omega), if_neg (by simp; omega), if_neg (by simp; omega)]
  split
  · next h => exact ⟨0x90, 0xBF, by simp_all, by simpa using hoverlong h, by simpa using hthigh⟩
  · split
    · exact ⟨0x80, 0xBF, rfl, by simpa using htlow, by simpa using hthigh⟩
    · next hne hlt =>
      have heq : b.toNat = 0xF4 := by
        have : ¬ b.toNat < 0xF4 := by simpa using hlt
        omega
      rw [if_pos (by simpa using heq)]
      exact ⟨0x80, 0x8F, by simp [heq], by simpa using htlow, by simpa using hlarge heq⟩

end Lead

/-- The bytes behind the first one of an encoding belong to its piece, and make up its code point. -/
theorem decode_lead {b : UInt8} {t bs : List UInt8} {lead : Lead} {c : Char}
    (hlead : Lead.ofByte? b = some lead) (htail : continuation lead.tails lead.low lead.high (t ++ bs) = t)
    (hlen : t.length = lead.tails)
    (hvalue : t.foldl (fun v c => v * 64 + c.toNat % 64) lead.bits = c.toNat) :
    decode (b :: (t ++ bs)) = .char c :: decode bs := by
  have ht : tail b (t ++ bs) = t := by
    simp only [tail, hlead]
    exact htail
  rw [decode_cons, ht, List.drop_left]
  simp only [piece, hlead, hlen, if_true, hvalue, Char.ofNat_toNat]

/-- The six bits of a code point that a byte holds behind the first one. -/
theorem toNat_continuation (v : Nat) : (UInt8.ofNat (v % 0x40 + 0x80)).toNat = v % 0x40 + 0x80 :=
  toNat_ofNat_of_lt (by omega)

/-- A second byte that the lead byte allows. -/
theorem continuation_second {n v : Nat} {low high : UInt8} {bs : List UInt8}
    (hlow : low.toNat ≤ v % 0x40 + 0x80) (hhigh : v % 0x40 + 0x80 ≤ high.toNat) :
    continuation (n + 1) low high (UInt8.ofNat (v % 0x40 + 0x80) :: bs) =
      UInt8.ofNat (v % 0x40 + 0x80) :: continuation n 0x80 0xBF bs := by
  apply continuation_cons
  · rwa [UInt8.le_iff_toNat_le, toNat_continuation]
  · rwa [UInt8.le_iff_toNat_le, toNat_continuation]

theorem continuation_next {n v : Nat} {bs : List UInt8} :
    continuation (n + 1) 0x80 0xBF (UInt8.ofNat (v % 0x40 + 0x80) :: bs) =
      UInt8.ofNat (v % 0x40 + 0x80) :: continuation n 0x80 0xBF bs := by
  apply continuation_second
  · simp
  · simp
    omega

theorem decode_utf8EncodeChar (c : Char) (bs : List UInt8) :
    decode (String.utf8EncodeChar c ++ bs) = .char c :: decode bs := by
  have hvalid : c.toNat < 0xD800 ∨ 0xDFFF < c.toNat ∧ c.toNat < 0x110000 := c.valid
  have hv : c.val.toNat = c.toNat := rfl
  unfold String.utf8EncodeChar
  simp only [hv]
  split
  · next h1 =>
    have hb := toNat_ofNat_of_lt (n := c.toNat) (by omega)
    exact decode_lead (t := []) (Lead.ofByte_one (by omega)) rfl rfl hb
  · split
    · next h1 h2 =>
      have hb := toNat_ofNat_of_lt (n := c.toNat / 64 % 0x20 + 0xC0) (by omega)
      refine decode_lead (Lead.ofByte_two (by omega) (by omega)) continuation_next rfl ?_
      simp only [List.foldl_cons, List.foldl_nil, hb, toNat_continuation]
      omega
    · split
      · next h1 h2 h3 =>
        have hb := toNat_ofNat_of_lt (n := c.toNat / 4096 % 0x10 + 0xE0) (by omega)
        obtain ⟨low, high, hlead, hlow, hhigh⟩ :=
          Lead.ofByte_three (b := UInt8.ofNat (c.toNat / 4096 % 0x10 + 0xE0))
            (t := c.toNat / 64 % 0x40 + 0x80)
            (by omega) (by omega) (by omega) (by omega) (by omega) (by omega)
        refine decode_lead hlead ?_ rfl ?_
        · exact (continuation_second hlow hhigh).trans (congrArg _ continuation_next)
        · simp only [List.foldl_cons, List.foldl_nil, hb, toNat_continuation]
          omega
      · next h1 h2 h3 =>
        have hb := toNat_ofNat_of_lt (n := c.toNat / 262144 % 0x08 + 0xF0) (by omega)
        obtain ⟨low, high, hlead, hlow, hhigh⟩ :=
          Lead.ofByte_four (b := UInt8.ofNat (c.toNat / 262144 % 0x08 + 0xF0))
            (t := c.toNat / 4096 % 0x40 + 0x80)
            (by omega) (by omega) (by omega) (by omega) (by omega) (by omega)
        refine decode_lead hlead ?_ rfl ?_
        · exact (continuation_second hlow hhigh).trans
            (congrArg _ (continuation_next.trans (congrArg _ continuation_next)))
        · simp only [List.foldl_cons, List.foldl_nil, hb, toNat_continuation]
          omega

/-- The pieces of a text are its code points. -/
theorem decode_utf8 (text : String) : decode (utf8 text) = text.toList.map .char := by
  rw [utf8]
  induction text.toList with
  | nil => exact decode_nil
  | cons c cs ih => rw [List.flatMap_cons, decode_utf8EncodeChar, ih, List.map_cons]

/-- The input without one leading byte order mark. -/
def withoutMark : List UInt8 → List UInt8
  | 0xEF :: 0xBB :: 0xBF :: bytes => bytes
  | bytes => bytes

/-- A byte order mark is decoded to U+FEFF. -/
theorem withoutMark_of_head {bytes : List UInt8}
    (h : (decode bytes).head? ≠ some (.char '\uFEFF')) : withoutMark bytes = bytes := by
  unfold withoutMark
  split
  · next rest =>
    refine absurd ?_ h
    have hmark : String.utf8EncodeChar '\uFEFF' = [0xEF, 0xBB, 0xBF] := by decide
    have := decode_utf8EncodeChar '\uFEFF' rest
    rw [hmark] at this
    rw [show (0xEF :: 0xBB :: 0xBF :: rest : List UInt8) = [0xEF, 0xBB, 0xBF] ++ rest from rfl, this]
    rfl
  · rfl

theorem Lead.range_of_ofByte {b : UInt8} {lead : Lead} (h : ofByte? b = some lead) :
    0x80 ≤ lead.low ∧ lead.high ≤ 0xBF := by
  unfold ofByte? at h
  repeat' split at h
  all_goals cases h
  all_goals
    dsimp only
    decide

theorem continuation_append {low high : UInt8} (hlow : 0x80 ≤ low) (hhigh : high ≤ 0xBF)
    {ys : List UInt8} (hys : ∀ y ∈ ys.head?, isContinuation y = false) (n : Nat) (bs : List UInt8) :
    continuation n low high (bs ++ ys) = continuation n low high bs := by
  induction bs generalizing n low high with
  | nil =>
    cases n with
    | zero => rfl
    | succ n =>
      cases ys with
      | nil => rfl
      | cons y ys =>
        have hy := hys y rfl
        refine if_neg ?_
        rintro ⟨hle, hge⟩
        simp only [isContinuation, Bool.and_eq_false_iff, decide_eq_false_iff_not] at hy
        rcases hy with hy | hy
        · exact hy (UInt8.le_trans hlow hle)
        · exact hy (UInt8.le_trans hge hhigh)
  | cons b bs ih =>
    cases n with
    | zero => rfl
    | succ n =>
      simp only [List.cons_append, continuation]
      rw [ih (by decide) (by decide)]

theorem prefix_continuation (n : Nat) (low high : UInt8) (bs : List UInt8) :
    continuation n low high bs <+: bs := by
  induction bs generalizing n low high with
  | nil => cases n <;> exact List.prefix_rfl
  | cons b bs ih =>
    cases n with
    | zero => exact List.nil_prefix
    | succ n =>
      rw [continuation]
      split
      · exact List.prefix_cons_inj b |>.mpr (ih n _ _)
      · exact List.nil_prefix

theorem prefix_tail (b : UInt8) (bs : List UInt8) : tail b bs <+: bs := by
  unfold tail
  split
  · exact prefix_continuation _ _ _ _
  · exact List.nil_prefix

/-- Pieces end in front of a byte that is no continuation. -/
theorem decode_append (bytes : List UInt8) {ys : List UInt8}
    (hys : ∀ y ∈ ys.head?, isContinuation y = false) :
    decode (bytes ++ ys) = decode bytes ++ decode ys := by
  induction h : bytes.length using Nat.strongRecOn generalizing bytes with
  | ind n ih =>
    subst h
    cases bytes with
    | nil => simp
    | cons b bs =>
      have htail : tail b (bs ++ ys) = tail b bs := by
        unfold tail
        split
        · next lead hlead =>
          obtain ⟨hlow, hhigh⟩ := Lead.range_of_ofByte hlead
          exact continuation_append hlow hhigh hys _ _
        · rfl
      have hlen := (prefix_tail b bs).length_le
      have hlt : (bs.drop (tail b bs).length).length < (b :: bs).length := by
        simp only [List.length_cons, List.length_drop]
        omega
      rw [List.cons_append, decode_cons, decode_cons, htail, List.drop_append_of_le_length hlen,
        ih _ hlt _ rfl, List.cons_append]

end FirSyntax.Source
