import FirSyntax.Proofs.Source.Tiling

/-!
# Lossy decoding

Bytes are taken apart from the left: into the code point whose encoding they begin with or, where they
begin with none, into the longest bytes that begin an encoding, a single byte at least. This is said of
the encodings alone, and there is one list of pieces that meets it.
-/
namespace FirSyntax.Source

/-- The encoding of some code point begins so. -/
def BeginsEncoding (bs : List UInt8) : Prop := ∃ c, bs <+: String.utf8EncodeChar c

/-- The bytes in front as far as they begin an encoding, a single byte at least. -/
structure MaximalPrefix (bs bytes : List UInt8) : Prop where
  inFront : bs <+: bytes
  ne_nil : bs ≠ []
  begins : bs.length = 1 ∨ BeginsEncoding bs
  longest : ∀ xs, xs <+: bytes → BeginsEncoding xs → xs.length ≤ bs.length

/-- The pieces of bytes, said of the encodings of code points. -/
inductive LossyDecoding : List UInt8 → List Piece → Prop where
  | nil : LossyDecoding [] []
  | char {bytes pieces} (c : Char) :
      LossyDecoding bytes pieces → LossyDecoding (String.utf8EncodeChar c ++ bytes) (.char c :: pieces)
  | invalid {bs bytes pieces} : (∀ c, ¬ String.utf8EncodeChar c <+: bs ++ bytes) →
      MaximalPrefix bs (bs ++ bytes) → LossyDecoding bytes pieces →
      LossyDecoding (bs ++ bytes) (.invalid bs :: pieces)

variable {b : UInt8} {bs t xs ys bytes : List UInt8} {pieces : List Piece} {n : Nat}

theorem MaximalPrefix.unique (hxs : MaximalPrefix xs bytes) (hys : MaximalPrefix ys bytes) :
    xs = ys := by
  have hle {xs ys} (hxs : MaximalPrefix xs bytes) (hys : MaximalPrefix ys bytes) :
      xs.length ≤ ys.length := by
    rcases hxs.begins with hone | hbegins
    · rw [hone]
      exact List.length_pos_iff.mpr hys.ne_nil
    · exact hys.longest xs hxs.inFront hbegins
  have hlength := Nat.le_antisymm (hle hxs hys) (hle hys hxs)
  rw [List.prefix_iff_eq_take.mp hxs.inFront, List.prefix_iff_eq_take.mp hys.inFront, hlength]

/-! ## Bytes that begin an encoding -/

theorem tail_of_begins (h : BeginsEncoding (b :: xs)) : tail b xs = xs := by
  obtain ⟨c, zs, hc⟩ := h
  have hall : tail b (xs ++ zs) = xs ++ zs := by
    have hdecode := decode_utf8EncodeChar c []
    rw [List.append_nil, ← hc, List.cons_append, decode_cons, decode_nil] at hdecode
    have hrest := eq_nil_of_decode (List.cons.inj hdecode).2
    have hprefix := prefix_tail b (xs ++ zs)
    exact hprefix.eq_of_length_le (List.drop_eq_nil_iff.mp hrest)
  have htake := tail_take b (xs ++ zs) xs.length
  rwa [hall, List.take_left] at htake

/-- Bytes that may still be continued are continued by the least continuation bytes. -/
theorem continuation_fill (h : continuation n 0x80 0xBF t = t) (hlen : t.length ≤ n) :
    continuation n 0x80 0xBF (t ++ List.replicate (n - t.length) 0x80) =
      t ++ List.replicate (n - t.length) 0x80 := by
  induction t generalizing n with
  | nil =>
    rw [List.nil_append, List.length_nil, Nat.sub_zero]
    clear h hlen
    induction n with
    | zero => rfl
    | succ n ih => rw [List.replicate_succ, continuation_cons (by decide) (by decide), ih]
  | cons x t ih =>
    obtain ⟨m, rfl, hlow, hhigh, ht⟩ := of_continuation_cons h
    rw [List.length_cons, Nat.add_sub_add_right, List.cons_append,
      continuation_cons (UInt8.le_iff_toNat_le.mpr hlow) (UInt8.le_iff_toNat_le.mpr hhigh),
      ih ht (Nat.le_of_succ_le_succ hlen)]

/-- A piece of more than one byte begins an encoding. -/
theorem begins_tail (h : tail b bs ≠ []) : BeginsEncoding (b :: tail b bs) := by
  have htail := tail_tail b bs
  generalize tail b bs = t at h htail
  obtain ⟨x, xs, rfl⟩ := List.exists_cons_of_ne_nil h
  unfold tail at htail
  split at htail
  · next lead hlead =>
    have hlen := length_continuation_le lead.tails lead.low lead.high (x :: xs)
    rw [htail, List.length_cons] at hlen
    obtain ⟨m, hm, hlow, hhigh, hxs⟩ := of_continuation_cons htail
    have hfill : continuation lead.tails lead.low lead.high
        (x :: (xs ++ List.replicate (m - xs.length) 0x80)) =
          x :: (xs ++ List.replicate (m - xs.length) 0x80) := by
      rw [hm, continuation_cons (UInt8.le_iff_toNat_le.mpr hlow) (UInt8.le_iff_toNat_le.mpr hhigh),
        continuation_fill hxs (by omega)]
    have hall : (x :: (xs ++ List.replicate (m - xs.length) 0x80)).length = lead.tails := by
      rw [List.length_cons, List.length_append, List.length_replicate]
      omega
    exact ⟨_, _, (utf8EncodeChar_lead_tail hlead hfill hall).symm⟩
  · cases htail

/-! ## One piece -/

theorem maximalPrefix_tail (b : UInt8) (bs : List UInt8) :
    MaximalPrefix (b :: tail b bs) (b :: bs) := by
  refine ⟨(List.prefix_cons_inj b).mpr (prefix_tail b bs), List.cons_ne_nil _ _, ?_, ?_⟩
  · by_cases ht : tail b bs = []
    · exact .inl (by rw [ht]; rfl)
    · exact .inr (begins_tail ht)
  · intro xs hxs hbegins
    rcases List.prefix_cons_iff.mp hxs with rfl | ⟨xs, rfl, hprefix⟩
    · exact Nat.zero_le _
    · rw [← tail_of_begins hbegins, List.prefix_iff_eq_take.mp hprefix, tail_take]
      exact Nat.succ_le_succ (List.length_take_le' _ _)

/-- The first piece of bytes is a code point whose encoding they begin with, or there is none and it is
their maximal prefix. -/
theorem first_cases (b : UInt8) (bs : List UInt8) : ∃ p rest, b :: bs = p.bytes ++ rest ∧
    decode (b :: bs) = p :: decode rest ∧ MaximalPrefix p.bytes (b :: bs) ∧
      (p.isInvalid = true → ∀ c, ¬ String.utf8EncodeChar c <+: b :: bs) := by
  obtain ⟨p, rest, hbytes, hleads⟩ := exists_leads b bs
  have hdecode : decode (b :: bs) = p :: decode rest := by
    rw [hbytes, hleads.decode_append]
  have hp : p = piece b (tail b bs) := (List.cons.inj (hdecode.symm.trans (decode_cons b bs))).1
  refine ⟨p, rest, hbytes, hdecode, ?_, ?_⟩
  · rw [hp, bytes_piece]
    exact maximalPrefix_tail b bs
  · rintro hinvalid c ⟨rest', hc⟩
    rw [← hc, decode_utf8EncodeChar] at hdecode
    rw [← (List.cons.inj hdecode).1] at hinvalid
    cases hinvalid

theorem lossyDecoding_decode (bytes : List UInt8) : LossyDecoding bytes (decode bytes) := by
  induction h : bytes.length using Nat.strongRecOn generalizing bytes with
  | ind n ih =>
    subst h
    cases bytes with
    | nil =>
      rw [decode_nil]
      exact .nil
    | cons b bs =>
      obtain ⟨p, rest, hbytes, hdecode, hmaximal, hnone⟩ := first_cases b bs
      have hlt : rest.length < (b :: bs).length := by
        rw [hbytes, List.length_append]
        exact Nat.lt_add_of_pos_left (List.length_pos_iff.mpr hmaximal.ne_nil)
      have hrest := ih _ hlt rest rfl
      rw [hdecode]
      rw [hbytes] at hmaximal hnone ⊢
      cases p with
      | char c => exact .char c hrest
      | invalid ts => exact .invalid (hnone rfl) hmaximal hrest

/-- There is one lossy decoding of bytes. -/
theorem lossyDecoding_iff : LossyDecoding bytes pieces ↔ pieces = decode bytes := by
  refine ⟨fun h => ?_, fun h => h ▸ lossyDecoding_decode bytes⟩
  induction h with
  | nil => exact decode_nil.symm
  | char c _ ih => rw [decode_utf8EncodeChar, ih]
  | @invalid ts bytes pieces hnone hmaximal _ ih =>
    obtain ⟨b, bs, hcons⟩ := List.exists_cons_of_ne_nil hmaximal.ne_nil
    obtain ⟨p, rest, hbytes, hdecode, hfirst, -⟩ := first_cases b (bs ++ bytes)
    rw [← List.cons_append, ← hcons] at hbytes hdecode hfirst
    have hts : p.bytes = ts := hfirst.unique hmaximal
    rw [hts] at hbytes
    rw [hdecode, ← List.append_cancel_left hbytes, ih]
    cases p with
    | char c => 
      have hc : String.utf8EncodeChar c = ts := hts
      exact absurd (hc ▸ List.prefix_append _ _) (hnone c)
    | invalid ts' => exact congrArg (· :: _) (congrArg Piece.invalid hts.symm)

end FirSyntax.Source
