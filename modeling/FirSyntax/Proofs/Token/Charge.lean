import FirSyntax.Proofs.Token.Balance
import FirSyntax.Proofs.Token.Order

/-!
# What tokens cost

Tokens of layout take no input of their own, so that the pieces of an input do not count its tokens.
They are charged instead: a token that takes a place pays with its first piece, a token that closes a
level with what was put aside when the level was opened, and a token that opens a level with a piece
of white space in front of its line. An opened level owes its line, whose content pays for both.
-/
namespace FirSyntax.Token

open Source Unicode

variable {U : CharData} {s s' : Scanner} {t : Token} {c d : Cursor}

/-- What a token of a kind costs, in thirds of a piece. -/
def Kind.charge : Kind → Nat
  | indent => 1
  | unindent | indentMismatch => 2
  | _ => 3

theorem Kind.charge_of_content {k : Kind} (h : k.isLayout = false) : k.charge = 3 := by
  cases k <;> first | rfl | cases h

def charges : List Token → Nat
  | [] => 0
  | t :: ts => t.kind.charge + charges ts

theorem charges_cons (t : Token) (ts : List Token) :
    charges (t :: ts) = t.kind.charge + charges ts := rfl

/-! ## Credit -/

namespace Scanner

/-- The pieces that are left, and at the start of a line those in front on the line. -/
def reserve (lineStart : Bool) (c : Cursor) : Nat :=
  c.rest.length + if lineStart then c.location.column - 1 else 0

/-- What a scanner can still pay: three for each piece and two for each open level. -/
def credit (s : Scanner) : Nat :=
  3 * reserve s.layout.atLineStart s.cursor + 2 * s.layout.levels.length

theorem reserve_start (c : Cursor) :
    reserve true c = c.rest.length + (c.location.column - 1) := rfl

theorem reserve_inside (c : Cursor) : reserve false c = c.rest.length := rfl

theorem reserve_step (lineStart : Bool) (c : Cursor) :
    reserve lineStart c.step ≤ reserve lineStart c := by
  obtain ⟨rest, l⟩ := c
  cases rest with
  | nil => exact Nat.le_refl _
  | cons x rest =>
    cases lineStart with
    | false => exact Nat.le_succ _
    | true =>
      have hcolumn : (Source.after l (x :: rest)).column - 1 ≤ (l.column - 1) + 1 := by
        rw [Source.after]
        split
        · exact Nat.zero_le _
        · simp only [Location.nextColumn]
          omega
      simp only [reserve_start, Cursor.step, List.length_cons]
      omega

/-- White space that is passed is left in reserve: what is gone of it stands in front on the line. -/
theorem reserve_follows {lineStart : Bool} (h : c.Follows d) :
    reserve lineStart d ≤ reserve lineStart c := by
  obtain ⟨n, rfl⟩ := h
  induction n with
  | zero => exact Nat.le_refl _
  | succ n ih =>
    rw [Function.iterate_succ_apply']
    exact Nat.le_trans (reserve_step _ _) ih

/-- A line has more in reserve before its level is settled than after. -/
theorem reserve_inside_le (lineStart : Bool) (c : Cursor) :
    reserve false c ≤ reserve lineStart c :=
  Nat.le_add_right _ _

/-- Behind a line terminator nothing stands in front on the line. -/
theorem reserve_newline (h : endsLine c.rest = true) :
    reserve true c.step + 1 = reserve false c := by
  obtain ⟨rest, l⟩ := c
  cases rest with
  | nil => cases h
  | cons x rest =>
    rw [reserve_start, Cursor.step, Source.after, if_pos h]
    rfl

/-- Every token is paid for by the credit that it takes. -/
theorem Scans.charge_le (h : s.Scans U t s') (ht : t.kind ≠ .eof) :
    t.kind.charge + s'.credit ≤ s.credit := by
  have hfront : reserve s.layout.atLineStart s.front ≤ reserve s.layout.atLineStart s.cursor :=
    reserve_follows (.skip _ _)
  have hinside := reserve_inside_le s.layout.atLineStart s.front
  cases h with
  | ending => exact absurd rfl ht
  | closing _ hlevels =>
    simp only [credit, hlevels, List.length_cons, bare, Kind.charge]
    omega
  | shift hstart _ hshift =>
    rw [hstart] at hfront
    obtain ⟨rfl, hwide, rfl⟩ | ⟨top, outer, hlevels, -, ⟨rfl, -, rfl⟩ | ⟨rfl, -, rfl⟩⟩ :=
      Layout.shift_cases hshift
    · simp only [credit, hstart, reserve_start, reserve_inside, List.length_cons, bare,
        Kind.charge] at hfront ⊢
      omega
    · simp only [credit, hstart, hlevels, reserve_start, reserve_inside, List.length_cons, bare,
        Kind.charge] at hfront ⊢
      omega
    · simp only [credit, hstart, hlevels, List.length_cons, bare, Kind.charge]
      omega
  | newline hstart hends =>
    have hnewline := reserve_newline hends
    rw [hstart] at hfront
    simp only [credit, hstart, bare, Kind.charge]
    omega
  | @lexeme first rest hrest =>
    have hle := length_lexeme_le U first s.front
    have hstep := Cursor.length_step s.front
    have hlength : s.front.rest.length = rest.length + 1 := by rw [hrest, List.length_cons]
    rw [Kind.charge_of_content (isLayout_lexeme U first s.front)]
    simp only [credit, Layout.settled, reserve_inside] at hinside ⊢
    omega

/-- All tokens together are paid for. -/
theorem charges_le (s : Scanner) : charges (s.stream U).tokens ≤ s.credit := by
  by_cases heof : (s.scan U).1.kind = .eof
  · rw [stream_of_eof rfl heof]
    exact Nat.zero_le _
  · have hlt := weight_scan U heof
    have hrest := charges_le (s.scan U).2
    have hcharge := (s.scan_scans U).charge_le heof
    rw [stream_eq heof, charges_cons]
    omega
termination_by s.weight

end Scanner

/-! ## The number of tokens -/

theorem charges_of_closing {ts : List Token} (h : ∀ t ∈ ts, t.kind = .unindent) :
    charges ts = 2 * ts.length := by
  induction ts with
  | nil => rfl
  | cons t ts ih =>
    rw [List.forall_mem_cons] at h
    rw [charges_cons, h.1, ih h.2, Kind.charge, List.length_cons]
    omega

/-- Two thirds of a token are paid for each token: a token that opens a level owes one, and its line
pays it. -/
theorem Laid.length_le_charges {cut : Bool} {p : Position} {depth : Nat} {ts : List Token}
    (h : Laid cut p depth ts) :
    2 * ts.length + (if p = .opened then 1 else 0) ≤ charges ts := by
  induction h with
  | done => exact Nat.le_refl _
  | indent hkind _ ih =>
    rw [if_pos rfl] at ih
    rw [charges_cons, hkind, List.length_cons, Kind.charge, if_neg (by decide)]
    omega
  | unindent hkind _ ih =>
    rw [if_neg (by decide)] at ih
    rw [charges_cons, hkind, List.length_cons, Kind.charge, if_neg (by decide)]
    omega
  | mismatch hkind _ ih =>
    rw [charges_cons, hkind, List.length_cons, Kind.charge, if_neg (by decide)]
    omega
  | @content p _ _ _ hkind _ ih =>
    have hdebt : (if p = .opened then 1 else 0) ≤ 1 := by split <;> decide
    rw [charges_cons, Kind.charge_of_content hkind, List.length_cons]
    omega
  | newline hkind _ ih =>
    have hcharge : Kind.newline.charge = 3 := rfl
    rw [charges_cons, hkind, hcharge, List.length_cons, if_neg (by decide)]
    omega
  | closing _ hkinds _ =>
    rw [charges_of_closing hkinds, if_neg (by decide)]
    exact Nat.le_refl _

/-- Of a source of `n` pieces there are at most `3 * n / 2` tokens. -/
theorem Stream.length_ofPieces_le (U : CharData) (pieces : List Piece) :
    2 * (Stream.ofPieces U pieces).length ≤ 3 * pieces.length := by
  have hlaid : Laid true .lineStart 0 (Stream.ofPieces U pieces).tokens :=
    Scanner.laid_lineStart (Scanner.start pieces) rfl nofun
  have hcredit : (Scanner.start pieces).credit = 3 * pieces.length := rfl
  calc 2 * (Stream.ofPieces U pieces).length
      ≤ charges (Stream.ofPieces U pieces).tokens := hlaid.length_le_charges
    _ ≤ (Scanner.start pieces).credit := Scanner.charges_le _
    _ = 3 * pieces.length := hcredit

end FirSyntax.Token
