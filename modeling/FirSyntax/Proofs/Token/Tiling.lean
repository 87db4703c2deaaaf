import FirSyntax.Proofs.Source.Places
import FirSyntax.Proofs.Token.Scans
import FirSyntax.Proofs.Token.Spans

/-!
# Tilings

The spans of the tokens of an input stand one behind the other, with nothing but white space between
them, and the location of each token is the place of its first piece. The tokens of layout take no
place of their own: they stand where the content of their line begins, or at the end of the input.
-/
namespace FirSyntax.Token

open Source Unicode

/-- Nothing but white space stands in front of the piece `k` on its line. -/
def InMargin (input : List Piece) (k : Nat) : Prop :=
  ∀ i ∈ lineBefore input k, atBlank (input.drop i) = true

/-- The content of a line begins with the piece `k`. -/
def BeginsContent (input : List Piece) (k : Nat) : Prop :=
  InMargin input k ∧ k < input.length ∧ atBlank (input.drop k) = false

/-- The tokens from the piece `k` of an input on and the end of the file, each at its place. -/
inductive Tiles (U : CharData) (input : List Piece) : Bool → Nat → List Token → Location → Prop
  | ending {lineStart k closing} : Passes (spaceTest lineStart) (input.drop k) [] →
      (∀ t ∈ closing, t = bare .unindent (place input input.length)) →
      Tiles U input lineStart k closing (place input input.length)
  | layout {lineStart k gap rest kind ts ending} : input.drop k = gap ++ rest →
      Passes (spaceTest true) gap rest → BeginsContent input (k + gap.length) →
      kind = .indent ∨ kind = .indentMismatch ∨ kind = .unindent →
      Tiles U input lineStart (k + gap.length) ts ending →
      Tiles U input true k (bare kind (place input (k + gap.length)) :: ts) ending
  | span {lineStart k gap span rest t ts ending} : input.drop k = gap ++ (span ++ rest) →
      Passes (spaceTest lineStart) gap (span ++ rest) → IsSpan U rest t.kind t.text span →
      t.location = place input (k + gap.length) →
      Tiles U input (t.kind == .newline) (k + gap.length + span.length) ts ending →
      Tiles U input lineStart k (t :: ts) ending

/-- The pieces are divided into gaps of white space and the spans of the tokens. -/
inductive Divides (U : CharData) : Bool → List Piece → List Token → Prop
  | gap {lineStart gap} : Passes (spaceTest lineStart) gap [] → Divides U lineStart gap []
  | span {lineStart gap span rest t ts} : Passes (spaceTest lineStart) gap (span ++ rest) →
      IsSpan U rest t.kind t.text span → Divides U (t.kind == .newline) rest ts →
      Divides U lineStart (gap ++ (span ++ rest)) (t :: ts)

variable {U : CharData} {input gap rest : List Piece} {k : Nat} {lineStart : Bool}

/-! ## Places in the margin of a line -/

theorem inMargin_zero (input : List Piece) : InMargin input 0 := by
  intro i hi
  exact absurd hi List.not_mem_nil

theorem inMargin_of_endsLineAt (h : endsLineAt input k = true) : InMargin input (k + 1) := by
  rw [InMargin, lineBefore_succ, if_pos h]
  exact List.forall_mem_nil _

theorem InMargin.succ (h : InMargin input k) (hblank : atBlank (input.drop k) = true) :
    InMargin input (k + 1) := by
  by_cases hends : endsLineAt input k = true
  · exact inMargin_of_endsLineAt hends
  · rw [InMargin, lineBefore_succ, if_neg hends, List.forall_mem_cons]
    exact ⟨hblank, h⟩

theorem drop_add_length {run : List Piece} (h : input.drop k = run ++ rest) :
    input.drop (k + run.length) = rest := by
  rw [← List.drop_drop, h, List.drop_left]

theorem length_of_drop {run : List Piece} (hk : k ≤ input.length)
    (h : input.drop k = run ++ rest) : k + run.length + rest.length = input.length := by
  have hlength := congrArg List.length h
  rw [List.length_drop, List.length_append] at hlength
  omega

theorem InMargin.passes (h : InMargin input k) (hdrop : input.drop k = gap ++ rest)
    (hgap : Passes atBlank gap rest) : InMargin input (k + gap.length) := by
  induction gap generalizing k with
  | nil => exact h
  | cons x gap ih =>
    have hnext : input.drop (k + [x].length) = gap ++ rest := drop_add_length hdrop
    have hblank : atBlank (input.drop k) = true := by
      rw [hdrop]
      exact hgap.1
    have hmargin := ih (h.succ hblank) hnext hgap.2
    rwa [List.length_cons, Nat.add_comm gap.length 1, ← Nat.add_assoc]

/-- In front of something else there is no white space to pass. -/
theorem nil_of_passes (h : Passes (spaceTest lineStart) gap rest)
    (hblank : atBlank (gap ++ rest) = false) : gap = [] := by
  cases gap with
  | nil => rfl
  | cons x gap =>
    have hspace : spaceTest lineStart (x :: (gap ++ rest)) = false := by
      cases lineStart with
      | true => exact hblank
      | false => exact Bool.and_eq_false_iff.mpr (.inl hblank)
    rw [h.1] at hspace
    cases hspace

/-! ## The tiling of a scanner -/

namespace Scanner

variable {s s' : Scanner} {t : Token}

/-- The scanner is in front of the piece `k`, in the margin of a line if it is at the start of one. -/
structure StandsAt (input : List Piece) (s : Scanner) (k : Nat) : Prop where
  cursor : s.cursor = .atPiece input k
  bound : k ≤ input.length
  margin : s.layout.atLineStart = true → InMargin input k

theorem standsAt_start (input : List Piece) : (start input).StandsAt input 0 where
  cursor := rfl
  bound := Nat.zero_le _
  margin _ := inMargin_zero input

/-- The next token is looked for behind a gap of white space. -/
theorem StandsAt.exists_gap (h : s.StandsAt input k) :
    ∃ gap, input.drop k = gap ++ s.front.rest ∧
      Spans (spaceTest s.layout.atLineStart) gap s.front.rest ∧
      s.front = .atPiece input (k + gap.length) := by
  have hrest : s.cursor.rest = input.drop k := congrArg Cursor.rest h.cursor
  have hdrop : _ ++ s.front.rest = s.cursor.rest := Cursor.span_append (spaceTest _) s.cursor
  have hspans : Spans _ _ s.front.rest := Cursor.span_spans (spaceTest s.layout.atLineStart) s.cursor
  have hfollows : s.cursor.Follows s.front := .skip _ _
  rw [h.cursor] at hfollows
  rw [hrest] at hdrop
  exact ⟨_, hdrop.symm, hspans, hfollows.eq_atPiece h.bound hdrop.symm⟩

/-- At the end of the input the levels are closed. -/
theorem StandsAt.tiles_of_end (h : s.StandsAt input k) (hend : s.front.rest = []) :
    Tiles U input s.layout.atLineStart k (s.stream U).tokens (s.stream U).ending := by
  obtain ⟨gap, hdrop, hspans, hfront⟩ := h.exists_gap
  rw [hend] at hdrop hspans
  have hlength : k + gap.length = input.length := length_of_drop h.bound hdrop
  rw [List.append_nil] at hdrop
  have hlocation : s.front.location = place input input.length := by
    rw [hfront, hlength]
    rfl
  have hstream : s.stream U = stream U ⟨⟨[], s.front.location⟩, s.layout⟩ := by
    rw [← hend]
    exact stream_congr (scan_front s)
  rw [hstream, stream_of_end, hlocation]
  refine .ending (hdrop ▸ hspans.passes) fun t ht => ?_
  obtain ⟨w, -, rfl⟩ := List.mem_map.mp ht
  rfl

/-- A token with a span is one of the tiling, and behind the span the scanner stands again. -/
theorem StandsAt.tiles_span {c : Cursor} {layout : Layout} (h : s.StandsAt input k)
    (hcovers : Covers U s.front t c) (hfollows : s.front.Follows c)
    (hlocation : t.location = s.front.location)
    (hstart : layout.atLineStart = (t.kind == .newline)) :
    ∃ m, StandsAt input ⟨c, layout⟩ m ∧ ∀ ts ending,
      Tiles U input layout.atLineStart m ts ending →
        Tiles U input s.layout.atLineStart k (t :: ts) ending := by
  obtain ⟨gap, hdrop, hspans, hfront⟩ := h.exists_gap
  obtain ⟨span, hspan, hrest⟩ := hcovers
  have hbehind : input.drop (k + gap.length) = span ++ c.rest := by
    rw [drop_add_length hdrop, hrest]
  have hbound : k + gap.length + span.length ≤ input.length := by
    have hlength := length_of_drop h.bound hdrop
    rw [hrest, List.length_append] at hlength
    omega
  rw [hfront] at hfollows hlocation
  have hcursor : c = .atPiece input (k + gap.length + span.length) :=
    hfollows.eq_atPiece (Nat.le_of_add_right_le hbound) hbehind
  refine ⟨k + gap.length + span.length, ⟨hcursor, hbound, fun hnext => ?_⟩,
    fun ts ending htiles => ?_⟩
  · have hkind : t.kind = .newline := by simpa [hstart] using hnext
    rw [hkind] at hspan
    obtain ⟨x, rfl, hends⟩ := hspan.of_newline
    refine inMargin_of_endsLineAt ?_
    rw [endsLineAt, hbehind]
    exact hends
  · rw [hrest] at hdrop hspans
    rw [hstart] at htiles
    exact .span hdrop hspans.passes hspan hlocation htiles

/-- In front of anything but the end, the next token is one of the tiling. -/
theorem StandsAt.tiles_scan (h : s.StandsAt input k) (hend : s.front.rest ≠ [])
    (hscans : s.Scans U t s') :
    ∃ m, s'.StandsAt input m ∧ ∀ ts ending, Tiles U input s'.layout.atLineStart m ts ending →
      Tiles U input s.layout.atLineStart k (t :: ts) ending := by
  cases hscans with
  | ending hnil | closing hnil => exact absurd hnil hend
  | newline _ hends => exact h.tiles_span (covers_newline hends) (.step _) rfl rfl
  | @lexeme first _ hrest hblank =>
    have hcontent := isLayout_lexeme U first s.front
    have hfollows := (Cursor.Follows.step _).trans (follows_lexeme U first s.front)
    refine h.tiles_span (covers_lexeme hrest hblank) hfollows (location_lexeme U _ _) ?_
    have hne : (lexeme U first s.front).1.kind ≠ .newline := by
      intro hnewline
      rw [hnewline] at hcontent
      cases hcontent
    exact (beq_false_of_ne hne).symm
  | @shift _ layout hstart _ hshift =>
    obtain ⟨gap, hdrop, hspans, hfront⟩ := h.exists_gap
    have hblank := hspans.stops.resolve_left hend
    rw [hstart] at hspans hblank
    have hbound : k + gap.length < input.length := by
      have hlength := length_of_drop h.bound hdrop
      have hpos := List.length_pos_iff.mpr hend
      omega
    have hbegins : BeginsContent input (k + gap.length) := by
      refine ⟨(h.margin hstart).passes hdrop hspans.passes, hbound, ?_⟩
      rw [drop_add_length hdrop]
      exact hblank
    refine ⟨k + gap.length, ⟨hfront, Nat.le_of_lt hbound, fun _ => hbegins.1⟩,
      fun ts ending htiles => ?_⟩
    rw [hstart, hfront]
    exact .layout hdrop hspans.passes hbegins (Layout.kind_of_shift hshift) htiles

/-- The tokens from a scanner on tile what is left of the input. -/
theorem StandsAt.tiles {s : Scanner} {k : Nat} (h : s.StandsAt input k) :
    Tiles U input s.layout.atLineStart k (s.stream U).tokens (s.stream U).ending := by
  by_cases hend : s.front.rest = []
  · exact h.tiles_of_end hend
  · obtain ⟨m, hnext, htiles⟩ := h.tiles_scan hend (s.scan_scans U)
    have hne : (s.scan U).1.kind ≠ .eof := (s.scan_scans U).ne_eof hend
    have hlt := weight_scan U hne
    rw [stream_eq hne]
    exact htiles _ _ hnext.tiles
termination_by s.weight

end Scanner

/-! ## The division of an input -/

theorem Divides.margin {ts : List Token} (h : Divides U lineStart rest ts)
    (hblank : atBlank rest = false) (hgap : Passes (spaceTest true) gap rest) :
    Divides U true (gap ++ rest) ts := by
  cases h with
  | gap hpasses =>
    obtain rfl : rest = [] := nil_of_passes hpasses (by rwa [List.append_nil])
    rw [List.append_nil]
    exact .gap hgap
  | span hpasses hspan hdivides =>
    obtain rfl := nil_of_passes hpasses hblank
    rw [List.nil_append] at hgap ⊢
    exact .span hgap hspan hdivides

/-- The tokens that take a place divide what they tile. -/
theorem Tiles.divides {ts : List Token} {ending : Location}
    (h : Tiles U input lineStart k ts ending) :
    Divides U lineStart (input.drop k) (ts.filter (·.kind.takesPlace)) := by
  induction h with
  | ending hpasses hclosing =>
    rw [List.filter_eq_nil_iff.mpr]
    · exact .gap hpasses
    · intro t ht
      rw [hclosing t ht]
      exact Bool.false_ne_true
  | layout hdrop hgap hbegins hkind _ ih =>
    rw [drop_add_length hdrop] at ih
    rw [hdrop, List.filter_cons_of_neg]
    · refine ih.margin ?_ hgap
      rw [← drop_add_length hdrop]
      exact hbegins.2.2
    · rcases hkind with rfl | rfl | rfl <;> exact Bool.false_ne_true
  | span hdrop hgap hspan _ _ ih =>
    rw [← List.append_assoc] at hdrop
    rw [Nat.add_assoc, ← List.length_append, drop_add_length hdrop] at ih
    rw [List.filter_cons, if_pos hspan.takesPlace, hdrop, List.append_assoc]
    exact .span hgap hspan ih

end FirSyntax.Token
