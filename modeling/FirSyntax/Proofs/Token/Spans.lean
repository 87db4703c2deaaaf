import FirSyntax.Proofs.Source.Passing
import FirSyntax.Proofs.Token.Joining
import FirSyntax.Proofs.Token.Order
import FirSyntax.Proofs.Token.Text

/-!
# Spans of tokens

Every token that takes a place in the source stands for a span of its pieces. The kind and the text
of the token are known from the span and from what follows it.
-/
namespace FirSyntax.Token

open Source Unicode

/-- A text without the white space around it. -/
def trim (cs : List Char) : List Char := trimEnd (cs.dropWhile isBlank)

/-- The pieces for which a token of a kind and a text stands, in front of `rest`. -/
inductive IsSpan (U : CharData) (rest : List Piece) : Kind → String → List Piece → Prop
  | newline {x} : endsLine (x :: rest) = true → IsSpan U rest .newline "" [x]
  | word {c parts k text} : U.beginsIdentifier c = true → Spans (atWordPart U) parts rest →
      (k = .identifier ∨ ∃ w, k = .keyword w) → IsSpan U rest k text (.char c :: parts)
  | malformedWord {c parts} : U.beginsIdentifier c = true → Spans (atWordPart U) parts rest →
      IsSpan U rest .malformedUnicode (shown (.char c :: parts)) (.char c :: parts)
  | integer {sign digits} : sign = [] ∨ sign = [.char '+'] ∨ sign = [.char '-'] → digits ≠ [] →
      Spans atDigit digits rest →
      IsSpan U rest .integer (shown (sign ++ digits)) (sign ++ digits)
  | comment {body} : Spans (fun ys => !endsLine ys) body rest →
      IsSpan U rest .comment (String.ofList (trim (body.map Piece.shown))) (.char '#' :: body)
  | sign {s : Punctuation} : (s = .plus ∨ s = .minus → atDigit rest = false) →
      IsSpan U rest (.punctuation s) (String.singleton s.char) [.char s.char]
  | unexpected {c} : isBlank c = false → c.isDigit = false → c ≠ '#' →
      U.beginsIdentifier c = false → (∀ s : Punctuation, s.char ≠ c) →
      IsSpan U rest .unexpectedChar (String.singleton c) [.char c]
  | invalid {bytes} :
      IsSpan U rest .malformedUnicode (shown [.invalid bytes]) [.invalid bytes]

variable {U : CharData} {rest : List Piece} {c : Cursor}

/-- Every token that takes a place stands for one piece at least. -/
theorem IsSpan.ne_nil {k : Kind} {text : String} {span : List Piece}
    (h : IsSpan U rest k text span) : span ≠ [] := by
  cases h with
  | integer _ hdigits => exact List.append_ne_nil_of_right_ne_nil _ hdigits
  | _ => exact List.cons_ne_nil _ _

theorem IsSpan.of_newline {text : String} {span : List Piece}
    (h : IsSpan U rest .newline text span) : ∃ x, span = [x] ∧ endsLine (x :: rest) = true := by
  cases h with
  | newline hends => exact ⟨_, rfl, hends⟩
  | word _ _ hkind => simp at hkind

theorem IsSpan.takesPlace {k : Kind} {text : String} {span : List Piece}
    (h : IsSpan U rest k text span) : k.takesPlace = true := by
  cases h with
  | word _ _ hkind => rcases hkind with rfl | ⟨w, rfl⟩ <;> rfl
  | _ => rfl

/-- A token at a cursor is that of a span, which the cursor behind the token has passed. -/
def Covers (U : CharData) (c : Cursor) (t : Token) (c' : Cursor) : Prop :=
  ∃ span, IsSpan U c'.rest t.kind t.text span ∧ c.rest = span ++ c'.rest

theorem covers_newline (h : endsLine c.rest = true) :
    Covers U c (bare .newline c.location) c.step := by
  obtain ⟨pieces, l⟩ := c
  cases pieces with
  | nil => cases h
  | cons x rest => exact ⟨[x], .newline h, rfl⟩

/-- What a span takes behind the first piece of a cursor. -/
theorem split_span (p : List Piece → Bool) {first : Piece} (hrest : c.rest = first :: rest) :
    c.rest = (first :: (c.step.span p).1) ++ (c.step.span p).2.rest := by
  rw [List.cons_append, Cursor.span_append, rest_step hrest, hrest]

theorem covers_integer {first : Char} (hrest : c.rest = .char first :: rest)
    (h : beginsInteger first c.step.rest = true) :
    Covers U c (integer (.char first) c).1 (integer (.char first) c).2 := by
  have hspans := Cursor.span_spans atDigit c.step
  have happend := Cursor.span_append atDigit c.step
  refine ⟨_, ?_, split_span atDigit hrest⟩
  cases hdigit : first.isDigit with
  | true =>
    have hdigits : Spans atDigit (.char first :: (c.step.span atDigit).1) _ :=
      ⟨⟨hdigit, hspans.passes⟩, hspans.stops⟩
    exact @IsSpan.integer U _ [] _ (.inl rfl) (List.cons_ne_nil _ _) hdigits
  | false =>
    rw [beginsInteger, hdigit, Bool.false_or, Bool.and_eq_true, Bool.or_eq_true, beq_iff_eq,
      beq_iff_eq] at h
    have hdigits : (c.step.span atDigit).1 ≠ [] := by
      intro hnil
      rw [hnil, List.nil_append] at happend
      rcases hspans.stops with hstop | hstop
      · rw [← happend, hstop] at h
        cases h.2
      · rw [← happend, hstop] at h
        cases h.2
    refine @IsSpan.integer U _ [.char first] _ ?_ hdigits hspans
    rcases h.1 with rfl | rfl
    · exact .inr (.inl rfl)
    · exact .inr (.inr rfl)

theorem ofRun_cases (U : CharData) (run : List Piece) (l : Location) :
    ((ofRun U run l).kind = .identifier ∨ ∃ w, (ofRun U run l).kind = .keyword w) ∨
      ofRun U run l = ⟨.malformedUnicode, shown run, l⟩ := by
  have hword (text : String) : kindOfWord text = .identifier ∨ ∃ w, kindOfWord text = .keyword w := by
    unfold kindOfWord
    split
    · exact .inr ⟨_, rfl⟩
    · exact .inl rfl
  unfold ofRun
  split
  · exact .inl (hword _)
  · split
    · exact .inl (hword _)
    · exact .inr rfl

theorem covers_word {first : Char} (hrest : c.rest = .char first :: rest)
    (h : U.beginsIdentifier first = true) :
    Covers U c (word U (.char first) c).1 (word U (.char first) c).2 := by
  have hspans := Cursor.span_spans (atWordPart U) c.step
  refine ⟨_, ?_, split_span (atWordPart U) hrest⟩
  rcases ofRun_cases U (.char first :: (c.step.span (atWordPart U)).1) c.location with
    hkind | hmalformed
  · exact .word h hspans hkind
  · rw [word, hmalformed]
    exact .malformedWord h hspans

/-- The text of a comment does not show the white space that is passed in front of it. -/
theorem trim_of_spans {blanks body : List Piece} (h : Spans atInnerBlank blanks (body ++ rest))
    (hbody : Passes (fun ys => !endsLine ys) body rest) :
    trim ((blanks ++ body).map Piece.shown) = trimEnd (body.map Piece.shown) := by
  have hblanks : ∀ d ∈ blanks.map Piece.shown, isBlank d = true := by
    rw [List.forall_mem_map]
    intro x hx
    obtain ⟨ys, hys⟩ := h.passes.mem x hx
    rw [atInnerBlank, Bool.and_eq_true] at hys
    exact (isBlank_shown x ys).trans hys.1
  rw [trim, List.map_append, List.dropWhile_append_of_pos hblanks]
  cases body with
  | nil => rfl
  | cons x body =>
    have hends : endsLine (x :: (body ++ rest)) = false := by simpa using hbody.1
    have hinner : atInnerBlank (x :: (body ++ rest)) = false :=
      h.stops.resolve_left (List.cons_ne_nil _ _)
    rw [atInnerBlank, hends, Bool.not_false, Bool.and_true] at hinner
    rw [List.map_cons, List.dropWhile_cons_of_neg]
    rw [isBlank_shown x (body ++ rest), hinner]
    exact Bool.false_ne_true

/-- A comment is made of what is left of its line. -/
theorem comment_eq {body : List Piece} {d : Cursor}
    (hspan : c.step.span (fun ys => !endsLine ys) = (body, d)) :
    comment c = (⟨.comment, String.ofList (trim (body.map Piece.shown)), c.location⟩, d) := by
  have hnarrower : ∀ ys, atInnerBlank ys = true → (!endsLine ys) = true := by
    intro ys hys
    rw [atInnerBlank, Bool.and_eq_true] at hys
    exact hys.2
  rw [Cursor.span_of_narrower hnarrower] at hspan
  obtain ⟨hblanks, hbody⟩ := Prod.mk.inj hspan
  have hspans := Cursor.span_spans atInnerBlank c.step
  have hline := Cursor.span_spans (fun ys => !endsLine ys) (c.step.span atInnerBlank).2
  rw [← Cursor.span_append (fun ys => !endsLine ys) (c.step.span atInnerBlank).2] at hspans
  rw [← hblanks, ← hbody, trim_of_spans hspans hline.passes]
  rfl

theorem covers_comment (hrest : c.rest = .char '#' :: rest) :
    Covers U c (comment c).1 (comment c).2 := by
  rcases hspan : c.step.span (fun ys => !endsLine ys) with ⟨body, d⟩
  obtain ⟨hsplit, hspans⟩ := Cursor.of_span hspan
  rw [comment_eq hspan]
  refine ⟨_, .comment hspans, ?_⟩
  rw [List.cons_append, ← hsplit, rest_step hrest, hrest]

/-- A character that begins nothing longer stands for itself. -/
theorem isSpan_char {ch : Char} (hblank : isBlank ch = false)
    (hinteger : beginsInteger ch rest = false) (hcomment : ch ≠ '#')
    (hword : U.beginsIdentifier ch = false) :
    IsSpan U rest (kindOfChar ch) (String.singleton ch) [.char ch] := by
  rw [beginsInteger, Bool.or_eq_false_iff, Bool.and_eq_false_iff] at hinteger
  obtain ⟨hdigit, hsigned⟩ := hinteger
  rw [kindOfChar]
  cases hsign : Punctuation.ofChar? ch with
  | some s =>
    obtain rfl : s.char = ch := by simpa using List.find?_some hsign
    refine .sign fun hs => hsigned.resolve_left ?_
    rcases hs with rfl | rfl
    · decide
    · decide
  | none =>
    refine .unexpected hblank hdigit hcomment hword fun s hs => ?_
    have hnone := List.find?_eq_none.mp hsign s (by cases s <;> decide)
    rw [hs, beq_self_eq_true] at hnone
    exact hnone rfl

theorem covers_lexeme {first : Piece} (hrest : c.rest = first :: rest)
    (hblank : atBlank c.rest = false) :
    Covers U c (lexeme U first c).1 (lexeme U first c).2 := by
  have hstep : c.rest = [first] ++ c.step.rest := by
    rw [rest_step hrest, hrest, List.singleton_append]
  unfold lexeme
  split
  · exact ⟨_, .invalid, hstep⟩
  · next ch =>
    split
    · next hinteger => exact covers_integer hrest hinteger
    · next hinteger =>
      split
      · next hcomment =>
        subst hcomment
        exact covers_comment hrest
      · next hcomment =>
        split
        · next hword => exact covers_word hrest hword
        · next hword =>
          rw [hrest] at hblank
          rw [Bool.not_eq_true] at hinteger hword
          exact ⟨_, isSpan_char hblank hinteger hcomment hword, hstep⟩

end FirSyntax.Token
