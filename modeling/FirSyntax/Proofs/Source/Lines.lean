import FirSyntax.Proofs.Source.Joining

/-!
# Lines of an input

Where the line of a cursor ends does not change while the cursor moves inside the line, and it does
not depend on what the line holds. A source is cut around the content of a line: in front of it are
whole lines and the white space of its margin, behind it a line terminator or nothing.
-/
namespace FirSyntax.Source

variable {p : List Piece → Bool} {c : Cursor} {rest back taken : List Piece} {l : Location}

namespace Cursor

/-- Where the line of a cursor ends: in front of its terminator, or at the end of the input. -/
def lineEnd (c : Cursor) : Cursor := c.skip fun rest => !endsLine rest

theorem lineEnd_stops (c : Cursor) : c.lineEnd.rest = [] ∨ endsLine c.lineEnd.rest = true := by
  rcases spanFrom_stops (fun rest => !endsLine rest) [] c.rest c.location with h | h
  · exact .inl h
  · right
    rw [Bool.not_eq_false'] at h
    exact h

theorem lineEnd_step (h : endsLine c.rest = false) : c.step.lineEnd = c.lineEnd := by
  obtain ⟨rest, l⟩ := c
  cases rest with
  | nil => rfl
  | cons x rest =>
    have hx : (!endsLine (x :: rest)) = true := by simpa using h
    exact (skip_cons (p := fun rest => !endsLine rest) hx).symm

/-- A cursor that moves over no line terminator stays in its line. -/
theorem lineEnd_spanFrom (hp : ∀ rest, p rest = true → endsLine rest = false)
    (taken rest : List Piece) (l : Location) :
    (spanFrom p taken rest l).2.lineEnd = (⟨rest, l⟩ : Cursor).lineEnd := by
  induction rest generalizing taken l with
  | nil => rfl
  | cons x rest ih =>
    rw [spanFrom]
    split
    · next hx =>
      rw [ih]
      exact lineEnd_step (c := ⟨x :: rest, l⟩) (hp _ hx)
    · rfl

theorem lineEnd_span (hp : ∀ rest, p rest = true → endsLine rest = false) (c : Cursor) :
    (c.span p).2.lineEnd = c.lineEnd := lineEnd_spanFrom hp [] c.rest c.location

theorem lineEnd_skip (hp : ∀ rest, p rest = true → endsLine rest = false) (c : Cursor) :
    (c.skip p).lineEnd = c.lineEnd := lineEnd_span hp c

theorem lineEnd_of_stop (h : c.rest = [] ∨ endsLine c.rest = true) : c.lineEnd = c := by
  obtain ⟨rest, l⟩ := c
  cases rest with
  | nil => rfl
  | cons x rest =>
    have hx : endsLine (x :: rest) = true := h.resolve_left (by simp)
    simp [lineEnd, skip, span, spanFrom, hx]

theorem line_spanFrom (hp : ∀ rest, p rest = true → endsLine rest = false)
    (taken rest : List Piece) (l : Location) :
    (spanFrom p taken rest l).2.location.line = l.line := by
  induction rest generalizing taken l with
  | nil => rfl
  | cons x rest ih =>
    rw [spanFrom]
    split
    · next hx =>
      rw [ih, after, hp _ hx]
      rfl
    · rfl

theorem line_skip (hp : ∀ rest, p rest = true → endsLine rest = false) (c : Cursor) :
    (c.skip p).location.line = c.location.line := line_spanFrom hp [] c.rest c.location

theorem line_lineEnd (c : Cursor) : c.lineEnd.location.line = c.location.line :=
  line_skip (fun rest h => by simpa using h) c

/-- What is left behind a line does not depend on where the line stands. -/
theorem rest_lineEnd (rest : List Piece) (l l' : Location) :
    (⟨rest, l⟩ : Cursor).lineEnd.rest = (⟨rest, l'⟩ : Cursor).lineEnd.rest := by
  induction rest generalizing l l' with
  | nil => rfl
  | cons x rest ih =>
    cases hx : endsLine (x :: rest) with
    | true => rw [lineEnd_of_stop (.inr hx), lineEnd_of_stop (.inr hx)]
    | false =>
      rw [← lineEnd_step (c := ⟨x :: rest, l⟩) hx, ← lineEnd_step (c := ⟨x :: rest, l'⟩) hx]
      exact ih _ _

/-- Behind pieces of which none ends a line, the line ends where it would end without them. -/
theorem rest_lineEnd_append {content : List Piece} (h : ∀ x ∈ content, x.isTerminator = false)
    (back : List Piece) (l l' : Location) :
    (⟨content ++ back, l⟩ : Cursor).lineEnd.rest = (⟨back, l'⟩ : Cursor).lineEnd.rest := by
  induction content generalizing l with
  | nil => exact rest_lineEnd back l l'
  | cons x content ih =>
    rw [List.forall_mem_cons] at h
    have hx : endsLine (x :: (content ++ back)) = false := by
      cases hends : endsLine (x :: (content ++ back)) with
      | false => rfl
      | true => exact (isTerminator_of_endsLine hends).symm.trans h.1
    rw [List.cons_append, ← lineEnd_step (c := ⟨x :: (content ++ back), l⟩) hx]
    exact ih h.2 _

end Cursor

/-! ## The margin and the content of a line -/

/-- White space inside a line. -/
def IsMargin (margin : String) : Prop :=
  ∀ c ∈ margin.toList, isBlank c = true ∧ (Piece.char c).isTerminator = false

/-- The content of a line: text without line terminators that begins with neither white space nor a
byte order mark. -/
structure IsContent (bytes : List UInt8) : Prop where
  nonempty : decode bytes ≠ []
  onLine : ∀ x ∈ decode bytes, x.isTerminator = false
  begins : ∀ c, (decode bytes).head? = some (.char c) → isBlank c = false ∧ c ≠ '\uFEFF'

/-- Bytes in front of the beginning of a line: none, a byte order mark, or whole lines. -/
def StartsLine (head : List UInt8) : Prop :=
  head = [] ∨ head = [0xEF, 0xBB, 0xBF] ∨
    ∃ init c, head = init ++ String.utf8EncodeChar c ∧ (Piece.char c).isTerminator = true

/-- Bytes behind the content of a line: none, or a line terminator and more. -/
def BreaksLine (back : List UInt8) : Prop :=
  back = [] ∨ ∃ c rest, back = String.utf8EncodeChar c ++ rest ∧ (Piece.char c).isTerminator = true

/-- A source with a line that has the given margin and content. -/
def withLine (head : List UInt8) (margin : String) (content back : List UInt8) : List UInt8 :=
  head ++ (utf8 margin ++ (content ++ back))

/-- Where the content of the line begins. -/
def contentPlace (head : List UInt8) (margin : String) : Location :=
  ⟨terminators (ofBytes head) + 1, margin.length + 1⟩

theorem decode_utf8_append (text : String) (bytes : List UInt8) :
    decode (utf8 text ++ bytes) = text.toList.map .char ++ decode bytes := by
  rw [utf8]
  induction text.toList with
  | nil => rfl
  | cons c cs ih =>
    rw [List.flatMap_cons, List.append_assoc, decode_utf8EncodeChar, ih, List.map_cons,
      List.cons_append]

theorem BreaksLine.decode_append {back : List UInt8} (h : BreaksLine back) (bytes : List UInt8) :
    decode (bytes ++ back) = decode bytes ++ decode back := by
  rcases h with rfl | ⟨c, rest, rfl, hc⟩
  · simp
  · obtain ⟨e, es, he, hcontinuation, -⟩ := utf8EncodeChar_lead (toNat_terminator hc)
    exact Source.decode_append bytes (by simpa [he])

theorem IsContent.head_margin {margin : String} {content : List UInt8} (hmargin : IsMargin margin)
    (hcontent : IsContent content) (back : List Piece) :
    (margin.toList.map Piece.char ++ (decode content ++ back)).head? ≠ some (.char '\uFEFF') := by
  intro h
  cases hchars : margin.toList with
  | nil =>
    obtain ⟨x, xs, hx⟩ := List.exists_cons_of_ne_nil hcontent.nonempty
    rw [hchars, hx] at h
    have hhead : (decode content).head? = some (.char '\uFEFF') := by
      rw [hx]
      simpa using h
    exact (hcontent.begins _ hhead).2 rfl
  | cons c cs =>
    rw [hchars] at h
    have hblank := (hmargin c (by simp [hchars])).1
    obtain rfl : c = '\uFEFF' := by simpa using h
    exact absurd hblank (by decide)

theorem IsMargin.pieces {margin : String} (h : IsMargin margin) :
    ∀ x ∈ margin.toList.map Piece.char, x.isChar isBlank = true ∧ x.isTerminator = false := by
  rw [List.forall_mem_map]
  exact h

theorem isContent_of_head {content : List UInt8} {c : Char}
    (hhead : (decode content).head? = some (.char c)) (hbegins : isBlank c = false ∧ c ≠ '\uFEFF')
    (honLine : ∀ x ∈ decode content, x.isTerminator = false) : IsContent content where
  nonempty hnil := by
    rw [hnil] at hhead
    cases hhead
  onLine := honLine
  begins d hd := by
    rw [hhead] at hd
    cases hd
    exact hbegins

theorem IsContent.atBlank {content : List UInt8} (h : IsContent content) :
    atBlank (decode content) = false := by
  cases hpieces : decode content with
  | nil => rfl
  | cons x rest =>
    cases x with
    | invalid bs => rfl
    | char c => exact (h.begins c (by rw [hpieces]; rfl)).1

theorem StartsLine.terminated {head : List UInt8} (h : StartsLine head) :
    ofBytes head = [] ∨ Terminated (ofBytes head) := by
  rcases h with rfl | rfl | ⟨init, c, rfl, hc⟩
  · exact .inl ((ofBytes_eq _).trans decode_nil)
  · exact .inl ((ofBytes_eq _).trans decode_nil)
  · have hnone : (decode []).head? ≠ some (.char '\uFEFF') := by simp
    exact .inr (ofBytes_append init hc hnone).2

/-- The pieces of a source that is cut around the content of a line. -/
theorem ofBytes_withLine {head content back : List UInt8} {margin : String} (hhead : StartsLine head)
    (hmargin : IsMargin margin) (hcontent : IsContent content) (hback : BreaksLine back) :
    ofBytes (withLine head margin content back) =
      ofBytes head ++ (margin.toList.map .char ++ (decode content ++ decode back)) := by
  have hdecode : decode (utf8 margin ++ (content ++ back)) =
      margin.toList.map .char ++ (decode content ++ decode back) := by
    rw [decode_utf8_append, hback.decode_append]
  have hmark := hcontent.head_margin hmargin (decode back)
  rw [← hdecode] at hmark ⊢
  rcases hhead with rfl | rfl | ⟨init, c, rfl, hc⟩
  · rw [withLine, List.nil_append, ofBytes_eq, withoutMark_of_head hmark, ofBytes_eq, withoutMark,
      decode_nil, List.nil_append]
    simp
  · have hskip (bytes : List UInt8) : withoutMark ([0xEF, 0xBB, 0xBF] ++ bytes) = bytes := rfl
    have hnone : ofBytes [0xEF, 0xBB, 0xBF] = [] := (ofBytes_eq _).trans decode_nil
    rw [withLine, ofBytes_eq, hskip, hnone, List.nil_append]
  · rw [withLine, (ofBytes_append init hc hmark).1]
    congr 1
    rw [ofBytes_eq, withoutMark_of_head hmark]

end FirSyntax.Source
