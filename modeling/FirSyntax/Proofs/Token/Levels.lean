import FirSyntax.Token.Basic

/-!
# Levels of a token list

Layout tokens open and close levels, and only at the start of a line. A list of tokens is laid out
at a depth when its lines begin so, every token that opens a level or mismatches one has a line
after it, and exactly the open levels are closed in the end.
-/
namespace FirSyntax.Token

/-- The kinds that express layout: they stand between the lines, not inside them. -/
def Kind.isLayout : Kind → Bool
  | .newline | .indent | .unindent | .indentMismatch | .eof => true
  | _ => false

theorem Kind.ne_eof_of_content {k : Kind} (h : k.isLayout = false) : k ≠ .eof := by
  rintro rfl
  cases h

theorem Kind.isLayout_of_operator {k : Kind} {op : Operator} (h : k.operator? = some op) :
    k.isLayout = false := by
  cases k <;> first | rfl | cases h

/-- Where in a line a token stands. -/
inductive Position where
  /-- At the start of a line, whose level may still have to be reached. -/
  | lineStart
  /-- At the first token of a line whose level is settled. -/
  | opened
  /-- Behind a token of the line. -/
  | inside
deriving DecidableEq, Repr

/-- The tokens from a position on, with a number of levels open. When the file is `cut` short, its
last line may lack a terminator. -/
inductive Laid (cut : Bool) : Position → Nat → List Token → Prop where
  | done : Laid cut .lineStart 0 []
  | indent {d t ts} : t.kind = .indent → Laid cut .opened (d + 1) ts →
      Laid cut .lineStart d (t :: ts)
  | unindent {d t ts} : t.kind = .unindent → Laid cut .lineStart d ts →
      Laid cut .lineStart (d + 1) (t :: ts)
  | mismatch {d t ts} : t.kind = .indentMismatch → Laid cut .opened d ts →
      Laid cut .lineStart (d + 1) (t :: ts)
  | content {p d t ts} : t.kind.isLayout = false → Laid cut .inside d ts → Laid cut p d (t :: ts)
  | newline {d t ts} : t.kind = .newline → Laid cut .lineStart d ts → Laid cut .inside d (t :: ts)
  | closing {d ts} : cut = true → (∀ t ∈ ts, t.kind = .unindent) → ts.length = d →
      Laid cut .inside d ts

namespace Laid

variable {cut : Bool} {p : Position} {d : Nat} {t : Token} {ts us : List Token}

/-- Levels that are closed at the end of a file may as well be closed at the start of a line. -/
theorem of_closing (h : ∀ t ∈ ts, t.kind = .unindent) :
    Laid cut .lineStart ts.length ts := by
  induction ts with
  | nil => exact .done
  | cons t ts ih =>
    rw [List.forall_mem_cons] at h
    exact .unindent h.1 (ih h.2)

theorem of_content (h : Laid cut p d (t :: ts)) (ht : t.kind.isLayout = false) :
    Laid cut .inside d ts := by
  cases h with
  | content _ h => exact h
  | closing _ h => simp [h t (by simp), Kind.isLayout] at ht
  | indent h | unindent h | mismatch h | newline h => simp [h, Kind.isLayout] at ht

theorem of_newline (h : Laid cut p d (t :: ts)) (ht : t.kind = .newline) :
    p = .inside ∧ Laid cut .lineStart d ts := by
  cases h with
  | newline _ h => exact ⟨rfl, h⟩
  | content h => simp [ht, Kind.isLayout] at h
  | closing _ h => simp [ht] at h
  | indent h | unindent h | mismatch h => simp [ht] at h

theorem of_indent (h : Laid cut p d (t :: ts)) (ht : t.kind = .indent) :
    p = .lineStart ∧ Laid cut .opened (d + 1) ts := by
  cases h with
  | indent _ h => exact ⟨rfl, h⟩
  | content h => simp [ht, Kind.isLayout] at h
  | closing _ h => simp [ht] at h
  | unindent h | mismatch h | newline h => simp [ht] at h

theorem of_mismatch (h : Laid cut p d (t :: ts)) (ht : t.kind = .indentMismatch) :
    p = .lineStart ∧ ∃ e, d = e + 1 ∧ Laid cut .opened e ts := by
  cases h with
  | mismatch _ h => exact ⟨rfl, _, rfl, h⟩
  | content h => simp [ht, Kind.isLayout] at h
  | closing _ h => simp [ht] at h
  | indent h | unindent h | newline h => simp [ht] at h

/-- An un-indentation closes a level, at the start of a line or at the end of the file. -/
theorem of_unindent (h : Laid cut p d (t :: ts)) (ht : t.kind = .unindent) :
    ∃ e, d = e + 1 ∧ Laid cut .lineStart e ts := by
  cases h with
  | unindent _ h => exact ⟨_, rfl, h⟩
  | content h => simp [ht, Kind.isLayout] at h
  | closing _ h hlen =>
    rw [List.forall_mem_cons] at h
    exact ⟨ts.length, hlen.symm, of_closing h.2⟩
  | indent h | mismatch h | newline h => simp [ht] at h

theorem depth_of_nil (h : Laid cut p d []) : d = 0 := by
  cases h with
  | done => rfl
  | closing _ _ h => exact h.symm

/-- The file does not end between a level and its line. -/
theorem opened_ne_nil (h : Laid cut .opened d ts) : ts ≠ [] := by
  cases h
  simp

/-- Every token before the end of a file is another than that end. -/
theorem ne_eof (h : Laid cut p d ts) : ∀ t ∈ ts, t.kind ≠ .eof := by
  induction h with
  | done => simp
  | closing _ h =>
    intro t ht
    simp [h t ht]
  | content ht _ ih =>
    rw [List.forall_mem_cons]
    refine ⟨?_, ih⟩
    rintro he
    simp [he, Kind.isLayout] at ht
  | indent ht _ ih | unindent ht _ ih | mismatch ht _ ih | newline ht _ ih =>
    rw [List.forall_mem_cons]
    exact ⟨by simp [ht], ih⟩

/-- Behind tokens of a line the line goes on. -/
theorem append_content (h : Laid cut .inside d (us ++ ts)) (hus : ∀ t ∈ us, t.kind.isLayout = false) :
    Laid cut .inside d ts := by
  induction us with
  | nil => exact h
  | cons t us ih =>
    rw [List.forall_mem_cons] at hus
    exact ih (of_content h hus.1) hus.2

/-- In a file that is not cut short every line has its terminator. -/
theorem inside_ne_nil (h : Laid false .inside d ts) : ts ≠ [] := by
  cases h with
  | closing hcut => cases hcut
  | content | newline => simp

end Laid

end FirSyntax.Token
