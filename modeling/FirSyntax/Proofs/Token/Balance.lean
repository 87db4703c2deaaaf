import FirSyntax.Proofs.Token.Lexer
import FirSyntax.Proofs.Token.Scans

/-!
# Balance of levels

The open levels of a scanner are those that its tokens have opened and not closed. Each is wider
than the one around it, and at the end of the file none is left.
-/
namespace FirSyntax.Token

open Source Unicode

/-- Whether the kind closes a level: an un-indentation does, matched or not. -/
def Kind.closes (k : Kind) : Bool := k == .unindent || k == .indentMismatch

theorem Kind.closes_of_content {k : Kind} (h : k.isLayout = false) : k.closes = false := by
  cases k <;> first | rfl | cases h

/-- The number of levels that tokens open. -/
def opened (ts : List Token) : Nat := ts.countP fun t => t.kind == .indent

/-- The number of levels that tokens close. -/
def closed (ts : List Token) : Nat := ts.countP fun t => t.kind.closes

@[simp] theorem opened_nil : opened [] = 0 := rfl

@[simp] theorem closed_nil : closed [] = 0 := rfl

theorem opened_cons (t : Token) (ts : List Token) :
    opened (t :: ts) = opened ts + if t.kind = .indent then 1 else 0 := by
  rw [opened, List.countP_cons]
  simp only [beq_iff_eq]
  rfl

theorem closed_cons (t : Token) (ts : List Token) :
    closed (t :: ts) = closed ts + if t.kind.closes = true then 1 else 0 :=
  List.countP_cons

theorem opened_append (ts us : List Token) : opened (ts ++ us) = opened ts + opened us :=
  List.countP_append

theorem closed_append (ts us : List Token) : closed (ts ++ us) = closed ts + closed us :=
  List.countP_append

/-- What a token of a kind does to the open levels, the innermost first. -/
inductive Kind.Moves : Kind → List Nat → List Nat → Prop
  | opens {w levels} : levels.headD 0 < w → Moves .indent levels (w :: levels)
  | closes {k w outer} : k.closes = true → Moves k (w :: outer) outer
  | keeps {k levels} : k ≠ .indent → k.closes = false → (k = .eof → levels = []) →
      Moves k levels levels

/-- Levels of which each is wider than the one around it, and the outermost wider than nothing. -/
def Nested (levels : List Nat) : Prop := levels.Pairwise (· > ·) ∧ ∀ w ∈ levels, 0 < w

theorem nested_nil : Nested [] := ⟨.nil, List.forall_mem_nil _⟩

namespace Kind.Moves

variable {k : Kind} {levels levels' : List Nat}

/-- The levels are counted by the tokens. -/
theorem length (h : k.Moves levels levels') :
    levels'.length + (if k.closes = true then 1 else 0) =
      levels.length + if k = .indent then 1 else 0 := by
  cases h with
  | opens => rfl
  | @closes _ w outer hcloses =>
    have hne : k ≠ .indent := by
      rintro rfl
      cases hcloses
    rw [if_pos hcloses, if_neg hne, List.length_cons]
  | keeps hne hkeeps _ => rw [if_neg (Bool.eq_false_iff.mp hkeeps), if_neg hne]

theorem nil_of_eof (h : Moves .eof levels levels') : levels = [] := by
  cases h with
  | closes hcloses => cases hcloses
  | keeps _ _ heof => exact heof rfl

theorem nested (h : k.Moves levels levels') (hlevels : Nested levels) : Nested levels' := by
  obtain ⟨hsorted, hpos⟩ := hlevels
  cases h with
  | @opens w _ hwide =>
    have hinner : ∀ v ∈ levels, v < w := by
      intro v hv
      cases levels with
      | nil => cases hv
      | cons top outer =>
        rcases List.mem_cons.mp hv with rfl | hv
        · exact hwide
        · exact Nat.lt_trans (List.rel_of_pairwise_cons hsorted hv) hwide
    have hw : 0 < w := Nat.zero_lt_of_lt hwide
    exact ⟨List.pairwise_cons.mpr ⟨hinner, hsorted⟩, List.forall_mem_cons.mpr ⟨hw, hpos⟩⟩
  | closes => exact ⟨hsorted.of_cons, (List.forall_mem_cons.mp hpos).2⟩
  | keeps => exact ⟨hsorted, hpos⟩

end Kind.Moves

theorem Layout.moves_of_shift {l m : Layout} {w : Nat} {k : Kind} (h : l.shift? w = some (k, m)) :
    k.Moves l.levels m.levels := by
  obtain ⟨rfl, hwide, rfl⟩ | ⟨top, outer, hlevels, -, ⟨rfl, -, rfl⟩ | ⟨rfl, -, rfl⟩⟩ := shift_cases h
  · exact .opens hwide
  · exact hlevels ▸ .closes rfl
  · exact hlevels ▸ .closes rfl

namespace Scanner

variable {U : CharData} {s : Scanner}

theorem Scans.moves {t : Token} {s' : Scanner} (h : s.Scans U t s') :
    t.kind.Moves s.layout.levels s'.layout.levels := by
  cases h with
  | ending _ hlevels => exact .keeps (by simp [bare]) rfl fun _ => hlevels
  | closing _ hlevels => exact hlevels ▸ .closes rfl
  | shift _ _ hshift => exact Layout.moves_of_shift hshift
  | newline => exact .keeps (by simp [bare]) rfl (by simp [bare])
  | @lexeme first _ hrest hblank hsettled =>
    have hcontent := isLayout_lexeme U first s.front
    refine .keeps ?_ ?_ fun heof => absurd heof (Kind.ne_eof_of_content hcontent)
    · exact fun hindent => by simp [hindent, Kind.isLayout] at hcontent
    · exact Kind.closes_of_content hcontent

theorem after_succ' (s : Scanner) (n : Nat) : s.after U (n + 1) = (s.scan U).2.after U n :=
  Function.iterate_succ_apply _ _ _

/-- After any number of scans the levels are those opened and not closed. -/
theorem length_levels_after (s : Scanner) (n : Nat) :
    (s.after U n).layout.levels.length + closed ((s.stream U).tokens.take n) =
      s.layout.levels.length + opened ((s.stream U).tokens.take n) := by
  induction n generalizing s with
  | zero => rfl
  | succ n ih =>
    have hmoves := (s.scan_scans U).moves
    rw [after_succ']
    by_cases heof : (s.scan U).1.kind = .eof
    · obtain ⟨l, start, hscan⟩ := scan_of_eof heof
      have hnil : s.layout.levels = [] := by
        rw [heof] at hmoves
        exact hmoves.nil_of_eof
      have hafter := ih (s.scan U).2
      rw [hscan, stream_of_end] at hafter
      rw [stream_of_eof hscan rfl, hscan, hnil]
      simpa using hafter
    · have hlength := hmoves.length
      have hafter := ih (s.scan U).2
      rw [stream_eq heof, List.take_succ_cons, opened_cons, closed_cons]
      omega

theorem nested_after (n : Nat) (h : Nested s.layout.levels) :
    Nested (s.after U n).layout.levels := by
  induction n with
  | zero => exact h
  | succ n ih =>
    rw [after_succ]
    exact ((s.after U n).scan_scans U).moves.nested ih

/-- At the end of the file every level is closed. -/
theorem levels_at_end (s : Scanner) :
    (s.after U (s.stream U).tokens.length).layout.levels = [] := by
  have hhead := head_drop_stream (U := U) s (s.stream U).tokens.length
  have hmoves := ((s.after U (s.stream U).tokens.length).scan_scans U).moves
  rw [← hhead, Stream.drop, List.drop_length] at hmoves
  exact hmoves.nil_of_eof

/-- From a scanner without open levels on, those opened are those closed and those still open. -/
theorem opened_take (h : s.layout.levels = []) (n : Nat) :
    opened ((s.stream U).tokens.take n) =
      closed ((s.stream U).tokens.take n) + (s.after U n).layout.levels.length := by
  have hlength := length_levels_after (U := U) s n
  rw [h, List.length_nil] at hlength
  omega

theorem opened_eq_closed (h : s.layout.levels = []) :
    opened (s.stream U).tokens = closed (s.stream U).tokens := by
  have hall := opened_take (U := U) h (s.stream U).tokens.length
  rwa [levels_at_end, List.take_length] at hall

end Scanner

end FirSyntax.Token
