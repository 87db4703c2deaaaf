import Mathlib.Data.List.DropRight
import FirSyntax.Proofs.Token.Spelling

/-!
# Texts of tokens

Whatever the bytes of a source are, an identifier has the text of a word in normal form, and the text
of a comment stays on its line and has no white space around it.
-/
namespace FirSyntax

open Source Unicode

namespace Token

variable {U : CharData} {Named : String → Prop} {x : Piece} {xs rest : List Piece} {c : Cursor}
  {l : Location}

/-- What the kind of a token says of its text, when `Named` says what identifiers are. -/
structure WellSpelled (Named : String → Prop) (t : Token) : Prop where
  identifier : t.kind = .identifier → Named t.text
  comment : t.kind = .comment → IsRemarkText t.text

/-- Only identifiers and comments have texts of their own that are written again. -/
theorem wellSpelled_of_kind {t : Token} (hidentifier : t.kind ≠ .identifier)
    (hcomment : t.kind ≠ .comment) : t.WellSpelled Named :=
  ⟨fun h => absurd h hidentifier, fun h => absurd h hcomment⟩

/-- Every word that a source may hold is spelled as its kind demands. -/
def SpellsWords (U : CharData) (Named : String → Prop) : Prop :=
  ∀ {first : Char} {xs : List Piece} (l : Location), U.beginsIdentifier first = true →
    (∀ x ∈ xs, x.isInvalid = true ∨ x.isChar U.continuesIdentifier = true) →
    (ofRun U (.char first :: xs) l).WellSpelled Named

/-! ## Words -/

/-- What a span passes satisfies its test. -/
theorem passed_spanFrom {p : List Piece → Bool} (taken rest : List Piece) (l : Location) :
    ∀ x ∈ (Cursor.spanFrom p taken rest l).1, x ∈ taken ∨ ∃ ys, p (x :: ys) = true := by
  induction rest generalizing taken l with
  | nil =>
    intro x hx
    exact .inl (List.mem_reverse.mp hx)
  | cons y rest ih =>
    intro x hx
    unfold Cursor.spanFrom at hx
    split at hx
    · next hy =>
      rcases ih (y :: taken) _ x hx with hmem | hpassed
      · rcases List.mem_cons.mp hmem with rfl | hmem
        · exact .inr ⟨rest, hy⟩
        · exact .inl hmem
      · exact .inr hpassed
    · exact .inl (List.mem_reverse.mp hx)

theorem spelling_ne_of_unreserved {text : String} (h : Keyword.ofSpelling? text = none)
    (w : Keyword) : w.spelling ≠ text := by
  have hnone := List.find?_eq_none.1 h w (by cases w <;> decide)
  simpa using hnone

theorem kindOfWord_cases (text : String) :
    (kindOfWord text = .identifier → Keyword.ofSpelling? text = none) ∧
      kindOfWord text ≠ .comment := by
  unfold kindOfWord
  split <;> simp [*]

/-- A run of code points is the text of an identifier once it is in normal form. -/
theorem wellSpelled_word {text : String} (hrun : U.IsRun text.toList) (hnormal : U.IsNormal text)
    (l : Location) : WellSpelled (IsIdentifier U) ⟨kindOfWord text, text, l⟩ :=
  ⟨fun h => ⟨hrun, hnormal, (kindOfWord_cases text).1 h⟩, fun h => absurd h (kindOfWord_cases text).2⟩

theorem isRun_of_pieces {first : Char} {cs : List Char} (hfirst : U.beginsIdentifier first = true)
    (hrest : ∀ x ∈ cs.map Piece.char, x.isInvalid = true ∨ x.isChar U.continuesIdentifier = true) :
    U.IsRun (first :: cs) := by
  refine ⟨first, cs, rfl, hfirst, fun d hd => ?_⟩
  exact (hrest _ (List.mem_map_of_mem hd)).resolve_left (by simp [Piece.isInvalid])

/-- Whatever the tables say, a word that a keyword spells is no identifier. -/
theorem spellsWords_unreserved (U : CharData) :
    SpellsWords U fun text => Keyword.ofSpelling? text = none := by
  have hword (text : String) (l : Location) :
      WellSpelled (fun text => Keyword.ofSpelling? text = none) ⟨kindOfWord text, text, l⟩ :=
    ⟨(kindOfWord_cases text).1, fun h => absurd h (kindOfWord_cases text).2⟩
  intro first xs l _ _
  unfold ofRun
  split
  · exact hword _ l
  · split
    · exact hword _ l
    · exact wellSpelled_of_kind (by simp) (by simp)

theorem spellsWords_isIdentifier (hU : U.KeepsWords) : SpellsWords U (IsIdentifier U) := by
  intro first xs l hfirst hrest
  unfold ofRun
  split
  · next hcertain =>
    rw [List.all_eq_true] at hcertain
    have hchars : ∃ cs : List Char, xs = cs.map .char := by
      refine ⟨xs.map Piece.shown, ?_⟩
      rw [List.map_map]
      refine (List.map_id xs).symm.trans (List.map_congr_left fun x hx => ?_)
      cases x with
      | char c => rfl
      | invalid bs => cases hcertain _ (List.mem_cons_of_mem _ hx)
    obtain ⟨cs, rfl⟩ := hchars
    have hshown : (shown (.char first :: cs.map .char)).toList = first :: cs := by
      simp [shown, Piece.shown, Function.comp_def]
    refine wellSpelled_word ?_ (.inl fun c hc => ?_) l
    · rw [hshown]
      exact isRun_of_pieces hfirst hrest
    · rw [hshown] at hc
      refine hcertain (.char c) ?_
      simpa using hc
  · split
    · next text hnormalize =>
      obtain ⟨cs, hcs, rfl⟩ := CharData.of_normalizePieces hnormalize
      cases cs with
      | nil => cases hcs
      | cons c cs =>
        obtain ⟨hc, rfl⟩ := List.cons.inj hcs
        cases hc
        have hrun := isRun_of_pieces hfirst hrest
        refine wellSpelled_word (by simpa using hU.run hrun) (.inr ?_) l
        simp [CharData.nfkc, hU.idempotent hrun]
    · exact wellSpelled_of_kind (by simp) (by simp)

/-! ## Comments -/

/-- White space is taken off the end only. -/
theorem trimEnd_prefix (cs : List Char) : trimEnd cs <+: cs := List.rdropWhile_prefix isBlank cs

theorem head_trimEnd {cs : List Char} {c : Char} (h : (trimEnd cs).head? = some c) :
    cs.head? = some c := by
  obtain ⟨ds, hds⟩ := trimEnd_prefix cs
  rw [← hds, List.head?_append, h]
  rfl

theorem last_trimEnd (cs : List Char) : ∀ c ∈ (trimEnd cs).getLast?, isBlank c = false := by
  intro c hc
  obtain ⟨hne, rfl⟩ := List.mem_getLast?_eq_getLast hc
  exact Bool.eq_false_iff.mpr (List.rdropWhile_last_not isBlank cs hne)

/-- A terminator can only be the last piece of a comment, and then it is trimmed. -/
theorem inside_trimEnd {cs : List Char}
    (h : ∀ c ∈ cs.dropLast, (Piece.char c).isTerminator = false) :
    ∀ c ∈ trimEnd cs, (Piece.char c).isTerminator = false := by
  intro c hc
  obtain ⟨ds, hds⟩ := trimEnd_prefix cs
  rcases List.eq_nil_or_concat' ds with rfl | ⟨ds, d, rfl⟩
  · rw [List.append_nil] at hds
    rcases List.eq_nil_or_concat' cs with rfl | ⟨init, last, rfl⟩
    · cases hc
    rw [List.dropLast_concat] at h
    rw [hds, List.mem_append, List.mem_singleton] at hc
    rcases hc with hc | rfl
    · exact h c hc
    · have hlast := last_trimEnd (init ++ [c]) c (by rw [hds]; simp)
      cases hterminator : (Piece.char c).isTerminator with
      | false => rfl
      | true =>
        obtain ⟨d, hd, hblank⟩ := Scanner.terminator_blank hterminator
        cases hd
        rw [hblank] at hlast
        cases hlast
  · refine h c ?_
    rw [← hds, ← List.append_assoc, List.dropLast_concat]
    exact List.mem_append_left _ hc

theorem endsLine_of_terminator (hx : x.isTerminator = true) (h : endsLine (x :: rest) = false) :
    endsLine rest = true := by
  cases x with
  | invalid bs => cases hx
  | char c =>
    simp only [Piece.isTerminator, endsLine, Bool.or_eq_true, Bool.or_eq_false_iff] at hx h
    obtain ⟨hnot, hnext⟩ := h
    rw [hnot] at hx
    have hreturn : (c == '\r') = true := by simpa using hx
    rw [hreturn, Bool.true_and, bne_eq_false_iff_eq] at hnext
    cases rest with
    | nil => cases hnext
    | cons y rest =>
      cases hnext
      rfl

/-- Of the pieces up to the end of a line, only the last one can be a terminator: a CR before LF. -/
theorem inside_spanFrom (taken rest : List Piece) (l : Location) :
    ∃ xs, (Cursor.spanFrom (fun rest => !endsLine rest) taken rest l).1 = taken.reverse ++ xs ∧
      (xs ≠ [] → endsLine rest = false) ∧ ∀ x ∈ xs.dropLast, x.isTerminator = false := by
  induction rest generalizing taken l with
  | nil => exact ⟨[], by simp [Cursor.spanFrom], by simp, by simp⟩
  | cons x rest ih =>
    unfold Cursor.spanFrom
    split
    · next hx =>
      have hends : endsLine (x :: rest) = false := by simpa using hx
      obtain ⟨xs, hxs, hnext, hinside⟩ := ih (x :: taken) (after l (x :: rest))
      refine ⟨x :: xs, by simp [hxs], fun _ => hends, ?_⟩
      cases xs with
      | nil => simp
      | cons y ys =>
        rw [List.dropLast_cons_cons, List.forall_mem_cons]
        refine ⟨?_, hinside⟩
        cases hterminator : x.isTerminator with
        | false => rfl
        | true =>
          have hnot := hnext (List.cons_ne_nil y ys)
          rw [endsLine_of_terminator hterminator hends] at hnot
          cases hnot
    · exact ⟨[], by simp, by simp, by simp⟩

theorem isTerminator_shown (x : Piece) : (Piece.char x.shown).isTerminator = x.isTerminator := by
  cases x with
  | char c => rfl
  | invalid bs => rfl

theorem isBlank_shown (x : Piece) (rest : List Piece) : isBlank x.shown = atBlank (x :: rest) := by
  cases x with
  | char c => rfl
  | invalid bs => rfl

theorem isRemarkText_comment (c : Cursor) : IsRemarkText (comment c).1.text := by
  have hstops := Scanner.skip_stops atInnerBlank c.step
  simp only [comment, Cursor.span]
  generalize c.step.skip atInnerBlank = d at hstops
  obtain ⟨xs, hxs, hnext, hinside⟩ := inside_spanFrom [] d.rest d.location
  have hrest := Cursor.spanFrom_rest (fun rest => !endsLine rest) [] d.rest d.location
  rw [hxs, List.reverse_nil, List.nil_append, List.nil_append] at hrest
  rw [hxs, List.reverse_nil, List.nil_append]
  refine ⟨?_, ?_, ?_⟩
  · rw [String.toList_ofList]
    refine inside_trimEnd fun c hc => ?_
    rw [← List.map_dropLast] at hc
    obtain ⟨x, hx, rfl⟩ := List.mem_map.mp hc
    rw [isTerminator_shown]
    exact hinside x hx
  · rw [String.toList_ofList]
    intro c hc
    have hhead := head_trimEnd hc
    cases xs with
    | nil => cases hhead
    | cons x xs =>
      cases hhead
      have hends := hnext (List.cons_ne_nil x xs)
      rw [← hrest] at hstops hends
      have hinner := hstops.resolve_left (by simp)
      rw [atInnerBlank, hends, Bool.not_false, Bool.and_true] at hinner
      exact (isBlank_shown x _).trans hinner
  · rw [String.toList_ofList]
    exact last_trimEnd _

/-! ## All tokens -/

theorem wellSpelled_lexeme (hwords : SpellsWords U Named) {first : Piece} {rest : List Piece}
    (h : c.rest = first :: rest) : (lexeme U first c).1.WellSpelled Named := by
  unfold lexeme
  split
  · exact wellSpelled_of_kind (by simp) (by simp)
  · split
    · exact wellSpelled_of_kind (by simp [integer]) (by simp [integer])
    · split
      · exact ⟨by simp [comment], fun _ => isRemarkText_comment c⟩
      · split
        · next hbegins =>
          refine hwords _ hbegins fun x hx => ?_
          rcases passed_spanFrom [] _ _ x hx with hmem | ⟨ys, hys⟩
          · cases hmem
          · simpa [atWordPart] using hys
        · refine wellSpelled_of_kind ?_ ?_ <;> simp only [kindOfChar] <;> split <;> simp

namespace Scanner

theorem wellSpelled_content (hwords : SpellsWords U Named) (s : Scanner) :
    (content U s).1.WellSpelled Named := by
  unfold content
  simp only
  split
  · split <;> exact wellSpelled_of_kind (by simp [bare]) (by simp [bare])
  · next hrest =>
    split
    · exact wellSpelled_of_kind (by simp [bare]) (by simp [bare])
    · exact wellSpelled_lexeme hwords hrest

theorem wellSpelled_scan (hwords : SpellsWords U Named) (s : Scanner) :
    (scan U s).1.WellSpelled Named := by
  unfold scan
  split
  · simp only
    split
    · exact wellSpelled_content hwords _
    · split
      · next hshift =>
        rcases Layout.kind_of_shift hshift with rfl | rfl | rfl <;>
          exact wellSpelled_of_kind (by simp [bare]) (by simp [bare])
      · exact wellSpelled_content hwords _
  · exact wellSpelled_content hwords s

theorem wellSpelled_stream (hwords : SpellsWords U Named) (s : Scanner) :
    ∀ t ∈ (s.stream U).tokens, t.WellSpelled Named := by
  by_cases h : (s.scan U).1.kind = .eof
  · rw [stream_of_eof (s := s) rfl h]
    simp
  · have hlt := weight_scan U h
    rw [stream_of_token (s := s) rfl h, List.forall_mem_cons]
    exact ⟨wellSpelled_scan hwords s, wellSpelled_stream hwords (s.scan U).2⟩
termination_by s.weight

end Scanner

end Token

end FirSyntax
