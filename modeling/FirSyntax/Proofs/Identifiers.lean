import FirSyntax.Proofs.Source.Decoder
import FirSyntax.Proofs.Token.Lexer
import FirSyntax.Proofs.Token.Text
import FirSyntax.Proofs.Unicode.QuickCheck

/-!
# Identifiers are normalized

A word of the source is known from its location. Whether the quick check, the memo or normalization
gave its token, the text is the normal form of the word, the kind is the one that this text spells,
and the text alone is scanned as the same token.
-/
namespace FirSyntax.Token

open Source Unicode

variable {U : CharData} {input run rest : List Piece} {l : Location} {t : Token}

/-- What may stand in a word behind its first code point. -/
def IsWordPart (U : CharData) (x : Piece) : Prop :=
  x.isInvalid = true ∨ x.isChar U.continuesIdentifier = true

/-- At the location `l` of the input, `run` begins an identifier and reaches as far as it can. -/
structure RunAt (U : CharData) (input : List Piece) (l : Location) (run : List Piece) : Prop where
  place : ∃ d rest, (Cursor.start input).Follows d ∧ d.location = l ∧ d.rest = run ++ rest ∧
    atWordPart U rest = false
  word : ∃ first parts, run = .char first :: parts ∧ U.beginsIdentifier first = true ∧
    ∀ x ∈ parts, IsWordPart U x

/-- The kind that the text of a word calls for: that of the keyword it spells, if there is one. -/
def IsKindOf (k : Kind) (text : String) : Prop :=
  (∃ w : Keyword, k = .keyword w ∧ w.spelling = text) ∨
    k = .identifier ∧ ∀ w : Keyword, w.spelling ≠ text

theorem isKindOf_kindOfWord (text : String) : IsKindOf (kindOfWord text) text := by
  rw [kindOfWord]
  cases hword : Keyword.ofSpelling? text with
  | some w =>
    have hspelling := List.find?_some hword
    exact .inl ⟨w, rfl, by simpa using hspelling⟩
  | none => exact .inr ⟨rfl, spelling_ne_of_unreserved hword⟩

/-! ## The token of a run -/

theorem exists_chars (h : ∀ x ∈ run, x.isInvalid = false) : ∃ cs : List Char, run = cs.map .char := by
  induction run with
  | nil => exact ⟨[], rfl⟩
  | cons x run ih =>
    rw [List.forall_mem_cons] at h
    obtain ⟨cs, rfl⟩ := ih h.2
    cases x with
    | char c => exact ⟨c :: cs, rfl⟩
    | invalid bs => cases h.1

theorem shown_chars (cs : List Char) : shown (cs.map .char) = String.ofList cs := by
  simp [shown, Piece.shown, Function.comp_def]

/-- Bytes that encode nothing make a word malformed. -/
theorem ofRun_invalid (h : ∃ x ∈ run, x.isInvalid = true) (l : Location) :
    ofRun U run l = ⟨.malformedUnicode, shown run, l⟩ := by
  obtain ⟨x, hx, hinvalid⟩ := h
  cases x with
  | char c => cases hinvalid
  | invalid bs =>
    rw [ofRun, if_neg]
    · split
      · next text hnormalize =>
        obtain ⟨cs, rfl, -⟩ := CharData.of_normalizePieces hnormalize
        simp at hx
      · rfl
    · rw [List.all_eq_true]
      intro hall
      cases hall _ hx

/-- The quick check spares work and changes nothing. -/
theorem ofRun_chars (hU : U.ChecksQuickly) (cs : List Char) (l : Location) :
    ofRun U (cs.map .char) l =
      ⟨kindOfWord (String.ofList (U.normalize cs)), String.ofList (U.normalize cs), l⟩ := by
  rw [ofRun]
  split
  · next hcertain =>
    have hnormal : U.normalize cs = cs := by
      apply hU.normalize_of_certain
      intro c hc
      exact List.all_eq_true.1 hcertain _ (List.mem_map_of_mem hc)
    rw [hnormal, shown_chars]
  · rw [CharData.normalizePieces_chars]
    rfl

theorem IsWordPart.atWordPart {x : Piece} (h : IsWordPart U x) (ys : List Piece) :
    atWordPart U (x :: ys) = true := by
  rw [Token.atWordPart, Bool.or_eq_true]
  exact h

/-- A word is scanned as a whole. -/
theorem lexeme_run {first : Char} {parts : List Piece} (hfirst : U.beginsIdentifier first = true)
    (hparts : ∀ x ∈ parts, IsWordPart U x) (hrest : atWordPart U rest = false) (l : Location) :
    ∃ l', lexeme U (.char first) ⟨.char first :: parts ++ rest, l⟩ =
      (ofRun U (.char first :: parts) l, ⟨rest, l'⟩) := by
  obtain ⟨hinteger, hcomment⟩ := CharData.not_special_of_begins hfirst
  obtain ⟨l', hspan⟩ := spanFrom_pieces (fun x hx ys => (hparts x hx).atWordPart ys) hrest []
    (after l (.char first :: (parts ++ rest)))
  refine ⟨l', ?_⟩
  have hstep : (Cursor.mk (.char first :: parts ++ rest) l).step.span (atWordPart U) =
      (parts, ⟨rest, l'⟩) := hspan
  simp only [lexeme, word, hinteger, hcomment, hfirst, hstep, if_true, if_false, Bool.false_eq_true]

/-- The token of a location at which a run begins, unless it belongs to the layout, is the word that
the run makes up. -/
theorem ReadAt.eq_ofRun {d c : Cursor} (hread : ReadAt U d t c) (hd : (Cursor.start input).Follows d)
    (hrun : RunAt U input t.location run) (hcontent : t.kind.isLayout = false) :
    t = ofRun U run t.location := by
  obtain ⟨e, rest, he, hlocation, hrest, hstop⟩ := hrun.place
  obtain ⟨first, parts, rfl, hfirst, hparts⟩ := hrun.word
  obtain rfl : d = e := hd.eq_of_location he (hread.location.symm.trans hlocation.symm)
  obtain ⟨pieces, l⟩ := d
  cases hread with
  | layout hlayout => exact absurd hlayout (by simpa [bare] using hcontent)
  | newline => cases hcontent
  | lexeme hpieces =>
    obtain ⟨l', hlexeme⟩ := lexeme_run hfirst hparts hstop l
    simp only at hrest hpieces
    obtain rfl := hrest
    obtain ⟨rfl, -⟩ := List.cons.inj hpieces
    rw [location_lexeme, hlexeme]

/-! ## The run of a token -/

/-- The kinds that words have. -/
def IsWordKind (k : Kind) : Prop := k = .identifier ∨ ∃ w, k = .keyword w

theorem not_isWordKind_kindOfChar (c : Char) : ¬ IsWordKind (kindOfChar c) := by
  rw [kindOfChar, IsWordKind]
  split <;> simp

theorem isWordPart_of_span {c : Cursor} : ∀ x ∈ (c.span (atWordPart U)).1, IsWordPart U x := by
  intro x hx
  rcases passed_spanFrom [] c.rest c.location x hx with hnil | ⟨ys, hpart⟩
  · cases hnil
  · rw [atWordPart, Bool.or_eq_true] at hpart
    exact hpart

/-- Identifiers and keywords are scanned from runs. -/
theorem ReadAt.runAt {d c : Cursor} (hread : ReadAt U d t c) (hd : (Cursor.start input).Follows d)
    (hkind : IsWordKind t.kind) : ∃ run, RunAt U input t.location run := by
  have hlocation := hread.location
  cases hread with
  | layout hlayout =>
    obtain rfl | ⟨w, rfl⟩ : IsWordKind _ := hkind
    · cases hlayout
    · cases hlayout
  | newline => simp [IsWordKind, bare] at hkind
  | @lexeme first rest hrest =>
    unfold Token.lexeme at hkind
    split at hkind
    · simp [IsWordKind] at hkind
    · next ch =>
      split at hkind
      · simp [IsWordKind, integer] at hkind
      · split at hkind
        · simp [IsWordKind, comment] at hkind
        · split at hkind
          · next hfirst =>
            have hsplit := Cursor.span_append (atWordPart U) d.step
            have hstop : atWordPart U (d.step.span (atWordPart U)).2.rest = false := by
              rcases Cursor.spanFrom_stops (atWordPart U) [] d.step.rest d.step.location with h | h
              · rw [Cursor.span, h]
                rfl
              · exact h
            have hstep : d.step.rest = rest := by rw [Cursor.step, hrest]
            refine ⟨.char ch :: (d.step.span (atWordPart U)).1, ?_, ?_⟩
            · refine ⟨d, _, hd, hlocation.symm, ?_, hstop⟩
              rw [List.cons_append, hsplit, hstep, hrest]
            · exact ⟨ch, _, rfl, hfirst, isWordPart_of_span⟩
          · exact absurd hkind (not_isWordKind_kindOfChar ch)

/-! ## Words on their own -/

/-- A lexer for a run alone gives its word and then the end of the file. -/
theorem window_of_run (hU : U.BlanksApart) {cs : List Char} (hrun : U.IsRun cs) :
    ∃ l, (Lexer.advanced U (cs.map .char) 1).window =
      ⟨ofRun U (cs.map .char) Location.start, bare .eof l⟩ := by
  obtain ⟨c, ds, rfl, hc, hds⟩ := hrun
  have hparts : ∀ x ∈ ds.map Piece.char, IsWordPart U x := by
    intro x hx
    obtain ⟨d, hd, rfl⟩ := List.mem_map.1 hx
    exact .inr (hds d hd)
  have hstop : atWordPart U [] = false := rfl
  obtain ⟨l', hlexeme⟩ := lexeme_run hc hparts hstop Location.start
  rw [List.append_nil] at hlexeme
  have hblank : isBlank c = false := by
    by_contra hblank
    rw [hU.beginsIdentifier (by simpa using hblank)] at hc
    cases hc
  rw [List.map_cons]
  generalize ds.map Piece.char = parts at hlexeme
  have hfirst : (Scanner.start (.char c :: parts)).scan U =
      (ofRun U (.char c :: parts) Location.start, ⟨⟨[], l'⟩, ⟨[], false⟩⟩) := by
    have hskip : (Scanner.start (.char c :: parts)).cursor.skip atBlank =
        Cursor.start (.char c :: parts) := Scanner.skip_of_false hblank
    rw [Scanner.scan_settled rfl (by rw [hskip]; simp [Cursor.start]) (by rw [hskip]; rfl), hskip,
      Scanner.scan_lexeme (s := ⟨Cursor.start (.char c :: parts), _⟩) rfl rfl hblank]
    exact congrArg (fun r : Token × Cursor => (r.1, (⟨r.2, ⟨[], false⟩⟩ : Scanner))) hlexeme
  have hcurrent := Lexer.current_advanced U (.char c :: parts) 0
  have hnext := (Lexer.advanced_eq U (.char c :: parts) 1).2.1
  rw [Scanner.after_succ] at hnext
  rw [Scanner.after, Function.iterate_zero_apply, hfirst] at hcurrent hnext
  exact ⟨l', congrArg₂ Window.mk hcurrent hnext⟩

theorem window_of_normal (hU : U.KeepsIdentifiers) {cs : List Char} (hrun : U.IsRun cs)
    (hnormal : U.normalize cs = cs) :
    ∃ l, (Lexer.advanced U (Source.ofBytes (utf8 (String.ofList cs))) 1).window =
      ⟨⟨kindOfWord (String.ofList cs), String.ofList cs, Location.start⟩, bare .eof l⟩ := by
  have hmark : (String.ofList cs).toList.head? ≠ some '\uFEFF' := by
    obtain ⟨c, ds, rfl, hc, -⟩ := hrun
    rw [String.toList_ofList, List.head?_cons, ne_eq, Option.some.injEq]
    rintro rfl
    simp [CharData.beginsIdentifier, hU.mark] at hc
  obtain ⟨l, hwindow⟩ := window_of_run hU.blanks hrun
  rw [ofRun_chars hU.toChecksQuickly, hnormal] at hwindow
  rw [ofBytes_utf8 hmark, String.toList_ofList]
  exact ⟨l, hwindow⟩

/-- Of the tokens of any source, an identifier or keyword stands where a run stands. The token of a run
is malformed exactly if bytes in it encode nothing; otherwise its text is the normal form of the
run, its kind is the one that this text spells, and a lexer for this text alone gives the same
token and then the end of the file. -/
theorem Lexer.identifier_normalized (hU : U.KeepsIdentifiers) (bytes : List UInt8) (n : Nat) :
    let input := Source.ofBytes bytes
    let t := (Lexer.advanced U input (n + 1)).window.current
    (IsWordKind t.kind → ∃ run, RunAt U input t.location run) ∧
      ∀ run, RunAt U input t.location run → t.kind.isLayout = false →
        (t.kind = .malformedUnicode ↔ ∃ x ∈ run, x.isInvalid = true) ∧
          (t.kind ≠ .malformedUnicode →
            t.text = U.nfkc (shown run) ∧ IsKindOf t.kind t.text ∧
              ∃ l, (Lexer.advanced U (Source.ofBytes (utf8 t.text)) 1).window =
                ⟨⟨t.kind, t.text, Location.start⟩, bare .eof l⟩) := by
  intro input t
  obtain ⟨d, hfollows, hread⟩ := Scanner.scan_readAt (U := U) ((Scanner.start input).after U n)
  have hd := (follows_after (U := U) input n).trans hfollows
  rw [← Lexer.current_advanced] at hread
  refine ⟨hread.runAt hd, fun run hrun hcontent => ?_⟩
  have htoken : t = ofRun U run t.location := hread.eq_ofRun hd hrun hcontent
  by_cases hinvalid : ∃ x ∈ run, x.isInvalid = true
  · rw [ofRun_invalid hinvalid] at htoken
    have hkind : t.kind = .malformedUnicode := congrArg Token.kind htoken
    exact ⟨iff_of_true hkind hinvalid, fun hne => absurd hkind hne⟩
  · obtain ⟨cs, rfl⟩ : ∃ cs : List Char, run = cs.map .char := exists_chars (by simpa using hinvalid)
    rw [ofRun_chars hU.toChecksQuickly] at htoken
    have hword : U.IsRun cs := by
      obtain ⟨first, parts, heq, hfirst, hparts⟩ := hrun.word
      cases cs with
      | nil => cases heq
      | cons c cs =>
        obtain ⟨hc, rfl⟩ := List.cons.inj heq
        cases hc
        exact isRun_of_pieces hfirst hparts
    have hnormal := hU.idempotent hword
    have hkind : t.kind ≠ .malformedUnicode := by
      rw [htoken]
      rcases isKindOf_kindOfWord (String.ofList (U.normalize cs)) with ⟨w, hw, -⟩ | ⟨hw, -⟩
      · simp [hw]
      · simp [hw]
    refine ⟨iff_of_false hkind hinvalid, fun _ => ?_⟩
    rw [htoken, shown_chars]
    refine ⟨by simp [CharData.nfkc], isKindOf_kindOfWord _, ?_⟩
    exact window_of_normal hU (hU.run hword) hnormal

/-- A keyword in full-width letters, which the memo answers the second time. -/
theorem Lexer.identifier_normalized_wide :
    CharData.wide.KeepsIdentifiers ∧
      (Lexer.advanced .wide (Source.ofBytes (utf8 "\uFF49\uFF46 \uFF49\uFF46")) 2).window.current =
        ⟨.keyword .if, "if", ⟨1, 4⟩⟩ ∧
      ∃ run, RunAt .wide (Source.ofBytes (utf8 "\uFF49\uFF46 \uFF49\uFF46")) ⟨1, 4⟩ run ∧
        "if" = CharData.wide.nfkc (shown run) ∧
        ∃ l, (Lexer.advanced .wide (Source.ofBytes (utf8 "if")) 1).window =
          ⟨⟨.keyword .if, "if", Location.start⟩, bare .eof l⟩ := by
  have hcurrent :
      (Lexer.advanced .wide (Source.ofBytes (utf8 "\uFF49\uFF46 \uFF49\uFF46")) 2).window.current =
        ⟨.keyword .if, "if", ⟨1, 4⟩⟩ := by decide +kernel
  obtain ⟨hexists, hspec⟩ := Lexer.identifier_normalized CharData.keepsIdentifiers_wide
    (utf8 "\uFF49\uFF46 \uFF49\uFF46") 1
  rw [hcurrent] at hexists hspec
  obtain ⟨run, hrun⟩ := hexists (.inr ⟨.if, rfl⟩)
  obtain ⟨htext, -, hagain⟩ := (hspec run hrun rfl).2 (by simp)
  exact ⟨CharData.keepsIdentifiers_wide, hcurrent, run, hrun, htext, hagain⟩

end FirSyntax.Token
