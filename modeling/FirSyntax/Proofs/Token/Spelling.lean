import FirSyntax.Proofs.Token.ScannerLevels
import FirSyntax.Proofs.Tree.Decimal
import FirSyntax.Proofs.Unicode.Words

/-!
# Texts that spell tokens

A text inside a line spells the tokens of a rule when the scanner gives such tokens for it, whatever
the levels are, and goes on behind it. What may follow is part of the statement: a word must not run
on, and a comment takes all that is left of its line. Where the tokens stand is left open.
-/
namespace FirSyntax

/-- A word begins neither an integer nor a comment. -/
theorem Unicode.CharData.not_special_of_begins {U : Unicode.CharData} {c : Char} (h : U.beginsIdentifier c = true) :
    (∀ rest, Token.beginsInteger c rest = false) ∧ c ≠ '#' := by
  have hdigit : c.isDigit = false := by
    cases hc : c.isDigit with
    | false => rfl
    | true =>
      simp only [Char.isDigit, Bool.and_eq_true, decide_eq_true_eq, UInt32.le_iff_toNat_le] at hc
      rw [Unicode.CharData.beginsIdentifier] at h
      delta Char.isAlpha Char.isUpper Char.isLower at h
      simp only [Bool.or_eq_true, Bool.and_eq_true, decide_eq_true_eq, beq_iff_eq,
        UInt32.le_iff_toNat_le] at h
      rcases h with (h | rfl) | h
      · simp at h hc
        omega
      · simp at hc
      · have := h.1
        simp only [Char.toNat] at this
        simp at hc
        omega
  constructor
  · intro rest
    have hplus : c ≠ '+' := by
      rintro rfl
      cases h
    have hminus : c ≠ '-' := by
      rintro rfl
      cases h
    simp [Token.beginsInteger, hdigit, hplus, hminus]
  · rintro rfl
    cases h

namespace Token

open Source Unicode

/-- The code points of a text as pieces. -/
def pieces (text : String) : List Piece := text.toList.map .char

theorem pieces_append (s t : String) : pieces (s ++ t) = pieces s ++ pieces t := by
  rw [pieces, String.toList_append, List.map_append]
  rfl

/-- A text in normal form is the text of its word. -/
theorem ofRun_pieces {U : CharData} {text : String} {l : Location} (h : U.IsNormal text) :
    ofRun U (pieces text) l = ⟨kindOfWord text, text, l⟩ := by
  have hshown : shown (pieces text) = text := by
    simp [shown, pieces, Piece.shown, Function.comp_def]
  unfold ofRun
  split
  · rw [hshown]
  · next hnot =>
    have hform : U.nfkc text = text := by
      refine h.resolve_left fun hall => hnot ?_
      rw [List.all_eq_true]
      intro x hx
      obtain ⟨c, hc, rfl⟩ := List.mem_map.mp hx
      exact hall c hc
    have hnormalize : U.normalizePieces 0 [] (pieces text) = .ok text := by
      rw [pieces, CharData.normalizePieces_chars]
      exact congrArg Except.ok hform
    rw [hnormalize]

/-- A scanner inside a line. -/
def Scanner.inLine (levels : List Nat) (c : Cursor) : Scanner := ⟨c, ⟨levels, false⟩⟩

/-- In front of pieces that satisfy `After`, the text spells tokens that satisfy `Rule`. -/
def Spells (U : CharData) (After : List Piece → Prop) (text : String)
    (Rule : List Token → Prop) : Prop :=
  ∀ rest l levels, After rest → ∃ ts l', Rule ts ∧
    ((Scanner.inLine levels ⟨pieces text ++ rest, l⟩).stream U).tokens =
      ts ++ ((Scanner.inLine levels ⟨rest, l'⟩).stream U).tokens

/-- A text that a comment may have: it stays on its line and has no white space around it. -/
structure IsRemarkText (text : String) : Prop where
  inside : ∀ c ∈ text.toList, (Piece.char c).isTerminator = false
  head : ∀ c ∈ text.toList.head?, isBlank c = false
  last : ∀ c ∈ text.toList.getLast?, isBlank c = false

/-- A text that is read as an identifier: a word in normal form that is not reserved. -/
structure IsIdentifier (U : CharData) (text : String) : Prop where
  run : U.IsRun text.toList
  normal : U.IsNormal text
  unreserved : Keyword.ofSpelling? text = none

/-- What may follow a sign: everything. -/
def Anything (_ : List Piece) : Prop := True

/-- What may follow a word or a number: no further part of a word. -/
def Apart (U : CharData) (rest : List Piece) : Prop := atWordPart U rest = false

/-- What may follow a comment: the end of the line. -/
def LineEnds (rest : List Piece) : Prop := endsLine rest = true

/-- Tokens of one rule and then of another. -/
def InTurn (Rule Rule' : List Token → Prop) (ts : List Token) : Prop :=
  ∃ us vs, ts = us ++ vs ∧ Rule us ∧ Rule' vs

/-- A single token of a kind and a text. -/
def IsToken (kind : Kind) (text : String) (ts : List Token) : Prop :=
  ∃ l, ts = [⟨kind, text, l⟩]

/-- A span over pieces that its test passes, up to what it does not pass. -/
theorem spanFrom_pieces {p : List Piece → Bool} {xs rest : List Piece}
    (hxs : ∀ x ∈ xs, ∀ ys, p (x :: ys) = true) (hrest : p rest = false) (taken : List Piece)
    (l : Location) :
    ∃ l', Cursor.spanFrom p taken (xs ++ rest) l = (taken.reverse ++ xs, ⟨rest, l'⟩) := by
  induction xs generalizing taken l with
  | nil =>
    refine ⟨l, ?_⟩
    cases rest with
    | nil => simp [Cursor.spanFrom]
    | cons y rest => simp [Cursor.spanFrom, hrest]
  | cons x xs ih =>
    rw [List.forall_mem_cons] at hxs
    obtain ⟨l', hl⟩ := ih hxs.2 (x :: taken) (after l (x :: (xs ++ rest)))
    refine ⟨l', ?_⟩
    rw [List.cons_append, Cursor.spanFrom, if_pos (hxs.1 _), hl]
    simp

theorem trimEnd_of_last {cs : List Char} (h : ∀ c ∈ cs.getLast?, isBlank c = false) :
    trimEnd cs = cs := by
  rw [← List.head?_reverse] at h
  rw [trimEnd]
  cases hcs : cs.reverse with
  | nil => simpa using hcs.symm
  | cons c ds =>
    rw [List.dropWhile_cons_of_neg (by simp [h c (by rw [hcs]; rfl)]), ← hcs, List.reverse_reverse]

variable {U : CharData} {After Behind : List Piece → Prop} {s t text : String}
  {Rule Rule' : List Token → Prop}

theorem IsIdentifier.of_letters (hne : text.toList ≠ [])
    (hletters : text.toList.all Char.isAlpha = true) (h : Keyword.ofSpelling? text = none) :
    IsIdentifier U text := by
  rw [List.all_eq_true] at hletters
  exact ⟨CharData.isRun_of_letters hne hletters, CharData.isNormal_of_letters hletters, h⟩

theorem IsIdentifier.kindOfWord (h : IsIdentifier U text) : kindOfWord text = .identifier := by
  rw [Token.kindOfWord, h.unreserved]

theorem Apart.atDigit {rest : List Piece} (h : Apart U rest) : atDigit rest = false := by
  cases rest with
  | nil => rfl
  | cons x rest =>
    cases x with
    | invalid bs => rfl
    | char c =>
      have hword : U.continuesIdentifier c = false := h
      simp only [CharData.continuesIdentifier, Char.isAlphanum, Bool.or_eq_false_iff] at hword
      exact hword.1.1.2

theorem lexeme_comment {xs body rest : List Piece} {l l' : Location}
    (h : ((Cursor.mk xs l.nextColumn).skip atInnerBlank).span (fun rest => !endsLine rest) =
      (body, ⟨rest, l'⟩)) :
    lexeme U (.char '#') ⟨.char '#' :: xs, l⟩ =
      (⟨.comment, String.ofList (trimEnd (body.map Piece.shown)), l⟩, ⟨rest, l'⟩) := by
  have hstep : (Cursor.mk (.char '#' :: xs) l).step = ⟨xs, l.nextColumn⟩ := rfl
  show comment _ = _
  rw [comment, hstep]
  simp only [h]

namespace Spells

theorem weaken (h : Spells U After text Rule) (hafter : ∀ rest, Behind rest → After rest) :
    Spells U Behind text Rule :=
  fun rest l levels hrest => h rest l levels (hafter rest hrest)

theorem imp (h : Spells U After text Rule) (hrule : ∀ ts, Rule ts → Rule' ts) :
    Spells U After text Rule' := by
  intro rest l levels hrest
  obtain ⟨ts, l', hts, htokens⟩ := h rest l levels hrest
  exact ⟨ts, l', hrule ts hts, htokens⟩

/-- One text behind another. -/
theorem append (h : Spells U After s Rule) (h' : Spells U Behind t Rule')
    (hnext : ∀ rest, Behind rest → After (pieces t ++ rest)) :
    Spells U Behind (s ++ t) (InTurn Rule Rule') := by
  intro rest l levels hrest
  obtain ⟨ts, l', hts, htokens⟩ := h (pieces t ++ rest) l levels (hnext rest hrest)
  obtain ⟨us, l'', hus, htokens'⟩ := h' rest l' levels hrest
  refine ⟨ts ++ us, l'', ⟨ts, us, rfl, hts, hus⟩, ?_⟩
  rw [pieces_append, List.append_assoc, htokens, htokens', List.append_assoc]

theorem empty : Spells U After "" (· = []) :=
  fun _ l _ _ => ⟨[], l, rfl, rfl⟩

/-- A text that the scanner takes as one lexeme. -/
theorem lexeme {kind : Kind} {x : String} {c : Char} {cs : List Char} (htext : text.toList = c :: cs)
    (hblank : isBlank c = false)
    (hlexeme : ∀ rest l, After rest → ∃ l',
      Token.lexeme U (.char c) ⟨.char c :: (cs.map .char ++ rest), l⟩ =
        (⟨kind, x, l⟩, ⟨rest, l'⟩))
    (hkind : kind ≠ .eof) : Spells U After text (IsToken kind x) := by
  intro rest l levels hrest
  obtain ⟨l', hl⟩ := hlexeme rest l hrest
  have hscan := Scanner.scan_lexeme (U := U)
    (s := .inLine levels ⟨.char c :: (cs.map .char ++ rest), l⟩) rfl rfl hblank
  refine ⟨[⟨kind, x, l⟩], l', ⟨l, rfl⟩, ?_⟩
  rw [pieces, htext]
  rw [Scanner.inLine, hl] at hscan
  rw [List.map_cons, List.cons_append, Scanner.inLine, Scanner.stream_of_token hscan hkind]
  rfl

/-- White space between tokens. -/
theorem space : Spells U Anything " " (· = []) := by
  intro rest l levels _
  refine ⟨[], l.nextColumn, rfl, ?_⟩
  have hskip : (Cursor.mk (.char ' ' :: rest) l).skip atInnerBlank =
      (Cursor.mk rest l.nextColumn).skip atInnerBlank := Cursor.skip_cons rfl
  have hscan := Scanner.scan_inner (U := U) (s := .inLine levels ⟨.char ' ' :: rest, l⟩) rfl
  have hscan' := Scanner.scan_inner (U := U) (s := .inLine levels ⟨rest, l.nextColumn⟩) rfl
  have hsame := hscan.trans ((congrArg (fun c => Scanner.scan U ⟨c, ⟨levels, false⟩⟩) hskip).trans
    hscan'.symm)
  exact congrArg Stream.tokens (Scanner.stream_congr hsame)

/-- A sign; plus and minus must not stand in front of a digit, where they begin an integer. -/
theorem sign (sign : Punctuation)
    (hdigit : ∀ rest, After rest → sign = .plus ∨ sign = .minus → atDigit rest = false) :
    Spells U After (String.singleton sign.char) (IsToken (.punctuation sign)
      (String.singleton sign.char)) := by
  refine lexeme (String.toList_singleton _) ?_ (fun rest l hrest => ⟨l.nextColumn, ?_⟩) (by simp)
  · cases sign <;> rfl
  · have hinteger : beginsInteger sign.char rest = false := by
      by_cases hsign : sign = .plus ∨ sign = .minus
      · have hno := hdigit rest hrest hsign
        rcases hsign with rfl | rfl <;> simp [beginsInteger, hno, Punctuation.char]
      · cases sign <;> first | rfl | simp at hsign
    have hstep : (Cursor.mk (.char sign.char :: ([].map .char ++ rest)) l).step =
        ⟨rest, l.nextColumn⟩ := by
      cases sign <;> rfl
    rw [Token.lexeme, hstep]
    simp only [hinteger]
    cases sign <;> rfl

/-- A sign that may stand in front of everything. -/
theorem mark (sign : Punctuation) (h : sign ≠ .plus ∧ sign ≠ .minus) :
    Spells U Anything (String.singleton sign.char) (IsToken (.punctuation sign)
      (String.singleton sign.char)) :=
  Spells.sign sign fun _ _ hsign => absurd hsign (not_or.mpr h)

theorem operator (op : Operator) :
    Spells U (Apart U) op.symbol
      (fun ts => ∃ t : Token, ts = [t] ∧ t.kind.operator? = some op) := by
  have hsign (sign : Punctuation) (hop : sign.operator? = some op) :
      Spells U (Apart U) (String.singleton sign.char)
        (fun ts => ∃ t : Token, ts = [t] ∧ t.kind.operator? = some op) := by
    refine (Spells.sign sign fun rest hrest _ => hrest.atDigit).imp ?_
    rintro ts ⟨l, rfl⟩
    exact ⟨_, rfl, hop⟩
  cases op with
  | add => exact hsign .plus rfl
  | sub => exact hsign .minus rfl
  | mul => exact hsign .asterisk rfl
  | div => exact hsign .slash rfl
  | mod => exact hsign .percent rfl

theorem integer (v : Int) : Spells U (Apart U) (Decimal.text v) (IsToken .integer (Decimal.text v)) := by
  obtain ⟨c, cs, htext, hcs, hc⟩ := Decimal.text_cases v
  refine lexeme htext ?_ (fun rest l hrest => ?_) (by simp)
  · rcases hc with hc | ⟨rfl, -⟩
    · cases hblank : isBlank c with
      | false => rfl
      | true =>
        have hword := CharData.not_word_of_blank hblank
        simp [Char.isAlphanum, hc] at hword
    · rfl
  · have hbegins : beginsInteger c (cs.map .char ++ rest) = true := by
      rcases hc with hc | ⟨rfl, d, ds, rfl⟩
      · simp [beginsInteger, hc]
      · have hd : d.isDigit = true := hcs d List.mem_cons_self
        simp [beginsInteger, atDigit, Piece.isChar, hd]
    have hdigits : ∀ x ∈ cs.map Piece.char, ∀ ys, atDigit (x :: ys) = true := by
      intro x hx ys
      obtain ⟨d, hd, rfl⟩ := List.mem_map.mp hx
      exact hcs d hd
    obtain ⟨l', hl⟩ := spanFrom_pieces hdigits hrest.atDigit [] (after l (.char c :: (cs.map .char ++ rest)))
    refine ⟨l', ?_⟩
    have hshown : shown (.char c :: cs.map .char) = Decimal.text v := by
      rw [shown, ← String.toList_inj, htext]
      simp [Piece.shown, Function.comp_def]
    rw [Token.lexeme, Cursor.step]
    simp only [hbegins, if_true]
    rw [Token.integer, Cursor.span, Cursor.step]
    simp only [hl]
    rw [← hshown]
    rfl

/-- A word in normal form that does not run on. -/
theorem word (hU : U.BlanksApart) (hrun : U.IsRun text.toList) (hnormal : U.IsNormal text) :
    Spells U (Apart U) text (IsToken (kindOfWord text) text) := by
  obtain ⟨c, cs, htext, hc, hcs⟩ := hrun
  refine lexeme htext ?_ (fun rest l hrest => ?_) ?_
  · cases hblank : isBlank c with
    | false => rfl
    | true =>
      rw [hU.beginsIdentifier hblank] at hc
      cases hc
  · obtain ⟨hinteger, hcomment⟩ := CharData.not_special_of_begins hc
    have hparts : ∀ x ∈ cs.map Piece.char, ∀ ys, atWordPart U (x :: ys) = true := by
      intro x hx ys
      obtain ⟨d, hd, rfl⟩ := List.mem_map.mp hx
      exact hcs d hd
    obtain ⟨l', hl⟩ := spanFrom_pieces hparts hrest [] (after l (.char c :: (cs.map .char ++ rest)))
    refine ⟨l', ?_⟩
    rw [Token.lexeme, Cursor.step]
    simp only [hinteger, hcomment, hc, if_true, if_false, Bool.false_eq_true]
    rw [Token.word, Cursor.span, Cursor.step]
    simp only [hl]
    have hpieces : .char c :: ([].reverse ++ cs.map .char) = pieces text := by
      rw [pieces, htext]
      rfl
    rw [hpieces, ofRun_pieces hnormal]
  · intro heof
    have hlayout := isLayout_kindOfWord text
    rw [heof] at hlayout
    cases hlayout

theorem keyword (hU : U.BlanksApart) (w : Keyword) :
    Spells U (Apart U) w.spelling (IsToken (.keyword w) w.spelling) := by
  have hne : w.spelling.toList ≠ [] := by
    cases w <;> decide
  have hletters : w.spelling.toList.all Char.isAlpha = true := by
    cases w <;> decide
  have hword : kindOfWord w.spelling = .keyword w := by
    cases w <;> decide
  rw [← hword]
  rw [List.all_eq_true] at hletters
  exact word hU (CharData.isRun_of_letters hne hletters) (CharData.isNormal_of_letters hletters)

/-- The text of a comment on its line, behind the sign and one space unless it is empty. -/
theorem comment (h : IsRemarkText text) :
    Spells U LineEnds (if text = "" then "#" else "# " ++ text) (IsToken .comment text) := by
  have hbody (rest : List Piece) (l : Location) (hrest : LineEnds rest) :
      ∃ l', ((Cursor.mk (pieces text ++ rest) l).skip atInnerBlank).span (fun rest => !endsLine rest) =
        (pieces text, ⟨rest, l'⟩) := by
    have hskip : (Cursor.mk (pieces text ++ rest) l).skip atInnerBlank =
        ⟨pieces text ++ rest, l⟩ := by
      refine Scanner.skip_of_false ?_
      rw [pieces]
      cases hcs : text.toList with
      | nil => simp [atInnerBlank, show endsLine rest = true from hrest]
      | cons c cs =>
        have hc : isBlank c = false := h.head c (by simp [hcs])
        simp [atInnerBlank, atBlank, Piece.isChar, hc]
    have hstop : (!endsLine rest) = false := by rw [show endsLine rest = true from hrest]; rfl
    rw [hskip]
    refine spanFrom_pieces ?_ hstop [] l
    intro x hx ys
    obtain ⟨c, hc, rfl⟩ := List.mem_map.mp hx
    cases hends : endsLine (.char c :: ys) with
    | false => rfl
    | true =>
      have hinside := h.inside c hc
      rw [isTerminator_of_endsLine hends] at hinside
      cases hinside
  have hshown : String.ofList (trimEnd ((pieces text).map Piece.shown)) = text := by
    have hmap : (pieces text).map Piece.shown = text.toList := by
      simp [pieces, Piece.shown, Function.comp_def]
    rw [hmap, trimEnd_of_last h.last, String.ofList_toList]
  by_cases hempty : text = ""
  · rw [if_pos hempty]
    refine lexeme rfl rfl (fun rest l hrest => ?_) (by simp)
    obtain ⟨l', hl⟩ := hbody rest l.nextColumn hrest
    have hnone : pieces text = [] := by rw [hempty]; rfl
    rw [hnone, List.nil_append] at hl
    rw [hnone] at hshown
    refine ⟨l', (lexeme_comment hl).trans ?_⟩
    rw [hshown]
  · rw [if_neg hempty]
    have htext : ("# " ++ text).toList = '#' :: ' ' :: text.toList := by
      rw [String.toList_append]
      rfl
    refine lexeme htext rfl (fun rest l hrest => ?_) (by simp)
    obtain ⟨l', hl⟩ := hbody rest l.nextColumn.nextColumn hrest
    have hskip : (Cursor.mk (.char ' ' :: (pieces text ++ rest)) l.nextColumn).skip atInnerBlank =
        (Cursor.mk (pieces text ++ rest) l.nextColumn.nextColumn).skip atInnerBlank := Cursor.skip_cons rfl
    rw [← hskip] at hl
    refine ⟨l', (lexeme_comment hl).trans ?_⟩
    rw [hshown]

end Spells

theorem IsIdentifier.spells (hU : U.BlanksApart) (h : IsIdentifier U text) :
    Spells U (Apart U) text (IsToken .identifier text) :=
  h.kindOfWord ▸ Spells.word hU h.run h.normal

end Token

end FirSyntax
