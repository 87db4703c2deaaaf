import FirSyntax.Proofs.Acceptance
import FirSyntax.Proofs.Reading.Climbing
import FirSyntax.Proofs.Writing.Statement

/-!
# Expressions

Climbing by precedence reads what the grammar of ranks says. The text of an expression reads back as
the expression, and no text of the same expression does with fewer parentheses.
-/
namespace FirSyntax.Expr

open Token Grammar Unicode Source

variable {U : CharData} {e e' : Expr} {ts : List Token} {text : String}

/-- On every stream and from every place in it, climbing by precedence gives the tree that the rules
of the ranks give, takes the same tokens and reports the same fault. -/
theorem read_eq_readSum (r : Reading) : read r = ByRank.readSum r := Step.ext_result (result_read r)

/-! ## What a text is read as -/

/-- The number of parentheses that are opened before the first line of a text ends. -/
def parensIn (U : CharData) (text : String) : Nat :=
  Token.parens ((Stream.ofBytes U (utf8 text)).tokens.takeWhile (·.kind ≠ .newline))

theorem readLine_finishes (r : Reading) : (readLine r).Finishes r (IsExpr .sum) := by
  refine Step.Obeys.andThenFinishes (.refl r) (read_obeys r) fun {e ts after} h hreads he => ?_
  refine Step.Finishes.map hreads (Reading.expectLineEnd_finishes after) fun hnone => ?_
  subst hnone
  exact ⟨by simpa using he, by simp⟩

/-- An expression that is read is derived from the tokens up to the end of their line. -/
theorem reads_of_parse (h : (parse U text).1 = some e) :
    let r := Reading.start (Stream.ofBytes U (utf8 text))
    ∃ ts s, r.Reads ts True s ∧ IsExpr .sum ts e ∧ s.Ends (readLine r).after := by
  intro r
  have hfinishes := readLine_finishes r
  have hvalue : (readLine r).value = some e := h
  rw [Step.Finishes, hvalue] at hfinishes
  cases hfinishes with
  | read hreads he hends => exact ⟨_, _, hreads, he, hends⟩

/-- An expression that is read is derived from the tokens in front, which lie on one line, and
nothing is reported. -/
theorem isExpr_of_parse (h : (parse U text).1 = some e) :
    (parse U text).2 = [] ∧ ∃ ts rest, (Stream.ofBytes U (utf8 text)).tokens = ts ++ rest ∧
      (∀ t ∈ ts, t.kind.isLayout = false) ∧ IsExpr .sum ts e := by
  obtain ⟨ts, s, hreads, he, hends⟩ := reads_of_parse h
  refine ⟨?_, ts, _, hreads.tokens, hreads.content, he⟩
  rw [parse, SourceFile.diagnostics_eq_nil_iff, hends.reports]
  exact hreads.quiet True.intro

/-- Where the tokens of an expression stand up to the end of a line, they are read as that
expression. -/
theorem parse_of_line {rest later : List Token} (he : IsExpr .sum ts e) (hend : IsEnd rest later)
    (h : (Stream.ofBytes U (utf8 text)).tokens = ts ++ rest) : parse U text = (some e, []) := by
  have hleading := Reading.leading_of_end hend
  have hgives : (readLine (Reading.start (Stream.ofBytes U (utf8 text)))).Gives e later := by
    refine (read_takes he ?_ ?_ h).andThenGives fun after hle hafter => ?_
    · rcases hleading with h | h | h <;> simp [h]
    · rcases hleading with h | h | h <;> simp [h, Kind.operator?]
    · exact ((Reading.expectLineEnd_gives hend hafter).within hle).map
  have hvalue : (parse U text).1 = some e := hgives.value
  exact Prod.ext hvalue (isExpr_of_parse hvalue).1

/-- A text of the tokens of an expression is read as that expression. -/
theorem parse_of_isExpr (he : IsExpr .sum ts e)
    (h : (Stream.ofBytes U (utf8 text)).tokens = ts) : parse U text = (some e, []) :=
  parse_of_line he (.closing (by simp)) (h.trans (List.append_nil ts).symm)

/-! ## Parentheses -/

@[simp] theorem rank_relocate (φ : Location → Location) (e : Expr) : (e.relocate φ).rank = e.rank := by
  cases e <;> rfl

@[simp] theorem parens_relocate (φ : Location → Location) (e : Expr) :
    (e.relocate φ).parens = e.parens := by
  induction e with
  | bool | int | nil | name => rfl
  | dot receiver member l ih => simp only [relocate, parens, ih, isOperation_eq, needsParens, rank_relocate]
  | binary op left right l ihl ihr =>
    simp only [relocate, parens, ihl, ihr, looserThan_left op _ right l, looserThan_right, needsParens,
      rank_relocate]
    rfl

/-- A higher rank asks for parentheses wherever a lower one does. -/
theorem needsParens_mono (rank rank' : Rank) (hle : rank'.level ≤ rank.level) (e : Expr) :
    (e.needsParens rank').toNat ≤ (e.needsParens rank).toNat := by
  cases h : e.needsParens rank' with
  | false => exact Nat.zero_le _
  | true =>
    have hneeded : e.needsParens rank = true :=
      decide_eq_true (Nat.lt_of_lt_of_le (of_decide_eq_true h) hle)
    rw [hneeded]

/-- The operation itself stands where its rank allows. -/
theorem needsParens_self {rank : Rank} (h : e.rank = rank) : e.needsParens rank = false :=
  decide_eq_false (by rw [h]; exact Nat.lt_irrefl _)

/-- Whatever tokens an expression is derived from, every operand that needs parentheses in its place
has them. -/
theorem parens_le {rank : Rank} (h : IsExpr rank ts e) :
    e.parens + (e.needsParens rank).toNat ≤ Token.parens ts := by
  induction h with
  | @ofProduct _ e _ ih =>
    have := needsParens_mono .product .sum (by decide) e
    omega
  | @ofPrimary _ e _ ih =>
    have := needsParens_mono .primary .product (by decide) e
    omega
  | @ofAtom _ e _ ih =>
    have := needsParens_mono .atom .primary (by decide) e
    omega
  | @sum ls rs l r t op _ hop h20 _ ihl ihr =>
    have hrank : (binary op l r t.location).rank = .sum := if_pos h20
    rw [needsParens_self hrank, parens, looserThan_left op l r t.location, hrank, looserThan_right,
      if_pos h20, Token.parens_append, Token.parens_operator hop]
    exact (Nat.add_zero _).trans_le (Nat.add_le_add ihl ihr)
  | @product ls rs l r t op _ hop h40 _ ihl ihr =>
    have h20 : op.precedence ≠ 20 := by omega
    have hrank : (binary op l r t.location).rank = .product := if_neg h20
    rw [needsParens_self hrank, parens, looserThan_left op l r t.location, hrank, looserThan_right,
      if_neg h20, Token.parens_append, Token.parens_operator hop]
    exact (Nat.add_zero _).trans_le (Nat.add_le_add ihl ihr)
  | @member ts us e t n _ ht hn ih =>
    have hrank : (dot e n t.location).rank = .primary := rfl
    rw [needsParens_self hrank, parens, isOperation_eq, Token.parens_append, Token.parens_cons,
      hn.parens, ht]
    exact ih
  | @group ts e s t hopen _ hclose ih =>
    have := Bool.toNat_le (e.needsParens .atom)
    rw [Token.parens_cons, if_pos hopen, Token.parens_append]
    omega
  | identifier | truth | integer | nil => exact Nat.zero_le _

/-! ## Faithful texts -/

/-- A word begins with neither white space nor a byte order mark. -/
theorem begins_word (hU : U.BlanksApart) (hmark : U.idStart '\uFEFF' = false)
    (h : U.IsRun text.toList) : Statement.Begins text := by
  obtain ⟨c, cs, htext, hc, -⟩ := h
  refine ⟨c, cs, htext, ?_, ?_⟩
  · cases hblank : isBlank c with
    | false => rfl
    | true => exact absurd hc (by simp [hU.beginsIdentifier hblank])
  · rintro rfl
    simp [CharData.beginsIdentifier, hmark] at hc

/-- An integer begins with a digit or a minus sign. -/
theorem begins_integer (value : Int) : Statement.Begins (Decimal.text value) := by
  obtain ⟨c, cs, htext, -, hc⟩ := Decimal.text_cases value
  refine ⟨c, cs, htext, ?_⟩
  rcases hc with hc | ⟨rfl, -⟩
  · have hrange := toNat_of_word (c := c) (by simp [Char.isAlphanum, hc])
    refine ⟨not_blank_of_range (by omega) (by omega), ?_⟩
    rintro rfl
    exact absurd hrange.2 (by decide)
  · exact ⟨by decide, by decide⟩

theorem begins_grouped {needed : Bool} (h : Statement.Begins text) :
    Statement.Begins (grouped needed text) := by
  cases needed with
  | false => exact h
  | true =>
    rw [grouped, if_pos rfl, String.append_assoc]
    exact Statement.begins_append ⟨'(', [], rfl, by decide, by decide⟩

/-- The text of an expression begins with neither white space nor a byte order mark. -/
theorem begins_write (hU : U.BlanksApart) (hmark : U.idStart '\uFEFF' = false)
    (h : e.WellShaped U) : Statement.Begins e.write := by
  induction h with
  | @bool value l =>
    have hwrite : (bool value l).write = if value then "true" else "false" := by
      cases value <;> rfl
    rw [hwrite]
    exact begins_word hU hmark (isIdentifier_truth value).run
  | @int value l => exact begins_integer value
  | nil =>
    have hletters : "nil".toList.all Char.isAlpha = true := by decide
    rw [write]
    exact begins_word hU hmark
      (CharData.isRun_of_letters (by decide) (List.all_eq_true.mp hletters))
  | name hname => exact begins_word hU hmark hname.run
  | dot _ _ ih =>
    rw [write_dot]
    exact Statement.begins_append (Statement.begins_append (begins_grouped ih))
  | binary _ _ ihl =>
    rw [write]
    exact Statement.begins_append (Statement.begins_append (Statement.begins_append
      (Statement.begins_append (begins_grouped ihl))))

/-- The tokens of the text of an expression are those of the expression, up to locations, with just
the parentheses that it needs. -/
theorem tokens_write (hU : U.BlanksApart) (hmark : U.idStart '\uFEFF' = false)
    (h : e.WellShaped U) : ∃ e', Grouped .sum e.parens (Stream.ofBytes U (utf8 e.write)).tokens e' ∧
      e'.relocate .erase = e.relocate .erase := by
  obtain ⟨c, cs, hwrite, hblank, hfirst⟩ := begins_write hU hmark h
  obtain ⟨ts, l, ⟨e', ⟨he, hparens⟩, hsame⟩, htokens⟩ :=
    write_grouped hU h [] Location.start (margins 0) rfl
  have hpieces : pieces e.write = .char c :: cs.map .char := by
    rw [pieces, hwrite]
    rfl
  have hstream : (Stream.ofBytes U (utf8 e.write)).tokens = ts := by
    have hnotblank : atBlank (.char c :: cs.map .char) = false := hblank
    have hsettled := lineTokens_settled (U := U) (k := 0) (l := Location.start) hnotblank rfl
    rw [hpieces, List.append_nil, Scanner.inLine, Scanner.inLine, Scanner.stream_of_end] at htokens
    rw [Stream.ofBytes, ofBytes_utf8 (by rw [hwrite]; simpa using hfirst), ← pieces, hpieces]
    exact hsettled.trans (htokens.trans (List.append_nil ts))
  exact ⟨e', ⟨hstream ▸ he.lower (Nat.zero_le _), hstream ▸ hparens⟩, hsame⟩

/-- The text of an expression reads back as the expression, and no text that reads as the same
expression, wherever its parts stand, opens fewer parentheses. -/
theorem parse_write_minimal (hU : U.BlanksApart) (hmark : U.idStart '\uFEFF' = false)
    (h : e.WellShaped U) :
    (∃ e', parse U e.write = (some e', []) ∧ e'.relocate .erase = e.relocate .erase) ∧
      ∀ text e', (parse U text).1 = some e' → e'.relocate .erase = e.relocate .erase →
        parensIn U e.write ≤ parensIn U text := by
  obtain ⟨written, ⟨hwritten, hcount⟩, hsame⟩ := tokens_write hU hmark h
  refine ⟨⟨written, parse_of_isExpr hwritten rfl, hsame⟩, fun text e' hparse hsame' => ?_⟩
  obtain ⟨-, ts, rest, htokens, hcontent, he'⟩ := isExpr_of_parse hparse
  have hfirst : ∀ t ∈ ts, decide (t.kind ≠ .newline) = true := by
    intro t ht
    have hlayout := hcontent t ht
    refine decide_eq_true fun hnewline => ?_
    rw [hnewline] at hlayout
    cases hlayout
  have hparens : e'.parens = e.parens := by
    rw [← parens_relocate .erase e', hsame', parens_relocate]
  calc parensIn U e.write
      ≤ Token.parens (Stream.ofBytes U (utf8 e.write)).tokens :=
        List.Sublist.countP_le (List.takeWhile_sublist _)
    _ = e'.parens := by rw [hcount, hparens]
    _ ≤ Token.parens ts := Nat.le_of_add_right_le (parens_le he')
    _ ≤ parensIn U text := by
      rw [parensIn, htokens, List.takeWhile_append_of_pos hfirst, Token.parens_append]
      exact Nat.le_add_right _ _

/-- A difference of a difference needs one pair of parentheses and may have two. -/
theorem parse_write_minimal_difference :
    let e : Expr := .binary .sub (.int 1 .unwritten)
      (.binary .sub (.int 2 .unwritten) (.name ⟨"x", .unwritten⟩) .unwritten) .unwritten
    (∃ e', parse .standard e.write = (some e', []) ∧ e'.relocate .erase = e.relocate .erase) ∧
      parensIn .standard e.write ≤ parensIn .standard "1 - ((2 - x))" := by
  intro e
  have hname : IsIdentifier .standard "x" := .of_letters (by decide) (by decide) (by decide)
  have hminimal := parse_write_minimal (e := e) CharData.blanksApart_standard (by decide +kernel)
    (.binary .int (.binary .int (.name hname (by decide) (by decide))))
  have hparse : ((parse .standard "1 - ((2 - x))").1.map (relocate .erase)) = some (e.relocate .erase) := by
    decide +kernel
  obtain ⟨e', hvalue, hsame⟩ := Option.map_eq_some_iff.mp hparse
  exact ⟨hminimal.1, hminimal.2 _ e' hvalue hsame⟩

end FirSyntax.Expr
