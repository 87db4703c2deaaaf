import FirSyntax.Proofs.Expressions

/-!
# The line of an expression

An expression is read from the first line of a text up to its end, whatever stands on the lines
behind it. So the text as a whole is an expression just when it is accepted and has one line.
-/
namespace FirSyntax

open Token Grammar

/-- The tokens of an expression stand on one line. -/
theorem Grammar.IsExpr.content {rank : Rank} {ts : List Token} {e : Expr} (h : IsExpr rank ts e) :
    ∀ t ∈ ts, t.kind.isLayout = false := by
  induction h with
  | ofProduct _ ih | ofPrimary _ ih | ofAtom _ ih => exact ih
  | sum _ hop _ _ ihl ihr | product _ hop _ _ ihl ihr =>
    exact List.forall_mem_append.mpr
      ⟨ihl, List.forall_mem_cons.mpr ⟨Kind.isLayout_of_operator hop, ihr⟩⟩
  | member _ ht hn ih =>
    obtain ⟨hname⟩ := hn
    simpa [or_imp, forall_and, ht, hname, Kind.isLayout] using ih
  | group hopen _ hclose ih =>
    simpa [or_imp, forall_and, hopen, hclose, Kind.isLayout] using ih
  | identifier h | truth h | integer h | nil h => simp [h, Kind.isLayout]

/-- Where no level is open, none is closed at the end of a line. -/
theorem Grammar.IsEnd.of_depth_zero {cut : Bool} {p : Position} {rest later : List Token}
    (h : IsEnd rest later) (hlaid : Laid cut p 0 rest) :
    rest = [] ∨ ∃ t later, rest = t :: later ∧ t.kind = .newline := by
  cases h with
  | newline ht => exact .inr ⟨_, _, rfl, ht⟩
  | closing hall =>
    cases rest with
    | nil => exact .inl rfl
    | cons t ts =>
      obtain ⟨d, hd, -⟩ := hlaid.of_unindent (hall t (by simp))
      omega

namespace Expr

open Unicode Source

/-- The tokens of a text. -/
def tokensIn (U : CharData) (text : String) : List Token := (Stream.ofBytes U (utf8 text)).tokens

/-- The tokens in front of the first line terminator. -/
def firstLine (U : CharData) (text : String) : List Token :=
  (tokensIn U text).takeWhile (·.kind ≠ .newline)

/-- The tokens behind the first line terminator. -/
def laterLines (U : CharData) (text : String) : List Token :=
  ((tokensIn U text).dropWhile (·.kind ≠ .newline)).tail

/-- A text whose tokens are those of an expression, up to a line terminator at its end. -/
def IsWhole (U : CharData) (text : String) (e : Expr) : Prop :=
  ∃ ts ends, tokensIn U text = ts ++ ends ∧ IsExpr .sum ts e ∧
    (ends = [] ∨ ∃ t, ends = [t] ∧ t.kind = .newline)

variable {U : CharData} {e : Expr} {ts rest : List Token} {text : String}

/-- Where the tokens of a line are followed by a terminator or by nothing, they are the first
line. -/
theorem lines_of_tokens (hts : ∀ t ∈ ts, t.kind.isLayout = false)
    (hrest : rest = [] ∨ ∃ t later, rest = t :: later ∧ t.kind = .newline)
    (h : tokensIn U text = ts ++ rest) : firstLine U text = ts ∧ laterLines U text = rest.tail := by
  have hline : ∀ t ∈ ts, decide (t.kind ≠ .newline) = true := by
    intro t ht
    refine decide_eq_true fun hnewline => ?_
    simpa [hnewline, Kind.isLayout] using hts t ht
  rw [firstLine, laterLines, h, List.takeWhile_append_of_pos hline,
    List.dropWhile_append_of_pos hline]
  obtain rfl | ⟨t, later, rfl, ht⟩ := hrest
  · simp
  · simp [ht]

/-- The first line ends with its terminator, in front of the later lines, or with the text. -/
theorem tokensIn_split (U : CharData) (text : String) :
    ∃ rest, tokensIn U text = firstLine U text ++ rest ∧ IsEnd rest (laterLines U text) := by
  refine ⟨(tokensIn U text).dropWhile (·.kind ≠ .newline), List.takeWhile_append_dropWhile.symm, ?_⟩
  rw [laterLines]
  cases hdrop : (tokensIn U text).dropWhile (·.kind ≠ .newline) with
  | nil => exact .closing (by simp)
  | cons t later =>
    have ht := List.head?_dropWhile_not (fun t : Token => decide (t.kind ≠ .newline))
      (tokensIn U text)
    rw [hdrop] at ht
    exact .newline (by simpa using ht)

/-- The expression that is read is derived from the whole of the first line. -/
theorem firstLine_of_parse (h : (parse U text).1 = some e) : IsExpr .sum (firstLine U text) e := by
  obtain ⟨ts, s, hreads, he, hends⟩ := reads_of_parse h
  have htokens : tokensIn U text = ts ++ s.stream.tokens := hreads.tokens
  have hdepth : s.depth = 0 := hreads.depth
  have hinside : s.LaidAs true .inside := by
    have hlaid := Stream.laid_ofBytes U (utf8 text)
    rw [← tokensIn, htokens] at hlaid
    rw [Reading.LaidAs, hdepth]
    cases ts with
    | nil => exact absurd (Statement.opensExpression_of_isExpr he []) (by decide)
    | cons t ts =>
      have hcontent := List.forall_mem_cons.mp he.content
      exact (hlaid.of_content hcontent.1).append_content hcontent.2
  have hend : IsEnd s.stream.tokens _ := (hinside.ends hends).2.2.2
  rw [Reading.LaidAs, hdepth] at hinside
  rwa [(lines_of_tokens he.content (hend.of_depth_zero hinside) htokens).1]

/-- Where the first line is an expression, it is read, whatever the later lines hold. -/
theorem parse_of_firstLine (he : IsExpr .sum (firstLine U text) e) :
    parse U text = (some e, []) := by
  obtain ⟨rest, htokens, hend⟩ := tokensIn_split U text
  exact parse_of_line he hend htokens

theorem parse_iff_firstLine : parse U text = (some e, []) ↔ IsExpr .sum (firstLine U text) e :=
  ⟨fun h => firstLine_of_parse (congrArg Prod.fst h), parse_of_firstLine⟩

/-- An expression takes up a text just when it takes up the first line, and no other follows. -/
theorem isWhole_iff :
    IsWhole U text e ↔ IsExpr .sum (firstLine U text) e ∧ laterLines U text = [] := by
  constructor
  · rintro ⟨ts, ends, htokens, he, hends⟩
    have hrest : ends = [] ∨ ∃ t later, ends = t :: later ∧ t.kind = .newline :=
      hends.imp_right fun ⟨t, h, ht⟩ => ⟨t, [], h, ht⟩
    obtain ⟨hfirst, hlater⟩ := lines_of_tokens he.content hrest htokens
    refine ⟨hfirst ▸ he, ?_⟩
    obtain rfl | ⟨t, rfl, -⟩ := hends <;> exact hlater
  · rintro ⟨he, hlater⟩
    obtain ⟨rest, htokens, hend⟩ := tokensIn_split U text
    rw [hlater] at hend
    refine ⟨_, rest, htokens, he, ?_⟩
    cases hend with
    | newline ht => exact .inr ⟨_, rfl, ht⟩
    | closing => exact .inl rfl

/-- An expression is read, and nothing reported, just when the first line is one. The text as a
whole is that expression just when no token stands on a later line. -/
theorem parse_eq_some_iff (U : CharData) (text : String) (e : Expr) :
    (parse U text = (some e, []) ↔ IsExpr .sum (firstLine U text) e) ∧
      (IsWhole U text e ↔ parse U text = (some e, []) ∧ laterLines U text = []) :=
  ⟨parse_iff_firstLine, isWhole_iff.trans (and_congr_left' parse_iff_firstLine.symm)⟩

/-- The second of two lines is left unread, and nothing is reported. -/
theorem parse_two_lines : parse .standard "1\n2" = (some (.int 1 ⟨1, 1⟩), []) ∧
    ¬ IsWhole .standard "1\n2" (.int 1 ⟨1, 1⟩) := by
  refine ⟨by decide +kernel, fun h => ?_⟩
  have hlater : laterLines .standard "1\n2" = [⟨.integer, "2", ⟨2, 1⟩⟩] := by decide +kernel
  cases hlater.symm.trans (isWhole_iff.mp h).2

end Expr

end FirSyntax
