import FirSyntax.Proofs.Token.Margins
import FirSyntax.Proofs.Writing.Clause

/-!
# Written lines

A statement of one line, and the comment behind it, spell tokens from which the statement is derived
again.
-/
namespace FirSyntax

open Token Grammar Unicode Source

variable {U : CharData} {k j level : Nat} {rest : List Piece} {l : Location}
  {After : List Piece → Prop} {Rule : List Token → Prop} {content : String} {comment : Option String}

theorem Token.LineEnds.apart (hU : U.BlanksApart) (h : LineEnds rest) : Apart U rest := by
  have hblank := atBlank_of_endsLine h
  cases rest with
  | nil => rfl
  | cons x rest =>
    cases x with
    | invalid bs => cases h
    | char c => exact hU.continuesIdentifier hblank

namespace Statement

theorem trailing_spells (h : ∀ text ∈ comment, IsRemarkText text) :
    Spells U LineEnds (trailing comment) (IsRemark · comment) := by
  cases comment with
  | none =>
    refine Spells.empty.imp ?_
    rintro ts rfl
    exact .absent
  | some text =>
    have hspaces := (Spells.space (U := U)).append Spells.space fun _ _ => trivial
    refine (hspaces.append (Spells.comment (h text rfl)) fun _ _ => trivial).imp ?_
    rintro _ ⟨_, _, rfl, ⟨_, _, rfl, rfl, rfl⟩, ⟨l, rfl⟩⟩
    exact .given rfl

theorem apart_trailing (hU : U.BlanksApart) (h : LineEnds rest) :
    Apart U (pieces (trailing comment) ++ rest) := by
  cases comment with
  | none => exact h.apart hU
  | some text =>
    rw [trailing, pieces_append, List.append_assoc]
    rfl

theorem pieces_indentation (level : Nat) :
    pieces (indentation level) = List.replicate (4 * level) (.char ' ') := by
  rw [pieces, indentation, String.toList_ofList, List.map_replicate]

theorem pieces_line :
    pieces (line level content comment) ++ rest =
      List.replicate (4 * level) (.char ' ') ++
        (pieces content ++ (pieces (trailing comment) ++ .char '\n' :: rest)) := by
  rw [line, pieces_append, pieces_append, pieces_append, pieces_indentation]
  simp only [List.append_assoc]
  rfl

/-- A text that begins with neither white space nor a byte order mark. -/
def Begins (content : String) : Prop :=
  ∃ c cs, content.toList = c :: cs ∧ isBlank c = false ∧ c ≠ '\uFEFF'

theorem begins_append {s t : String} (h : Begins s) : Begins (s ++ t) := by
  obtain ⟨c, cs, hs, hc⟩ := h
  exact ⟨c, cs ++ t.toList, by rw [String.toList_append, hs]; rfl, hc⟩

theorem margin_line (h : Begins content) : Margin level (pieces (line level content comment) ++ rest) := by
  obtain ⟨c, cs, hcontent, hc, -⟩ := h
  rw [pieces_line, pieces, hcontent]
  exact .line hc

/-- What may follow the content of a line: its comment, and the end of the line. -/
def Behind (comment : Option String) (rest : List Piece) : Prop :=
  ∃ end', LineEnds end' ∧ rest = pieces (trailing comment) ++ end'

theorem Behind.apart (hU : U.BlanksApart) (h : Behind comment rest) : Apart U rest := by
  obtain ⟨end', hend, rfl⟩ := h
  exact apart_trailing hU hend

/-- The tokens of a line with what it spells, a comment and its terminator, and those behind it. -/
theorem line_tokens (rest : List Piece) (hbegins : Begins content) (hcomment : ∀ text ∈ comment, IsRemarkText text)
    (h : Spells U (Behind comment) content Rule) (hl : l.column = 1) :
    ∃ ts ls l', Rule ts ∧ l'.column = 1 ∧ IsLineEnd ls comment (lineTokens U k rest l') ∧
      lineTokens U k (pieces (line k content comment) ++ rest) l = ts ++ ls := by
  obtain ⟨c, cs, hcontent, hc, -⟩ := hbegins
  have hblank (xs : List Piece) : atBlank (.char c :: xs) = false := hc
  have hline := h.append (trailing_spells hcomment) fun rest hrest => ⟨rest, hrest, rfl⟩
  obtain ⟨_, l', ⟨ts, cs', rfl, hts, hremark⟩, htokens⟩ :=
    hline (.char '\n' :: rest) ⟨l.line, 1 + 4 * k⟩ (margins k) rfl
  obtain ⟨t, ht, hnext⟩ := tokens_newline U k rest l'
  refine ⟨ts, cs' ++ t :: lineTokens U k rest l'.nextLine, l'.nextLine, hts, rfl,
    .intro hremark (.newline ht), ?_⟩
  rw [pieces_line, pieces, hcontent, List.map_cons, List.cons_append, 
    lineTokens_settled (hblank _) hl, ← List.cons_append, ← List.map_cons, ← hcontent, ← pieces, ← List.append_assoc,
    ← pieces_append, htokens, hnext, List.append_assoc]

/-! ## Statements of one line -/

/-- Statements that a source can hold in a place: names are identifiers, lists that must not be empty
are not, comments stay on their line, and the place allows the statement. -/
inductive WellShaped (U : CharData) : Place → Statement → Prop where
  | empty {place text l} : IsRemarkText text → WellShaped U place (.empty (some text) l)
  | returns {value comment l} : (∀ e ∈ value, e.WellShaped U) →
      (∀ text ∈ comment, IsRemarkText text) → WellShaped U .block (.returns value comment l)
  | consts {place clauses comment l} : clauses ≠ [] → (∀ clause ∈ clauses, clause.WellShaped U) →
      (∀ text ∈ comment, IsRemarkText text) → WellShaped U place (.consts clauses comment l)
  | vars {place clauses comment l} : clauses ≠ [] → (∀ clause ∈ clauses, clause.WellShaped U) →
      (∀ text ∈ comment, IsRemarkText text) → WellShaped U place (.vars clauses comment l)
  | imports {paths comment l} : paths ≠ [] → (∀ path ∈ paths, path.WellShaped U) →
      (∀ text ∈ comment, IsRemarkText text) → WellShaped U .file (.imports paths comment l)
  | moduleName {path comment l} : path.WellShaped U → (∀ text ∈ comment, IsRemarkText text) →
      WellShaped U .file (.moduleName path comment l)
  | procedure {place header body} : header.WellShaped U → (∀ s ∈ body, WellShaped U .block s) →
      WellShaped U place (.procedure header body)

/-- The one line of a statement: its content spells the statement. -/
structure OnLine (U : CharData) (place : Place) (s : Statement) (content : String)
    (comment : Option String) : Prop where
  lines_eq : ∀ level, lines level s = [line level content comment]
  begins : Begins content
  remark : ∀ text ∈ comment, IsRemarkText text
  spells : Spells U (Behind comment) content fun ts =>
    ∃ s', IsLine false place ts comment s' ∧ s'.relocate .erase = s.merge.relocate .erase

theorem begins_keyword (w : Keyword) (text : String) : Begins (w.spelling ++ text) := by
  apply begins_append
  cases w <;> exact ⟨_, _, rfl, by decide⟩

/-- A keyword and what is behind it on its line. -/
theorem keyword_spells (hU : U.BlanksApart) (w : Keyword) {text : String}
    (h : Spells U (Apart U) text Rule) :
    Spells U (Apart U) (w.spelling ++ " " ++ text)
      fun ts => ∃ t us, ts = t :: us ∧ t.kind = .keyword w ∧ Rule us := by
  have hword := (Spells.keyword hU w).append Spells.space fun rest _ => rfl
  refine (hword.append h fun _ _ => trivial).imp ?_
  rintro _ ⟨_, us, rfl, ⟨_, _, rfl, ⟨l, rfl⟩, rfl⟩, hus⟩
  exact ⟨_, us, rfl, rfl, hus⟩

theorem writeReturned_spells (hU : U.BlanksApart) {value : Option Expr}
    (h : ∀ e ∈ value, e.WellShaped U) :
    Spells U (Apart U) ("return" ++ writeReturned value)
      fun ts => ∃ t us, ts = t :: us ∧ t.kind = .keyword .return ∧
        Yields IsReturned (Option.map (Expr.relocate .erase)) (value.map (Expr.relocate .erase)) us := by
  cases value with
  | none =>
    rw [writeReturned, String.append_empty]
    refine (Spells.keyword hU .return).imp ?_
    rintro ts ⟨l, rfl⟩
    exact ⟨_, [], rfl, rfl, none, .absent, rfl⟩
  | some e =>
    rw [writeReturned, ← String.append_assoc]
    refine (keyword_spells hU .return (Expr.write_spells hU (h e rfl))).imp ?_
    rintro _ ⟨t, us, rfl, ht, e', he, heq⟩
    exact ⟨t, us, rfl, ht, some e', .given (he.lower (Nat.zero_le _)), congrArg some heq⟩

/-- A comment that stands on a line alone. -/
theorem commentMark_onLine {place : Place} {text : String} (h : IsRemarkText text) (l : Location) :
    OnLine U place (.empty (some text) l) (commentMark text) none where
  lines_eq level := by rw [lines, line, trailing, String.append_empty]
  begins := by
    unfold commentMark
    split
    · exact ⟨_, _, rfl, by decide⟩
    · exact begins_append ⟨_, _, rfl, by decide⟩
  remark := by simp
  spells := by
    have hends (rest : List Piece) (hrest : Behind none rest) : LineEnds rest := by
      obtain ⟨_, hend, rfl⟩ := hrest
      exact hend
    refine ((Spells.comment h).weaken hends).imp ?_
    rintro ts ⟨l', rfl⟩
    exact ⟨_, .comment rfl, rfl⟩

theorem WellShaped.onLine (hU : U.BlanksApart) {place : Place} {s : Statement}
    (h : s.WellShaped U place) (hline : s.header? = none) :
    ∃ content comment, OnLine U place s content comment := by
  cases h with
  | empty h => exact ⟨_, _, commentMark_onLine h _⟩
  | @returns value comment l hvalue hcomment =>
    refine ⟨"return" ++ writeReturned value, comment, fun _ => rfl, begins_keyword .return _, hcomment, ?_⟩
    refine ((writeReturned_spells hU hvalue).weaken fun _ => Behind.apart hU).imp ?_
    rintro _ ⟨t, us, rfl, ht, value', hvalue', heq⟩
    refine ⟨_, .returns ht hvalue', ?_⟩
    rw [relocate, heq]
    rfl
  | @consts place clauses comment l hne hclauses hcomment =>
    refine ⟨"const " ++ Clause.writeAll clauses, comment, fun _ => rfl,
      begins_append (begins_keyword .const " "), hcomment, ?_⟩
    refine ((keyword_spells hU .const (Clause.writeAll_spells hU hne hclauses)).weaken
      fun _ => Behind.apart hU).imp ?_
    rintro _ ⟨t, us, rfl, ht, clauses', hclauses', heq⟩
    refine ⟨_, .consts ht hclauses' (by simp), ?_⟩
    rw [relocate, heq]
    rfl
  | @vars place clauses comment l hne hclauses hcomment =>
    refine ⟨"var " ++ Clause.writeAll clauses, comment, fun _ => rfl,
      begins_append (begins_keyword .var " "), hcomment, ?_⟩
    refine ((keyword_spells hU .var (Clause.writeAll_spells hU hne hclauses)).weaken
      fun _ => Behind.apart hU).imp ?_
    rintro _ ⟨t, us, rfl, ht, clauses', hclauses', heq⟩
    refine ⟨_, .vars ht hclauses', ?_⟩
    rw [relocate, heq]
    rfl
  | @imports paths comment l hne hpaths hcomment =>
    have hcomma := Spells.comma (U := U)
    have hspells := Spells.separated hcomma.1 hcomma.2 hne
      fun path hpath => DottedName.write_spells hU (hpaths path hpath)
    refine ⟨"import " ++ ", ".intercalate (paths.map (·.write)), comment, fun _ => rfl,
      begins_append (begins_keyword .import " "), hcomment, ?_⟩
    refine ((keyword_spells hU .import hspells).weaken fun _ => Behind.apart hU).imp ?_
    rintro _ ⟨t, us, rfl, ht, paths', hpaths', heq⟩
    refine ⟨_, .imports ht hpaths', ?_⟩
    rw [relocate, heq]
    rfl
  | @moduleName path comment l hpath hcomment =>
    refine ⟨"module " ++ path.write, comment, fun _ => rfl,
      begins_append ⟨_, _, rfl, by decide⟩, hcomment, ?_⟩
    have hmodule : IsIdentifier U "module" := .of_letters (by decide) (by decide) (by decide)
    have hword := (hmodule.spells hU).append Spells.space fun rest _ => rfl
    refine ((hword.append (DottedName.write_spells hU hpath) fun _ _ => trivial).weaken
      fun _ => Behind.apart hU).imp ?_
    rintro _ ⟨_, ps, rfl, ⟨_, _, rfl, ⟨l', rfl⟩, rfl⟩, path', hpath', heq⟩
    refine ⟨_, .moduleName rfl rfl hpath', ?_⟩
    rw [relocate, heq]
    rfl
  | procedure => cases hline

end Statement

end FirSyntax
