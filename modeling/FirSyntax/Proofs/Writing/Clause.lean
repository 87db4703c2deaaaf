import FirSyntax.Proofs.Writing.Merging

/-!
# Written declarations

Paths, types, clauses and headers spell tokens from which they are derived again, with clauses put
together as they are written.
-/
namespace FirSyntax

open Token Grammar Unicode Source

variable {U : CharData}

structure DottedName.WellShaped (U : CharData) (path : DottedName) : Prop where
  nonempty : path.names ≠ []
  names : ∀ n ∈ path.names, IsIdentifier U n.text

/-- A type of identifiers; one that is not given is not optional. -/
structure TypeRef.WellShaped (U : CharData) (type : TypeRef) : Prop where
  segments : ∀ text ∈ type.segments, IsIdentifier U text
  plain : type.segments = [] → type.optional = false

structure Clause.WellShaped (U : CharData) (clause : Clause) : Prop where
  nonempty : clause.names ≠ []
  names : ∀ n ∈ clause.names, IsIdentifier U n.text
  type : clause.type.WellShaped U
  value : ∀ e ∈ clause.value, e.WellShaped U

structure Header.WellShaped (U : CharData) (header : Header) : Prop where
  name : IsIdentifier U header.name.text
  parameters : ∀ clause ∈ header.parameters, clause.WellShaped U
  result : header.result.WellShaped U
  comment : ∀ text ∈ header.comment, IsRemarkText text

theorem Token.Spells.comma : Spells U Anything ", " (IsToken (.punctuation .comma) ",") ∧
    ∀ rest, Apart U (pieces ", " ++ rest) := by
  have hsign := Spells.mark (U := U) .comma (by decide)
  refine ⟨(hsign.append Spells.space fun _ _ => trivial).imp ?_, fun rest => rfl⟩
  rintro _ ⟨ts, _, rfl, hts, rfl⟩
  rw [List.append_nil]
  exact hts

namespace DottedName

theorem write_spells (hU : U.BlanksApart) {path : DottedName} (h : path.WellShaped U) :
    Spells U (Apart U) path.write (Yields IsPath (relocate .erase) (path.relocate .erase)) := by
  have hdot := Spells.mark (U := U) .dot (by decide)
  refine (Spells.separated hdot (fun rest => rfl) h.nonempty
    fun n hn => Name.spells hU (h.names n hn)).imp ?_
  rintro ts ⟨names, hnames, heq⟩
  exact ⟨⟨names⟩, hnames, congrArg DottedName.mk heq⟩

end DottedName

namespace TypeRef

/-- The segments of a type, as a path without locations. -/
theorem segments_spells (hU : U.BlanksApart) {type : TypeRef} (h : type.WellShaped U)
    (hgiven : type.segments ≠ []) :
    Spells U (Apart U) (".".intercalate type.segments)
      (Yields IsPath (fun path => path.names.map (·.text)) type.segments) := by
  have hdot := Spells.mark (U := U) .dot (by decide)
  have hsegment (text : String) (htext : text ∈ type.segments) :
      Spells U (Apart U) (id text) (Yields IsName Name.text (id text)) := by
    refine ((h.segments text htext).spells hU).imp ?_
    rintro ts ⟨l, rfl⟩
    exact ⟨_, .intro rfl, rfl⟩
  have hsegments := Spells.separated hdot (fun rest => rfl) hgiven hsegment
  rw [List.map_id] at hsegments
  refine hsegments.imp ?_
  rintro ts ⟨names, hnames, heq⟩
  exact ⟨⟨names⟩, hnames, heq⟩

theorem write_spells (hU : U.BlanksApart) {type : TypeRef} (h : type.WellShaped U)
    (hgiven : type.segments ≠ []) :
    Spells U (Apart U) type.write (Yields IsType (relocate .erase) (type.relocate .erase)) := by
  have hsegments := segments_spells hU h hgiven
  obtain ⟨optional, segments, l⟩ := type
  cases optional with
  | false =>
    have hempty : Spells U Anything "" (· = []) := .empty
    refine (hempty.append hsegments fun _ _ => trivial).imp ?_
    rintro _ ⟨_, ts, rfl, rfl, ⟨path, hpath, heq⟩⟩
    cases ts with
    | nil => exact absurd rfl hpath.tokens_ne_nil
    | cons t ts =>
      exact ⟨_, .plain hpath, congrArg (fun segments => TypeRef.mk false segments .unwritten) heq⟩
  | true =>
    have hword := (Spells.keyword hU .optional).append Spells.space fun _ _ => rfl
    refine (hword.append hsegments fun _ _ => trivial).imp ?_
    rintro _ ⟨_, ts, rfl, ⟨_, _, rfl, ⟨l', rfl⟩, rfl⟩, ⟨path, hpath, heq⟩⟩
    exact ⟨_, .optional rfl hpath, congrArg (fun segments => TypeRef.mk true segments .unwritten) heq⟩

theorem relocate_of_absent {type : TypeRef} (h : type.WellShaped U) (habsent : type.segments = []) :
    type.relocate .erase = unspecified := by
  obtain ⟨optional, segments, l⟩ := type
  obtain rfl : segments = [] := habsent
  obtain rfl : optional = false := h.plain rfl
  rfl

end TypeRef

namespace Clause

theorem writeType_spells (hU : U.BlanksApart) {clause : Clause} (h : clause.WellShaped U) :
    Spells U (Apart U) clause.writeType
      (Yields IsTyping (TypeRef.relocate .erase) (clause.type.relocate .erase)) := by
  unfold writeType
  cases hsegments : clause.type.segments with
  | nil =>
    have hnot : clause.type.isSpecified = false := by simp [TypeRef.isSpecified, hsegments]
    rw [hnot, TypeRef.relocate_of_absent h.type hsegments]
    refine Spells.empty.imp ?_
    rintro ts rfl
    exact ⟨_, .absent, rfl⟩
  | cons text texts =>
    have hgiven : clause.type.isSpecified = true := by simp [TypeRef.isSpecified, hsegments]
    have hcolon := (Spells.mark (U := U) .colon (by decide)).append Spells.space fun _ _ => trivial
    have htype := TypeRef.write_spells hU h.type (by simp [hsegments])
    rw [hgiven]
    refine (hcolon.append htype fun _ _ => trivial).imp ?_
    rintro _ ⟨_, ts, rfl, ⟨_, _, rfl, ⟨l, rfl⟩, rfl⟩, ⟨type, htype, heq⟩⟩
    exact ⟨type, .given rfl htype, heq⟩

theorem writeValue_spells (hU : U.BlanksApart) {clause : Clause} (h : clause.WellShaped U) :
    Spells U (Apart U) clause.writeValue
      (Yields IsInitial (Option.map (Expr.relocate .erase))
        (clause.value.map (Expr.relocate .erase))) := by
  unfold writeValue
  cases hvalue : clause.value with
  | none =>
    refine Spells.empty.imp ?_
    rintro ts rfl
    exact ⟨_, .absent, rfl⟩
  | some e =>
    have hequal := (Spells.space.append (Spells.mark (U := U) .equal (by decide))
      fun _ _ => trivial).append Spells.space fun _ _ => trivial
    have he := Expr.write_spells hU (h.value e hvalue)
    refine (hequal.append he fun _ _ => trivial).imp ?_
    rintro _ ⟨_, ts, rfl, ⟨_, _, rfl, ⟨_, _, rfl, rfl, ⟨l, rfl⟩⟩, rfl⟩, ⟨e', he', heq⟩⟩
    exact ⟨some e', .given rfl (he'.lower (Nat.zero_le _)), congrArg some heq⟩

/-- What follows the names of a clause, or its type, is no part of them. -/
theorem apart_writeValue (clause : Clause) {rest : List Piece} (h : Apart U rest) :
    Apart U (pieces clause.writeValue ++ rest) := by
  unfold writeValue
  cases clause.value with
  | none => exact h
  | some e =>
    rw [pieces_append, List.append_assoc]
    rfl

theorem apart_writeType (clause : Clause) {rest : List Piece} (h : Apart U rest) :
    Apart U (pieces clause.writeType ++ rest) := by
  unfold writeType
  split
  · rw [pieces_append, List.append_assoc]
    rfl
  · exact h

theorem write_spells (hU : U.BlanksApart) {clause : Clause} (h : clause.WellShaped U) :
    Spells U (Apart U) clause.write (Yields IsClause (relocate .erase) (clause.relocate .erase)) := by
  obtain ⟨hcomma, hapart⟩ := Spells.comma (U := U)
  have hnames := Spells.separated hcomma hapart h.nonempty
    fun n hn => Name.spells hU (h.names n hn)
  refine ((hnames.append (writeType_spells hU h) fun _ => apart_writeType clause).append
    (writeValue_spells hU h) fun _ => apart_writeValue clause).imp ?_
  rintro _ ⟨_, vs, rfl, ⟨ns, ts, rfl, ⟨names, hns, hnames⟩, ⟨type, hts, htype⟩⟩, ⟨value, hvs, hvalue⟩⟩
  refine ⟨⟨names, type, value⟩, ?_, ?_⟩
  · rw [List.append_assoc]
    exact .intro hns hts hvs
  · rw [relocate, relocate, hnames, htype, hvalue]

/-- Clauses that are joined make up a clause of the same shape. -/
theorem wellShaped_coalesce {clauses : List Clause} (h : ∀ clause ∈ clauses, clause.WellShaped U) :
    ∀ clause ∈ coalesce clauses, clause.WellShaped U := by
  refine coalesce_induction (fun a b ha hb _ => ⟨?_, ?_, ha.type, ha.value⟩) h
  · exact List.append_ne_nil_of_left_ne_nil ha.nonempty _
  · intro n hn
    exact (List.mem_append.mp hn).elim (ha.names n) (hb.names n)

theorem writeAll_spells (hU : U.BlanksApart) {clauses : List Clause} (hne : clauses ≠ [])
    (h : ∀ clause ∈ clauses, clause.WellShaped U) :
    Spells U (Apart U) (writeAll clauses)
      (Yields (Separated .semicolon IsClause) (List.map (relocate .erase))
        ((coalesce clauses).map (relocate .erase))) := by
  have hsign := Spells.mark (U := U) .semicolon (by decide)
  have hsemicolon : Spells U Anything "; " (IsToken (.punctuation .semicolon) ";") := by
    refine (hsign.append Spells.space fun _ _ => trivial).imp ?_
    rintro _ ⟨ts, _, rfl, hts, rfl⟩
    rw [List.append_nil]
    exact hts
  exact Spells.separated hsemicolon (fun rest => rfl) (coalesce_ne_nil hne)
    fun clause hclause => write_spells hU (wellShaped_coalesce h clause hclause)

end Clause

namespace Header

theorem parameters_spells (hU : U.BlanksApart) {header : Header} (h : header.WellShaped U) :
    Spells U (Apart U) (Clause.writeAll header.parameters)
      (Yields IsParameters (List.map (Clause.relocate .erase))
        (header.merge.parameters.map (Clause.relocate .erase))) := by
  by_cases hnil : header.parameters = []
  · rw [merge, hnil]
    refine Spells.empty.imp ?_
    rintro ts rfl
    exact ⟨[], .none, rfl⟩
  · refine (Clause.writeAll_spells hU hnil h.parameters).imp ?_
    rintro ts ⟨clauses, hclauses, heq⟩
    exact ⟨clauses, .some hclauses, heq⟩

theorem writeResult_spells (hU : U.BlanksApart) {header : Header} (h : header.WellShaped U) :
    Spells U (Apart U) header.writeResult
      (Yields IsResult (TypeRef.relocate .erase) (header.result.relocate .erase)) := by
  unfold writeResult
  cases hsegments : header.result.segments with
  | nil =>
    have hnot : header.result.isSpecified = false := by simp [TypeRef.isSpecified, hsegments]
    rw [hnot, TypeRef.relocate_of_absent h.result hsegments]
    refine Spells.empty.imp ?_
    rintro ts rfl
    exact ⟨_, .absent, rfl⟩
  | cons text texts =>
    have hgiven : header.result.isSpecified = true := by simp [TypeRef.isSpecified, hsegments]
    have htype := TypeRef.write_spells hU h.result (by simp [hsegments])
    rw [hgiven]
    refine (Spells.space.append htype fun _ _ => trivial).imp ?_
    rintro _ ⟨_, ts, rfl, rfl, ⟨type, htype, heq⟩⟩
    exact ⟨type, .given htype, heq⟩

theorem write_spells (hU : U.BlanksApart) {header : Header} (h : header.WellShaped U) :
    Spells U (Apart U) header.write
      (fun ts => ∃ header', IsHeading ts header' ∧
        header'.comment = header.comment ∧
        header'.relocate .erase = header.merge.relocate .erase) := by
  have hproc := (Spells.keyword hU .proc).append Spells.space fun _ _ => rfl
  have hname := hproc.append (Name.spells hU h.name) fun _ _ => trivial
  have hopen := hname.append (Spells.mark .leftParen (by decide)) fun _ _ => rfl
  have hparameters := hopen.append (parameters_spells hU h) fun _ _ => trivial
  have hends := (Spells.mark (U := U) .rightParen (by decide)).append
    (Spells.mark .colon (by decide)) fun _ _ => trivial
  have hclose := hparameters.append hends fun _ _ => rfl
  refine (hclose.append (writeResult_spells hU h) fun _ _ => trivial).imp ?_
  rintro _ ⟨_, rs, rfl, ⟨_, _, rfl, ⟨_, ps, rfl, ⟨_, _, rfl, ⟨_, ns, rfl, ⟨_, _, rfl, ⟨l, rfl⟩, rfl⟩,
    ⟨name, hns, hname⟩⟩, ⟨lo, rfl⟩⟩, ⟨parameters, hps, hparameters⟩⟩,
    ⟨_, _, rfl, ⟨lc, rfl⟩, ⟨ld, rfl⟩⟩⟩, ⟨result, hrs, hresult⟩⟩
  refine ⟨⟨name, parameters, result, header.comment, l⟩, ?_, rfl, ?_⟩
  · simp only [List.append_assoc, List.cons_append, List.nil_append]
    exact .intro rfl hns rfl hps rfl rfl hrs
  · rw [relocate, relocate, hname, hparameters, hresult]
    rfl

end Header

end FirSyntax
