import FirSyntax.Proofs.RoundTrip

/-!
# Clauses that are written and read

The groups of clauses are a normal form: they are the same for two lists just when the lists declare
the same. Reading the text of a `var` statement gives one clause for each group.
-/
namespace FirSyntax

open Token Grammar Unicode Source

theorem Clause.readAll_refused (constant : Bool) {r : Reading} (h : r.current.kind ≠ .identifier) :
    (readAll constant r).result = (none, r.reportExpected (.token .identifier)) := by
  rw [readAll, Reading.separated]
  simp only [read]
  rw [readNames]
  simp [Reading.expectName, Reading.expect, h, Step.andThen, Step.refused, Step.result, Step.failed]

namespace Statement

theorem read_vars_refused {r : Reading} (first : Token) (h : r.current.kind ≠ .identifier) :
    (read .vars first r).result = (none, r.reportExpected (.token .identifier)) := by
  rw [read]
  have hclauses := Clause.readAll_refused false h
  generalize Clause.readAll false r = step at hclauses
  obtain ⟨value, after, hle⟩ := step
  cases hclauses
  rfl

/-- A line of the word `var` alone is no statement. -/
theorem readAll_var {t n : Token} (ht : t.kind = .keyword .var) (hn : n.kind = .newline)
    (ending : Location) : (readAll (Reading.start ⟨[t, n], ending⟩)).1 = [] := by
  let r := Reading.start ⟨[t, n], ending⟩
  let s := r.advance.reportExpected (.token .identifier)
  have hr : r.current.kind = .keyword .var := ht
  have hlead : Lead.atTop? r = some .vars := by rw [Lead.atTop?, hr]
  have hadvance : r.advance = ⟨⟨[n], ending⟩, t.kind, Reading.depthAfter 0 t.kind, [], 0⟩ :=
    Reading.advance_eq (r := r) (by simp [hr])
  have hnewline : r.advance.current.kind = .newline := by rw [hadvance]; exact hn
  have hs : s.current.kind = .newline := by simpa [s] using hnewline
  have hdepth : s.depth = r.depth := by
    calc s.depth = r.advance.depth := Reading.depth_report ..
      _ = r.depth := by rw [hadvance, ht]; rfl
  have htokens : s.advance.stream.tokens = [] := by
    rw [Reading.tokens_advance (by simp [hs])]
    simp [s, Reading.reportExpected, hadvance]
  have heof : s.advance.current.kind = .eof := by rw [Reading.current_of_nil htokens]; rfl
  have hskip : s.skipLine r.depth = s.advance :=
    Reading.SkipEnd.skipLine_eq (.newline hs hdepth (by simp [heof]))
  have hstray : s.advance.skipStray r.depth = s.advance := by
    rw [Reading.skipStray, if_neg (by simp [heof])]
  have hrefused := read_vars_refused (r := r.advance) r.current (by simp [hnewline])
  rw [readAll, (FileTurn.failure hlead hrefused).readAllFrom_eq, hskip, hstray, readAllFrom_eof _ heof]
  rfl

end Statement

namespace Clause

variable {U : CharData} {clauses : List Clause}

theorem write_vars (clauses : List Clause) (l : Location) :
    SourceFile.write ⟨"", "", [.vars clauses none l]⟩ = "var " ++ writeAll clauses ++ "\n" := by
  have hmargin : Statement.indentation 0 = "" := rfl
  have hlines : Statement.linesOfAll 0 [.vars clauses none l] =
      [Statement.line 0 ("var " ++ writeAll clauses) none] := rfl
  rw [SourceFile.write, Statement.writeAll, hlines, String.join_cons, String.join_nil,
    String.append_empty, Statement.line, hmargin, String.empty_append, Statement.trailing,
    String.append_empty]

/-- Clauses that are written behind `var` are read as their groups. -/
theorem parse_vars (hU : U.BlanksApart) (hne : clauses ≠ [])
    (h : ∀ clause ∈ clauses, clause.WellShaped U) :
    (SourceFile.parseText U ("var " ++ writeAll clauses ++ "\n")).1.body.map (Statement.relocate .erase) =
        [.vars ((coalesce clauses).map (relocate .erase)) none .unwritten] ∧
      (SourceFile.parseText U ("var " ++ writeAll clauses ++ "\n")).2 = [] := by
  let file : SourceFile := ⟨"", "", [.vars clauses none .unwritten]⟩
  have hwell : ∀ s ∈ file.body, s.WellShaped U .file := by
    simpa [file] using .vars hne h (by simp)
  have hcomplete : ∀ s ∈ file.body.map Statement.merge, s.Complete := by
    simpa [file, Statement.merge] using .vars
  obtain ⟨hsame, hreported⟩ := SourceFile.parseText_write hU hwell
  rw [write_vars] at hsame hreported
  exact ⟨hsame, hreported.mpr ((Statement.complete_congr hsame).mpr hcomplete)⟩

theorem tokens_var (hU : U.BlanksApart) :
    ∃ t n, (Stream.ofBytes U (utf8 "var \n")).tokens = [t, n] ∧ t.kind = .keyword .var ∧
      n.kind = .newline := by
  have hspells := Statement.keyword_spells hU .var Spells.empty
  obtain ⟨_, l, ⟨t, _, rfl, ht, rfl⟩, htokens⟩ := hspells [.char '\n'] Location.start (margins 0) rfl
  obtain ⟨n, hn, hnext⟩ := tokens_newline U 0 [] l
  have hempty : lineTokens U 0 [] l.nextLine = [] := congrArg Stream.tokens (Scanner.stream_of_end ..)
  have hline : lineTokens U 0 (pieces "var \n") Location.start = [t, n] := by
    rw [hnext, hempty] at htokens
    exact (lineTokens_settled (U := U) (k := 0) (l := Location.start) rfl rfl).trans htokens
  refine ⟨t, n, ?_, ht, hn⟩
  rw [Stream.ofBytes, ofBytes_utf8 (by decide)]
  exact hline

theorem parse_vars_nil (hU : U.BlanksApart) :
    (SourceFile.parseText U ("var " ++ writeAll [] ++ "\n")).1.body = [] := by
  obtain ⟨t, n, htokens, ht, hn⟩ := tokens_var hU
  have hparse := Statement.readAll_var ht hn (Stream.ofBytes U (utf8 "var \n")).ending
  rw [← htokens] at hparse
  exact hparse

/-- Groups declare what their clauses declare, in the same order, and no group could take in the one
after it. Lists have the same groups, up to where things stand, just when they declare the same. The
clauses of a `var` statement are read back as one clause for each group, and nothing is reported. -/
theorem coalesce_canonical (hU : U.BlanksApart) :
    (∀ clauses : List Clause,
      (coalesce clauses).flatMap declarations = clauses.flatMap declarations ∧
        (coalesce clauses).IsChain fun a b =>
          ¬ (a.value = none ∧ b.value = none ∧ a.type.same b.type = true)) ∧
      (∀ clauses clauses' : List Clause, (∀ clause ∈ clauses, clause.names ≠ []) →
        (∀ clause ∈ clauses', clause.names ≠ []) →
        ((coalesce clauses).map (relocate .erase) = (coalesce clauses').map (relocate .erase) ↔
          (clauses.flatMap declarations).map (Declaration.relocate .erase) =
            (clauses'.flatMap declarations).map (Declaration.relocate .erase))) ∧
      ∀ clauses : List Clause, (∀ clause ∈ clauses, clause.WellShaped U) →
        let parsed := SourceFile.parseText U ("var " ++ writeAll clauses ++ "\n")
        parsed.1.body.map (Statement.relocate .erase) =
            (if clauses = [] then []
              else [.vars ((coalesce clauses).map (relocate .erase)) none .unwritten]) ∧
          (clauses ≠ [] → parsed.2 = []) := by
  refine ⟨fun clauses => ⟨declarations_coalesce clauses, ?_⟩,
    fun clauses clauses' h h' => coalesce_eq_iff h h', fun clauses h => ?_⟩
  · exact (settled_coalesce clauses).imp fun a b => not_joins_iff.mp
  · by_cases hnil : clauses = []
    · subst hnil
      refine ⟨?_, fun hne => absurd rfl hne⟩
      rw [if_pos rfl, parse_vars_nil hU, List.map_nil]
    · obtain ⟨hbody, hreported⟩ := parse_vars hU hnil h
      exact ⟨by rw [if_neg hnil, hbody], fun _ => hreported⟩

/-- Two clauses of one type are a group, and the clause of the optional type is another. -/
theorem coalesce_canonical_optional :
    let clause (name : String) (optional : Bool) : Clause :=
      ⟨[⟨name, .unwritten⟩], ⟨optional, ["T"], .unwritten⟩, none⟩
    let clauses := [clause "a" false, clause "b" false, clause "c" true]
    let parsed := SourceFile.parseText .standard "var a, b: T; c: optional T\n"
    (∀ clause ∈ clauses, clause.WellShaped .standard) ∧
      parsed.1.body.map (Statement.relocate .erase) =
        [.vars [⟨[⟨"a", .unwritten⟩, ⟨"b", .unwritten⟩], ⟨false, ["T"], .unwritten⟩, none⟩,
          clause "c" true] none .unwritten] ∧
      parsed.2 = [] ∧
      (coalesce clauses).map (relocate .erase) ≠
        (coalesce [clause "a" false, clause "b" true, clause "c" true]).map (relocate .erase) := by
  intro clause clauses parsed
  have hshaped (name : String) (optional : Bool) (h : IsIdentifier .standard name) :
      (clause name optional).WellShaped .standard := by
    have htype : IsIdentifier .standard "T" := .of_letters (by decide) (by decide) (by decide)
    exact ⟨by simp [clause], by simpa [clause] using h, ⟨by simpa [clause] using htype, by simp [clause]⟩,
      by simp [clause]⟩
  have hclauses : ∀ clause ∈ clauses, clause.WellShaped .standard := by
    simp only [clauses, List.forall_mem_cons]
    exact ⟨hshaped _ _ (.of_letters (by decide) (by decide) (by decide)),
      hshaped _ _ (.of_letters (by decide) (by decide) (by decide)),
      hshaped _ _ (.of_letters (by decide) (by decide) (by decide)), by simp⟩
  obtain ⟨-, hdetermined, hread⟩ := coalesce_canonical CharData.blanksApart_standard
  obtain ⟨hbody, hreported⟩ := hread clauses hclauses
  have hdiffer := hdetermined clauses [clause "a" false, clause "b" true, clause "c" true]
    (fun c hc => (hclauses c hc).nonempty) (by simp [clause])
  exact ⟨hclauses, hbody, hreported (by simp [clauses]), fun heq => absurd (hdiffer.mp heq) (by decide)⟩

end Clause

end FirSyntax
