import FirSyntax.Proofs.Reading.BondLine
import FirSyntax.Proofs.Reading.FileSoundness
import FirSyntax.Proofs.Reading.Parallel

/-!
# Files side by side

Recovery, blocks and whole files are read in step as well, up to the end of the first file, where
the second reading goes on with what stands behind it. One thing is told differently there: a header
in the last line of a file lacks its block at the end of the file, and elsewhere at the next line.
So this asks that nothing was reported at the end of the first file.
-/
namespace FirSyntax

open Token Grammar

variable {F : Frame} {r r' s : Reading} {p : Position} {depth : Nat}

/-- Nothing was reported at the end of the first file, unless it is the end of the second too. -/
def Clean (F : Frame) (r : Reading) : Prop :=
  F.behind = [] ∨ ∀ d ∈ r.reports, d.location ≠ F.last

theorem Clean.of_suffix (h : Clean F s) (hsuffix : r.reports <:+ s.reports) : Clean F r :=
  h.imp id fun hs d hd => hs d (hsuffix.subset hd)

namespace Parallel

/-- Between the end of a line and the end of the file something is left when levels are. -/
theorem ahead_of_laidAs (h : r.LaidAs F.cut p) (hp : p ≠ .lineStart) : Ahead F r := by
  rcases F.whole with hbehind | hcut
  · exact .inr hbehind
  · unfold Reading.LaidAs at h
    rw [hcut] at h
    refine .inl ?_
    cases p with
    | lineStart => exact absurd rfl hp
    | opened => exact h.opened_ne_nil
    | inside => exact h.inside_ne_nil

theorem ahead_of_depth (h : r.LaidAs F.cut p) (hdepth : 0 < r.depth) : Ahead F r := by
  refine .inl fun hnil => ?_
  unfold Reading.LaidAs at h
  rw [hnil] at h
  have := h.depth_of_nil
  omega

theorem ahead_of_ne_eof (h : r.current.kind ≠ .eof) : Ahead F r := by
  rw [Ahead, Reading.tokens_eq_cons h]
  exact .inl (List.cons_ne_nil _ _)

/-- Where a report at the current token leaves the end of the first file clean, that token is not
the end. -/
theorem ahead_of_clean (h : Parallel F r r') {c : Cause}
    (hclean : Clean F (r.report r.current.location c)) : Ahead F r := by
  refine hclean.symm.imp (fun hall hnil => ?_) id
  have hcurrent : r.current.location = F.last := by
    rw [Reading.current_of_nil hnil]
    exact h.ending
  obtain ⟨d, hd, hlocation⟩ := r.exists_mem_report r.current.location c
  exact hall d hd (hlocation.trans hcurrent)

/-- Both readings are in front of a level, or neither is. -/
theorem kind_iff (h : Parallel F r r') {k : Kind} (hk : k = .indent ∨ k = .unindent) :
    r'.current.kind = k ↔ r.current.kind = k := by
  by_cases hnil : r.stream.tokens = []
  · have htokens := h.tokens
    rw [hnil, List.map_nil, List.nil_append] at htokens
    rw [Reading.kind_current, Reading.kind_current, hnil, htokens, leading_nil]
    obtain ⟨hindent, hunindent⟩ := F.level
    rcases hk with rfl | rfl <;> simp [hindent, hunindent]
  · rw [h.kind (.inl hnil)]

theorem skipLine {r r' : Reading} {p : Position} (h : Parallel F r r') (hahead : Ahead F r)
    (hlaid : r.LaidAs F.cut p) (hle : depth ≤ r.depth) :
    Parallel F (r.skipLine depth) (r'.skipLine depth) := by
  have hkind := h.kind hahead
  have hnext := h.advance hahead
  by_cases heof : r.current.kind = .eof
  · rwa [Reading.skipLine_eof heof, Reading.skipLine_eof (hkind.trans heof)]
  have hlt := Reading.remaining_advance_lt heof
  by_cases hnewline : r.current.kind = .newline
  · obtain ⟨-, hlaid', hdepth⟩ := hlaid.newline hnewline
    rw [Reading.skipLine_newline hnewline, Reading.skipLine_newline (hkind.trans hnewline)]
    simp only [h.depth, ne_eq, hnext.kind_iff (.inl rfl)]
    split
    · exact hnext
    · next hnot =>
      refine hnext.skipLine ?_ hlaid' (by omega)
      by_cases hindent : r.advance.current.kind = .indent
      · exact ahead_of_ne_eof (by simp [hindent])
      · have hne : r.depth ≠ depth := fun heq => hnot ⟨heq, hindent⟩
        exact ahead_of_depth hlaid' (by omega)
  by_cases hunindent : r.current.kind = .unindent
  · obtain ⟨hlaid', hdepth⟩ := hlaid.unindent hunindent
    rw [Reading.skipLine_unindent hunindent, Reading.skipLine_unindent (hkind.trans hunindent),
      h.depth, hnext.depth]
    split
    · exact h
    · split
      · exact hnext
      · exact hnext.skipLine (ahead_of_depth hlaid' (by omega)) hlaid' (by omega)
  by_cases hmismatch : r.current.kind = .indentMismatch
  · rw [Reading.skipLine_mismatch hmismatch, Reading.skipLine_mismatch (hkind.trans hmismatch),
      h.depth]
    split
    · exact h
    · have hreported := h.reportExpected hahead (.token .unindent)
      have hahead' : Ahead F (r.reportExpected (.token .unindent)) := by
        simpa [Ahead, Reading.reportExpected] using hahead
      have hlaid' : (r.reportExpected (.token .unindent)).LaidAs F.cut p := by
        simpa [Reading.reportExpected]
      have hdepth := Reading.depth_report r r.current.location
        (.expected (.token .unindent) r.current)
      obtain ⟨-, hlaid'', hdepth'⟩ := hlaid'.mismatch (by simpa)
      have hlt' : (r.reportExpected (.token .unindent)).advance.remaining < r.remaining := by
        simpa using Reading.remaining_advance_lt (r := r.reportExpected (.token .unindent))
          (by simpa)
      rw [Reading.reportExpected, hdepth] at hdepth'
      exact (hreported.advance hahead').skipLine (ahead_of_laidAs hlaid'' (by simp)) hlaid''
        (by rw [Reading.reportExpected]; omega)
  · obtain ⟨q, hq, hlaid', hdepth⟩ := hlaid.further heof hnewline hunindent hmismatch
    rw [Reading.skipLine_further heof hnewline hunindent hmismatch,
      Reading.skipLine_further (r := r') (hkind ▸ heof) (hkind ▸ hnewline) (hkind ▸ hunindent)
        (hkind ▸ hmismatch)]
    exact hnext.skipLine (ahead_of_laidAs hlaid' hq) hlaid' (Nat.le_trans hle hdepth)
termination_by r.remaining

theorem skipStray (h : Parallel F r r') (depth : Nat) :
    Parallel F (r.skipStray depth) (r'.skipStray depth) := by
  unfold Reading.skipStray
  simp only [h.depth, h.kind_iff (.inr rfl)]
  split
  · next hstray => exact h.advance (ahead_of_ne_eof (by simp [hstray.2]))
  · exact h

/-- Behind the first token of a line both readings are inside it. -/
theorem inside (h : Parallel F r r') (hlaid : r.LaidAs F.cut p)
    (hk : r.current.kind.isLayout = false) : Alongside F r.advance r'.advance := by
  have hne := Kind.ne_eof_of_content hk
  have hahead : Ahead F r := ahead_of_ne_eof hne
  refine ⟨h.advance hahead, ?_, (hlaid.content hk).1⟩
  rw [Reading.previous_advance hne, Reading.previous_advance (by rwa [h.kind hahead]),
    h.kind hahead]

end Parallel

namespace Statement

theorem skipMismatch_parallel (h : Parallel F r r') (hlaid : r.LaidAs F.cut p)
    (hk : r.current.kind = .indentMismatch) :
    Parallel F (skipMismatch r) (skipMismatch r') := by
  have hahead : Parallel.Ahead F r := Parallel.ahead_of_ne_eof (by simp [hk])
  have hreported := h.reportExpected hahead (.token .unindent)
  have hnext := hreported.advance (by simpa [Parallel.Ahead, Reading.reportExpected] using hahead)
  have hlaid' : (r.reportExpected (.token .unindent)).LaidAs F.cut p := by
    simpa [Reading.reportExpected]
  obtain ⟨-, hopened, -⟩ := hlaid'.mismatch (by simpa)
  unfold skipMismatch
  dsimp only
  rw [hnext.depth]
  exact hnext.skipLine (Parallel.ahead_of_laidAs hopened (by simp)) hopened (Nat.le_refl _)

theorem skipUnknown_parallel (cause : Cause) (hcause : cause.relocate F.place = cause)
    (h : Parallel F r r') (hlaid : r.LaidAs F.cut p) (hle : depth ≤ r.depth)
    (hne : r.current.kind ≠ .eof) (hnewline : r.current.kind ≠ .newline)
    (hunindent : r.current.kind ≠ .unindent) (hmismatch : r.current.kind ≠ .indentMismatch) :
    Parallel F (skipUnknown cause depth r) (skipUnknown cause depth r') := by
  have hahead : Parallel.Ahead F r := Parallel.ahead_of_ne_eof hne
  have hreported := h.report h.known_current cause
  have hnext := hreported.advance (by simpa [Parallel.Ahead] using hahead)
  have hlaid' : (r.report r.current.location cause).LaidAs F.cut p := by simpa
  obtain ⟨q, hq, hfurther, hdepth⟩ := hlaid'.further (by simpa) (by simpa) (by simpa) (by simpa)
  rw [Reading.depth_report] at hdepth
  rw [hcause] at hnext
  unfold skipUnknown
  rw [h.current hahead]
  exact hnext.skipLine (Parallel.ahead_of_laidAs hfurther hq) hfurther (Nat.le_trans hle hdepth)

theorem exists_result {α β : Type} {n m : Nat} {g : α → β} {s : Outcome α n} {s' : Outcome β m}
    (h : s.Lands F.bond g s') {value : Option α} {after : Reading} (hs : s.result = (value, after)) :
    ∃ after', s'.result = (value.map g, after') ∧ Parallel F after after' ∧
      (value = none → Alongside F after after') := by
  obtain ⟨after', hs', hlanded, hfailed⟩ := h.exists_result hs
  refine ⟨after', hs', ?_, hfailed⟩
  cases value with
  | none => exact (hfailed rfl).toParallel
  | some a => exact hlanded a rfl

/-- A line that is not read to its end leaves the depth as it was. -/
theorem depth_of_failure {lead : Lead} {place : Place} {first : Token} {cut : Bool} {after : Reading}
    (hfirst : lead.Opens place first) (h : r.LaidAs cut .inside)
    (hread : (read lead first r).result = (none, after)) : after.depth = r.depth := by
  have hleft := read_left hfirst r h
  rw [(Prod.mk.inj hread).1, (Prod.mk.inj hread).2] at hleft
  cases hleft with
  | refused hpass hne => exact hpass.depth

/-- Where a line is given up in one reading it is given up and passed over in the other. -/
theorem failure_parallel {lead : Lead} {place : Place} {after : Reading}
    (hopens : lead.Opens place r.current) (h : Parallel F r r') (hlaid : r.LaidAs F.cut p)
    (hle : depth ≤ r.depth)
    (hlands : (read lead r.current r.advance).Lands F.bond (relocate F.place)
      (read lead r'.current r'.advance))
    (hread : (read lead r.current r.advance).result = (none, after)) :
    ∃ after', (read lead r'.current r'.advance).result = (none, after') ∧
      Parallel F (after.skipLine depth) (after'.skipLine depth) := by
  obtain ⟨after', hread', -, hfailed⟩ := exists_result hlands hread
  have hafter : Alongside F after after' := hfailed rfl
  have hdepth := depth_of_failure hopens (h.inside hlaid hopens.isLayout).inside hread
  have hsame := (hlaid.content hopens.isLayout).2
  exact ⟨after', hread', hafter.toParallel.skipLine hafter.ahead hafter.inside (by omega)⟩

/-- Where a block ends in one reading it ends in the other. -/
theorem BlockEnd.parallel (hend : BlockEnd depth r s) (h : Parallel F r r')
    (hlaid : r.LaidAs F.cut p) (hdepth : 0 < r.depth) :
    ∃ s', BlockEnd depth r' s' ∧ Parallel F s s' := by
  have hahead := Parallel.ahead_of_depth hlaid hdepth
  have hkind := h.kind hahead
  cases hend with
  | eof heof => exact ⟨r', .eof (hkind.trans heof), h⟩
  | unindent hunindent => exact ⟨_, .unindent (hkind.trans hunindent), h.advance hahead⟩
  | mismatch hmismatch hbelow =>
    have hskip := skipMismatch_parallel h hlaid hmismatch
    exact ⟨_, .mismatch (hkind.trans hmismatch) (hskip.depth ▸ hbelow), hskip⟩

/-- A turn in a block of one reading is a turn of the other, given as much for the statement that it
reads. -/
theorem BlockTurn.parallel_of_lands {added : Option Statement} (hturn : BlockTurn depth r added s)
    (h : Parallel F r r') (hlaid : r.LaidAs F.cut p) (hlevel : r.AtLevel depth) (hclean : Clean F s)
    (hlands : ∀ lead : Lead, lead.Opens .block r.current → Alongside F r.advance r'.advance →
      Clean F (read lead r.current r.advance).after →
      (read lead r.current r.advance).Lands F.bond (relocate F.place)
        (read lead r'.current r'.advance)) :
    ∃ s', BlockTurn depth r' (added.map (relocate F.place)) s' ∧ Parallel F s s' := by
  have hahead := Parallel.ahead_of_ne_eof (F := F) hturn.ne_eof
  have hkind := h.kind hahead
  have hnext := h.advance hahead
  cases hturn with
  | newline hnewline => exact ⟨_, .newline (hkind.trans hnewline), hnext⟩
  | mismatch hmismatch hnot =>
    have hskip := skipMismatch_parallel h hlaid hmismatch
    exact ⟨_, .mismatch (hkind.trans hmismatch) (hskip.depth ▸ hnot), hskip⟩
  | @statement lead statement after hlead hread =>
    have hopens := Lead.opens_of_inBlock hlead
    have hstep := hlands lead hopens (h.inside hlaid hopens.isLayout) ((Prod.mk.inj hread).2 ▸ hclean)
    obtain ⟨s', hread', hs', -⟩ := exists_result hstep hread
    exact ⟨s', .statement (hkind ▸ hlead) hread', hs'⟩
  | @failure lead after hlead hread =>
    have hopens := Lead.opens_of_inBlock hlead
    have hbefore := hclean.of_suffix (Reading.comesTo_skipLine depth after).reports_suffix
    have hstep := hlands lead hopens (h.inside hlaid hopens.isLayout)
      ((Prod.mk.inj hread).2 ▸ hbefore)
    obtain ⟨s', hread', hskip⟩ := failure_parallel hopens h hlaid hlevel.le hstep hread
    exact ⟨_, .failure (hkind ▸ hlead) hread', hskip⟩
  | unknown hlead hne hnewline hmismatch hunindent =>
    refine ⟨_, .unknown (hkind ▸ hlead) (hkind ▸ hne) (hkind ▸ hnewline) (hkind ▸ hmismatch)
      (hkind ▸ hunindent), ?_⟩
    exact skipUnknown_parallel .noStatement rfl h hlaid hlevel.le hne hnewline hunindent hmismatch

mutual

theorem read_parallel {lead : Lead} {place : Place} {first : Token} (hfirst : lead.Opens place first)
    (r r' : Reading) (h : Alongside F r r') (hclean : Clean F (read lead first r).after) :
    (read lead first r).Lands F.bond (relocate F.place) (read lead (first.relocate F.place) r') := by
  by_cases hlead : lead = .procedure
  · subst hlead
    refine read_procedure_lands (B := F.bond) first r r' h
      fun header after after' hr _ (hafter : Parallel F after after') => ?_
    have hbounded : after.remaining ≤ r.remaining := Step.remaining_of_result hr
    have hlaid : after.LaidAs F.cut .lineStart := by
      cases (Header.read_finishes hfirst r).of_result hr with
      | read hreads _ hends => exact ((h.inside.passes hreads.toPasses).ends hends).1
    have hresult := read_procedure first r
    rw [hr] at hresult
    simp only at hresult
    refine ⟨hafter.kind_iff (.inl rfl), fun hindent => ?_, fun hindent => ?_⟩
    · have hlt := Reading.remaining_advance_lt (r := after) (by simp [hindent])
      obtain ⟨-, hopened, hdeeper⟩ := hlaid.indent hindent
      rw [if_pos hindent] at hresult
      rw [(Prod.mk.inj hresult).2] at hclean
      have hnext := hafter.advance (Parallel.ahead_of_ne_eof (by simp [hindent]))
      rw [hnext.depth]
      exact readBlock_parallel after.advance after'.advance hnext hopened
        (by simp) (.inl rfl) (hdeeper ▸ Nat.succ_pos _) hclean
    · rw [if_neg hindent] at hresult
      rw [(Prod.mk.inj hresult).2] at hclean
      exact hafter.reportExpected (hafter.ahead_of_clean hclean) _
  · exact read_lands (B := F.bond) hlead first r r' h
termination_by r.remaining
decreasing_by omega

/-- A block is the same in both readings. -/
theorem readBlock_parallel {p : Position} {depth : Nat} (r r' : Reading) (h : Parallel F r r')
    (hlaid : r.LaidAs F.cut p) (hp : p ≠ .inside) (hlevel : r.AtLevel depth) (hdepth : 0 < depth)
    (hclean : Clean F (readBlock depth r).after) :
    (readBlock depth r').value = (readBlock depth r).value.map (relocate F.place) ∧
      Parallel F (readBlock depth r).after (readBlock depth r').after := by
  rcases exists_blockTurn depth r with ⟨s, hstop⟩ | ⟨added, s, hturn⟩
  · obtain ⟨s', hstop', hs⟩ := hstop.parallel h hlaid (Nat.lt_of_lt_of_le hdepth hlevel.le)
    obtain ⟨hvalue, hafter⟩ := Prod.mk.inj hstop.result
    obtain ⟨hvalue', hafter'⟩ := Prod.mk.inj hstop'.result
    rw [hvalue, hvalue', hafter, hafter']
    exact ⟨rfl, hs⟩
  · have hlt := hturn.remaining_lt
    have hsmall := Reading.remaining_advance_lt hturn.ne_eof
    obtain ⟨hlaid', hlevel', -, -⟩ := hturn.sound hlaid hp hlevel
    obtain ⟨hvalue, hafter⟩ := Prod.mk.inj hturn.result
    rw [hafter] at hclean
    have hsuffix := (readBlock_closed s hlaid' (by simp) hlevel' hdepth).reports
    obtain ⟨s', hturn', hs⟩ := hturn.parallel_of_lands h hlaid hlevel (hclean.of_suffix hsuffix)
      fun lead hopens hinside hclean' => by
        rw [h.current (Parallel.ahead_of_ne_eof hturn.ne_eof)]
        exact read_parallel hopens r.advance r'.advance hinside hclean'
    obtain ⟨hvalue', hafter'⟩ := Prod.mk.inj hturn'.result
    obtain ⟨hrest, hblock⟩ := readBlock_parallel s s' hs hlaid' (by simp) hlevel' hdepth hclean
    rw [hvalue, hvalue', hafter, hafter', hrest, List.map_append]
    refine ⟨?_, hblock⟩
    cases added <;> rfl
termination_by r.remaining
decreasing_by all_goals omega

end

theorem Lead.atTop_parallel (h : Parallel F r r') (hlaid : r.LaidAs F.cut p)
    (hne : r.current.kind ≠ .eof) : atTop? r' = atTop? r := by
  have hcurrent := h.current (Parallel.ahead_of_ne_eof hne)
  refine atTop_congr (B := F.bond) hne (by rw [hcurrent, Token.kind_relocate])
    (by rw [hcurrent, Token.text_relocate]) fun hidentifier => ?_
  exact h.inside hlaid (by rw [hidentifier]; rfl)

/-- A turn at the top level of one file is a turn at the top level of the other. -/
theorem FileTurn.parallel {added : Option Statement} (hturn : FileTurn r added s)
    (h : Parallel F r r') (hlaid : r.LaidAs F.cut .lineStart) (hlevel : r.AtLevel 0)
    (hclean : Clean F s) :
    ∃ s', FileTurn r' (added.map (relocate F.place)) s' ∧ Parallel F s s' := by
  have hahead := Parallel.ahead_of_ne_eof (F := F) hturn.ne_eof
  have hcurrent := h.current hahead
  have hkind := h.kind hahead
  have htop := Lead.atTop_parallel h hlaid hturn.ne_eof
  cases hturn with
  | newline hnewline => exact absurd (hlaid.newline hnewline).1 (by simp)
  | mismatch hmismatch =>
    exact ⟨_, .mismatch (hkind.trans hmismatch), skipMismatch_parallel h hlaid hmismatch⟩
  | unindent hunindent =>
    have := (hlaid.unindent hunindent).2
    have := hlevel.of_depth (by simp [hunindent])
    omega
  | @statement lead statement after hlead hread =>
    have hopens := Lead.opens_of_atTop hlead
    have hbefore := hclean.of_suffix (Reading.comesTo_skipStray r.depth after).reports_suffix
    have hstep := read_parallel hopens r.advance r'.advance (h.inside hlaid hopens.isLayout)
      ((Prod.mk.inj hread).2 ▸ hbefore)
    obtain ⟨s', hread', hs', -⟩ := exists_result hstep hread
    rw [← hcurrent] at hread'
    exact ⟨_, .statement (htop.trans hlead) hread', h.depth ▸ hs'.skipStray r.depth⟩
  | @failure lead after hlead hread =>
    have hopens := Lead.opens_of_atTop hlead
    have hbefore := hclean.of_suffix ((Reading.comesTo_skipLine r.depth after).trans
      (Reading.comesTo_skipStray r.depth _)).reports_suffix
    have hstep := read_parallel hopens r.advance r'.advance (h.inside hlaid hopens.isLayout)
      ((Prod.mk.inj hread).2 ▸ hbefore)
    rw [← hcurrent] at hstep
    obtain ⟨s', hread', hskip⟩ := failure_parallel hopens h hlaid (Nat.le_refl _) hstep hread
    exact ⟨_, .failure (htop.trans hlead) hread', h.depth ▸ hskip.skipStray r.depth⟩
  | unknown hlead hne hnewline hmismatch hunindent =>
    have hskip := skipUnknown_parallel .notAtTopLevel rfl h hlaid (Nat.le_refl _) hne
      hnewline hunindent hmismatch
    exact ⟨_, .unknown (htop.trans hlead) (hkind ▸ hne) (hkind ▸ hnewline) (hkind ▸ hmismatch)
      (hkind ▸ hunindent), h.depth ▸ hskip.skipStray r.depth⟩

/-- The second reading takes the whole of the first file as the first one does, and goes on. -/
theorem readAllFrom_parallel (done : List Statement) (r r' : Reading) (h : Parallel F r r')
    (hlaid : r.LaidAs F.cut .lineStart) (hlevel : r.AtLevel 0)
    (hclean : Clean F (readAllFrom done r).2) :
    ∃ body s', (readAllFrom done r).1 = done.reverse ++ body ∧
      Parallel F (readAllFrom done r).2 s' ∧
      (readAllFrom done r).2.LaidAs F.cut .lineStart ∧ (readAllFrom done r).2.current.kind = .eof ∧
      ∀ done', readAllFrom done' r' =
        readAllFrom ((body.map (relocate F.place)).reverse ++ done') s' := by
  by_cases heof : r.current.kind = .eof
  · rw [readAllFrom_eof done heof]
    exact ⟨[], r', by simp, h, hlaid, heof, fun _ => rfl⟩
  · obtain ⟨added, s, hturn⟩ := exists_fileTurn heof
    have hlt := hturn.remaining_lt
    obtain ⟨hlaid', hlevel', -, -⟩ := hturn.sound hlaid hlevel
    rw [hturn.readAllFrom_eq] at hclean ⊢
    have hsuffix := (readAllFrom_derived (added.toList ++ done) s hlaid' hlevel').1
    obtain ⟨s', hturn', hs⟩ := hturn.parallel h hlaid hlevel (hclean.of_suffix hsuffix)
    obtain ⟨body, t', hbody, ht, hrest, hend, hagain⟩ :=
      readAllFrom_parallel (added.toList ++ done) s s' hs hlaid' hlevel' hclean
    refine ⟨added.toList ++ body, t', ?_, ht, hrest, hend, fun done' => ?_⟩
    · rw [hbody]
      cases added <;> simp
    · rw [hturn'.readAllFrom_eq, hagain]
      cases added <;> simp
termination_by r.remaining

end Statement

end FirSyntax
