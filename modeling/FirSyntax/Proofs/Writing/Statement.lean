import FirSyntax.Proofs.Source.Decoder
import FirSyntax.Proofs.Writing.Line

/-!
# Written programs

The levels of the lines of a text are those of the blocks. So the tokens of the text of a well-shaped
tree derive the merged tree, up to where things stand.
-/
namespace FirSyntax.Statement

open Token Grammar Unicode Source

variable {U : CharData} {j k : Nat} {rest : List Piece} {l : Location} {place : Place} {s : Statement}
  {body : List Statement}

/-- The tokens of a statement at level `k` derive the merged statement, in front of every line that
does not lie further in. -/
def ReadsBack (U : CharData) (place : Place) (k : Nat) (s : Statement) : Prop :=
  ∀ j rest l, Margin j rest → j ≤ k → l.column = 1 → ∃ s' l',
    IsStatement false place (lineTokens U k (pieces (write k s) ++ rest) l) s'
      (lineTokens U k rest l') ∧ l'.column = 1 ∧ s'.relocate .erase = s.merge.relocate .erase

theorem write_procedure (k : Nat) (header : Header) (body : List Statement) :
    write k (.procedure header body) =
      line k header.write header.comment ++ writeAll (k + 1) body := by
  rw [write, lines, String.join_cons, writeAll]

theorem writeAll_cons (k : Nat) (s : Statement) (body : List Statement) :
    writeAll k (s :: body) = write k s ++ writeAll k body := by
  rw [writeAll, linesOfAll, String.join_append]
  rfl

theorem OnLine.write_eq {content : String} {comment : Option String}
    (h : OnLine U place s content comment) (k : Nat) : write k s = line k content comment := by
  rw [write, h.lines_eq, String.join_cons, String.join_nil, String.append_empty]

theorem begins_header (header : Header) : Begins header.write := by
  unfold Header.write
  exact begins_append (begins_append (begins_append (begins_append (begins_append
    (begins_keyword .proc " ")))))

/-- The first line of a statement. -/
theorem WellShaped.write_eq (hU : U.BlanksApart) (h : s.WellShaped U place) (k : Nat) :
    ∃ content comment below, Begins content ∧ write k s = line k content comment ++ below := by
  cases hheader : s.header? with
  | none =>
    obtain ⟨content, comment, honline⟩ := h.onLine hU hheader
    refine ⟨content, comment, "", honline.begins, ?_⟩
    rw [honline.write_eq, String.append_empty]
  | some header =>
    cases s with
    | procedure header body => exact ⟨_, _, _, begins_header header, write_procedure k header body⟩
    | _ => cases hheader

theorem margin_write (hU : U.BlanksApart) (h : s.WellShaped U place) :
    Margin k (pieces (write k s) ++ rest) := by
  obtain ⟨content, comment, below, hbegins, heq⟩ := h.write_eq hU k
  rw [heq, pieces_append, List.append_assoc]
  exact margin_line hbegins

/-- The first line of statements of one level does not lie further in than what follows them. -/
theorem margin_writeAll (hU : U.BlanksApart) (h : ∀ s ∈ body, s.WellShaped U place)
    (hrest : Margin j rest) (hj : j ≤ k) :
    ∃ i, i ≤ k ∧ Margin i (pieces (writeAll k body) ++ rest) := by
  cases body with
  | nil => exact ⟨j, hj, hrest⟩
  | cons s body =>
    refine ⟨k, Nat.le_refl k, ?_⟩
    rw [writeAll_cons, pieces_append, List.append_assoc]
    exact margin_write hU (h s List.mem_cons_self)

theorem body_readsBack (hU : U.BlanksApart) (hne : body ≠ [])
    (hwell : ∀ s ∈ body, s.WellShaped U .block) (h : ∀ s ∈ body, ReadsBack U .block k s)
    (hrest : Margin j rest) (hj : j ≤ k) (hl : l.column = 1) :
    ∃ body' l', IsBody false (lineTokens U k (pieces (writeAll k body) ++ rest) l) body'
      (lineTokens U k rest l') ∧ l'.column = 1 ∧
      body'.map (relocate .erase) = (body.map merge).map (relocate .erase) := by
  induction body generalizing l with
  | nil => exact absurd rfl hne
  | cons s body ih =>
    rw [List.forall_mem_cons] at hwell h
    obtain ⟨i, hi, hmargin⟩ := margin_writeAll hU hwell.2 hrest hj
    obtain ⟨s', l', hs, hl', heq⟩ := h.1 i _ l hmargin hi hl
    rw [writeAll_cons, pieces_append, List.append_assoc]
    by_cases hnil : body = []
    · subst hnil
      exact ⟨[s'], l', .one hs, hl', by simpa using heq⟩
    · obtain ⟨body', l'', hbody, hl'', hrest'⟩ := ih hnil hwell.2 h.2 hl'
      refine ⟨s' :: body', l'', .more hs hbody, hl'', ?_⟩
      rw [List.map_cons, heq, hrest']
      rfl

theorem block_readsBack (hU : U.BlanksApart) (hne : body ≠ [])
    (hwell : ∀ s ∈ body, s.WellShaped U .block) (h : ∀ s ∈ body, ReadsBack U .block (k + 1) s)
    (hrest : Margin j rest) (hj : j ≤ k) (hl : l.column = 1) :
    ∃ body' l', IsBlock false (lineTokens U k (pieces (writeAll (k + 1) body) ++ rest) l) body'
      (lineTokens U k rest l') ∧ l'.column = 1 ∧
      body'.map (relocate .erase) = (body.map merge).map (relocate .erase) := by
  obtain ⟨body', l', hbody, hl', heq⟩ := body_readsBack hU hne hwell h hrest (by omega) hl
  have hmargin : Margin (k + 1) (pieces (writeAll (k + 1) body) ++ rest) := by
    obtain ⟨s, body, rfl⟩ := List.exists_cons_of_ne_nil hne
    rw [writeAll_cons, pieces_append, List.append_assoc]
    exact margin_write hU (hwell s List.mem_cons_self)
  obtain ⟨li, hindent⟩ := lineTokens_indent (U := U) hmargin hl
  obtain ⟨lu, hunindent⟩ := lineTokens_unindent (U := U) hrest hj hl'
  rw [hunindent] at hbody
  rw [hindent]
  exact ⟨body', l', .intro rfl hbody rfl, hl', heq⟩

theorem WellShaped.readsBack (hU : U.BlanksApart) (h : s.WellShaped U place) (k : Nat) :
    ReadsBack U place k s := by
  induction s using inductionOn generalizing place k with
  | line s hline =>
    intro j rest l hrest hj hl
    obtain ⟨content, comment, honline⟩ := h.onLine hU hline
    obtain ⟨ts, ls, l', ⟨s', hs, heq⟩, hl', hend, htokens⟩ :=
      line_tokens (k := k) rest honline.begins honline.remark honline.spells hl
    rw [honline.write_eq, htokens]
    exact ⟨s', l', .line hs hend, hl', heq⟩
  | procedure header body ih =>
    intro j rest l hrest hj hl
    cases h with
    | procedure hheader hbody =>
      have hspells := (Header.write_spells hU hheader).weaken
        fun _ (hbehind : Behind header.comment _) => hbehind.apart hU
      obtain ⟨hs, ls, l', ⟨header', hheading, hcomment, heq⟩, hl', hend, htokens⟩ :=
        line_tokens (k := k) (pieces (writeAll (k + 1) body) ++ rest) (begins_header header)
          hheader.comment hspells hl
      rw [write_procedure, pieces_append, List.append_assoc, htokens]
      rw [← hcomment] at hend
      by_cases hnil : body = []
      · subst hnil
        refine ⟨_, l', .headerAlone rfl hheading hend (head_lineTokens hrest hj hl'), hl', ?_⟩
        rw [merge, relocate, relocate, heq]
        rfl
      · obtain ⟨body', l'', hblock, hl'', hsame⟩ := block_readsBack hU hnil hbody
          (fun s hs => ih s hs (hbody s hs) (k + 1)) hrest hj hl'
        refine ⟨_, l'', .procedure hheading hend hblock, hl'', ?_⟩
        rw [merge, relocate, relocate, heq, relocateAll_eq_map, relocateAll_eq_map, hsame,
          mergeAll_eq_map]

/-- The text of a file reads back as the merged tree. -/
theorem isFile_writeAll (hU : U.BlanksApart) (h : ∀ s ∈ body, s.WellShaped U .file)
    (hl : l.column = 1) :
    ∃ body', IsFile false (lineTokens U 0 (pieces (writeAll 0 body)) l) body' ∧
      body'.map (relocate .erase) = (body.map merge).map (relocate .erase) := by
  induction body generalizing l with
  | nil =>
    refine ⟨[], ?_, rfl⟩
    have hempty : lineTokens U 0 (pieces (writeAll 0 [])) l = [] := by
      rw [lineTokens]
      exact congrArg Stream.tokens (Scanner.stream_of_end ..)
    rw [hempty]
    exact .nil
  | cons s body ih =>
    rw [List.forall_mem_cons] at h
    have hmargin : ∃ i, i ≤ 0 ∧ Margin i (pieces (writeAll 0 body)) := by
      have hending := margin_writeAll hU h.2 Margin.ending (Nat.le_refl 0)
      rwa [List.append_nil] at hending
    obtain ⟨i, hi, hmargin⟩ := hmargin
    obtain ⟨s', l', hs, hl', heq⟩ := h.1.readsBack hU 0 i _ l hmargin hi hl
    obtain ⟨body', hbody, hrest⟩ := ih h.2 hl'
    refine ⟨s' :: body', ?_, ?_⟩
    · rw [writeAll_cons, pieces_append]
      exact .statement hs hbody
    · rw [List.map_cons, heq, hrest]
      rfl

/-- The text of a file does not begin with a byte order mark. -/
theorem head_writeAll (hU : U.BlanksApart) (h : ∀ s ∈ body, s.WellShaped U .file) :
    (writeAll 0 body).toList.head? ≠ some '\uFEFF' := by
  cases body with
  | nil => simp [writeAll, linesOfAll]
  | cons s body =>
    obtain ⟨content, comment, below, hbegins, heq⟩ := (h s List.mem_cons_self).write_eq hU 0
    have hindentation : indentation 0 = "" := rfl
    rw [writeAll_cons, heq, line, hindentation, String.empty_append]
    obtain ⟨c, cs, htext, -, hc⟩ := begins_append (begins_append (begins_append (begins_append hbegins)))
    rw [htext]
    simpa using hc

theorem isFile_ofBytes_writeAll (hU : U.BlanksApart) (h : ∀ s ∈ body, s.WellShaped U .file) :
    ∃ body', IsFile false (Stream.ofBytes U (utf8 (writeAll 0 body))).tokens body' ∧
      body'.map (relocate .erase) = (body.map merge).map (relocate .erase) := by
  rw [Stream.ofBytes, ofBytes_utf8 (head_writeAll hU h)]
  exact isFile_writeAll hU h rfl

end FirSyntax.Statement
