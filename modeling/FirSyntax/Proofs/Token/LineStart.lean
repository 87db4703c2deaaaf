import FirSyntax.Proofs.Source.Places
import FirSyntax.Proofs.Token.Balance

/-!
# The start of a line

The width of a line and the levels that are open tell which tokens of layout stand in front of its
content. The scanner gives one of them at a time and compares the line again behind each level that
it closes; since every level is wider than the one around it, it stops where the rule says.
-/
namespace FirSyntax.Token

open Source Unicode

variable {U : CharData} {s s' s'' : Scanner} {levels : List Nat} {w : Nat} {c : Cursor}

/-! ## The rule -/

/-- The tokens of layout that a line of width `w` calls for, and the levels behind them. -/
def Layout.rule (levels : List Nat) (w : Nat) : List Kind × List Nat :=
  if levels.headD 0 < w then ([.indent], w :: levels)
  else if w = levels.headD 0 then ([], levels)
  else if w = 0 ∨ w ∈ levels then
    (List.replicate (levels.countP (w < ·)) .unindent, levels.filter (· ≤ w))
  else ([.indentMismatch], levels.tail)

namespace Nested

/-- The innermost level is the widest. -/
theorem le_headD (h : Nested levels) : ∀ v ∈ levels, v ≤ levels.headD 0 := by
  cases levels with
  | nil => exact List.forall_mem_nil _
  | cons top outer =>
    exact List.forall_mem_cons.mpr ⟨Nat.le_refl _, fun v hv =>
      Nat.le_of_lt (List.rel_of_pairwise_cons h.1 hv)⟩

theorem tail {top : Nat} {outer : List Nat} (h : Nested (top :: outer)) : Nested outer :=
  ⟨h.1.of_cons, fun v hv => h.2 v (List.mem_cons_of_mem _ hv)⟩

theorem filter (h : Nested levels) (p : Nat → Bool) : Nested (levels.filter p) :=
  ⟨h.1.filter p, fun v hv => h.2 v (List.mem_filter.mp hv).1⟩

/-- A width that an open level has is that of the innermost level once all wider ones are closed. -/
theorem headD_filter (h : Nested levels) (hw : w = 0 ∨ w ∈ levels) :
    (levels.filter (· ≤ w)).headD 0 = w := by
  have hle : ∀ v ∈ levels.filter (· ≤ w), v ≤ w := fun v hv => by
    simpa using (List.mem_filter.mp hv).2
  have hge : w = 0 ∨ w ∈ levels.filter (· ≤ w) :=
    hw.imp_right fun hmem => List.mem_filter.mpr ⟨hmem, by simp⟩
  have hwidest := (h.filter (· ≤ w)).le_headD
  generalize levels.filter (· ≤ w) = kept at hle hge hwidest ⊢
  apply Nat.le_antisymm
  · cases kept with
    | nil => exact Nat.zero_le w
    | cons top outer => exact hle top List.mem_cons_self
  · rcases hge with rfl | hmem
    · exact Nat.zero_le _
    · exact hwidest w hmem

end Nested

/-! ## Scans in a row -/

namespace Scanner

theorem after_add (s : Scanner) (m n : Nat) : s.after U (m + n) = (s.after U m).after U n := by
  rw [Nat.add_comm]
  exact Function.iterate_add_apply _ n m s

/-- The tokens `ts` are scanned from `s` on, and `s'` is the scanner behind them. -/
def Gives (U : CharData) (s : Scanner) (ts : List Token) (s' : Scanner) : Prop :=
  s.after U ts.length = s' ∧ (s.stream U).tokens = ts ++ (s'.stream U).tokens

namespace Gives

theorem nil (s : Scanner) : s.Gives U [] s := ⟨rfl, rfl⟩

theorem cons {t : Token} {ts : List Token} (hscan : s.scan U = (t, s')) (ht : t.kind ≠ .eof)
    (h : s'.Gives U ts s'') : s.Gives U (t :: ts) s'' := by
  obtain ⟨hafter, htokens⟩ := h
  constructor
  · rw [List.length_cons, after_succ', hscan]
    exact hafter
  · rw [stream_of_token hscan ht, htokens, List.cons_append]

end Gives

/-- White space in front of a line changes neither its tokens nor the levels behind them. -/
theorem Gives.of_front {ts : List Token} (h : Gives U ⟨s.front, s.layout⟩ ts s') :
    (s.stream U).tokens = ts ++ (s'.stream U).tokens ∧
      (s.after U ts.length).layout = s'.layout := by
  obtain ⟨rfl, htokens⟩ := h
  rw [stream_congr (scan_front s), htokens]
  refine ⟨rfl, ?_⟩
  cases ts with
  | nil => rfl
  | cons t ts => rw [List.length_cons, after_succ', after_succ', scan_front s]

/-! ## Closing levels -/

variable (hrest : c.rest ≠ []) (hblank : atBlank c.rest = false)
include hrest hblank

/-- In front of the content of a line the next token is the one of layout that the line calls for. -/
theorem scan_at_content {k : Kind} {m : Layout}
    (hshift : (Layout.mk levels true).shift? (c.location.column - 1) = some (k, m)) :
    scan U ⟨c, ⟨levels, true⟩⟩ = (bare k c.location, ⟨c, m⟩) := by
  have hskip : c.skip atBlank = c := skip_of_false hblank
  have hscan := scan_shift (U := U) (s := ⟨c, ⟨levels, true⟩⟩) (k := k) (m := m) rfl
  rw [hskip] at hscan
  exact hscan hrest hshift

/-- A line that an open level has, or that has no white space in front, closes all wider levels. -/
theorem gives_closing (hlevels : Nested levels)
    (hw : c.location.column - 1 = 0 ∨ c.location.column - 1 ∈ levels) :
    Gives U ⟨c, ⟨levels, true⟩⟩
      (List.replicate (levels.countP (c.location.column - 1 < ·)) (bare .unindent c.location))
      ⟨c, ⟨levels.filter (· ≤ c.location.column - 1), true⟩⟩ := by
  have hscan {levels : List Nat} {k : Kind} {m : Layout} :=
    @scan_at_content U levels c hrest hblank k m
  generalize c.location.column - 1 = w at hw hscan ⊢
  induction levels with
  | nil => exact .nil _
  | cons top outer ih =>
    by_cases hwide : w < top
    · have houter : w = 0 ∨ w ∈ outer :=
        hw.imp_right fun hmem => (List.mem_cons.mp hmem).resolve_left (Nat.ne_of_lt hwide)
      rw [List.countP_cons_of_pos (by simpa using hwide), List.filter_cons_of_neg (by simpa using hwide),
        List.replicate_succ]
      exact .cons (hscan (Layout.shift_back hwide houter)) (by simp [bare]) (ih hlevels.tail houter)
    · have hall : ∀ v ∈ top :: outer, v ≤ w := fun v hv =>
        Nat.le_trans (hlevels.le_headD v hv) (Nat.le_of_not_lt hwide)
      have hnone : (top :: outer).countP (w < ·) = 0 := by
        rw [List.countP_eq_zero]
        exact fun v hv => by simpa using hall v hv
      have hkept : (top :: outer).filter (· ≤ w) = top :: outer := by
        rw [List.filter_eq_self]
        exact fun v hv => by simpa using hall v hv
      rw [hnone, hkept]
      exact .nil _

/-- The tokens of layout in front of the content of a line are those of the rule, and behind them
the line has its level. -/
theorem gives_rule (hlevels : Nested levels) :
    ∃ start, Gives U ⟨c, ⟨levels, true⟩⟩
        ((Layout.rule levels (c.location.column - 1)).1.map fun k => bare k c.location)
        ⟨c, ⟨(Layout.rule levels (c.location.column - 1)).2, start⟩⟩ ∧
      (start = true → (Layout.mk (Layout.rule levels (c.location.column - 1)).2 start).shift?
        (c.location.column - 1) = none) := by
  have hscan {k : Kind} {m : Layout} := @scan_at_content U levels c hrest hblank k m
  have hclosing := gives_closing (U := U) hrest hblank hlevels
  generalize c.location.column - 1 = w at hscan hclosing ⊢
  rw [Layout.rule]
  split
  · next hdeeper =>
    have hgives := Gives.cons (hscan (Layout.shift_deeper hdeeper)) (by simp [bare]) (.nil _)
    exact ⟨false, hgives, nofun⟩
  · next hle =>
    split
    · next hlevel => exact ⟨true, .nil _, fun _ => Layout.shift_level hlevel⟩
    · next hne =>
      have hnarrow : w < levels.headD 0 := Nat.lt_of_le_of_ne (Nat.le_of_not_lt hle) hne
      split
      · next hopen =>
        rw [List.map_replicate]
        exact ⟨true, hclosing hopen, fun _ => Layout.shift_level (hlevels.headD_filter hopen).symm⟩
      · next hbetween =>
        rw [not_or] at hbetween
        have htail : w ≠ 0 ∧ w ∉ levels.tail :=
          ⟨hbetween.1, fun hmem => hbetween.2 (List.mem_of_mem_tail hmem)⟩
        have hgives := Gives.cons (hscan (Layout.shift_between hnarrow htail)) (by simp [bare]) (.nil _)
        exact ⟨false, hgives, nofun⟩

/-- Once the line has its level, the token that its content begins with is next. -/
theorem exists_content {start : Bool}
    (hlevel : start = true → (Layout.mk levels start).shift? (c.location.column - 1) = none) :
    ∃ t behind, (stream U ⟨c, ⟨levels, start⟩⟩).tokens = t :: behind ∧ t.kind.isLayout = false ∧
      t.location = c.location := by
  obtain ⟨first, rest, hcons⟩ := List.exists_cons_of_ne_nil hrest
  have hfront : front ⟨c, ⟨levels, start⟩⟩ = c := by
    cases start with
    | true => exact skip_of_false hblank
    | false => exact skip_of_false (Bool.and_eq_false_iff.mpr (.inl hblank))
  have hscan : scan U ⟨c, ⟨levels, start⟩⟩ =
      ((lexeme U first c).1, ⟨(lexeme U first c).2, ⟨levels, false⟩⟩) := by
    have hlexeme := @Scans.lexeme U ⟨c, ⟨levels, start⟩⟩ first rest
    rw [hfront] at hlexeme
    exact (hlexeme hcons hblank hlevel).scan_eq
  have hcontent := isLayout_lexeme U first c
  rw [stream_of_token hscan (Kind.ne_eof_of_content hcontent)]
  exact ⟨_, _, rfl, hcontent, location_lexeme U first c⟩

omit hrest hblank

/-- At the start of a line the next tokens are those of the rule and the first of the content, all of
them at the place of the content. -/
theorem tokens_of_lineStart {input : List Piece} {k : Nat} (hstart : s.layout.atLineStart = true)
    (hlevels : Nested s.layout.levels) (hfront : s.front = .atPiece input k) (hk : k < input.length) :
    let rule := Layout.rule s.layout.levels (lineBefore input k).length
    ∃ first behind, (s.stream U).tokens =
        (rule.1.map fun kind => bare kind (place input k)) ++ first :: behind ∧
      first.kind.isLayout = false ∧ first.location = place input k ∧
      (s.after U rule.1.length).layout.levels = rule.2 := by
  intro rule
  have hne : s.front.rest ≠ [] := by
    rw [hfront]
    intro hnil
    have hle : input.length ≤ k := List.drop_eq_nil_iff.mp hnil
    omega
  have hblank : atBlank s.front.rest = false := by
    rw [front_of_start hstart] at hne ⊢
    exact (skip_stops atBlank s.cursor).resolve_left hne
  have hplace : s.front.location = place input k := congrArg Cursor.location hfront
  have hwidth : s.front.location.column - 1 = (lineBefore input k).length := by
    rw [hplace]
    exact Nat.add_sub_cancel_left ..
  obtain ⟨start, hgives, hlevel⟩ := gives_rule (U := U) hne hblank hlevels
  obtain ⟨first, behind, htokens, hcontent, hlocation⟩ := exists_content (U := U) hne hblank hlevel
  rw [← hstart] at hgives
  obtain ⟨hstream, hafter⟩ := hgives.of_front
  rw [htokens, hwidth, hplace] at hstream
  rw [List.length_map, hwidth] at hafter
  exact ⟨first, behind, hstream, hcontent, hlocation.trans hplace, congrArg Layout.levels hafter⟩

end Scanner

end FirSyntax.Token
