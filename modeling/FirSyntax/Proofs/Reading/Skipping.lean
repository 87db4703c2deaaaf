import FirSyntax.Proofs.Diagnostics
import FirSyntax.Proofs.Token.Mismatch

/-!
# Where a broken line is over

A line that is passed over is over in front of what closes its level, behind its own end, or behind the
end of the blocks beneath it. A pass over a token keeps to the levels of the line and beneath, and
stops at the first place where the line is over.
-/
namespace FirSyntax

open Token

namespace Reading

/-- The depth after tokens. -/
def depthAlong (depth : Nat) (ts : List Token) : Nat :=
  ts.foldl (fun d t => depthAfter d t.kind) depth

/-- A line that began with `depth` levels open is over where `levels` are open, the token passed last
is of the kind `last` (of none where the line is first looked at), and one of a certain kind is ahead. -/
inductive LineOver (depth : Nat) (last : Option Kind) (levels : Nat) : Kind → Prop where
  | eof : LineOver depth last levels .eof
  | outside : levels = depth → LineOver depth last levels .unindent
  | newline {next} : last = some .newline → levels = depth → next ≠ .indent →
      LineOver depth last levels next
  | unindent {next} : last = some .unindent → levels = depth → LineOver depth last levels next
  | mismatch : levels = depth ∨ levels = depth + 1 → LineOver depth last levels .indentMismatch

/-- Whether a line is over behind some tokens and in front of one of a kind. -/
def LineOverAt (depth levels : Nat) (front : List Token) (next : Kind) : Prop :=
  LineOver depth (front.getLast?.map (·.kind)) (depthAlong levels front) next

/-- The diagnostic that a mismatch is found in place of an un-indentation. -/
def mismatchFound (t : Token) : Diagnostic := ⟨.expected (.token .unindent) t, t.location⟩

/-- The diagnostics for the mismatches among tokens, but where something was reported before. -/
def missed (reports : List Diagnostic) (ts : List Token) : List Diagnostic :=
  (ts.filter fun t => t.kind = .indentMismatch ∧ ∀ d ∈ reports, d.location ≠ t.location).map
    mismatchFound

/-- The tokens that are passed over from `r` to `s`, and what is reported of them. -/
structure Skips (depth : Nat) (r : Reading) (passed : List Token) (s : Reading) : Prop where
  tokens : r.stream.tokens = passed ++ s.stream.tokens
  ending : s.stream.ending = r.stream.ending
  depth_eq : s.depth = depthAlong r.depth passed
  stops : LineOverAt depth r.depth passed s.current.kind
  goesOn : ∀ front t back, passed = front ++ t :: back → ¬ LineOverAt depth r.depth front t.kind
  deep : ∀ front, front <+: passed → depth ≤ depthAlong r.depth front
  reports : s.reports = (missed r.reports passed).reverse ++ r.reports

variable {depth levels : Nat} {next : Kind} {r s t : Reading} {u : Token} {ts passed : List Token}
  {whole : Stream} {ds : List Diagnostic}

@[simp] theorem depthAlong_cons (d : Nat) (u : Token) (ts : List Token) :
    depthAlong d (u :: ts) = depthAlong (depthAfter d u.kind) ts := rfl

theorem depthAlong_concat (d : Nat) (ts : List Token) (u : Token) :
    depthAlong d (ts ++ [u]) = depthAfter (depthAlong d ts) u.kind := by
  rw [depthAlong, List.foldl_append]
  rfl

/-! ## One token -/

theorem LineOver.of_none (h : LineOver depth none levels next) (last : Option Kind) :
    LineOver depth last levels next := by
  cases h with
  | eof => exact .eof
  | outside h => exact .outside h
  | newline h | unindent h => cases h
  | mismatch h => exact .mismatch h

/-- Behind a token and others, a line is over where it is over behind the others. -/
theorem lineOverAt_cons (hne : ts ≠ []) : LineOverAt depth levels (u :: ts) next ↔
    LineOverAt depth (depthAfter levels u.kind) ts next := by
  cases ts with
  | nil => exact absurd rfl hne
  | cons t ts => rw [LineOverAt, LineOverAt, List.getLast?_cons_cons, depthAlong_cons]

theorem LineOverAt.cons (h : LineOverAt depth (depthAfter levels u.kind) ts next) :
    LineOverAt depth levels (u :: ts) next := by
  by_cases hts : ts = []
  · subst hts
    exact LineOver.of_none h _
  · exact (lineOverAt_cons hts).mpr h

theorem SkipTurn.ne_eof (h : SkipTurn depth r t) : r.current.kind ≠ .eof := by
  cases h with
  | newline hk | unindent hk | mismatch hk => simp [hk]
  | further hne => exact hne

theorem advance_passes (h : r.current.kind ≠ .eof) :
    r.stream.tokens = r.current :: r.advance.stream.tokens ∧
      r.advance.stream.ending = r.stream.ending ∧
      r.advance.depth = depthAfter r.depth r.current.kind := by
  rw [advance_eq h]
  exact ⟨tokens_eq_cons h, rfl, rfl⟩

/-- The token in front is passed. -/
theorem SkipTurn.passes (h : SkipTurn depth r t) :
    r.stream.tokens = r.current :: t.stream.tokens ∧ t.stream.ending = r.stream.ending ∧
      t.depth = depthAfter r.depth r.current.kind := by
  cases h with
  | newline hk | unindent hk => exact advance_passes (by simp [hk])
  | further hne => exact advance_passes hne
  | mismatch hk =>
    have hpasses := advance_passes (r := r.reportExpected (.token .unindent)) (by simp [hk])
    simpa only [reportExpected, stream_report, current_report, depth_report] using hpasses

/-- A token that is passed leaves no level of the line. -/
theorem SkipTurn.deep (h : SkipTurn depth r t) (hr : depth ≤ r.depth) : depth ≤ t.depth := by
  rw [h.passes.2.2]
  cases h with
  | newline hk =>
    rw [hk]
    exact hr
  | unindent hk hlt | mismatch hk hlt =>
    rw [hk, depthAfter]
    omega
  | further _ _ hunindent hmismatch =>
    unfold depthAfter
    split <;> first | omega | contradiction

/-- A token is passed because the line is not over in front of it. -/
theorem SkipTurn.not_over (h : SkipTurn depth r t) :
    ¬ LineOver depth none r.depth r.current.kind := by
  intro hover
  generalize hk : r.current.kind = k at hover
  cases hover with
  | newline h | unindent h => cases h
  | eof => exact h.ne_eof hk
  | outside hdepth =>
    cases h with
    | unindent _ hlt => omega
    | newline hk' | mismatch hk' => cases hk.symm.trans hk'
    | further _ _ hunindent => exact hunindent hk
  | mismatch hdepth =>
    cases h with
    | mismatch _ hlt => omega
    | newline hk' | unindent hk' => cases hk.symm.trans hk'
    | further _ _ _ hmismatch => exact hmismatch hk

/-- Behind a token that is passed, the line is over only because of the token ahead. -/
theorem SkipTurn.over_of_next (h : SkipTurn depth r t)
    (hover : LineOver depth (some r.current.kind) t.depth t.current.kind) :
    LineOver depth none t.depth t.current.kind := by
  generalize hk : t.current.kind = k at hover ⊢
  cases hover with
  | eof => exact .eof
  | outside hdepth => exact .outside hdepth
  | mismatch hdepth => exact .mismatch hdepth
  | newline hlast hdepth hnext =>
    have hlast := Option.some.inj hlast
    rw [h.passes.2.2, hlast] at hdepth
    cases h with
    | newline _ hindent => exact absurd (hk.symm.trans (hindent hdepth)) hnext
    | unindent hk' | mismatch hk' => cases hlast.symm.trans hk'
    | further _ hnewline => exact absurd hlast hnewline
  | unindent hlast hdepth =>
    have hlast := Option.some.inj hlast
    cases h with
    | unindent _ _ hne => exact absurd hdepth hne
    | newline hk' | mismatch hk' => cases hlast.symm.trans hk'
    | further _ _ hunindent => exact absurd hlast hunindent

/-! ## Diagnostics -/

@[simp] theorem missed_nil (ds : List Diagnostic) : missed ds [] = [] := rfl

theorem missed_cons_of_pos (hk : u.kind = .indentMismatch) (h : ∀ d ∈ ds, d.location ≠ u.location)
    (ts : List Token) : missed ds (u :: ts) = mismatchFound u :: missed ds ts := by
  simp only [missed, List.filter_cons, decide_eq_true_eq]
  rw [if_pos ⟨hk, h⟩]
  rfl

theorem missed_cons_of_neg (h : u.kind = .indentMismatch → ∃ d ∈ ds, d.location = u.location)
    (ts : List Token) : missed ds (u :: ts) = missed ds ts := by
  rw [missed, List.filter_cons_of_neg]
  · rfl
  · rw [decide_eq_true_eq]
    rintro ⟨hk, hnone⟩
    obtain ⟨d, hd, hlocation⟩ := h hk
    exact hnone d hd hlocation

/-- What was reported of a token is not where a later mismatch stands. -/
theorem missed_report (h : ∀ t ∈ ts, t.kind = .indentMismatch → u.location < t.location) :
    missed (mismatchFound u :: ds) ts = missed ds ts := by
  rw [missed, missed]
  refine congrArg _ (List.filter_congr fun t ht => decide_eq_decide.mpr (and_congr_right fun hk => ?_))
  rw [List.forall_mem_cons]
  exact and_iff_right (ne_of_lt (h t ht hk))

/-- What is reported of one token and then of others is what is reported of all. -/
theorem missed_cons (h : ∀ t ∈ ts, t.kind = .indentMismatch → u.location < t.location) :
    missed ds (u :: ts) = missed ds [u] ++ missed ((missed ds [u]).reverse ++ ds) ts := by
  by_cases hu : u.kind = .indentMismatch ∧ ∀ d ∈ ds, d.location ≠ u.location
  · rw [missed_cons_of_pos hu.1 hu.2, missed_cons_of_pos hu.1 hu.2, missed_nil, List.reverse_singleton,
      List.singleton_append, List.singleton_append, missed_report h]
  · have hseen (hk : u.kind = .indentMismatch) : ∃ d ∈ ds, d.location = u.location := by
      by_contra hnone
      exact hu ⟨hk, fun d hd hlocation => hnone ⟨d, hd, hlocation⟩⟩
    rw [missed_cons_of_neg hseen, missed_cons_of_neg hseen]
    rfl

/-- A diagnostic is left out where the last one is, which is where any one is. -/
theorem reports_mismatch (h : r.Orderly whole) (hk : r.current.kind = .indentMismatch) :
    (r.reportExpected (.token .unindent)).reports =
      (missed r.reports [r.current]).reverse ++ r.reports := by
  rw [reportExpected, report]
  split
  · next hhead =>
    obtain ⟨d, hd, hlocation⟩ := Option.map_eq_some_iff.mp hhead
    rw [missed_cons_of_neg fun _ => ⟨d, List.mem_of_mem_head? hd, hlocation⟩]
    rfl
  · next hhead =>
    have hlt := lt_of_head_ne h.sorted h.passed hhead
    rw [missed_cons_of_pos hk fun d hd => ne_of_lt (hlt d hd)]
    rfl

/-- A mismatch is reported when it is passed, unless something was reported there before. -/
theorem SkipTurn.reports_eq (h : SkipTurn depth r t) (hr : r.Orderly whole) :
    t.reports = (missed r.reports [r.current]).reverse ++ r.reports := by
  cases h with
  | newline hk | unindent hk =>
    rw [reports_advance, missed_cons_of_neg (by simp [hk])]
    rfl
  | further _ _ _ hmismatch =>
    rw [reports_advance, missed_cons_of_neg fun hk => absurd hk hmismatch]
    rfl
  | mismatch hk =>
    rw [reports_advance]
    exact reports_mismatch hr hk

/-! ## All tokens -/

theorem Skips.here (hr : depth ≤ r.depth) (h : LineOver depth none r.depth r.current.kind) :
    Skips depth r [] r where
  tokens := rfl
  ending := rfl
  depth_eq := rfl
  stops := h
  goesOn := fun _ _ _ heq => by simp at heq
  deep := fun front hfront => by
    rw [List.prefix_nil.mp hfront]
    exact hr
  reports := rfl

/-- The line is over behind the token in front, and not before. -/
theorem Skips.behind (hr : depth ≤ r.depth) (hne : r.current.kind ≠ .eof)
    (hmismatch : r.current.kind ≠ .indentMismatch) (hdepth : r.advance.depth = depth)
    (hgoes : ¬ LineOver depth none r.depth r.current.kind)
    (hover : LineOver depth (some r.current.kind) depth r.advance.current.kind) :
    Skips depth r [r.current] r.advance := by
  obtain ⟨htokens, hending, hafter⟩ := advance_passes hne
  have halong : depthAlong r.depth [r.current] = depth := hafter.symm.trans hdepth
  refine ⟨htokens, hending, hafter, ?_, ?_, ?_, ?_⟩
  · rw [LineOverAt, halong]
    exact hover
  · intro front t back heq
    obtain ⟨rfl, rfl⟩ : front = [] ∧ t = r.current := by
      cases front <;> simp_all
    exact hgoes
  · intro front hfront
    rcases List.prefix_cons_iff.mp hfront with rfl | ⟨front, rfl, hnil⟩
    · exact hr
    · rw [List.prefix_nil.mp hnil]
      exact Nat.le_of_eq halong.symm
  · rw [reports_advance, missed_cons_of_neg fun hk => absurd hk hmismatch]
    rfl

theorem SkipEnd.skips (h : SkipEnd depth r s) (hr : depth ≤ r.depth) :
    ∃ passed, Skips depth r passed s := by
  cases h with
  | eof hk => exact ⟨[], .here hr (hk ▸ .eof)⟩
  | outside hk hle => exact ⟨[], .here hr (hk ▸ .outside (Nat.le_antisymm hle hr))⟩
  | mismatch hk hle =>
    refine ⟨[], .here hr (hk ▸ .mismatch ?_)⟩
    omega
  | newline hk hdepth hindent =>
    have hafter : r.advance.depth = depth := by
      rw [depth_advance (by simp [hk]), hk]
      exact hdepth
    refine ⟨_, .behind hr (by simp [hk]) (by simp [hk]) hafter ?_ (.newline (by rw [hk]) rfl hindent)⟩
    rw [hk]
    rintro (_ | _ | ⟨⟨⟩⟩ | ⟨⟨⟩⟩ | _)
  | unindent hk hlt hdepth =>
    refine ⟨_, .behind hr (by simp [hk]) (by simp [hk]) hdepth ?_ (.unindent (by rw [hk]) rfl)⟩
    rw [hk]
    rintro (_ | heq | ⟨⟨⟩⟩ | ⟨⟨⟩⟩ | _)
    exact absurd heq (Nat.ne_of_gt hlt)

theorem SkipTurn.skips (h : SkipTurn depth r t) (hr : depth ≤ r.depth) (horderly : r.Orderly whole)
    (hapart : whole.MismatchesApart) (hrest : Skips depth t passed s) :
    Skips depth r (r.current :: passed) s := by
  obtain ⟨htokens, hending, hdepth⟩ := h.passes
  have hapart' : ∀ u ∈ passed, u.kind = .indentMismatch → r.current.location < u.location := by
    have hpairs := hapart.sublist horderly.tokens_suffix.sublist
    rw [htokens, hrest.tokens] at hpairs
    exact fun u hu => List.rel_of_pairwise_cons hpairs (List.mem_append_left _ hu)
  refine ⟨?_, hrest.ending.trans hending, ?_, ?_, ?_, ?_, ?_⟩
  · rw [htokens, hrest.tokens, List.cons_append]
  · rw [depthAlong_cons, ← hdepth]
    exact hrest.depth_eq
  · refine LineOverAt.cons ?_
    rw [← hdepth]
    exact hrest.stops
  · intro front u back heq
    cases front with
    | nil =>
      obtain ⟨rfl, -⟩ := List.cons.inj heq
      exact h.not_over
    | cons first front =>
      obtain ⟨rfl, hpassed⟩ := List.cons.inj heq
      intro hover
      refine hrest.goesOn front u back hpassed ?_
      by_cases hfront : front = []
      · subst hfront
        have hnext : t.current = u := current_of_tokens (by rw [hrest.tokens, hpassed]; rfl)
        rw [LineOverAt, depthAlong_cons, ← hdepth, ← hnext] at hover
        rw [← hnext]
        exact h.over_of_next hover
      · rw [hdepth]
        exact (lineOverAt_cons hfront).mp hover
  · intro front hfront
    rcases List.prefix_cons_iff.mp hfront with rfl | ⟨front, rfl, hprefix⟩
    · exact hr
    · rw [depthAlong_cons, ← hdepth]
      exact hrest.deep front hprefix
  · rw [hrest.reports, h.reports_eq horderly, missed_cons hapart', List.reverse_append,
      List.append_assoc]

/-- What is passed over of a line. -/
theorem exists_skips (hordered : whole.Ordered) (hapart : whole.MismatchesApart) (r : Reading)
    (horderly : r.Orderly whole) (hr : depth ≤ r.depth) :
    ∃ passed, Skips depth r passed (r.skipLine depth) := by
  rcases skip_cases depth r with ⟨s, hend⟩ | ⟨t, hturn⟩
  · rw [hend.skipLine_eq]
    exact hend.skips hr
  · have hlt := hturn.remaining_lt
    have ht := (hturn.heeds.comesTo.orderly hordered horderly).1
    obtain ⟨passed, hskips⟩ := exists_skips hordered hapart t ht (hturn.deep hr)
    rw [hturn.skipLine_eq]
    exact ⟨_, hturn.skips hr horderly hapart hskips⟩
termination_by r.remaining

end Reading

end FirSyntax
