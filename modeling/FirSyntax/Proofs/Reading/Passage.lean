import FirSyntax.Proofs.Reading.Reaches

/-!
# Passages inside a line

The rules of a line consume tokens of that line only, so they leave the depth as it is and the
levels closed at its end untouched. A passage records the tokens consumed between two readings; an
outcome is sound for a rule when its result is derived from the tokens of such a passage, and when a
missing result has been reported.
-/
namespace FirSyntax

open Token

namespace Reading

/-- `r'` is reached from `r` over the tokens `ts`, which stand inside a line. -/
structure Passes (r : Reading) (ts : List Token) (r' : Reading) : Prop where
  tokens : r.stream.tokens = ts ++ r'.stream.tokens
  ending : r'.stream.ending = r.stream.ending
  depth : r'.depth = r.depth
  previous : r'.previous = ts.foldl (fun _ t => t.kind) r.previous
  content : ∀ t ∈ ts, t.kind.isLayout = false
  reaches : r.Reaches (fun k => k.isLayout = false) r'

namespace Passes

variable {r s t : Reading} {ts us : List Token}

theorem refl (r : Reading) : r.Passes [] r := ⟨rfl, rfl, rfl, rfl, by simp, .refl r⟩

/-- Diagnostics are only added. -/
theorem reports (h : r.Passes ts s) : r.reports <:+ s.reports := h.reaches.reports_suffix

theorem trans (h : r.Passes ts s) (h' : s.Passes us t) : r.Passes (ts ++ us) t where
  tokens := by rw [h.tokens, h'.tokens, List.append_assoc]
  ending := h'.ending.trans h.ending
  depth := h'.depth.trans h.depth
  previous := by rw [h'.previous, h.previous, List.foldl_append]
  content := by
    intro x hx
    rcases List.mem_append.mp hx with hx | hx
    · exact h.content x hx
    · exact h'.content x hx
  reaches := h.reaches.trans h'.reaches

/-- A diagnostic at a token of the passage, since which nothing else has been reported. -/
theorem report (h : r.Passes ts s) (h' : s.Passes us t) (hsame : t.reports = s.reports) (c : Cause) :
    r.Passes (ts ++ us) (t.report s.current.location c) where
  tokens := by rw [stream_report, (h.trans h').tokens]
  ending := by rw [stream_report, (h.trans h').ending]
  depth := by rw [depth_report, (h.trans h').depth]
  previous := by rw [previous_report, (h.trans h').previous]
  content := (h.trans h').content
  reaches := .report c h.reaches h'.reaches hsame

/-- One token of a line. -/
theorem advance (h : r.current.kind.isLayout = false) : r.Passes [r.current] r.advance := by
  have hne : r.current.kind ≠ .eof := by
    intro he
    simp [he, Kind.isLayout] at h
  have hreaches : r.Reaches (fun k => k.isLayout = false) r.advance := .advance (.refl r) h
  rw [advance_eq hne] at hreaches ⊢
  exact ⟨tokens_eq_cons hne, rfl, depthAfter_of_content h, rfl, by simpa using h, hreaches⟩

/-- Where a passage ends is known from the tokens that are left. -/
theorem eq_of_tokens (h : r.Passes ts s) {rest : List Token}
    (hr : r.stream.tokens = us ++ rest) (hs : s.stream.tokens = rest) : ts = us := by
  have := h.tokens
  rw [hr, hs] at this
  exact (List.append_cancel_right this).symm

/-- After a passage that is not empty, the last token consumed stands inside a line. -/
theorem previous_isLayout (h : r.Passes ts s) (hne : ts ≠ []) : s.previous.isLayout = false := by
  obtain ⟨us, t, rfl⟩ := List.eq_nil_or_concat ts |>.resolve_left hne
  rw [h.previous]
  simpa using h.content t (by simp)

end Passes

/-- A passage after which diagnostics are absent just when there were none before and `clean`
holds; then nothing is reported on the way. -/
structure Reads (r : Reading) (ts : List Token) (clean : Prop) (r' : Reading) : Prop
    extends Passes r ts r' where
  spotless : r'.reports = [] ↔ r.reports = [] ∧ clean
  quiet : clean → r'.reports = r.reports

namespace Reads

variable {r s t : Reading} {ts us : List Token} {p q : Prop}

theorem refl (r : Reading) : r.Reads [] True r := ⟨.refl r, by simp, fun _ => rfl⟩

theorem trans (h : r.Reads ts p s) (h' : s.Reads us q t) : r.Reads (ts ++ us) (p ∧ q) t :=
  ⟨h.toPasses.trans h'.toPasses, by rw [h'.spotless, h.spotless, and_assoc],
    fun hpq => (h'.quiet hpq.2).trans (h.quiet hpq.1)⟩

theorem congr (h : r.Reads ts p s) (hts : ts = us) (hpq : p ↔ q) : r.Reads us q s :=
  ⟨hts ▸ h.toPasses, by rw [h.spotless, hpq], fun hq => h.quiet (hpq.mpr hq)⟩

/-- One token of a line. -/
theorem advance (h : r.current.kind.isLayout = false) : r.Reads [r.current] True r.advance :=
  ⟨.advance h, by simp, fun _ => reports_advance r⟩

/-- A diagnostic at a token where something is amiss. -/
theorem report (h : r.Reads ts p s) (h' : s.Passes us t) (hsame : t.reports = s.reports) (c : Cause)
    (hq : ¬ q) : r.Reads (ts ++ us) q (t.report s.current.location c) :=
  ⟨h.toPasses.report h' hsame c, by simp [hq, reports_report_ne_nil], fun hq' => absurd hq' hq⟩

end Reads

end Reading

variable {α β : Type} {n m : Nat}

/-- What an outcome of a rule says of the tokens consumed since `r`: a result is derived from them
and leaves no diagnostic just when it is `ok`; a missing result has been reported. -/
inductive Outcome.Sound (r : Reading) (Rule : List Token → α → Prop) (ok : α → Prop) :
    Option α → Reading → Prop where
  | read {ts a r'} : r.Reads ts (ok a) r' → Rule ts a → Sound r Rule ok (some a) r'
  | refused {ts r'} : r.Passes ts r' → r'.reports ≠ [] → Sound r Rule ok none r'

/-- An outcome is sound for a rule. -/
abbrev Step.Obeys (s : Outcome α n) (r : Reading) (Rule : List Token → α → Prop)
    (ok : α → Prop := fun _ => True) : Prop :=
  Outcome.Sound r Rule ok s.value s.after

/-- What holds of a result and of the reading after it. -/
def Outcome.Holds (P : α → Reading → Prop) (value : Option α) (after : Reading) : Prop :=
  ∀ a, value = some a → P a after

/-- A property of every result of an outcome and of the reading after it. -/
abbrev Step.Meets (s : Outcome α n) (P : α → Reading → Prop) : Prop :=
  Outcome.Holds P s.value s.after

theorem Step.Meets.andThen {P : α → Reading → Prop} {Q : β → Reading → Prop} {s : Outcome α n}
    {f : (a : α) → (r : Reading) → r.remaining ≤ n → Outcome β n} (hs : s.Meets P)
    (hf : ∀ a r h, P a r → (f a r h).Meets Q) : (s.andThen f).Meets Q := by
  obtain ⟨value, after, h⟩ := s
  cases value with
  | some a => exact hf a after h (hs a rfl)
  | none =>
    intro b hb
    cases hb

theorem Step.Meets.trivial (s : Outcome α n) : s.Meets fun _ _ => True := fun _ _ => True.intro

/-- How a line ends: its terminator is consumed, or there is none. -/
def Reading.Ends (r r' : Reading) : Prop :=
  r.atLineEnd = true ∧ r' = if r.current.kind = .newline then r.advance else r

theorem Reading.Ends.reports {r r' : Reading} (h : r.Ends r') : r'.reports = r.reports := by
  obtain ⟨-, rfl⟩ := h
  split <;> simp

theorem Reading.Ends.depth {r r' : Reading} (h : r.Ends r') : r'.depth = r.depth := by
  obtain ⟨-, rfl⟩ := h
  split
  · next hnewline =>
    rw [depth_advance (by simp [hnewline]), hnewline]
    rfl
  · rfl

/-- What an outcome at the end of a line says: as for a rule inside the line, and then the line has
ended. -/
inductive Outcome.Ended (r : Reading) (Rule : List Token → α → Prop) (ok : α → Prop) :
    Option α → Reading → Prop where
  | read {ts a mid r'} : r.Reads ts (ok a) mid → Rule ts a → mid.Ends r' →
      Ended r Rule ok (some a) r'
  | refused {ts r'} : r.Passes ts r' → r'.reports ≠ [] → Ended r Rule ok none r'

/-- An outcome takes up the rest of a line. -/
abbrev Step.Finishes (s : Outcome α n) (r : Reading) (Rule : List Token → α → Prop)
    (ok : α → Prop := fun _ => True) : Prop :=
  Outcome.Ended r Rule ok s.value s.after

namespace Step

variable {r r' : Reading} {us : List Token} {p : Prop} {Rule : List Token → α → Prop}
  {Rule' : List Token → β → Prop} {ok : α → Prop} {ok' : β → Prop}

/-- One outcome after another, the first from `r'` on: what is to be shown of both, as seen from
further back, may be shown of the second. -/
theorem Obeys.bind {P : α → Reading → Prop} {Q : Option β → Reading → Prop} {s : Outcome α n}
    {f : (a : α) → (r : Reading) → r.remaining ≤ n → Outcome β n} (hpre : r.Reads us p r')
    (hs : s.Obeys r' Rule ok) (hmeets : s.Meets P)
    (hrefused : ∀ ts r'', r.Passes ts r'' → r''.reports ≠ [] → Q none r'')
    (hf : ∀ a ts r'' h, r.Reads (us ++ ts) (p ∧ ok a) r'' → Rule ts a → P a r'' →
      Q (f a r'' h).value (f a r'' h).after) :
    Q (s.andThen f).value (s.andThen f).after := by
  obtain ⟨value, after, hle⟩ := s
  cases hs with
  | read hreads hrule => exact hf _ _ _ hle (hpre.trans hreads) hrule (hmeets _ rfl)
  | refused hpass hne => exact hrefused _ _ (hpre.toPasses.trans hpass) hne

namespace Obeys

theorem andThenMeets {P : α → Reading → Prop} {s : Outcome α n}
    {f : (a : α) → (r : Reading) → r.remaining ≤ n → Outcome β n} (hpre : r.Reads us p r')
    (hs : s.Obeys r' Rule ok) (hmeets : s.Meets P)
    (hf : ∀ {a ts r''} (h : r''.remaining ≤ n), r.Reads (us ++ ts) (p ∧ ok a) r'' → Rule ts a →
      P a r'' → (f a r'' h).Obeys r Rule' ok') :
    (s.andThen f).Obeys r Rule' ok' :=
  bind hpre hs hmeets (fun _ _ => .refused) fun _ _ _ h => hf h

theorem andThen {s : Outcome α n} {f : (a : α) → (r : Reading) → r.remaining ≤ n → Outcome β n}
    (hpre : r.Reads us p r') (hs : s.Obeys r' Rule ok)
    (hf : ∀ {a ts r''} (h : r''.remaining ≤ n), r.Reads (us ++ ts) (p ∧ ok a) r'' → Rule ts a →
      (f a r'' h).Obeys r Rule' ok') :
    (s.andThen f).Obeys r Rule' ok' :=
  andThenMeets hpre hs (.trivial s) fun h hreads hrule _ => hf h hreads hrule

theorem andThenFinishes {s : Outcome α n}
    {f : (a : α) → (r : Reading) → r.remaining ≤ n → Outcome β n} (hpre : r.Reads us p r')
    (hs : s.Obeys r' Rule ok)
    (hf : ∀ {a ts r''} (h : r''.remaining ≤ n), r.Reads (us ++ ts) (p ∧ ok a) r'' → Rule ts a →
      (f a r'' h).Finishes r Rule' ok') :
    (s.andThen f).Finishes r Rule' ok' :=
  bind hpre hs (.trivial s) (fun _ _ => .refused) fun _ _ _ h hreads hrule _ => hf h hreads hrule

/-- A rule obeyed from `r'` on, as seen from further back. -/
theorem after {s : Outcome α n} {Rule' : List Token → α → Prop} {ok' : α → Prop}
    (hpre : r.Reads us p r') (hs : s.Obeys r' Rule ok)
    (hf : ∀ {a ts}, Rule ts a → Rule' (us ++ ts) a ∧ (ok' a ↔ p ∧ ok a)) :
    s.Obeys r Rule' ok' := by
  obtain ⟨value, after, hle⟩ := s
  cases hs with
  | read hreads hrule =>
    exact .read ((hpre.trans hreads).congr rfl (hf hrule).2.symm) (hf hrule).1
  | refused hpass hne => exact .refused (hpre.toPasses.trans hpass) hne

end Obeys

/-- The rest of a line from `r'` on, as seen from further back, with a value made of its result. -/
theorem Finishes.map {s : Outcome α n} {g : α → β} (hpre : r.Reads us p r')
    (hs : s.Finishes r' Rule ok)
    (hf : ∀ {a ts}, Rule ts a → Rule' (us ++ ts) (g a) ∧ (ok' (g a) ↔ p ∧ ok a)) :
    (s.andThen fun a after h => .done (g a) after h).Finishes r Rule' ok' := by
  obtain ⟨value, after, hle⟩ := s
  cases hs with
  | read hreads hrule hends =>
    exact .read ((hpre.trans hreads).congr rfl (hf hrule).2.symm) (hf hrule).1 hends
  | refused hpass hne => exact .refused (hpre.toPasses.trans hpass) hne

end Step

namespace Reading

theorem taking_obeys {a : α} {r : Reading} {Rule : List Token → α → Prop}
    (hkind : r.current.kind.isLayout = false) (hrule : Rule [r.current] a) :
    (Step.taking a r).Obeys r Rule :=
  .read (.advance hkind) hrule

theorem here_obeys {a : α} {r : Reading} {Rule : List Token → α → Prop} (hrule : Rule [] a) :
    (Step.here a r).Obeys r Rule :=
  .read (.refl r) hrule

theorem refused_obeys (r : Reading) (wanted : Expectation) (Rule : List Token → α → Prop)
    (ok : α → Prop) : (Step.refused wanted r : Outcome α r.remaining).Obeys r Rule ok :=
  .refused ((Passes.refl r).report (.refl r) rfl _) (reports_report_ne_nil _ _ _)

theorem expect_obeys (r : Reading) {kind : Kind} (h : kind.isLayout = false) :
    (r.expect kind).Obeys r fun ts t => ts = [t] ∧ t.kind = kind := by
  unfold expect
  split
  · next heq => exact taking_obeys (heq ▸ h) ⟨rfl, heq⟩
  · exact refused_obeys ..

theorem accept_next_of_eq {r : Reading} {kind : Kind}
    {f : (b : Bool) → (r' : Reading) → r'.remaining ≤ r.remaining → Step β r.remaining}
    (h : r.current.kind = kind) :
    (r.accept kind).next f = f true r.advance (remaining_advance_le r) := by
  unfold accept
  rw [if_pos h]
  rfl

theorem accept_next_of_ne {r : Reading} {kind : Kind}
    {f : (b : Bool) → (r' : Reading) → r'.remaining ≤ r.remaining → Step β r.remaining}
    (h : r.current.kind ≠ kind) : (r.accept kind).next f = f false r (Nat.le_refl _) := by
  unfold accept
  rw [if_neg h]
  rfl

theorem expectLineEnd_finishes (r : Reading) :
    r.expectLineEnd.Finishes r fun ts _ => ts = [] := by
  unfold expectLineEnd
  split
  · next hend =>
    by_cases hline : r.current.kind = .newline
    · rw [accept_next_of_eq hline]
      exact .read (.refl r) rfl ⟨hend, by rw [if_pos hline]; rfl⟩
    · rw [accept_next_of_ne hline]
      exact .read (.refl r) rfl ⟨hend, by rw [if_neg hline]; rfl⟩
  · exact .refused ((Passes.refl r).report (.refl r) rfl _) (reports_report_ne_nil _ _ _)

end Reading

end FirSyntax
