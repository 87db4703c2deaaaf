import Mathlib.Data.List.Forall2
import FirSyntax.Proofs.Reading.BondLine
import FirSyntax.Proofs.Token.LastLine

/-!
# Reading the last line

A reading of an input whose last line is not ended, and one of the same input with a line feed behind
it, see the same tokens up to the end. Inside the last line the end of that line is in front of both:
levels that are closed there, or the line feed. This is a bond. Behind the last line both see levels
closed and nothing else, the second one a line further down.
-/
namespace FirSyntax

open Token

/-! ## What is reported at the end -/

/-- The same is wrong, whatever token was found. -/
inductive Cause.Alike : Cause → Cause → Prop
  | refl (c : Cause) : Alike c c
  | found {wanted t t'} : Alike (.expected wanted t) (.expected wanted t')

namespace Diagnostic

/-- A header lacks its block, which was to begin at a location. -/
def LacksBlock (d : Diagnostic) (l : Location) : Prop :=
  ∃ found, d = ⟨.expected (.token .indent) found, l⟩

/-- Two diagnostics at one location, neither of which misses a block at the end of the input. -/
structure Coincides (last : Location) (d d' : Diagnostic) : Prop where
  location : d'.location = d.location
  cause : d.cause.Alike d'.cause
  inner : ¬ d.LacksBlock last

/-- A diagnostic for an input that ends at a location, and the one in its place where the last line is
ended: a block that is missed at the end is missed on the line below then. -/
inductive Corresponds (last : Location) (d d' : Diagnostic) : Prop
  | inner : d.Coincides last d' → Corresponds last d d'
  | block : d.LacksBlock last → d'.LacksBlock last.nextLine → Corresponds last d d'

variable {last l : Location} {c c' : Cause}

theorem Coincides.of_lt (h : l < last) (c : Cause) : Coincides last ⟨c, l⟩ ⟨c, l⟩ where
  location := rfl
  cause := .refl c
  inner := by
    rintro ⟨found, heq⟩
    exact absurd (congrArg Diagnostic.location heq) (ne_of_lt h)

end Diagnostic

namespace Reading

variable {r r' : Reading} {R : Diagnostic → Diagnostic → Prop} {l l' : Location} {c c' : Cause}

/-- What is reported of both is reported once more in both, or in neither when the last report was
there already. -/
theorem forall₂_report (h : List.Forall₂ R r.reports r'.reports)
    (hsame : r'.reports.head?.map (·.location) = some l' ↔
      r.reports.head?.map (·.location) = some l)
    (hnew : R ⟨c, l⟩ ⟨c', l'⟩) :
    List.Forall₂ R (r.report l c).reports (r'.report l' c').reports := by
  unfold report
  by_cases hreported : r.reports.head?.map (·.location) = some l
  · rwa [if_pos hreported, if_pos (hsame.mpr hreported)]
  · rw [if_neg hreported, if_neg (fun h' => hreported (hsame.mp h'))]
    exact .cons hnew h

theorem map_location {ds ds' : List Diagnostic} (h : List.Forall₂ R ds ds')
    (hR : ∀ {d d'}, R d d' → d'.location = d.location) :
    ds'.map (·.location) = ds.map (·.location) := by
  induction h with
  | nil => rfl
  | cons hd _ ih => rw [List.map_cons, List.map_cons, hR hd, ih]

/-- Where nothing was reported, something can be. -/
theorem head?_ne_of_forall (h : ∀ d ∈ r.reports, d.location ≠ l) :
    r.reports.head?.map (·.location) ≠ some l := by
  intro hhead
  obtain ⟨d, hd, hlocation⟩ := Option.map_eq_some_iff.mp hhead
  exact h d (List.mem_of_mem_head? hd) hlocation

/-- Where nothing but levels is left to be closed. -/
theorem current_of_closing {n : Nat} (h : r.stream.tokens = List.replicate n (bare .unindent l))
    (hending : r.stream.ending = l) : r.current = bare (if n = 0 then .eof else .unindent) l := by
  cases n with
  | zero =>
    rw [current_of_nil h, hending]
    rfl
  | succ n => exact current_of_tokens h

end Reading

/-! ## The two readings -/

namespace Token.Tail

/-- Both readings are in front of the tokens `ts`, and then of the end. -/
structure Ahead (e : Tail) (ts : List Token) (r r' : Reading) : Prop where
  tokens : r.stream.tokens = ts ++ e.closing e.last
  tokens' : r'.stream.tokens = ts ++ e.ended
  ending : r.stream.ending = e.last
  ending' : r'.stream.ending = e.last.nextLine
  depth : r'.depth = r.depth
  previous : r'.previous = r.previous
  follows : e.Follows ts
  reports : List.Forall₂ (Diagnostic.Coincides e.last) r.reports r'.reports
  early : ts ≠ [] → ∀ d ∈ r.reports, d.location < e.last

/-- Both readings are inside a line. When it is the last one, something stands in it. -/
structure Inside (e : Tail) (ts : List Token) (r r' : Reading) : Prop extends Ahead e ts r r' where
  written : ts = [] → e.written = true ∧ r.previous.isLayout = false

/-- Both readings are behind the last line, where levels are closed. -/
structure Behind (e : Tail) (n : Nat) (r r' : Reading) : Prop where
  tokens : r.stream.tokens = List.replicate n (bare .unindent e.last)
  tokens' : r'.stream.tokens = List.replicate n (bare .unindent e.last.nextLine)
  ending : r.stream.ending = e.last
  ending' : r'.stream.ending = e.last.nextLine
  depth : r'.depth = r.depth
  reports : List.Forall₂ (Diagnostic.Corresponds e.last) r.reports r'.reports

/-- Both readings are in front of the last line or of its tokens, or behind it. -/
inductive Along (e : Tail) (r r' : Reading) : Prop
  | ahead {t ts} : Ahead e (t :: ts) r r' → Along e r r'
  | behind {n} : Behind e n r r' → Along e r r'

variable {e : Tail} {t : Token} {ts : List Token} {r r' s s' : Reading} {n : Nat}

namespace Ahead

theorem locations (h : Ahead e ts r r') :
    r'.reports.map (·.location) = r.reports.map (·.location) :=
  Reading.map_location h.reports fun hd => hd.location

theorem current (h : Ahead e (t :: ts) r r') : r.current = t := Reading.current_of_tokens h.tokens

theorem current' (h : Ahead e (t :: ts) r r') : r'.current = t := Reading.current_of_tokens h.tokens'

theorem current_eq (h : Ahead e (t :: ts) r r') : r'.current = r.current :=
  h.current'.trans h.current.symm

theorem kind (h : Ahead e (t :: ts) r r') : r'.current.kind = r.current.kind :=
  congrArg Token.kind h.current_eq

theorem early_head (h : Ahead e (t :: ts) r r') : ∀ d ∈ r.reports, d.location < e.last :=
  h.early (List.cons_ne_nil t ts)

theorem early_head' (h : Ahead e (t :: ts) r r') : ∀ d ∈ r'.reports, d.location < e.last := by
  have hlocations : ∀ l ∈ r'.reports.map (·.location), l < e.last := by
    rw [h.locations, List.forall_mem_map]
    exact h.early_head
  exact List.forall_mem_map.mp hlocations

theorem lt_last (h : Ahead e (t :: ts) r r') : r.current.location < e.last := by
  rw [h.current]
  exact h.follows.before t List.mem_cons_self

theorem ne_eof (h : Ahead e (t :: ts) r r') : r.current.kind ≠ .eof := by
  rw [h.current]
  exact h.follows.ne_eof t List.mem_cons_self

theorem ne_eof' (h : Ahead e (t :: ts) r r') : r'.current.kind ≠ .eof := h.kind ▸ h.ne_eof

theorem advance (h : Ahead e (t :: ts) r r') : Ahead e ts r.advance r'.advance where
  tokens := by
    rw [Reading.tokens_advance h.ne_eof, h.tokens]
    rfl
  tokens' := by
    rw [Reading.tokens_advance h.ne_eof', h.tokens']
    rfl
  ending := by
    rw [Reading.advance_eq h.ne_eof]
    exact h.ending
  ending' := by
    rw [Reading.advance_eq h.ne_eof']
    exact h.ending'
  depth := by
    rw [Reading.depth_advance h.ne_eof, Reading.depth_advance h.ne_eof', h.kind, h.depth]
  previous := by
    rw [Reading.previous_advance h.ne_eof, Reading.previous_advance h.ne_eof', h.kind]
  follows := h.follows.tail
  reports := by simpa using h.reports
  early _ := by simpa using h.early (List.cons_ne_nil t ts)

/-- Where the levels are closed at once, the last line is behind both readings already. -/
theorem behind (h : Ahead e [] r r') (hwritten : e.written = false) : Behind e e.levels r r' where
  tokens := h.tokens
  tokens' := by simpa [ended, closing, hwritten] using h.tokens'
  ending := h.ending
  ending' := h.ending'
  depth := h.depth
  reports := h.reports.imp fun _ _ => .inner

/-- The second reading is in front of the line feed. -/
theorem tokens_newline (h : Ahead e [] r r') (hwritten : e.written = true) :
    r'.stream.tokens = bare .newline e.last :: e.closing e.last.nextLine := by
  rw [h.tokens', ended, if_pos hwritten]
  rfl

theorem current_newline (h : Ahead e [] r r') (hwritten : e.written = true) :
    r'.current = bare .newline e.last := Reading.current_of_tokens (h.tokens_newline hwritten)

/-- Behind the line feed the last line is behind both readings. -/
theorem behind_newline (h : Ahead e [] r r') (hwritten : e.written = true) :
    Behind e e.levels r r'.advance := by
  have hkind : r'.current.kind = .newline := by rw [h.current_newline hwritten]; rfl
  have hne : r'.current.kind ≠ .eof := by simp [hkind]
  refine ⟨h.tokens, ?_, h.ending, ?_, ?_, ?_⟩
  · rw [Reading.tokens_advance hne, h.tokens_newline hwritten]
    rfl
  · rw [Reading.advance_eq hne]
    exact h.ending'
  · rw [Reading.depth_advance hne, hkind]
    exact h.depth
  · rw [Reading.reports_advance]
    exact h.reports.imp fun _ _ => .inner

/-- Behind a token of layout both readings are in front of another token, or behind the last line. -/
theorem advance_layout (h : Ahead e (t :: ts) r r') (hlayout : r.current.kind.isLayout = true) :
    Along e r.advance r'.advance := by
  have hnext := h.advance
  cases ts with
  | nil =>
    have hwritten := h.follows.written t rfl
    rw [← h.current, hlayout] at hwritten
    exact .behind (hnext.behind (by simpa using hwritten.symm))
  | cons u us => exact .ahead hnext

/-- Behind a token of a line both readings are inside that line. -/
theorem advance_content (h : Ahead e (t :: ts) r r') (hcontent : r.current.kind.isLayout = false) :
    Inside e ts r.advance r'.advance := by
  refine ⟨h.advance, ?_⟩
  rintro rfl
  have hwritten := h.follows.written t rfl
  rw [← h.current, hcontent] at hwritten
  rw [Reading.previous_advance h.ne_eof]
  exact ⟨by simpa using hwritten.symm, hcontent⟩

/-- The same is reported of both readings. -/
theorem report (h : Ahead e ts r r') {l : Location} {c c' : Cause}
    (hnew : Diagnostic.Coincides e.last ⟨c, l⟩ ⟨c', l⟩) (hearly : ts ≠ [] → l < e.last) :
    Ahead e ts (r.report l c) (r'.report l c') where
  tokens := by simpa using h.tokens
  tokens' := by simpa using h.tokens'
  ending := by simpa using h.ending
  ending' := by simpa using h.ending'
  depth := by simpa using h.depth
  previous := by simpa using h.previous
  follows := h.follows
  reports := by
    refine Reading.forall₂_report h.reports ?_ hnew
    rw [← List.head?_map, ← List.head?_map, h.locations]
  early hts d hd := by
    rcases Reading.mem_report hd with hd | hd
    · exact h.early hts d hd
    · exact hd ▸ hearly hts

theorem reportHere (h : Ahead e (t :: ts) r r') (c : Cause) :
    Ahead e (t :: ts) (r.report r.current.location c) (r'.report r'.current.location c) := by
  rw [h.current_eq]
  exact h.report (.of_lt h.lt_last c) fun _ => h.lt_last

theorem reportExpected (h : Ahead e (t :: ts) r r') (wanted : Expectation) :
    Ahead e (t :: ts) (r.reportExpected wanted) (r'.reportExpected wanted) := by
  rw [Reading.reportExpected, Reading.reportExpected, h.current_eq]
  exact h.report (.of_lt h.lt_last _) fun _ => h.lt_last

end Ahead

namespace Inside

/-- At the end of the last line both readings see its end, though not by the same token. -/
theorem atEnd (h : Inside e [] r r') :
    (r.current.kind = .unindent ∨ r.current.kind = .eof) ∧ r.current.location = e.last ∧
      r'.current = bare .newline e.last := by
  rw [Reading.current_of_closing h.tokens h.ending]
  refine ⟨?_, rfl, h.current_newline (h.written rfl).1⟩
  cases e.levels with
  | zero => exact .inr rfl
  | succ n => exact .inl rfl

theorem location (h : Inside e ts r r') : r'.current.location = r.current.location := by
  cases ts with
  | nil =>
    obtain ⟨-, hlast, hnewline⟩ := h.atEnd
    rw [hnewline, hlast]
    rfl
  | cons t ts => rw [h.toAhead.current_eq]

theorem current (h : Inside e ts r r')
    (hcontent : r.current.kind.isLayout = false ∨ r'.current.kind.isLayout = false) :
    r'.current = r.current := by
  cases ts with
  | nil =>
    obtain ⟨hkind, -, hnewline⟩ := h.atEnd
    rw [hnewline] at hcontent
    rcases hkind with hkind | hkind <;> simp [hkind, bare, Kind.isLayout] at hcontent
  | cons t ts => exact h.toAhead.current_eq

theorem atLineEnd (h : Inside e ts r r') : r'.atLineEnd = r.atLineEnd := by
  cases ts with
  | nil =>
    obtain ⟨hkind, -, hnewline⟩ := h.atEnd
    have hprevious := (h.written rfl).2
    have hend : r.atLineEnd = true := by
      rcases hkind with hkind | hkind
      · simp only [Reading.atLineEnd, hkind]
        cases hr : r.previous <;> simp_all [Kind.isLayout]
      · simp only [Reading.atLineEnd, hkind]
    rw [hend, Reading.atLineEnd, hnewline]
    rfl
  | cons t ts => rw [Reading.atLineEnd, Reading.atLineEnd, h.kind, h.previous]

theorem advance (h : Inside e ts r r') (hcontent : r.current.kind.isLayout = false) :
    ∃ us, Inside e us r.advance r'.advance := by
  cases ts with
  | nil =>
    obtain ⟨hkind, -, -⟩ := h.atEnd
    rcases hkind with hkind | hkind <;> simp [hkind, Kind.isLayout] at hcontent
  | cons t ts => exact ⟨ts, h.toAhead.advance_content hcontent⟩

theorem report (h : Inside e ts r r') {l : Location} {c c' : Cause}
    (hnew : Diagnostic.Coincides e.last ⟨c, l⟩ ⟨c', l⟩) (hearly : ts ≠ [] → l < e.last) :
    Inside e ts (r.report l c) (r'.report l c') :=
  ⟨h.toAhead.report hnew hearly, by simpa using h.written⟩

theorem reportKnown (h : Inside e ts r r') {l : Location} (hl : l < e.last) (c : Cause) :
    Inside e ts (r.report l c) (r'.report l (c.relocate id)) := by
  rw [Cause.relocate_id]
  exact h.report (.of_lt hl c) fun _ => hl

theorem refuse (h : Inside e ts r r') {wanted : Expectation} (hwanted : wanted ≠ .token .indent) :
    Inside e ts (r.reportExpected wanted) (r'.reportExpected wanted) := by
  rw [Reading.reportExpected, Reading.reportExpected, h.location]
  refine h.report ⟨rfl, .found, ?_⟩ fun hts => ?_
  · rintro ⟨found, heq⟩
    exact hwanted (Cause.expected.inj (Diagnostic.mk.inj heq).1).1
  · obtain ⟨t, us, rfl⟩ := List.exists_cons_of_ne_nil hts
    exact h.lt_last

/-- Where the line ends, it is behind both readings. -/
theorem ends (h : Inside e ts r r') (hends : r.Ends s) (hends' : r'.Ends s') : Along e s s' := by
  obtain ⟨-, rfl⟩ := hends
  obtain ⟨-, rfl⟩ := hends'
  cases ts with
  | nil =>
    obtain ⟨hkind, -, hnewline⟩ := h.atEnd
    have hne : r.current.kind ≠ .newline := by rcases hkind with hkind | hkind <;> simp [hkind]
    rw [if_neg hne, hnewline, if_pos (by rfl)]
    exact .behind (h.behind_newline (h.written rfl).1)
  | cons t ts =>
    rw [h.kind]
    split
    · next hnewline => exact h.advance_layout (by rw [hnewline]; rfl)
    · exact .ahead h.toAhead

end Inside

theorem location_lt_of_content (h : Ahead e ts r r') (ht : t ∈ r.stream.tokens)
    (hcontent : t.kind.isLayout = false) : t.location < e.last := by
  rw [h.tokens] at ht
  rcases List.mem_append.mp ht with ht | ht
  · exact h.follows.before t ht
  · rw [List.eq_of_mem_replicate ht] at hcontent
    cases hcontent

/-- Inside a line two readings go on in step up to its end, whether or not it is the last one. -/
def bond (e : Tail) : Bond where
  place := id
  Known l := l < e.last
  Inside r r' := ∃ ts, Inside e ts r r'
  Past := Along e
  place_unwritten := id_eq _
  location h := h.elim fun _ h => h.location
  current h hcontent := h.elim fun _ h => h.current hcontent
  known h _ ht hcontent := h.elim fun _ h => location_lt_of_content h.toAhead ht hcontent
  ends h := h.elim fun _ h => h.atLineEnd
  advance h hcontent := h.elim fun _ h => h.advance hcontent
  report h _ hl c := h.elim fun ts h => ⟨ts, h.reportKnown hl c⟩
  refuse h _ hwanted := h.elim fun ts h => ⟨ts, h.refuse hwanted⟩
  past h hends hends' := h.elim fun _ h => h.ends hends hends'

end Token.Tail

end FirSyntax
