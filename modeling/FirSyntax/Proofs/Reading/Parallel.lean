import FirSyntax.Proofs.Reading.Bond
import FirSyntax.Proofs.Reading.Levels

/-!
# Readings side by side

Two readings run side by side when one sees the tokens of the other at other places, perhaps with
further tokens behind them, and had something reported before. This is a bond, so every rule of a
line takes the same tokens in both and gives the same result, moved to the other places.
-/
namespace FirSyntax

open Token Grammar

/-- How the second of two readings differs from the first. -/
structure Frame where
  /-- Where the second reading has what stands at a location for the first. -/
  place : Location → Location
  /-- The tokens that only the second reading has behind it. -/
  behind : List Token
  /-- The diagnostics that only the second reading had before, the latest first. -/
  earlier : List Diagnostic
  /-- The locations that the first reading may meet. -/
  Known : Location → Prop
  /-- Where the files of the two readings end. -/
  last : Location
  last' : Location
  /-- Whether the last line may lack a terminator, which needs an end of the file in both. -/
  cut : Bool
  place_injective : Function.Injective place
  place_unwritten : place .unwritten = .unwritten
  apart : ∀ l, Known l → ∀ d ∈ earlier, d.location ≠ place l
  known_last : Known last
  ends : behind = [] → last' = place last
  whole : behind = [] ∨ cut = false
  level : leading behind ≠ .indent ∧ leading behind ≠ .unindent

namespace Frame

theorem whole_nil (cut : Bool) : ([] : List Token) = [] ∨ cut = false := .inl rfl

theorem level_nil : leading [] ≠ .indent ∧ leading [] ≠ .unindent := by simp

end Frame

/-- Two readings side by side. -/
structure Parallel (F : Frame) (r r' : Reading) : Prop where
  tokens : r'.stream.tokens = r.stream.tokens.map (Token.relocate F.place) ++ F.behind
  ending : r.stream.ending = F.last
  ending' : r'.stream.ending = F.last'
  depth : r'.depth = r.depth
  reports : r'.reports = r.reports.map (Diagnostic.relocate F.place) ++ F.earlier
  known : ∀ t ∈ r.stream.tokens, F.Known t.location
  reported : ∀ d ∈ r.reports, F.Known d.location

variable {F : Frame} {r r' : Reading}

namespace Parallel

/-- Whether the second reading sees the current token of the first one. -/
def Ahead (F : Frame) (r : Reading) : Prop := r.stream.tokens ≠ [] ∨ F.behind = []

theorem current (h : Parallel F r r') (hahead : Ahead F r) :
    r'.current = r.current.relocate F.place := by
  cases hr : r.stream.tokens with
  | nil =>
    have hbehind := hahead.resolve_left (by simp [hr])
    have htokens := h.tokens
    rw [hr, hbehind] at htokens
    rw [Reading.current_of_nil hr, Reading.current_of_nil htokens, h.ending', F.ends hbehind,
      h.ending]
    rfl
  | cons t ts =>
    have htokens := h.tokens
    rw [hr] at htokens
    rw [Reading.current_of_tokens hr, Reading.current_of_tokens htokens]

theorem kind (h : Parallel F r r') (hahead : Ahead F r) : r'.current.kind = r.current.kind := by
  rw [h.current hahead, Token.kind_relocate]

theorem known_current (h : Parallel F r r') : F.Known r.current.location := by
  cases hr : r.stream.tokens with
  | nil =>
    rw [Reading.current_of_nil hr]
    exact h.ending ▸ F.known_last
  | cons t ts =>
    rw [Reading.current_of_tokens hr]
    exact h.known t (by simp [hr])

theorem advance (h : Parallel F r r') (hahead : Ahead F r) : Parallel F r.advance r'.advance := by
  have hkind := h.kind hahead
  by_cases heof : r.current.kind = .eof
  · rw [Reading.advance, if_pos heof, Reading.advance, if_pos (hkind.trans heof)]
    exact h
  · have heof' : r'.current.kind ≠ .eof := by rwa [hkind]
    have hcons := Reading.tokens_eq_cons heof
    rw [Reading.advance_eq heof, Reading.advance_eq heof']
    refine ⟨?_, h.ending, h.ending', ?_, h.reports, ?_, h.reported⟩
    · show r'.stream.tokens.tail = r.stream.tokens.tail.map _ ++ F.behind
      rw [h.tokens, hcons]
      rfl
    · show Reading.depthAfter _ _ = Reading.depthAfter _ _
      rw [h.depth, hkind]
    · exact fun t ht => h.known t (List.mem_of_mem_tail ht)

/-- The same is reported of both, whatever was reported before. -/
theorem report (h : Parallel F r r') {l : Location} (hl : F.Known l) (c : Cause) :
    Parallel F (r.report l c) (r'.report (F.place l) (c.relocate F.place)) := by
  have hsame : r'.reports.head?.map (·.location) = some (F.place l) ↔
      r.reports.head?.map (·.location) = some l := by
    rw [h.reports]
    cases hr : r.reports with
    | nil =>
      cases hearlier : F.earlier with
      | nil => simp
      | cons d earlier => simpa using F.apart l hl d (by simp [hearlier])
    | cons d reports =>
      simp only [List.map_cons, List.cons_append, List.head?_cons, Option.map_some, Option.some.injEq]
      exact F.place_injective.eq_iff
  refine ⟨?_, ?_, ?_, ?_, ?_, ?_, ?_⟩
  · simpa using h.tokens
  · simpa using h.ending
  · simpa using h.ending'
  · simpa using h.depth
  · unfold Reading.report
    by_cases hreported : r.reports.head?.map (·.location) = some l
    · rw [if_pos hreported, if_pos (hsame.mpr hreported)]
      exact h.reports
    · rw [if_neg hreported, if_neg (fun h' => hreported (hsame.mp h'))]
      simp [h.reports, Diagnostic.relocate]
  · simpa using h.known
  · unfold Reading.report
    split
    · exact h.reported
    · rw [List.forall_mem_cons]
      exact ⟨hl, h.reported⟩

theorem reportExpected (h : Parallel F r r') (hahead : Ahead F r) (wanted : Expectation) :
    Parallel F (r.reportExpected wanted) (r'.reportExpected wanted) := by
  rw [Reading.reportExpected, Reading.reportExpected, h.current hahead]
  exact h.report h.known_current _

end Parallel

/-- Two readings side by side, both inside a line. -/
structure Alongside (F : Frame) (r r' : Reading) : Prop extends Parallel F r r' where
  previous : r'.previous = r.previous
  inside : r.LaidAs F.cut .inside

namespace Alongside

theorem ahead (h : Alongside F r r') : Parallel.Ahead F r := by
  rcases F.whole with hbehind | hcut
  · exact .inr hbehind
  · have hinside := h.inside
    rw [hcut] at hinside
    exact .inl hinside.inside_ne_nil

theorem current (h : Alongside F r r') : r'.current = r.current.relocate F.place :=
  h.toParallel.current h.ahead

theorem kind (h : Alongside F r r') : r'.current.kind = r.current.kind := h.toParallel.kind h.ahead

theorem advance (h : Alongside F r r') (hk : r.current.kind.isLayout = false) :
    Alongside F r.advance r'.advance := by
  have hne := Kind.ne_eof_of_content hk
  refine ⟨h.toParallel.advance h.ahead, ?_, (h.inside.content hk).1⟩
  rw [Reading.previous_advance hne, Reading.previous_advance (by rwa [h.kind]), h.kind]

theorem report (h : Alongside F r r') {l : Location} (hl : F.Known l) (c : Cause) :
    Alongside F (r.report l c) (r'.report (F.place l) (c.relocate F.place)) :=
  ⟨h.toParallel.report hl c, by simpa using h.previous, by simpa using h.inside⟩

theorem atLineEnd (h : Alongside F r r') : r'.atLineEnd = r.atLineEnd := by
  rw [Reading.atLineEnd, Reading.atLineEnd, h.kind, h.previous]

/-- The line ends for both readings at the same token. -/
theorem ends {s s' : Reading} (h : Alongside F r r') (hends : r.Ends s) (hends' : r'.Ends s') :
    Parallel F s s' := by
  obtain ⟨-, rfl⟩ := hends
  obtain ⟨-, rfl⟩ := hends'
  rw [h.kind]
  split
  · exact h.toParallel.advance h.ahead
  · exact h.toParallel

end Alongside

/-- Inside a line two readings go on side by side. -/
def Frame.bond (F : Frame) : Bond where
  place := F.place
  Known := F.Known
  Inside := Alongside F
  Past := Parallel F
  place_unwritten := F.place_unwritten
  location h := by rw [h.current, Token.location_relocate]
  current h _ := h.current
  known h t ht _ := h.known t ht
  ends h := h.atLineEnd
  advance h hk := h.advance hk
  report h _ hl c := h.report hl c
  refuse h _ _ := by
    rw [Reading.reportExpected, Reading.reportExpected, h.current]
    exact h.report h.known_current _
  past h hends hends' := h.ends hends hends'

end FirSyntax
