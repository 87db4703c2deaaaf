import FirSyntax.Proofs.Reading.FileReaches
import FirSyntax.Proofs.Token.Order

/-!
# The order of diagnostics

Diagnostics come in the order of the source, one for each location and each at a token. A reading is
orderly when this holds of what it has reported and none of it lies behind the token in front.
Consuming a token keeps a reading orderly, and so does reporting at a token since which nothing else
has been reported.
-/
namespace FirSyntax

open Token

namespace Token.Stream

variable {s : Stream}

/-- The tokens, and the end of the file behind them. -/
def withEnd (s : Stream) : List Token := s.tokens ++ [bare .eof s.ending]

/-- The tokens stand in the order of their locations. -/
def Ordered (s : Stream) : Prop := s.withEnd.Pairwise fun t u => t.location ≤ u.location

theorem exists_withEnd_eq (s : Stream) : ∃ later, s.withEnd = s.head :: later := by
  obtain ⟨tokens, ending⟩ := s
  cases tokens with
  | nil => exact ⟨[], rfl⟩
  | cons t ts => exact ⟨ts ++ [bare .eof ending], rfl⟩

theorem head_mem_withEnd (s : Stream) : s.head ∈ s.withEnd := by
  obtain ⟨later, hlater⟩ := exists_withEnd_eq s
  rw [hlater]
  exact List.mem_cons_self

theorem withEnd_drop_suffix (s : Stream) (n : Nat) : (s.drop n).withEnd <:+ s.withEnd := by
  obtain ⟨front, hfront⟩ := List.drop_suffix n s.tokens
  refine ⟨front, ?_⟩
  rw [withEnd, withEnd, ← List.append_assoc, drop, hfront]

theorem withEnd_tail_suffix (s : Stream) : s.tail.withEnd <:+ s.withEnd := by
  have h := withEnd_drop_suffix s 1
  rwa [drop, List.drop_one] at h

theorem Ordered.of_suffix {t : Stream} (h : s.Ordered) (hsuffix : t.withEnd <:+ s.withEnd) :
    t.Ordered :=
  List.Pairwise.sublist hsuffix.sublist h

theorem Ordered.head_le (h : s.Ordered) : s.head.location ≤ s.tail.head.location := by
  obtain ⟨tokens, ending⟩ := s
  cases tokens with
  | nil => exact le_rfl
  | cons t ts => exact List.rel_of_pairwise_cons h (head_mem_withEnd ⟨ts, ending⟩)

theorem ordered_ofBytes (U : Unicode.CharData) (bytes : List UInt8) : (ofBytes U bytes).Ordered :=
  (Scanner.stream_ordered (Scanner.start (Source.ofBytes bytes))).1.imp fun h => h.1

end Token.Stream

namespace Reading

/-- What has been reported since the start of the stream `whole` is in order, is at tokens of that
stream, is not behind the token in front, and has been counted. -/
structure Orderly (whole : Stream) (r : Reading) : Prop where
  stream : r.stream.withEnd <:+ whole.withEnd
  sorted : r.reports.Pairwise fun d e => e.location < d.location
  passed : ∀ d ∈ r.reports, d.location ≤ r.current.location
  located : ∀ d ∈ r.reports, ∃ t ∈ whole.withEnd, t.location = d.location
  counted : r.errorCount = r.reports.length

variable {whole : Stream} {r s : Reading} {l : Location} {c : Cause} {P : Kind → Prop}

theorem orderly_start {stream : Stream} (h : stream.withEnd <:+ whole.withEnd) :
    (start stream).Orderly whole where
  stream := h
  sorted := .nil
  passed := by simp [start]
  located := by simp [start]
  counted := rfl

/-- A diagnostic not behind an earlier one is behind all of them, unless it is left out. -/
theorem lt_of_head_ne (hsorted : r.reports.Pairwise fun d e => e.location < d.location)
    (hle : ∀ d ∈ r.reports, d.location ≤ l) (hne : r.reports.head?.map (·.location) ≠ some l) :
    ∀ d ∈ r.reports, d.location < l := by
  cases hreports : r.reports with
  | nil => simp
  | cons first rest =>
    rw [hreports] at hsorted hle hne
    have hfirst : first.location < l :=
      lt_of_le_of_ne (hle first List.mem_cons_self) fun heq => hne (by simp [heq])
    rw [List.forall_mem_cons]
    exact ⟨hfirst, fun d hd => lt_trans (List.rel_of_pairwise_cons hsorted hd) hfirst⟩

namespace Orderly

theorem advance (hwhole : whole.Ordered) (h : r.Orderly whole) :
    r.advance.Orderly whole ∧ r.current.location ≤ r.advance.current.location := by
  by_cases heof : r.current.kind = .eof
  · rw [Reading.advance, if_pos heof]
    exact ⟨h, le_rfl⟩
  · have hle : r.current.location ≤ r.stream.tail.head.location :=
      (hwhole.of_suffix h.stream).head_le
    rw [advance_eq heof]
    exact ⟨⟨(Stream.withEnd_tail_suffix r.stream).trans h.stream, h.sorted,
      fun d hd => le_trans (h.passed d hd) hle, h.located, h.counted⟩, hle⟩

/-- A diagnostic at a token that nothing reported lies behind. -/
theorem report (h : r.Orderly whole) (hle : ∀ d ∈ r.reports, d.location ≤ l)
    (hl : l ≤ r.current.location) (hmem : ∃ t ∈ whole.withEnd, t.location = l) :
    (r.report l c).Orderly whole := by
  unfold Reading.report
  split
  · exact h
  · next hne =>
    refine ⟨h.stream, ?_, ?_, ?_, ?_⟩
    · exact List.pairwise_cons.mpr ⟨lt_of_head_ne h.sorted hle hne, h.sorted⟩
    · exact List.forall_mem_cons.mpr ⟨hl, h.passed⟩
    · exact List.forall_mem_cons.mpr ⟨hmem, h.located⟩
    · exact congrArg Nat.succ h.counted

/-- The tokens that are left are the last ones of the stream. -/
theorem tokens_suffix (h : r.Orderly whole) : r.stream.tokens <:+ whole.tokens := by
  obtain ⟨consumed, hwhole⟩ := h.stream
  rw [Stream.withEnd, Stream.withEnd, ← List.append_assoc] at hwhole
  exact ⟨consumed, List.append_inj_left' hwhole rfl⟩

theorem current_mem (h : r.Orderly whole) : r.current ∈ whole.withEnd :=
  h.stream.mem (Stream.head_mem_withEnd r.stream)

end Orderly

/-- Whatever is consumed and reported, a reading stays orderly and does not go back. -/
theorem Reaches.orderly (hwhole : whole.Ordered) (h : r.Reaches P s) (hr : r.Orderly whole) :
    s.Orderly whole ∧ r.current.location ≤ s.current.location := by
  induction h with
  | refl => exact ⟨hr, le_rfl⟩
  | advance _ _ ih =>
    obtain ⟨hs, hle⟩ := ih hr
    obtain ⟨hadvance, hle'⟩ := hs.advance hwhole
    exact ⟨hadvance, le_trans hle hle'⟩
  | @report r t s c _ _ hsame ih ih' =>
    obtain ⟨ht, hle⟩ := ih hr
    obtain ⟨hs, hle'⟩ := ih' ht
    have hreport : (s.report t.current.location c).Orderly whole :=
      hs.report (hsame ▸ ht.passed) hle' ⟨t.current, ht.current_mem, rfl⟩
    rw [current_report]
    exact ⟨hreport, le_trans hle hle'⟩

end Reading

namespace Statement

/-- However many tokens are passed over first, and however often files are read from there on, the
diagnostics come in strict order of their locations, each at a token of the source, and their number
is the one counted. -/
theorem diagnostics_ordered (U : Unicode.CharData) (bytes : List UInt8) (passed files : Nat) :
    let stream := Stream.ofBytes U bytes
    let r := (fun r => (readAll r).2)^[files] (Reading.start (stream.drop passed))
    (r.diagnostics.map (·.location)).Pairwise (· < ·) ∧
      (∀ d ∈ r.diagnostics, ∃ t ∈ stream.tokens ++ [bare .eof stream.ending],
        t.location = d.location) ∧
      r.errorCount = r.diagnostics.length := by
  intro stream r
  have hwhole : stream.Ordered := Stream.ordered_ofBytes U bytes
  have hr : r.Orderly stream := by
    refine Function.Iterate.rec (Reading.Orderly stream) ?_ ?_ files
    · exact Reading.orderly_start (Stream.withEnd_drop_suffix stream passed)
    · intro r hr
      exact ((readAllFrom_comesTo [] r).orderly hwhole hr).1
  rw [Reading.diagnostics, List.map_reverse, List.pairwise_reverse, List.pairwise_map,
    List.length_reverse]
  refine ⟨hr.sorted, fun d hd => ?_, hr.counted⟩
  exact hr.located d (List.mem_reverse.mp hd)

end Statement

end FirSyntax
