import FirSyntax.Proofs.Acceptance
import FirSyntax.Proofs.Reading.ParallelFile
import FirSyntax.Proofs.Source.Joining
import FirSyntax.Proofs.Token.Joining

/-!
# Errors are local

Whatever is wrong with the first part of a source file, the lines from the margin on are read as if
they stood alone. Reading the first part runs beside reading the whole, with the second part behind
it; then reading the second part runs beside reading the rest, further down and with the
diagnostics of the first part behind it.
-/
namespace FirSyntax

open Token Grammar Source

namespace SourceFile

/-- Bytes that are empty or end with a line terminator. -/
def EndsLine (front : List UInt8) : Prop :=
  front = [] ∨ ∃ init c, front = init ++ String.utf8EncodeChar c ∧ (Piece.char c).isTerminator = true

/-- Bytes that begin with neither white space nor a byte order mark. -/
def AtMargin (back : List UInt8) : Prop :=
  ∀ c, (decode back).head? = some (.char c) → isBlank c = false ∧ c ≠ '\uFEFF'

/-- The line behind the last line terminator of a source file. -/
def lineAfter (bytes : List UInt8) : Location := ⟨terminators (ofBytes bytes) + 1, 1⟩

variable {U : Unicode.CharData} {front back : List UInt8}

theorem AtMargin.head_ne (h : AtMargin back) : (decode back).head? ≠ some (.char '\uFEFF') :=
  fun hmark => (h _ hmark).2 rfl

theorem AtMargin.atBlank (h : AtMargin back) : atBlank (ofBytes back) = false := by
  rw [ofBytes_eq, withoutMark_of_head h.head_ne]
  cases hpieces : decode back with
  | nil => rfl
  | cons x rest =>
    cases x with
    | invalid bs => rfl
    | char c => exact (h c (by rw [hpieces]; rfl)).1

/-- The tokens of two parts, and where those of the first one stand. -/
theorem stream_append (hU : U.BlanksApart) (hfront : EndsLine front) (hback : AtMargin back) :
    Stream.ofBytes U (front ++ back) =
        ⟨(Stream.ofBytes U front).tokens ++ (Stream.ofBytes U back).tokens.map
            (Token.relocate (Location.down (terminators (ofBytes front)))),
          (Stream.ofBytes U back).ending.down (terminators (ofBytes front))⟩ ∧
      (Stream.ofBytes U front).ending = lineAfter front ∧
      Laid false .lineStart 0 (Stream.ofBytes U front).tokens ∧
      ∀ t ∈ (Stream.ofBytes U front).tokens,
        t.location = lineAfter front ∨ t.location.line ≤ terminators (ofBytes front) := by
  have hblank := hback.atBlank
  rcases hfront with rfl | ⟨init, c, rfl, hc⟩
  · have hnil : Stream.ofPieces U [] = ⟨[], Location.start⟩ := Scanner.stream_of_end
    have hzero : Token.relocate (Location.down 0) = id := by
      funext t
      simp [Token.relocate]
    refine ⟨?_, ?_, ?_, ?_⟩
    · simp [Stream.ofBytes, terminators, hnil, hzero]
    · simp [Stream.ofBytes, terminators, hnil, lineAfter, Location.start]
    · simp only [Stream.ofBytes, ofBytes_nil, hnil]
      exact .done
    · simp [Stream.ofBytes, hnil]
  · obtain ⟨happend, hterminated⟩ := ofBytes_append init hc hback.head_ne
    obtain ⟨hstream, hending, hlocated⟩ := Stream.ofPieces_append hU hterminated hblank
    refine ⟨?_, hending, ?_, hlocated⟩
    · rw [Stream.ofBytes, happend]
      exact hstream
    · exact Scanner.laid_lineStart (Scanner.start _) rfl fun _ => ⟨hU, .inr hterminated⟩

/-- How reading the whole of two parts differs from reading the first one. -/
def frontFrame (U : Unicode.CharData) (front : List UInt8) {back : List UInt8}
    (hback : AtMargin back) : Frame where
  place := id
  behind := (Stream.ofBytes U back).tokens.map
    (Token.relocate (Location.down (terminators (ofBytes front))))
  earlier := []
  Known l := l = lineAfter front ∨ 1 ≤ l.line ∧ l.line ≤ terminators (ofBytes front)
  last := lineAfter front
  last' := (Stream.ofBytes U back).ending.down (terminators (ofBytes front))
  cut := false
  place_injective := Function.injective_id
  place_unwritten := rfl
  apart := by simp
  known_last := .inl rfl
  ends := by
    intro hnil
    rcases Stream.ofPieces_margin (U := U) hback.atBlank with ⟨-, hstream⟩ | ⟨t, ts, hts, -⟩
    · rw [Stream.ofBytes, hstream, lineAfter, Location.down_of_pos (by simp [Location.start]),
        Nat.add_comm]
      rfl
    · rw [Stream.ofBytes, hts] at hnil
      cases hnil
  whole := .inr rfl
  level := by
    rcases Stream.ofPieces_margin (U := U) hback.atBlank with ⟨-, hstream⟩ | ⟨t, ts, hts, hk⟩
    · simp [Stream.ofBytes, hstream]
    · rw [Stream.ofBytes, hts, List.map_cons, leading_cons, Token.kind_relocate]
      constructor <;> intro heq <;> simp [heq, Kind.isLayout] at hk

/-- What stands `n` lines further down stands behind the first `n` lines. -/
theorem ne_down {n : Nat} {m : Location} (hline : 1 ≤ m.line ∧ m.line ≤ n) (l : Location) :
    m ≠ l.down n := by
  rintro rfl
  rw [Location.down] at hline
  split at hline
  · omega
  · simp only at hline
    omega

/-- How reading a part `n` lines further down differs from reading it alone. -/
def backFrame (n : Nat) (earlier : List Diagnostic) (last : Location)
    (hearlier : ∀ d ∈ earlier, 1 ≤ d.location.line ∧ d.location.line ≤ n) : Frame where
  place := Location.down n
  behind := []
  earlier := earlier
  Known _ := True
  last := last
  last' := last.down n
  cut := true
  place_injective := Location.down_injective n
  place_unwritten := Location.down_unwritten n
  apart l _ d hd := ne_down (hearlier d hd) l
  known_last := True.intro
  ends := fun _ => rfl
  whole := .inl rfl
  level := by simp

theorem parallel_front (hU : U.BlanksApart) (hfront : EndsLine front) (hback : AtMargin back) :
    Parallel (frontFrame U front hback) (Reading.start (Stream.ofBytes U front))
      (Reading.start (Stream.ofBytes U (front ++ back))) := by
  obtain ⟨hstream, hending, -, hlocated⟩ := stream_append hU hfront hback
  refine ⟨?_, hending, ?_, rfl, rfl, fun t ht => ?_, by simp [Reading.start]⟩
  · rw [Reading.start, hstream, frontFrame, Token.relocate_id, List.map_id]
    rfl
  · rw [Reading.start, hstream]
    rfl
  · refine (hlocated t ht).imp id fun hline => ⟨?_, hline⟩
    exact (Scanner.line_stream_le (Scanner.start (ofBytes front))).1 t ht

/-- Where the first part has been read, the second one stands in front of the reading of the whole as
it would stand alone. -/
theorem parallel_back {r s : Reading} {hback : AtMargin back}
    (h : Parallel (frontFrame U front hback) r s) (hlaid : r.LaidAs false .lineStart)
    (heof : r.current.kind = .eof)
    (hearlier : ∀ d ∈ r.reports,
      1 ≤ d.location.line ∧ d.location.line ≤ terminators (ofBytes front)) :
    Parallel (backFrame (terminators (ofBytes front)) r.reports (Stream.ofBytes U back).ending
      hearlier) (Reading.start (Stream.ofBytes U back)) s := by
  refine ⟨?_, rfl, h.ending', ?_, ?_, fun _ _ => True.intro, fun _ _ => True.intro⟩
  · rw [h.tokens, hlaid.tokens_of_eof heof, backFrame]
    simp [frontFrame, Reading.start]
  · rw [h.depth, (hlaid.lineStart_of_eof heof).2]
    rfl
  · rw [h.reports, frontFrame, Diagnostic.relocate_id]
    simp [backFrame, Reading.start]

/-- Behind a first part that ends with a line, and with nothing reported behind that line, a second
part that begins at the margin is read as if it stood alone. -/
theorem parse_append {U : Unicode.CharData} {front back : List UInt8} (name directory : String)
    (hU : U.BlanksApart) (hfront : EndsLine front) (hback : AtMargin back)
    (hend : ∀ d ∈ (parse U name directory front).2, d.location ≠ lineAfter front) :
    (parse U name directory (front ++ back)).1.body =
        (parse U name directory front).1.body ++ (parse U name directory back).1.body.map
          (Statement.relocate (Location.down (terminators (ofBytes front)))) ∧
      (parse U name directory (front ++ back)).2 =
        (parse U name directory front).2 ++ (parse U name directory back).2.map
          (Diagnostic.relocate (Location.down (terminators (ofBytes front)))) := by
  have hclean : Clean (frontFrame U front hback)
      (Statement.readAllFrom [] (Reading.start (Stream.ofBytes U front))).2 :=
    .inr fun d hd => hend d (List.mem_reverse.mpr hd)
  obtain ⟨-, -, hlaid, -⟩ := stream_append hU hfront hback
  obtain ⟨body, s, hbody, hs, hrest, heof, hagain⟩ := Statement.readAllFrom_parallel []
    (Reading.start (Stream.ofBytes U front)) (Reading.start (Stream.ofBytes U (front ++ back)))
    (parallel_front hU hfront hback) hlaid (.inl rfl) hclean
  have hearlier : ∀ d ∈ (Statement.readAllFrom [] (Reading.start (Stream.ofBytes U front))).2.reports,
      1 ≤ d.location.line ∧ d.location.line ≤ terminators (ofBytes front) := fun d hd =>
    (hs.reported d hd).resolve_left (hend d (List.mem_reverse.mpr hd))
  obtain ⟨body', t, hbody', ht, -, heof', hagain'⟩ := Statement.readAllFrom_parallel []
    (Reading.start (Stream.ofBytes U back)) s (parallel_back hs hrest heof hearlier)
    (Stream.laid_ofBytes U back) (.inl rfl) (.inl rfl)
  have hwhole : Statement.readAll (Reading.start (Stream.ofBytes U (front ++ back))) =
      (body ++ body'.map (Statement.relocate (Location.down (terminators (ofBytes front)))), t) := by
    have hend : t.current.kind = .eof := by rw [ht.kind (.inr rfl), heof']
    rw [Statement.readAll, hagain, hagain', Statement.readAllFrom_eof _ hend]
    simp [frontFrame, backFrame, funext Statement.relocate_id]
  simp only [parse, hwhole]
  constructor
  · rw [Statement.readAll, Statement.readAll, hbody, hbody']
    rfl
  · rw [Reading.diagnostics, ht.reports, List.reverse_append, ← List.map_reverse]
    rfl

/-- A header that breaks off and its block do not reach the declaration below them. -/
theorem parse_append_brokenHeader :
    (parse .standard "" "" (utf8 "proc p(:\n  return 1\n" ++ utf8 "var x : Int\n")).1.body =
      (parse .standard "" "" (utf8 "proc p(:\n  return 1\n")).1.body ++
        (parse .standard "" "" (utf8 "var x : Int\n")).1.body.map
          (Statement.relocate (Location.down 2)) ∧
      (parse .standard "" "" (utf8 "proc p(:\n  return 1\n" ++ utf8 "var x : Int\n")).2 =
        (parse .standard "" "" (utf8 "proc p(:\n  return 1\n")).2 ++
          (parse .standard "" "" (utf8 "var x : Int\n")).2.map
            (Diagnostic.relocate (Location.down 2)) := by
  have hfront : EndsLine (utf8 "proc p(:\n  return 1\n") :=
    .inr ⟨utf8 "proc p(:\n  return 1", '\n', by decide +kernel, by decide⟩
  have hback : AtMargin (utf8 "var x : Int\n") := by
    intro c hc
    have hv : (decode (utf8 "var x : Int\n")).head? = some (.char 'v') := by decide +kernel
    rw [hv] at hc
    cases hc
    decide
  have hlines : terminators (ofBytes (utf8 "proc p(:\n  return 1\n")) = 2 := by decide +kernel
  rw [← hlines]
  exact parse_append "" "" Unicode.CharData.blanksApart_standard hfront hback (by decide +kernel)

end SourceFile

end FirSyntax
