import FirSyntax.Proofs.Acceptance
import FirSyntax.Proofs.Reading.ParallelFile
import FirSyntax.Proofs.Token.Respelling
import FirSyntax.Proofs.Writing.Merging

/-!
# Files of one spelling

The reader compares locations and does nothing else with them, so it gives the same trees and
diagnostics, at other places, for tokens that are spelled alike.
-/
namespace FirSyntax

open Token Grammar

variable {φ : Location → Location} {stream stream' : Stream}

/-- How reading the tokens of a stream at other locations differs from reading the stream. -/
def relocationFrame (hφ : Function.Injective φ) (hunwritten : φ .unwritten = .unwritten)
    (ending : Location) : Frame where
  place := φ
  behind := []
  earlier := []
  Known _ := True
  last := ending
  last' := φ ending
  cut := true
  place_injective := hφ
  place_unwritten := hunwritten
  apart := by simp
  known_last := True.intro
  ends _ := rfl
  whole := Frame.whole_nil true
  level := Frame.level_nil

/-- Tokens at other locations are read as the same statements at other locations. -/
theorem Statement.readAll_relocate (hφ : Function.Injective φ)
    (hunwritten : φ .unwritten = .unwritten)
    (htokens : stream'.tokens = stream.tokens.map (Token.relocate φ))
    (hending : stream'.ending = φ stream.ending) (hlaid : Laid true .lineStart 0 stream.tokens) :
    (readAll (Reading.start stream')).1 = (readAll (Reading.start stream)).1.map (relocate φ) ∧
      (readAll (Reading.start stream')).2.reports =
        (readAll (Reading.start stream)).2.reports.map (Diagnostic.relocate φ) := by
  have hparallel : Parallel (relocationFrame hφ hunwritten stream.ending) (Reading.start stream)
      (Reading.start stream') := by
    refine ⟨?_, rfl, hending, rfl, rfl, fun _ _ => True.intro, fun _ _ => True.intro⟩
    exact htokens.trans (List.append_nil _).symm
  obtain ⟨body, s, hbody, hs, -, heof, hagain⟩ := readAllFrom_parallel [] (Reading.start stream)
    (Reading.start stream') hparallel hlaid (.inl rfl) (.inl rfl)
  have hend : s.current.kind = .eof := (hs.kind (.inr rfl)).trans heof
  have hreports := hs.reports
  rw [readAll, readAll, hagain, readAllFrom_eof _ hend, hbody]
  refine ⟨?_, hreports.trans (List.append_nil _)⟩
  rw [List.append_nil, List.reverse_reverse]
  rfl

namespace SourceFile

/-- Sources that are spelled alike hold the same file, and the same is wrong with them. -/
theorem parse_of_spelling (U : Unicode.CharData) (name directory : String)
    {bytes bytes' : List UInt8}
    (h : spelling (Stream.ofBytes U bytes).tokens = spelling (Stream.ofBytes U bytes').tokens) :
    (parse U name directory bytes').1.body.map (Statement.relocate .erase) =
        (parse U name directory bytes).1.body.map (Statement.relocate .erase) ∧
      (parse U name directory bytes').2.map (·.message) =
        (parse U name directory bytes).2.map (·.message) ∧
      (parse U name directory bytes').1.write = (parse U name directory bytes).1.write := by
  have hall (stream : Stream) : spelling (stream.tokens ++ [bare .eof stream.ending]) =
      spelling stream.tokens ++ [(.eof, "")] := by
    rw [spelling, List.map_append]
    rfl
  obtain ⟨φ, hφ, hunwritten, hmap⟩ :=
    (placed_ofBytes U bytes).exists_relocate (placed_ofBytes U bytes')
    (by rw [hall, hall, h])
  rw [List.map_append] at hmap
  obtain ⟨htokens, hlast⟩ := List.append_inj' hmap rfl
  have hending : (Stream.ofBytes U bytes').ending = φ (Stream.ofBytes U bytes).ending :=
    congrArg Token.location (List.singleton_inj.mp hlast)
  obtain ⟨hbody, hreports⟩ :=
    Statement.readAll_relocate hφ hunwritten htokens hending (Stream.laid_ofBytes U bytes)
  refine ⟨?_, ?_, ?_⟩
  · rw [parse, parse, hbody, List.map_map]
    exact List.map_congr_left fun s _ => s.relocate_erase φ
  · rw [parse, parse, Reading.diagnostics, Reading.diagnostics, hreports, ← List.map_reverse,
      List.map_map]
    exact List.map_congr_left fun d _ => d.message_relocate φ
  · rw [write, write, parse, parse, hbody, Statement.writeAll, Statement.writeAll,
      Statement.linesOfAll_eq_flatMap, Statement.linesOfAll_eq_flatMap, List.flatMap_map,
      funext fun s => Statement.lines_relocate φ s 0]

end SourceFile

end FirSyntax
