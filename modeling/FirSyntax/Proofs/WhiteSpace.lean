import Mathlib.Logic.Relation
import FirSyntax.Proofs.Reading.Respelling
import FirSyntax.Proofs.Source.Lines

/-!
# White space without a meaning

How a line is ended, what white space stands at its end, and which lines of white space stand between
the lines makes no difference to the tokens of a source but where they stand, and so none to the file
it holds and to what is wrong with it.
-/
namespace FirSyntax

open Token Source

namespace Source

/-- The ways to end a line. -/
def lineEnds : List String := ["\n", "\x0b", "\x0c", "\r", "\r\n", "\u0085", "\u2028", "\u2029"]

/-- A change of the white space between the lines of a source. -/
inductive Respaces : List UInt8 → List UInt8 → Prop
  /-- A line is ended in another way. -/
  | terminator {front back t t'} : t ∈ lineEnds → t' ∈ lineEnds →
      Respaces (front ++ (utf8 t ++ back)) (front ++ (utf8 t' ++ back))
  /-- White space is added at the end of a line. -/
  | trailing {front back space t} : IsMargin space → t ∈ lineEnds →
      Respaces (front ++ (utf8 t ++ back)) (front ++ (utf8 space ++ (utf8 t ++ back)))
  /-- A line of white space is added, not in front of a byte order mark. -/
  | line {front back space t} : StartsLine front → (front = [] → withoutMark back = back) →
      IsMargin space → t ∈ lineEnds →
      Respaces (front ++ back) (front ++ (utf8 space ++ (utf8 t ++ back)))

variable {bytes bytes' : List UInt8} {space t : String}

theorem utf8_append (s t : String) : utf8 (s ++ t) = utf8 s ++ utf8 t := by
  rw [utf8, String.toList_append, List.flatMap_append]
  rfl

theorem isBreak_lineEnd (h : t ∈ lineEnds) : IsBreak (t.toList.map .char) := by
  have hsingle {c : Char} (hblank : isBlank c = true) (hc : (Piece.char c).isTerminator = true) :
      IsBreak [.char c] :=
    ⟨List.forall_mem_singleton.mpr hblank, [], .char c, rfl, hc⟩
  simp only [lineEnds, List.mem_cons, List.not_mem_nil, or_false] at h
  rcases h with rfl | rfl | rfl | rfl | rfl | rfl | rfl | rfl
  · exact hsingle (by decide) (by decide)
  · exact hsingle (by decide) (by decide)
  · exact hsingle (by decide) (by decide)
  · exact hsingle (by decide) (by decide)
  · have hreturn : ∀ y ∈ [Piece.char '\r'], y.isChar isBlank = true := by decide
    exact .append hreturn (hsingle (by decide) (by decide))
  · exact hsingle (by decide) (by decide)
  · exact hsingle (by decide) (by decide)
  · exact hsingle (by decide) (by decide)

theorem isBreak_line (hspace : IsMargin space) (h : t ∈ lineEnds) :
    IsBreak ((space ++ t).toList.map .char) := by
  rw [String.toList_append, List.map_append]
  refine .append ?_ (isBreak_lineEnd h)
  rw [List.forall_mem_map]
  exact fun c hc => (hspace c hc).1

theorem toNat_blank {c : Char} (h : isBlank c = true) : c.toNat < 0xF000 := by
  simp [isBlank] at h
  omega

/-- A source with a break at some place of it. -/
theorem ofBytes_break (init : List UInt8) :
    ∃ front, ∀ text : String, IsBreak (text.toList.map .char) → ∀ ys,
      ofBytes (init ++ (utf8 text ++ ys)) = front ++ (text.toList.map .char ++ decode ys) := by
  refine ⟨ofBytes init, fun text htext ys => ?_⟩
  cases htoList : text.toList with
  | nil =>
    rw [htoList] at htext
    exact absurd rfl htext.terminated.ne_nil
  | cons c cs =>
    rw [htoList, List.map_cons] at htext
    have hcs : utf8 text = String.utf8EncodeChar c ++ utf8 (String.ofList cs) := by
      rw [utf8, utf8, htoList, String.toList_ofList, List.flatMap_cons]
    rw [hcs, List.append_assoc, ofBytes_char init (toNat_blank (htext.atBlank [])), decode_utf8_append,
      String.toList_ofList]
    rfl

/-- A break at the beginning of a source. -/
theorem ofBytes_break_start {text : String} (h : IsBreak (text.toList.map .char)) (ys : List UInt8) :
    ofBytes (utf8 text ++ ys) = text.toList.map .char ++ decode ys := by
  have hmark : (decode (utf8 text ++ ys)).head? ≠ some (.char '\uFEFF') := by
    rw [decode_utf8_append]
    intro hhead
    cases htoList : text.toList with
    | nil =>
      rw [htoList] at h
      exact absurd rfl h.terminated.ne_nil
    | cons c cs =>
      rw [htoList] at h hhead
      cases hhead
      exact absurd (h.atBlank []) (by decide)
  rw [ofBytes_eq, withoutMark_of_head hmark, decode_utf8_append]

end Source

/-- A change of white space does not bear on how the tokens are spelled. -/
theorem Source.Respaces.spelling {U : Unicode.CharData} (hU : U.BlanksApart)
    {bytes bytes' : List UInt8} (h : Respaces bytes bytes') :
    Token.spelling (Stream.ofBytes U bytes').tokens =
      Token.spelling (Stream.ofBytes U bytes).tokens := by
  cases h with
  | @terminator front back t t' ht ht' =>
    obtain ⟨pieces, hpieces⟩ := ofBytes_break front
    have hbreak := isBreak_lineEnd ht
    have hbreak' := isBreak_lineEnd ht'
    rw [Stream.ofBytes, Stream.ofBytes, hpieces t hbreak, hpieces t' hbreak']
    exact Stream.spelling_break hU hbreak' hbreak _ _
  | @trailing front back space t hspace ht =>
    obtain ⟨pieces, hpieces⟩ := ofBytes_break front
    have hbreak := isBreak_lineEnd ht
    have hbreak' := isBreak_line hspace ht
    rw [← List.append_assoc (utf8 space), ← utf8_append, Stream.ofBytes, Stream.ofBytes,
      hpieces t hbreak, hpieces (space ++ t) hbreak']
    exact Stream.spelling_break hU hbreak' hbreak _ _
  | @line front back space t hfront hmark hspace ht =>
    have hbreak := isBreak_line hspace ht
    rw [← List.append_assoc (utf8 space), ← utf8_append]
    rcases hfront with rfl | rfl | ⟨init, c, rfl, hc⟩
    · have hback : ofBytes back = decode back := by rw [ofBytes_eq, hmark rfl]
      rw [List.nil_append, List.nil_append, Stream.ofBytes, Stream.ofBytes, hback,
        ofBytes_break_start hbreak]
      exact Stream.spelling_break_start hbreak _
    · have hskip (bytes : List UInt8) : ofBytes ([0xEF, 0xBB, 0xBF] ++ bytes) = decode bytes :=
        ofBytes_eq _
      rw [Stream.ofBytes, Stream.ofBytes, hskip, hskip, decode_utf8_append]
      exact Stream.spelling_break_start hbreak _
    · have hpieces := ofBytes_char init (toNat_terminator hc)
      have hend : IsBreak [.char c] :=
        ⟨List.forall_mem_singleton.mpr (atBlank_of_endsLine hc), [], .char c, rfl, hc⟩
      rw [List.append_assoc, List.append_assoc, Stream.ofBytes, Stream.ofBytes,
        hpieces, hpieces, decode_utf8_append]
      exact Stream.spelling_break hU (.append hend.blank hbreak) hend _ _

namespace SourceFile

/-- However often and wherever white space is changed between the lines of a source, the tokens have
the same kinds and texts, the file is the same up to locations and has the same text, and the same
messages are reported in the same order. -/
theorem parse_respaced {U : Unicode.CharData} (hU : U.BlanksApart) (name directory : String)
    {bytes bytes' : List UInt8} (h : Relation.ReflTransGen Respaces bytes bytes') :
    (Stream.ofBytes U bytes').tokens.map (fun t => (t.kind, t.text)) =
        (Stream.ofBytes U bytes).tokens.map (fun t => (t.kind, t.text)) ∧
      (parse U name directory bytes').1.body.map (Statement.relocate .erase) =
        (parse U name directory bytes).1.body.map (Statement.relocate .erase) ∧
      (parse U name directory bytes').2.map (·.message) =
        (parse U name directory bytes).2.map (·.message) ∧
      (parse U name directory bytes').1.write = (parse U name directory bytes).1.write := by
  have hspelling :
      spelling (Stream.ofBytes U bytes).tokens = spelling (Stream.ofBytes U bytes').tokens := by
    induction h with
    | refl => rfl
    | tail _ hrespaces ih => exact ih.trans (hrespaces.spelling hU).symm
  exact ⟨hspelling.symm, parse_of_spelling U name directory hspelling⟩

/-- A header that breaks off, once its line ends with white space and CR LF and a line of white space
stands in front of it. -/
theorem parse_respaced_brokenHeader :
    Relation.ReflTransGen Respaces (utf8 "proc p( # q\n  return 1\n")
        (utf8 " \u0085proc p( # q \r\n  return 1\n") ∧
      (parse .standard "" "" (utf8 " \u0085proc p( # q \r\n  return 1\n")).2.map (·.message) =
        (parse .standard "" "" (utf8 "proc p( # q\n  return 1\n")).2.map (·.message) ∧
      (parse .standard "" "" (utf8 " \u0085proc p( # q \r\n  return 1\n")).1.write =
        (parse .standard "" "" (utf8 "proc p( # q\n  return 1\n")).1.write := by
  have hspace : IsMargin " " := by
    intro c hc
    rw [List.mem_singleton.mp hc]
    decide
  have hreturn : Respaces (utf8 "proc p( # q\n  return 1\n") (utf8 "proc p( # q\r\n  return 1\n") :=
    @Respaces.terminator (utf8 "proc p( # q") (utf8 "  return 1\n") "\n" "\r\n" (by decide)
      (by decide)
  have htrailing : Respaces (utf8 "proc p( # q\r\n  return 1\n")
      (utf8 "proc p( # q \r\n  return 1\n") :=
    @Respaces.trailing (utf8 "proc p( # q") (utf8 "  return 1\n") " " "\r\n" hspace (by decide)
  have hline : Respaces (utf8 "proc p( # q \r\n  return 1\n")
      (utf8 " \u0085proc p( # q \r\n  return 1\n") := by
    have hsplit : utf8 " \u0085proc p( # q \r\n  return 1\n" =
        utf8 " " ++ (utf8 "\u0085" ++ utf8 "proc p( # q \r\n  return 1\n") := by decide +kernel
    rw [hsplit]
    exact @Respaces.line [] _ " " "\u0085" (.inl rfl) (fun _ => by decide +kernel) hspace
      (by decide)
  have hall := ((Relation.ReflTransGen.single hreturn).tail htrailing).tail hline
  obtain ⟨-, -, hmessages, hwrite⟩ :=
    parse_respaced Unicode.CharData.blanksApart_standard "" "" hall
  exact ⟨hall, hmessages, hwrite⟩

end SourceFile

end FirSyntax
