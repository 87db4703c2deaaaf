import FirSyntax.Proofs.Token.LineStart
import FirSyntax.Unicode.Table

/-!
# Indentation

At the start of a line the tokens of a lexer are those that the layout rule gives for the width of
the line and the levels that are open, and then the first token of the content.
-/
namespace FirSyntax.Token

open Source Unicode

namespace Lexer

variable {U : CharData} {pieces : List Piece}

/-- The scanner of a lexer that has scanned `n` tokens. -/
def scannerAfter (U : CharData) (pieces : List Piece) : Nat → Scanner
  | 0 => Scanner.start pieces
  | n + 1 => (advanced U pieces n).scanner

/-- The token that a lexer scans when it has scanned `n` others. -/
def scanned (U : CharData) (pieces : List Piece) (n : Nat) : Token :=
  (advanced U pieces n).window.next

theorem scannerAfter_eq (U : CharData) (pieces : List Piece) (n : Nat) :
    scannerAfter U pieces n = (Scanner.start pieces).after U n := by
  cases n with
  | zero => rfl
  | succ n => exact (advanced_eq U pieces n).1

/-- The tokens that a lexer scans are those from its scanner on. -/
theorem scanned_of_tokens {n i : Nat} {t : Token}
    (h : ((scannerAfter U pieces n).stream U).tokens[i]? = some t) :
    scanned U pieces (n + i) = t := by
  rw [← Stream.head_drop h, scannerAfter_eq, Scanner.head_drop_stream, ← Scanner.after_add]
  exact (advanced_eq U pieces (n + i)).2.1

end Lexer

/-- Behind white space a scanner at the start of a line is in front of the content. -/
theorem Scanner.front_atPiece {U : CharData} {input gap : List Piece} {n k : Nat}
    (hstart : ((start input).after U n).layout.atLineStart = true)
    (hrest : ((start input).after U n).cursor.rest = gap ++ input.drop k)
    (hgap : ∀ x ∈ gap, x.isChar isBlank = true) (hk : k < input.length)
    (hblank : atBlank (input.drop k) = false) :
    ((start input).after U n).front = .atPiece input k := by
  generalize hs : (start input).after U n = s at hstart hrest ⊢
  have hfollows : (Cursor.atPiece input 0).Follows s.front := by
    rw [front_of_start hstart, ← hs]
    exact (follows_after input n).trans (.skip _ _)
  have hfront : s.front.rest = input.drop k := by
    obtain ⟨l, hspan⟩ := spanFrom_pieces (p := atBlank) (fun x hx _ => hgap x hx) hblank []
      s.cursor.location
    rw [front_of_start hstart, Cursor.skip, Cursor.span, hrest, hspan]
  have htaken : input.drop 0 = input.take k ++ s.front.rest := by
    rw [hfront, List.take_append_drop, List.drop_zero]
  have hlength : (input.take k).length = k := List.length_take_of_le (Nat.le_of_lt hk)
  have hplace := hfollows.eq_atPiece (Nat.zero_le _) htaken
  rwa [hlength, Nat.zero_add] at hplace

/-- Wherever a lexer is at the start of a line, the next tokens that it scans are those of layout that
the rule gives for the code points in front of the content on its line, in this order, and then the
first token of the content. All of them have the location of the content, and the levels behind the
tokens of layout are those of the rule. -/
theorem Lexer.lineStart_rule (U : CharData) (bytes : List UInt8) (n k : Nat) (gap : List Piece) :
    let input := Source.ofBytes bytes
    let s := scannerAfter U input n
    s.layout.atLineStart = true → s.cursor.rest = gap ++ input.drop k →
      (∀ x ∈ gap, x.isChar isBlank = true) → k < input.length → atBlank (input.drop k) = false →
      let rule := Layout.rule s.layout.levels (lineBefore input k).length
      (∀ i kind, rule.1[i]? = some kind →
          scanned U input (n + i) = bare kind (place input k)) ∧
        (scanned U input (n + rule.1.length)).kind.isLayout = false ∧
        (scanned U input (n + rule.1.length)).location = place input k ∧
        (scannerAfter U input (n + rule.1.length)).layout.levels = rule.2 := by
  intro input s hstart hrest hgap hk hblank rule
  have hs : s = (Scanner.start input).after U n := scannerAfter_eq U input n
  have hfront : s.front = .atPiece input k := by
    rw [hs] at hstart hrest ⊢
    exact Scanner.front_atPiece hstart hrest hgap hk hblank
  have hlevels : Nested s.layout.levels := by
    rw [hs]
    exact Scanner.nested_after n nested_nil
  obtain ⟨first, behind, htokens, hcontent, hlocation, hafter⟩ :=
    Scanner.tokens_of_lineStart (U := U) hstart hlevels hfront hk
  change (s.stream U).tokens =
    (rule.1.map fun kind => bare kind (place input k)) ++ first :: behind at htokens
  have hlength : (rule.1.map fun kind => bare kind (place input k)).length = rule.1.length :=
    List.length_map _
  have hfirst : scanned U input (n + rule.1.length) = first := by
    apply scanned_of_tokens
    rw [htokens, ← hlength, List.getElem?_append_right (Nat.le_refl _), Nat.sub_self]
    rfl
  rw [hfirst]
  refine ⟨fun i kind hkind => ?_, hcontent, hlocation, ?_⟩
  · have hi : i < rule.1.length := (List.getElem?_eq_some_iff.mp hkind).1
    apply scanned_of_tokens
    rw [htokens, List.getElem?_append_left (by rwa [hlength]), List.getElem?_map, hkind]
    rfl
  · rw [scannerAfter_eq, Scanner.after_add, ← hs]
    exact hafter

/-- A line that closes two of three levels. -/
theorem Lexer.lineStart_rule_unindents :
    let input := Source.ofBytes (utf8 "a\n b\n  c\n   d\n e\n")
    (scannerAfter .standard input 11).layout = ⟨[3, 2, 1], true⟩ ∧
      (scannerAfter .standard input 11).cursor.rest = [.char ' '] ++ input.drop 15 ∧
      scanned .standard input 11 = bare .unindent ⟨5, 2⟩ ∧
      scanned .standard input 12 = bare .unindent ⟨5, 2⟩ ∧
      (scanned .standard input 13).kind.isLayout = false ∧
      (scanned .standard input 13).location = ⟨5, 2⟩ ∧
      (scannerAfter .standard input 13).layout.levels = [1] := by
  intro input
  have hlayout : (scannerAfter .standard input 11).layout = ⟨[3, 2, 1], true⟩ := by decide +kernel
  have hrest : (scannerAfter .standard input 11).cursor.rest = [.char ' '] ++ input.drop 15 := by
    decide +kernel
  have hplace : place input 15 = ⟨5, 2⟩ := by decide +kernel
  have hwidth : (lineBefore input 15).length = 1 := by decide +kernel
  have hrule : Layout.rule [3, 2, 1] 1 = ([.unindent, .unindent], [1]) := by decide
  obtain ⟨htokens, hcontent, hlocation, hlevels⟩ := lineStart_rule .standard
    (utf8 "a\n b\n  c\n   d\n e\n") 11 15 [.char ' '] (congrArg Layout.atLineStart hlayout) hrest
    (by decide) (by decide +kernel) (by decide +kernel)
  rw [hlayout, hwidth, hrule] at htokens hcontent hlocation hlevels
  rw [hplace] at htokens hlocation
  exact ⟨hlayout, hrest, htokens 0 _ rfl, htokens 1 _ rfl, hcontent, hlocation, hlevels⟩

end FirSyntax.Token
