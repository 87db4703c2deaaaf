import FirSyntax.Proofs.Token.Charge
import FirSyntax.Unicode.Table

/-!
# The lookahead of a lexer

However the calls of a lexer are mixed, only the number of those that advance it tells what it shows:
the next token of the stream and the one after it. The stream is no longer than one and a half times
its input, and behind its last token there is the end of the file for good.
-/
namespace FirSyntax.Token

open Source Unicode

namespace Lexer

/-- The calls that a lexer takes. -/
inductive Call where
  | advance
  | window
  | next
deriving DecidableEq, Repr

/-- Whether the call moves the lexer on by a token. -/
def Call.advances : Call → Bool
  | advance | next => true
  | window => false

inductive Answer where
  | window (w : Window)
  | token (t : Option Token)
deriving DecidableEq, Repr

/-- What a call answers, and the lexer after it. -/
def call (U : CharData) (l : Lexer) : Call → Answer × Lexer
  | .advance => (.window (l.advance U).window, l.advance U)
  | .window => (.window l.window, l)
  | .next => (.token (l.next? U), l.advance U)

def afterCalls (U : CharData) (l : Lexer) (calls : List Call) : Lexer :=
  calls.foldl (fun l c => (l.call U c).2) l

variable {U : CharData} {l : Lexer} {c : Call}

theorem call_of_advances (h : c.advances = true) : (l.call U c).2 = l.advance U := by
  cases c with
  | advance | next => rfl
  | window => cases h

theorem afterCalls_eq (l : Lexer) (calls : List Call) :
    l.afterCalls U calls = (advance U)^[calls.countP Call.advances] l := by
  induction calls generalizing l with
  | nil => rfl
  | cons c calls ih =>
    have hcons : l.afterCalls U (c :: calls) = afterCalls U (l.call U c).2 calls := rfl
    rw [hcons, ih]
    cases c with
    | advance | next => rw [List.countP_cons_of_pos rfl, Function.iterate_succ_apply]; rfl
    | window => rw [List.countP_cons_of_neg Bool.false_ne_true]; rfl

/-- The window is over the tokens of the stream. -/
theorem window_advanced (U : CharData) (pieces : List Piece) (n : Nat) :
    (advanced U pieces (n + 1)).window =
      ⟨((Stream.ofPieces U pieces).drop n).head, ((Stream.ofPieces U pieces).drop (n + 1)).head⟩ := by
  have hnext := (advanced_eq U pieces (n + 1)).2.1
  rw [← Scanner.head_drop_stream] at hnext
  exact congrArg₂ Window.mk (current_eq_head U pieces n) hnext

theorem next?_eq (U : CharData) (l : Lexer) :
    l.next? U = if (l.advance U).window.current.kind = .eof then none
      else some (l.advance U).window.current := by
  by_cases heof : (l.advance U).window.current.kind = .eof
  · simp [next?, Window.more, heof]
  · simp [next?, Window.more, heof]

/-- A source of `n` code points has at most `3 * n / 2` tokens before the end of the file, and behind
them only that end. After any calls, the next one that advances the lexer shows the token whose
number is that of such calls before it, and the token behind it; an iteration yields this token,
unless the file has ended. A look at the window shows it and leaves the lexer as it is. -/
theorem calls_in_step (U : CharData) (bytes : List UInt8) :
    let input := Source.ofBytes bytes
    let stream := Stream.ofBytes U bytes
    let token (k : Nat) := (stream.drop k).head
    2 * stream.length ≤ 3 * input.length ∧
      (∀ k < stream.length, (token k).kind ≠ .eof) ∧
      (∀ k, stream.length ≤ k → token k = bare .eof stream.ending) ∧
      ∀ calls : List Call,
        let l := (start U input).afterCalls U calls
        let k := calls.countP Call.advances
        (∀ c : Call, c.advances = true → (l.call U c).2.window = ⟨token k, token (k + 1)⟩) ∧
          (l.call U .advance).1 = .window ⟨token k, token (k + 1)⟩ ∧
          (l.call U .next).1 =
            .token (if (token k).kind = .eof then none else some (token k)) ∧
          l.call U .window = (.window l.window, l) := by
  intro input stream token
  refine ⟨Stream.length_ofPieces_le U input, fun k hk => ?_,
    fun k hk => Stream.head_drop_of_length_le hk, ?_⟩
  · have htoken : token k = stream.tokens[k] := Stream.head_drop (List.getElem?_eq_getElem hk)
    rw [htoken]
    exact Scanner.ne_eof_of_mem _ _ (List.getElem_mem hk)
  · intro calls l k
    have hl : l = advanced U input k := afterCalls_eq _ calls
    have hwindow : (l.advance U).window = ⟨token k, token (k + 1)⟩ := by
      rw [hl, ← advanced_succ]
      exact window_advanced U input k
    refine ⟨fun c hc => ?_, congrArg Answer.window hwindow, ?_, rfl⟩
    · rw [call_of_advances hc]
      exact hwindow
    · rw [call, next?_eq, hwindow]

/-- The bound is reached: the white space in front of the only line is a token that opens a level. -/
example :
    2 * (Stream.ofBytes .standard (utf8 " a")).length = 3 * (Source.ofBytes (utf8 " a")).length := by
  decide +kernel

end Lexer

end FirSyntax.Token
