import FirSyntax.Proofs.Token.Tiling

/-!
# Nothing of a source is lost

The tokens of a source and the white space between them are all of the source, in order, and where a
token stands in it is known from its location.
-/
namespace FirSyntax.Token.Stream

open Source

/-- The pieces of any bytes are divided, in order, into the spans of the tokens that take a place and
white space between them. -/
theorem spans_divide (U : Unicode.CharData) (bytes : List UInt8) :
    Divides U true (Source.ofBytes bytes)
      ((ofBytes U bytes).tokens.filter fun t => t.kind.takesPlace) :=
  (Scanner.standsAt_start (Source.ofBytes bytes)).tiles.divides

/-- The location of every token is the place of the first piece of its span, of the first content of
its line, or of the end of the input. No token is located before an earlier one, and neither another
token that takes a place nor the end of the file is located where a token takes a place. -/
theorem places_exact (U : Unicode.CharData) (bytes : List UInt8) :
    let input := Source.ofBytes bytes
    let stream := ofBytes U bytes
    Tiles U input true 0 stream.tokens stream.ending ∧
      (stream.tokens ++ [bare .eof stream.ending]).Pairwise (fun t u => t.location ≤ u.location) ∧
      ((stream.tokens.filter fun t => t.kind.takesPlace) ++ [bare .eof stream.ending]).Pairwise
        (fun t u => t.location < u.location) := by
  intro input stream
  have hordered : (stream.tokens ++ [bare .eof stream.ending]).Pairwise Before :=
    (Scanner.stream_ordered (Scanner.start input)).1
  have hplaced : ((stream.tokens.filter fun t => t.kind.takesPlace) ++
      [bare .eof stream.ending]).Pairwise Before :=
    hordered.sublist (List.filter_sublist.append_right _)
  refine ⟨(Scanner.standsAt_start input).tiles, ?_, ?_⟩
  · exact hordered.imp fun hbefore => hbefore.1
  · rw [List.pairwise_append] at hplaced ⊢
    obtain ⟨htokens, -, hend⟩ := hplaced
    refine ⟨htokens.imp_of_mem fun ht _ hbefore => ?_, List.pairwise_singleton _ _, ?_⟩
    · exact hbefore.2 (List.mem_filter.mp ht).2
    · exact fun t ht u hu => (hend t ht u hu).2 (List.mem_filter.mp ht).2

end FirSyntax.Token.Stream
