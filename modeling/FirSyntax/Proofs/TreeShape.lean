import FirSyntax.Proofs.Acceptance
import FirSyntax.Proofs.Reading.Shape
import FirSyntax.Proofs.Token.Order

/-!
# The shape of every tree

Whatever the bytes of a source are, and whatever is reported, the tree that is read of them has the
shape that the rest of the program relies on. What is missing from a tree then has been reported.
-/
namespace FirSyntax

open Token Unicode

namespace Token

variable {U : CharData} {ts : List Token} {bytes : List UInt8}

/-- A text is a name of a source: one of its identifiers has it, and no keyword does. -/
def IsNameIn (ts : List Token) (text : String) : Prop :=
  (∃ t ∈ ts, t.kind = .identifier ∧ t.text = text) ∧ ∀ w : Keyword, w.spelling ≠ text

/-- The names of a source are those of its identifiers, whatever the tables say. -/
theorem Stream.wellSpelled_ofBytes (U : CharData) (bytes : List UInt8) :
    ∀ t ∈ (Stream.ofBytes U bytes).tokens,
      t.WellSpelled (IsNameIn (Stream.ofBytes U bytes).tokens) := by
  intro t ht
  have hspelled := Scanner.wellSpelled_stream (spellsWords_unreserved U)
    (Scanner.start (Source.ofBytes bytes)) t ht
  refine ⟨fun hkind => ⟨⟨t, ht, hkind, rfl⟩, ?_⟩, hspelled.comment⟩
  exact spelling_ne_of_unreserved (hspelled.identifier hkind)

/-- Of the tokens inside lines, each stands before those behind it. -/
theorem Stream.contentPlaces_increasing (U : CharData) (bytes : List UInt8) :
    (contentPlaces (Stream.ofBytes U bytes).tokens).Pairwise (· < ·) := by
  have hordered := (Scanner.stream_ordered (U := U) (Scanner.start (Source.ofBytes bytes))).1
  rw [contentPlaces, List.pairwise_map]
  refine ((List.pairwise_append.mp hordered).1.sublist List.filter_sublist).imp_of_mem
    fun {t u} ht _ htu => htu.2 ?_
  have hcontent := (List.mem_filter.mp ht).2
  rw [Kind.takesPlace, hcontent]
  rfl

end Token

/-- Whatever is read of any bytes is well shaped: no path, no list of names, declarations or imports
is empty; a type without segments is not optional and stands nowhere; names are those of identifiers
and never keywords; no name is one of the truth values; comments stay on their line and have no white
space around them; values are returned in procedures, and imports and the name of the module stand at
the top level. A statement stands behind those before it and the procedures around it. Unless
something was reported, constants have one name and a value each, and procedures have a body. -/
theorem SourceFile.parse_shaped (U : CharData) (name directory : String) (bytes : List UInt8) :
    (∀ s ∈ (parse U name directory bytes).1.body,
        s.Shaped (IsNameIn (Stream.ofBytes U bytes).tokens) .file) ∧
      (Statement.placesAll (parse U name directory bytes).1.body).Pairwise (· < ·) ∧
      ((parse U name directory bytes).2 = [] →
        ∀ s ∈ (parse U name directory bytes).1.body, s.Complete) := by
  obtain ⟨s, hshaped, ts, htokens, hplaces⟩ :=
    keeps_parse (Stream.wellSpelled_ofBytes U bytes) name directory
  refine ⟨hshaped, ?_, fun hnil => (isFile_of_parse U name directory bytes hnil).lax.2⟩
  have hincreasing : (contentPlaces (ts ++ s.stream.tokens)).Pairwise (· < ·) :=
    htokens ▸ Stream.contentPlaces_increasing U bytes
  rw [contentPlaces, List.filter_append, List.map_append] at hincreasing
  exact (List.pairwise_append.mp hincreasing).1.sublist hplaces

end FirSyntax
