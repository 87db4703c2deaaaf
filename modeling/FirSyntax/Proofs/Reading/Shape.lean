import FirSyntax.Proofs.Grammar.Shape
import FirSyntax.Proofs.Reading.FileSoundness

/-!
# Shapes of trees that are read

Whatever is wrong with a source and passed over, each line of the statements that are kept is derived
from tokens of the source. So the statements have their shape, and they stand, one after the other,
at tokens of the source.
-/
namespace FirSyntax

open Token Grammar Unicode

variable {Named : String → Prop} {place : Place} {r s t : Reading} {depth : Nat}
  {ls ls' : List Location} {body body' : List Statement}

namespace Statement

mutual

/-- Where a statement and those beneath it stand, a procedure before its body. -/
def places : Statement → List Location
  | .procedure header body => header.location :: placesAll body
  | s => [s.location]

def placesAll : List Statement → List Location
  | [] => []
  | s :: rest => places s ++ placesAll rest

end

theorem placesAll_append (body body' : List Statement) :
    placesAll (body ++ body') = placesAll body ++ placesAll body' := by
  induction body with
  | nil => rfl
  | cons s body ih => rw [List.cons_append, placesAll, placesAll, ih, List.append_assoc]

theorem placesAll_singleton (s : Statement) : placesAll [s] = s.places := by
  rw [placesAll, placesAll, List.append_nil]

end Statement

theorem Grammar.IsLine.places {strict : Bool} {first : Token} {fs : List Token}
    {comment : Option String} {s : Statement} (h : IsLine strict place (first :: fs) comment s) :
    s.places = [first.location] := by
  cases h <;> rfl

theorem Grammar.IsHeading.location {first : Token} {fs : List Token} {header : Header}
    (h : IsHeading (first :: fs) header) : header.location = first.location := by
  cases h
  rfl

/-- Where the tokens inside lines stand. -/
def Token.contentPlaces (ts : List Token) : List Location :=
  (ts.filter fun t => !t.kind.isLayout).map (·.location)

namespace Reading

/-- On the way from `r` to `s`, tokens inside lines are passed at the places `ls`, in this order. -/
def Crosses (r : Reading) (ls : List Location) (s : Reading) : Prop :=
  ∃ ts, r.stream.tokens = ts ++ s.stream.tokens ∧ ls.Sublist (contentPlaces ts)

theorem ComesTo.crosses (h : r.ComesTo s) : r.Crosses [] s := by
  obtain ⟨ts, hts⟩ := h.tokens_suffix
  exact ⟨ts, hts.symm, List.nil_sublist _⟩

theorem Crosses.trans (h : r.Crosses ls s) (h' : s.Crosses ls' t) : r.Crosses (ls ++ ls') t := by
  obtain ⟨ts, hts, hls⟩ := h
  obtain ⟨us, hus, hls'⟩ := h'
  refine ⟨ts ++ us, by rw [hts, hus, List.append_assoc], ?_⟩
  rw [contentPlaces, List.filter_append, List.map_append]
  exact hls.append hls'

theorem crosses_advance (h : r.current.kind.isLayout = false) :
    r.Crosses [r.current.location] r.advance :=
  ⟨[r.current], (Passes.advance h).tokens, by simp [contentPlaces, h]⟩

/-- All tokens from a reading on are spelled as their kinds demand. -/
def WellSpelled (Named : String → Prop) (r : Reading) : Prop :=
  ∀ t ∈ r.stream.tokens, t.WellSpelled Named

theorem WellSpelled.comesTo (h : r.WellSpelled Named) (hs : r.ComesTo s) : s.WellSpelled Named :=
  fun t ht => h t (hs.tokens_suffix.subset ht)

theorem WellSpelled.current (h : r.WellSpelled Named) (hne : r.current.kind ≠ .eof) :
    r.current.WellSpelled Named := by
  refine h r.current ?_
  rw [tokens_eq_cons hne]
  exact List.mem_cons_self

/-- What is kept of the tokens from `r` to `s`: statements that have the shape of the place, each at
a token that was passed. -/
structure Keeps (Named : String → Prop) (place : Place) (r : Reading) (body : List Statement)
    (s : Reading) : Prop where
  shaped : ∀ x ∈ body, x.Shaped Named place
  crosses : r.Crosses (Statement.placesAll body) s

theorem Keeps.nil (h : r.ComesTo s) : r.Keeps Named place [] s := ⟨by simp, h.crosses⟩

theorem Keeps.append (h : r.Keeps Named place body s) (h' : s.Keeps Named place body' t) :
    r.Keeps Named place (body ++ body') t := by
  refine ⟨List.forall_mem_append.mpr ⟨h.shaped, h'.shaped⟩, ?_⟩
  rw [Statement.placesAll_append]
  exact h.crosses.trans h'.crosses

end Reading

namespace Statement

/-- The tokens of a line are tokens of the source. -/
theorem read_line_keeps {lead : Lead} (hopens : lead.Opens place r.current)
    (hlead : lead ≠ .procedure) (h : r.WellSpelled Named) :
    r.Keeps Named place (read lead r.current r.advance).value.toList
      (read lead r.current r.advance).after := by
  have hfinishes := read_finishes hopens hlead r.advance
  have hcomes := read_comesTo lead r.current r.advance
  have hspelled := h.comesTo (Reading.comesTo_advance r)
  cases hread : read lead r.current r.advance with
  | mk value after hle =>
    rw [hread] at hfinishes hcomes
    cases hfinishes with
    | refused => exact .nil ((Reading.comesTo_advance r).trans hcomes)
    | @read _ x _ _ hreads hrest hends =>
      obtain ⟨fs, cs, comment, rfl, hline, hremark⟩ := hrest
      rw [Reading.WellSpelled, hreads.tokens, List.forall_mem_append, List.forall_mem_append]
        at hspelled
      have htokens : ∀ t ∈ r.current :: fs, t.WellSpelled Named :=
        List.forall_mem_cons.mpr ⟨h.current hopens.ne_eof, hspelled.1.1⟩
      refine ⟨by simpa using hline.shaped htokens (hremark.shaped hspelled.1.2), ?_⟩
      rw [Option.toList_some, placesAll_singleton, hline.places]
      exact (Reading.crosses_advance hopens.isLayout).trans hcomes.crosses

/-- A procedure is kept with whatever is kept of the block beneath it. -/
theorem keeps_procedure {hs : List Token} {header : Header} {mid : Reading}
    (hheading : IsHeading (r.current :: hs) header) (hheader : header.Shaped Named)
    (hfirst : r.current.kind.isLayout = false) (hmid : r.advance.ComesTo mid)
    (hbody : mid.Keeps Named .block body s) :
    r.Keeps Named place [.procedure header body] s := by
  refine ⟨by simpa using .procedure hheader hbody.shaped, ?_⟩
  rw [placesAll_singleton, places, hheading.location]
  exact (Reading.crosses_advance hfirst).trans (hmid.crosses.trans hbody.crosses)

theorem BlockTurn.keeps_of_read {added : Option Statement} (hturn : BlockTurn depth r added s)
    (hread : ∀ lead : Lead, lead.Opens .block r.current →
      r.Keeps Named .block (read lead r.current r.advance).value.toList
        (read lead r.current r.advance).after) :
    r.Keeps Named .block added.toList s := by
  have hcomes := hturn.comesTo
  cases hturn with
  | newline | mismatch | unknown | failure => exact .nil hcomes
  | statement hlead hresult =>
    have hkeeps := hread _ (Lead.opens_of_inBlock hlead)
    obtain ⟨hvalue, hafter⟩ := Prod.mk.inj hresult
    rwa [hvalue, hafter] at hkeeps

mutual

theorem read_keeps {lead : Lead} {place : Place} (r : Reading) (hopens : lead.Opens place r.current)
    (h : r.WellSpelled Named) :
    r.Keeps Named place (read lead r.current r.advance).value.toList
      (read lead r.current r.advance).after := by
  by_cases hlead : lead = .procedure
  · subst hlead
    have hresult := read_procedure r.current r.advance
    have hadvance := Reading.comesTo_advance r
    have hcomes := header_comesTo r.current.location r.advance
    have hspelled := h.comesTo hadvance
    cases hheader : Header.read r.current.location r.advance with
    | mk value after hle =>
      have hfinishes := Header.read_finishes hopens r.advance
      rw [hheader] at hfinishes hresult hcomes
      cases hfinishes with
      | refused hpass _ =>
        obtain ⟨hvalue, hafter⟩ := Prod.mk.inj hresult
        rw [hvalue, hafter]
        exact .nil (hadvance.trans hcomes)
      | @read ts header mid _ hreads hrest hends =>
        obtain ⟨hs, cs, rfl, hheading, hremark⟩ := hrest
        have hsplit := hspelled
        rw [Reading.WellSpelled, hreads.tokens, List.forall_mem_append, List.forall_mem_append]
          at hsplit
        have hshaped := hheading.shaped
          (List.forall_mem_cons.mpr ⟨h.current hopens.ne_eof, hsplit.1.1⟩)
          (hremark.shaped hsplit.1.2)
        simp only [Step.result] at hresult
        split at hresult
        · next hindent =>
          have hlt := Reading.remaining_advance_lt (r := after) (by simp [hindent])
          have hfirst := Reading.remaining_advance_lt hopens.ne_eof
          have hbeneath := hcomes.trans (Reading.comesTo_advance after)
          have hbody := readBlock_keeps after.advance.depth after.advance
            (hspelled.comesTo hbeneath)
          obtain ⟨hvalue, hafter⟩ := Prod.mk.inj hresult
          rw [hvalue, hafter]
          exact keeps_procedure hheading hshaped hopens.isLayout hbeneath hbody
        · obtain ⟨hvalue, hafter⟩ := Prod.mk.inj hresult
          rw [hvalue, hafter]
          exact keeps_procedure hheading hshaped hopens.isLayout
            (hcomes.trans (Reading.comesTo_report after _)) (.nil (.refl _))
  · exact read_line_keeps hopens hlead h
termination_by 2 * r.remaining
decreasing_by omega

theorem readBlock_keeps (depth : Nat) (r : Reading) (h : r.WellSpelled Named) :
    r.Keeps Named .block (readBlock depth r).value (readBlock depth r).after := by
  rcases exists_blockTurn depth r with ⟨s, hstop⟩ | ⟨added, s, hturn⟩
  · obtain ⟨hvalue, hafter⟩ := Prod.mk.inj hstop.result
    rw [hvalue, hafter]
    exact .nil hstop.comesTo
  · have hlt := hturn.remaining_lt
    have hturned := hturn.keeps_of_read fun lead hopens => read_keeps r hopens h
    have hrest := readBlock_keeps depth s (h.comesTo hturn.comesTo)
    obtain ⟨hvalue, hafter⟩ := Prod.mk.inj hturn.result
    rw [hvalue, hafter]
    exact hturned.append hrest
termination_by 2 * r.remaining + 1
decreasing_by all_goals omega

end

theorem FileTurn.keeps {added : Option Statement} (hturn : FileTurn r added s)
    (h : r.WellSpelled Named) : r.Keeps Named .file added.toList s := by
  have hcomes := hturn.comesTo
  cases hturn with
  | newline | mismatch | unindent | unknown | failure => exact .nil hcomes
  | @statement lead x after hlead hresult =>
    have hkeeps := read_keeps r (Lead.opens_of_atTop hlead) h
    obtain ⟨hvalue, hafter⟩ := Prod.mk.inj hresult
    rw [hvalue, hafter] at hkeeps
    have hstray : after.Keeps Named .file [] (after.skipStray r.depth) :=
      .nil (Reading.comesTo_skipStray r.depth after)
    exact hkeeps.append hstray

theorem readAllFrom_keeps (done : List Statement) (r : Reading) (h : r.WellSpelled Named) :
    ∃ body s, (readAllFrom done r).1 = done.reverse ++ body ∧ r.Keeps Named .file body s := by
  by_cases heof : r.current.kind = .eof
  · exact ⟨[], r, by rw [readAllFrom_eof done heof, List.append_nil], .nil (.refl r)⟩
  · obtain ⟨added, s, hturn⟩ := exists_fileTurn heof
    have hlt := hturn.remaining_lt
    obtain ⟨body, t, hbody, hkeeps⟩ :=
      readAllFrom_keeps (added.toList ++ done) s (h.comesTo hturn.comesTo)
    refine ⟨added.toList ++ body, t, ?_, (hturn.keeps h).append hkeeps⟩
    have hreverse : added.toList.reverse = added.toList := by cases added <;> rfl
    rw [hturn.readAllFrom_eq, hbody, List.reverse_append, hreverse, List.append_assoc]
termination_by r.remaining

end Statement

namespace SourceFile

variable {U : CharData} {bytes : List UInt8}

/-- What is kept of the tokens of a source. -/
theorem keeps_parse (h : ∀ t ∈ (Stream.ofBytes U bytes).tokens, t.WellSpelled Named)
    (name directory : String) :
    ∃ s, (Reading.start (Stream.ofBytes U bytes)).Keeps Named .file
      (parse U name directory bytes).1.body s := by
  obtain ⟨body, s, hbody, hkeeps⟩ :=
    Statement.readAllFrom_keeps [] (Reading.start (Stream.ofBytes U bytes)) h
  refine ⟨s, ?_⟩
  rw [List.reverse_nil, List.nil_append] at hbody
  rw [← hbody] at hkeeps
  exact hkeeps

/-- Every tree that is read is well-shaped, whatever the bytes are. -/
theorem wellShaped_parse (hU : U.KeepsWords) (name directory : String) (bytes : List UInt8) :
    ∀ s ∈ (parse U name directory bytes).1.body, s.WellShaped U .file := by
  have hspelled := Scanner.wellSpelled_stream (spellsWords_isIdentifier hU)
    (Scanner.start (Source.ofBytes bytes))
  obtain ⟨_, hkeeps⟩ := keeps_parse hspelled name directory
  exact fun s hs => (hkeeps.shaped s hs).wellShaped

end SourceFile

end FirSyntax
