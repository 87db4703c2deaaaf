import Mathlib.Logic.Relation
import FirSyntax.Proofs.Identifiers
import FirSyntax.Proofs.Normalization

/-!
# The order of marks

Neighbouring marks of different classes may be exchanged without a change of meaning. Canonical order
is the one order among those that exchanges lead to in which no mark stands behind a mark of greater
class, so texts that differ by exchanges have one decomposition, one normal form and, in a word, one
token.
-/
namespace FirSyntax

open Source Unicode Relation

namespace Unicode.CharData

/-- One exchange of two neighbouring marks of different classes. -/
inductive Exchange (U : CharData) : List Char → List Char → Prop where
  | swap {a b cs} : U.combiningClass a ≠ 0 → U.combiningClass b ≠ 0 →
      U.combiningClass a ≠ U.combiningClass b → Exchange U (a :: b :: cs) (b :: a :: cs)
  | cons {c cs ds} : Exchange U cs ds → Exchange U (c :: cs) (c :: ds)

/-- Any number of exchanges, one after another. -/
def Rearranges (U : CharData) : List Char → List Char → Prop := ReflTransGen U.Exchange

variable {U : CharData} {cs ds : List Char}

/-- The order is canonical when no mark stands directly behind one of greater class. -/
theorem ordered_iff : U.Ordered cs ↔
    cs.IsChain fun a b => ¬ (0 < U.combiningClass b ∧ U.combiningClass b < U.combiningClass a) := by
  refine List.IsChain.iff fun a b => ?_
  rw [MayFollow]
  omega

namespace Exchange

theorem append_left (h : U.Exchange cs ds) (front : List Char) :
    U.Exchange (front ++ cs) (front ++ ds) := by
  induction front with
  | nil => exact h
  | cons c front ih => exact .cons ih

theorem append_right (h : U.Exchange cs ds) (back : List Char) :
    U.Exchange (cs ++ back) (ds ++ back) := by
  induction h with
  | swap ha hb hne => exact .swap ha hb hne
  | cons _ ih => exact .cons ih

theorem perm (h : U.Exchange cs ds) : cs.Perm ds := by
  induction h with
  | @swap a b cs => exact .swap b a cs
  | cons _ ih => exact ih.cons _

/-- Only marks are exchanged. -/
theorem exists_mark (h : U.Exchange cs ds) : ∃ c ∈ cs, U.combiningClass c ≠ 0 := by
  induction h with
  | swap ha => exact ⟨_, List.mem_cons_self, ha⟩
  | cons _ ih =>
    obtain ⟨c, hc, hmark⟩ := ih
    exact ⟨c, List.mem_cons_of_mem _ hc, hmark⟩

theorem canonicalOrder_eq (h : U.Exchange cs ds) : U.canonicalOrder cs = U.canonicalOrder ds := by
  induction h with
  | @swap a b cs ha hb hne =>
    simp only [canonicalOrder_cons]
    rcases Nat.lt_or_gt_of_ne hne with hlt | hlt
    · exact insertMark_comm (Nat.pos_of_ne_zero ha) hlt
    · exact (insertMark_comm (Nat.pos_of_ne_zero hb) hlt).symm
  | cons _ ih => rw [canonicalOrder_cons, canonicalOrder_cons, ih]

end Exchange

namespace Rearranges

theorem cons (c : Char) (h : U.Rearranges cs ds) : U.Rearranges (c :: cs) (c :: ds) :=
  ReflTransGen.lift (c :: ·) (fun _ _ hstep => Exchange.cons hstep) _ _ h

theorem append (h : U.Rearranges cs ds) (front back : List Char) :
    U.Rearranges (front ++ (cs ++ back)) (front ++ (ds ++ back)) :=
  ReflTransGen.lift (fun cs => front ++ (cs ++ back))
    (fun _ _ hstep => (Exchange.append_right hstep back).append_left front) _ _ h

theorem perm (h : U.Rearranges cs ds) : cs.Perm ds := by
  induction h with
  | refl => rfl
  | tail _ hstep ih => exact ih.trans hstep.perm

theorem eq_or_exists_mark (h : U.Rearranges cs ds) :
    cs = ds ∨ ∃ c ∈ cs, U.combiningClass c ≠ 0 := by
  cases ReflTransGen.cases_head h with
  | inl heq => exact .inl heq
  | inr hfirst =>
    obtain ⟨_, hstep, -⟩ := hfirst
    exact .inr hstep.exists_mark

theorem canonicalOrder_eq (h : U.Rearranges cs ds) : U.canonicalOrder cs = U.canonicalOrder ds := by
  induction h with
  | refl => rfl
  | tail _ hstep ih => exact ih.trans hstep.canonicalOrder_eq

end Rearranges

/-- An insertion exchanges the mark with those of smaller class that it passes. -/
theorem rearranges_insertMark (c : Char) (cs : List Char) :
    U.Rearranges (c :: cs) (U.insertMark c cs) := by
  induction cs with
  | nil => exact .refl
  | cons d ds ih =>
    by_cases hmove : 0 < U.combiningClass d ∧ U.combiningClass d < U.combiningClass c
    · rw [insertMark_cons_of_lt hmove.1 hmove.2]
      have hstep : U.Exchange (c :: d :: ds) (d :: c :: ds) := .swap (by omega) (by omega) (by omega)
      exact .head hstep (ih.cons d)
    · rw [insertMark_cons_of_mayFollow (by rw [MayFollow]; omega)]
      exact .refl

theorem rearranges_canonicalOrder (cs : List Char) : U.Rearranges cs (U.canonicalOrder cs) := by
  induction cs with
  | nil => exact .refl
  | cons c cs ih => exact (ih.cons c).trans (rearranges_insertMark c _)

/-- Of all that exchanges lead to, only the canonical order is free of inversions. -/
theorem eq_canonicalOrder (h : U.Rearranges cs ds) (hordered : U.Ordered ds) :
    ds = U.canonicalOrder cs := by
  rw [h.canonicalOrder_eq, canonicalOrder_of_ordered hordered]

/-! ## Normal forms -/

theorem flatMap_expand_of_fixed (h : ∀ c ∈ cs, U.expand c = [c]) : cs.flatMap U.expand = cs := by
  rw [List.flatMap_congr h, List.flatMap_singleton']

/-- Exchanges inside a text do not change its decomposition. -/
theorem decompose_rearranged (h : U.Rearranges cs ds) (hfixed : ∀ c ∈ cs, U.expand c = [c])
    (front back : List Char) :
    U.decompose (front ++ (cs ++ back)) = U.decompose (front ++ (ds ++ back)) := by
  have hfixed' : ∀ d ∈ ds, U.expand d = [d] := fun d hd => hfixed d (h.perm.mem_iff.mpr hd)
  simp only [decompose, List.flatMap_append, flatMap_expand_of_fixed hfixed,
    flatMap_expand_of_fixed hfixed']
  exact (h.append _ _).canonicalOrder_eq

end Unicode.CharData

/-! ## Words -/

namespace Token

open Unicode.CharData

variable {U : CharData} {cs ds : List Char} {front back run : List Piece}

/-- Of a word with a mark in it the normal form is taken, unless bytes in it encode nothing. -/
theorem ofRun_of_mark (hU : ∀ c : Char, c.toNat < 0x80 → U.combiningClass c = 0)
    (h : ∃ c ∈ cs, U.combiningClass c ≠ 0) (l : Location) :
    ofRun U (cs.map .char) l =
      ⟨kindOfWord (String.ofList (U.normalize cs)), String.ofList (U.normalize cs), l⟩ := by
  obtain ⟨c, hc, hmark⟩ := h
  have hdoubt : U.isCertainlyNormal c = false := by
    by_contra hcertain
    simp only [isCertainlyNormal, isStarter, Bool.not_eq_false, Bool.or_eq_true, decide_eq_true_eq,
      Bool.and_eq_true, beq_iff_eq] at hcertain
    exact hcertain.elim (fun hascii => hmark (hU c hascii)) fun hstarter => hmark hstarter.1
  have hall : (cs.map Piece.char).all (·.isChar U.isCertainlyNormal) = false :=
    List.all_eq_false.mpr ⟨.char c, List.mem_map_of_mem hc, by simpa [Piece.isChar] using hdoubt⟩
  rw [ofRun, hall, normalizePieces_chars]
  rfl

/-- The location of a word has no part in its kind and its text. -/
theorem ofRun_location (run : List Piece) (l l' : Location) :
    (ofRun U run l).kind = (ofRun U run l').kind ∧ (ofRun U run l).text = (ofRun U run l').text := by
  unfold ofRun
  split
  · exact ⟨rfl, rfl⟩
  · split <;> exact ⟨rfl, rfl⟩

/-- Exchanges inside a word leave its token as it is. Only a malformed word is shown as it is
spelled. -/
theorem ofRun_rearranged (hU : ∀ c : Char, c.toNat < 0x80 → U.combiningClass c = 0)
    (h : U.Rearranges cs ds) (hfixed : ∀ c ∈ cs, U.expand c = [c]) (front back : List Piece)
    (l l' : Location) :
    let t := ofRun U (front ++ (cs.map .char ++ back)) l
    let t' := ofRun U (front ++ (ds.map .char ++ back)) l'
    t.kind = t'.kind ∧ (t.kind ≠ .malformedUnicode → t.text = t'.text) := by
  intro t t'
  cases h.eq_or_exists_mark with
  | inl heq =>
    subst heq
    obtain ⟨hkind, htext⟩ := ofRun_location (U := U) (front ++ (cs.map .char ++ back)) l l'
    exact ⟨hkind, fun _ => htext⟩
  | inr hmark =>
    by_cases hinvalid : ∃ x ∈ front ++ back, x.isInvalid = true
    · obtain ⟨x, hx, hxinvalid⟩ := hinvalid
      have hmem (es : List Char) : x ∈ front ++ (es.map .char ++ back) := by
        rcases List.mem_append.mp hx with hx | hx <;> simp [hx]
      have ht : t.kind = .malformedUnicode :=
        congrArg Token.kind (ofRun_invalid ⟨x, hmem cs, hxinvalid⟩ l)
      have ht' : t'.kind = .malformedUnicode :=
        congrArg Token.kind (ofRun_invalid ⟨x, hmem ds, hxinvalid⟩ l')
      exact ⟨ht.trans ht'.symm, fun hne => absurd ht hne⟩
    · have hvalid : ∀ x ∈ front ++ back, x.isInvalid = false := by simpa using hinvalid
      obtain ⟨es, hes⟩ := exists_chars hvalid
      obtain ⟨fs, bs, -, rfl, rfl⟩ := List.append_eq_map_iff.mp hes
      obtain ⟨c, hc, hclass⟩ := hmark
      have hword (es : List Char) (hmem : c ∈ es) (l : Location) :
          ofRun U (fs.map .char ++ (es.map .char ++ bs.map .char)) l =
            ⟨kindOfWord (String.ofList (U.normalize (fs ++ (es ++ bs)))),
              String.ofList (U.normalize (fs ++ (es ++ bs))), l⟩ := by
        rw [← List.map_append, ← List.map_append]
        exact ofRun_of_mark hU ⟨c, by simp [hmem], hclass⟩ l
      have hnormal : U.normalize (fs ++ (cs ++ bs)) = U.normalize (fs ++ (ds ++ bs)) := by
        rw [CharData.normalize, CharData.normalize, decompose_rearranged h hfixed]
      have ht : t = _ := hword cs hc l
      have ht' : t' = _ := hword ds (h.perm.mem_iff.mp hc) l'
      rw [ht, ht', hnormal]
      exact ⟨rfl, fun _ => rfl⟩

/-- The token of a word is known from the word. -/
theorem Lexer.current_of_runAt {input : List Piece} {n : Nat} {run : List Piece}
    (hrun : RunAt U input (Lexer.advanced U input (n + 1)).window.current.location run)
    (hcontent : (Lexer.advanced U input (n + 1)).window.current.kind.isLayout = false) :
    (Lexer.advanced U input (n + 1)).window.current =
      ofRun U run (Lexer.advanced U input (n + 1)).window.current.location := by
  obtain ⟨d, hfollows, hread⟩ := Scanner.scan_readAt (U := U) ((Scanner.start input).after U n)
  rw [← Lexer.current_advanced] at hread
  exact hread.eq_ofRun ((follows_after (U := U) input n).trans hfollows) hrun hcontent

/-- Canonical order is reached by exchanges, and of all texts that exchanges lead to it is the only one
in which no mark stands directly behind one of greater class. Texts of code points that decompose to
themselves have the same decomposition and the same normal form when they differ by exchanges only;
and a word in which one of them stands has a token of the same kind and text as the word in which
the other one does, unless bytes around them encode nothing and the words are malformed. -/
theorem canonicalOrder_unique (U : CharData) :
    (∀ cs, U.Rearranges cs (U.canonicalOrder cs) ∧
      ∀ ds, U.Rearranges cs ds →
        (ds.IsChain (fun a b =>
          ¬ (0 < U.combiningClass b ∧ U.combiningClass b < U.combiningClass a)) ↔
            ds = U.canonicalOrder cs)) ∧
      ∀ cs ds, (∀ c ∈ cs, U.expand c = [c]) → U.Rearranges cs ds →
        U.decompose cs = U.decompose ds ∧
          U.nfkc (String.ofList cs) = U.nfkc (String.ofList ds) ∧
          ((∀ c : Char, c.toNat < 0x80 → U.combiningClass c = 0) →
            ∀ (front back : List Piece) (bytes bytes' : List UInt8) (n n' : Nat),
            let input := Source.ofBytes bytes
            let input' := Source.ofBytes bytes'
            let t := (Lexer.advanced U input (n + 1)).window.current
            let t' := (Lexer.advanced U input' (n' + 1)).window.current
            RunAt U input t.location (front ++ (cs.map .char ++ back)) → t.kind.isLayout = false →
              RunAt U input' t'.location (front ++ (ds.map .char ++ back)) →
              t'.kind.isLayout = false →
              t.kind = t'.kind ∧ (t.kind ≠ .malformedUnicode → t.text = t'.text)) := by
  refine ⟨fun cs => ⟨rearranges_canonicalOrder cs, fun ds h => ?_⟩, fun cs ds hfixed h => ?_⟩
  · rw [← ordered_iff]
    refine ⟨eq_canonicalOrder h, ?_⟩
    rintro rfl
    exact ordered_canonicalOrder cs
  · have hdecompose : U.decompose cs = U.decompose ds := by
      simpa using decompose_rearranged h hfixed [] []
    refine ⟨hdecompose, by simp [nfkc, CharData.normalize, hdecompose], ?_⟩
    intro hU front back bytes bytes' n n' input input' t t' hrun hcontent hrun' hcontent'
    have ht : t = _ := Lexer.current_of_runAt hrun hcontent
    have ht' : t' = _ := Lexer.current_of_runAt hrun' hcontent'
    rw [ht, ht']
    exact ofRun_rearranged hU h hfixed front back _ _

/-- The dots of an s may be typed in either order. -/
theorem canonicalOrder_unique_dots :
    let t := (Lexer.advanced dotted (Source.ofBytes (utf8 "s\u0307\u0323")) 1).window.current
    let t' := (Lexer.advanced dotted (Source.ofBytes (utf8 "s\u0323\u0307")) 1).window.current
    dotted.canonicalOrder ['\u0307', '\u0323'] = ['\u0323', '\u0307'] ∧
      dotted.decompose ['\u0307', '\u0323'] = dotted.decompose ['\u0323', '\u0307'] ∧
      t = ⟨.identifier, "\u1E69", ⟨1, 1⟩⟩ ∧ t.kind = t'.kind ∧ t.text = t'.text := by
  intro t t'
  have hascii (c : Char) (h : c.toNat < 0x80) : dotted.combiningClass c = 0 := by
    rcases combiningClass_dotted c with hzero | rfl | rfl
    · exact hzero
    · exact absurd h (by decide)
    · exact absurd h (by decide)
  have hswap : dotted.Rearranges ['\u0307', '\u0323'] ['\u0323', '\u0307'] :=
    .single (.swap (by decide) (by decide) (by decide))
  obtain ⟨hunique, hsame⟩ := canonicalOrder_unique dotted
  have horder := ((hunique _).2 _ hswap).mp (by decide)
  have hfixed : ∀ c ∈ ['\u0307', '\u0323'], dotted.expand c = [c] := by
    rw [List.forall_mem_cons, List.forall_mem_singleton]
    decide +kernel
  obtain ⟨hdecompose, -, htoken⟩ := hsame _ _ hfixed hswap
  have hrun (marks : List Char) (hmarks : marks.all dotted.continuesIdentifier = true)
      {l : Location} (hl : l = ⟨1, 1⟩) :
      RunAt dotted (Source.ofBytes (utf8 (String.ofList ('s' :: marks)))) l
        ([.char 's'] ++ (marks.map .char ++ [])) := by
    rw [ofBytes_utf8 (by simp), String.toList_ofList]
    refine ⟨⟨Cursor.start _, [], .refl _, hl.symm, by simp [Cursor.start], rfl⟩,
      ⟨'s', marks.map .char, by simp, by decide, fun x hx => ?_⟩⟩
    obtain ⟨c, hc, rfl⟩ := List.mem_map.mp hx
    exact .inr (List.all_eq_true.mp hmarks c hc)
  have ht : t = ⟨.identifier, "\u1E69", ⟨1, 1⟩⟩ := by decide +kernel
  have ht' : t' = ⟨.identifier, "\u1E69", ⟨1, 1⟩⟩ := by decide +kernel
  have hruns := hrun ['\u0307', '\u0323'] (by decide +kernel) (congrArg Token.location ht)
  have hruns' := hrun ['\u0323', '\u0307'] (by decide +kernel) (congrArg Token.location ht')
  obtain ⟨hkind, htext⟩ := htoken hascii [.char 's'] [] (utf8 "s\u0307\u0323")
    (utf8 "s\u0323\u0307") 0 0 hruns (congrArg (·.kind.isLayout) ht) hruns'
    (congrArg (·.kind.isLayout) ht')
  have hwell : t.kind ≠ .malformedUnicode := by simp [ht]
  exact ⟨horder.symm, hdecompose, ht, hkind, htext hwell⟩

/-- Where a byte that encodes nothing stands behind the dots, the word is malformed and shown as it is
spelled, so each of the two orders has a text of its own. -/
theorem malformed_dots_differ :
    let U := CharData.standard
    let marks := ['\u0307', '\u0323']
    let marks' := ['\u0323', '\u0307']
    let word (marks : List Char) : List Piece := [.char 's'] ++ (marks.map .char ++ [.invalid [0xFF]])
    let input (marks : List Char) := Source.ofBytes (utf8 (String.ofList ('s' :: marks)) ++ [0xFF])
    let token (marks : List Char) := (Lexer.advanced U (input marks) 1).window.current
    (∀ c ∈ marks, U.expand c = [c]) ∧ U.Rearranges marks marks' ∧
      RunAt U (input marks) (token marks).location (word marks) ∧
      RunAt U (input marks') (token marks').location (word marks') ∧
      (token marks).kind = .malformedUnicode ∧ (token marks').kind = .malformedUnicode ∧
      (token marks).text ≠ (token marks').text := by
  intro U marks marks' word input token
  have hfixed : ∀ c ∈ marks, U.expand c = [c] := by
    rw [List.forall_mem_cons, List.forall_mem_singleton]
    decide +kernel
  have hswap : U.Rearranges marks marks' :=
    .single (.swap (by decide +kernel) (by decide +kernel) (by decide +kernel))
  have hrun (marks : List Char) (hmarks : marks.all U.continuesIdentifier = true)
      (hinput : input marks = word marks) (hl : (token marks).location = ⟨1, 1⟩) :
      RunAt U (input marks) (token marks).location (word marks) := by
    rw [hinput]
    refine ⟨⟨Cursor.start _, [], .refl _, hl.symm, by simp [Cursor.start], rfl⟩,
      ⟨'s', marks.map .char ++ [.invalid [0xFF]], rfl, by decide +kernel, fun x hx => ?_⟩⟩
    rcases List.mem_append.mp hx with hx | hx
    · obtain ⟨c, hc, rfl⟩ := List.mem_map.mp hx
      exact .inr (List.all_eq_true.mp hmarks c hc)
    · cases List.mem_singleton.mp hx
      exact .inl rfl
  exact ⟨hfixed, hswap, hrun marks (by decide +kernel) (by decide +kernel) (by decide +kernel),
    hrun marks' (by decide +kernel) (by decide +kernel) (by decide +kernel), by decide +kernel,
    by decide +kernel, by decide +kernel⟩

end Token

end FirSyntax
