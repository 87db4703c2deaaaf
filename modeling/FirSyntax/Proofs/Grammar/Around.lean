import FirSyntax.Proofs.Reading.FileCompleteness
import FirSyntax.Proofs.Token.Lines

/-!
# Derivations around a statement

A statement of a file stands at some depth, with other statements of its body in front of it and
behind it. What is derived in front of it and around it does not depend on its own tokens, so the
statement may be taken out of the derivation and the place where it stood be described on its own.
-/
namespace FirSyntax

open Token

namespace Statement

/-- `s` is a statement of a body, or of the body of a procedure in it, at whatever depth. -/
inductive Within (s : Statement) : List Statement → Prop where
  | here {rest} : Within s (s :: rest)
  | later {t rest} : Within s rest → Within s (t :: rest)
  | inside {header body rest} : Within s body → Within s (.procedure header body :: rest)

/-- One statement, at whatever depth, gives way to at most one other. The statements of its body
stay, and so does everything in the bodies around it. -/
inductive Swapped (s : Statement) (added : Option Statement) :
    List Statement → List Statement → Prop where
  | here {rest} : Swapped s added (s :: rest) (added.toList ++ rest)
  | later {t body body'} : Swapped s added body body' → Swapped s added (t :: body) (t :: body')
  | inside {header body body' rest} : Swapped s added body body' →
      Swapped s added (.procedure header body :: rest) (.procedure header body' :: rest)

end Statement

namespace Grammar

/-- Statements of one level, and at the top level empty lines, up to the tokens `rest`. -/
inductive IsSequence : Place → List Token → List Statement → List Token → Prop where
  | nil {place rest} : IsSequence place rest [] rest
  | newline {t ts body rest} : t.kind = .newline → IsSequence .file ts body rest →
      IsSequence .file (t :: ts) body rest
  | statement {place ts us s body rest} : IsStatement true place ts s us →
      IsSequence place us body rest → IsSequence place ts (s :: body) rest

/-- The statements `body` of a level, up to the tokens `rest`, where the tokens of the statement `s`
of that level or of a deeper one are left out: `us` stand in front of them and `after` behind. -/
inductive Around (s : Statement) (after : List Token) :
    Place → List Token → List Statement → List Token → Prop where
  | here {place body rest} : IsSequence place after body rest → Around s after place [] (s :: body) rest
  | newline {t us body rest} : t.kind = .newline → Around s after .file us body rest →
      Around s after .file (t :: us) body rest
  | later {place fs e us t body rest} : e.kind.isLayout = true →
      (∀ rest', IsStatement true place (fs ++ e :: rest') t rest') →
      Around s after place us body rest → Around s after place (fs ++ e :: us) (t :: body) rest
  | inside {place hs ls i us u mid header inner body rest} : IsHeading hs header →
      (∀ rest', IsLineEnd (ls ++ rest') header.comment rest') → i.kind = .indent →
      Around s after .block us inner (u :: mid) → u.kind = .unindent →
      IsSequence place mid body rest →
      Around s after place (hs ++ (ls ++ i :: us)) (.procedure header inner :: body) rest

variable {place : Place} {ts us rest after : List Token} {body : List Statement} {s : Statement}
  {comment : Option String}

/-! ## Sequences of statements -/

theorem IsFile.sequence (h : IsFile true ts body) : IsSequence .file ts body [] := by
  induction h with
  | nil => exact .nil
  | newline ht _ ih => exact .newline ht ih
  | statement hs _ ih => exact .statement hs ih

theorem IsBody.sequence : {ts rest : List Token} → {body : List Statement} →
    IsBody true ts body rest → IsSequence .block ts body rest
  | _, _, _, .one hs => .statement hs .nil
  | _, _, _, .more hs hrest => .statement hs hrest.sequence

/-- Where the statements of a level come to their end. -/
def Place.Stops : Place → List Token → Prop
  | .file, ts => ts = []
  | .block, ts => leading ts = .unindent

/-- What the statements of a level may begin with. -/
theorem IsSequence.leading (h : IsSequence place ts body rest) (hstops : place.Stops rest) :
    leading ts ≠ .indent ∧ (place = .file → leading ts ≠ .unindent) := by
  cases h with
  | nil =>
    cases place with
    | file =>
      obtain rfl : ts = [] := hstops
      simp
    | block =>
      have hunindent : Token.leading ts = .unindent := hstops
      simp [hunindent]
  | newline ht => simp [ht]
  | statement hs =>
    have hcontent := Statement.leading_of_isStatement hs
    constructor
    · intro hk
      rw [hk] at hcontent
      cases hcontent
    · intro _ hk
      rw [hk] at hcontent
      cases hcontent

/-- Where only levels are closed there are no statements. -/
theorem IsSequence.twin (h : IsSequence place ts body rest) (htwin : Twin ts us) :
    ∃ rest', IsSequence place us body rest' ∧ Twin rest rest' := by
  rcases htwin with rfl | ⟨hts, hus, hlength⟩
  · exact ⟨rest, h, .inl rfl⟩
  · cases h with
    | nil => exact ⟨us, .nil, .inr ⟨hts, hus, hlength⟩⟩
    | newline ht => simp [ht] at hts
    | statement hs =>
      have hcontent := Statement.leading_of_isStatement hs
      cases ts with
      | nil => cases hcontent
      | cons t ts =>
        rw [leading_cons, hts t List.mem_cons_self] at hcontent
        cases hcontent

theorem Place.Stops.twin (h : place.Stops ts) (htwin : Twin ts us) : place.Stops us := by
  cases place with
  | file =>
    obtain rfl : ts = [] := h
    exact htwin.of_nil
  | block =>
    have hunindent : Token.leading ts = .unindent := h
    cases ts with
    | nil => cases hunindent
    | cons t ts =>
      obtain ⟨u, vs, rfl, hu, -⟩ := htwin.of_unindent hunindent
      exact hu

/-! ## Rules without what follows them -/

/-- Tokens that do more than close levels. -/
def GoesOn (ts : List Token) : Prop := ∃ t ∈ ts, t.kind ≠ .unindent

theorem GoesOn.append (h : GoesOn rest) (us : List Token) : GoesOn (us ++ rest) := by
  obtain ⟨t, ht, hkind⟩ := h
  exact ⟨t, List.mem_append_right us ht, hkind⟩

theorem GoesOn.cons (h : GoesOn rest) (u : Token) : GoesOn (u :: rest) := h.append [u]

/-- A line that others follow ends with its terminator. -/
theorem IsLineEnd.split (h : IsLineEnd ts comment rest) (hrest : GoesOn rest) :
    ∃ cs e, ts = cs ++ e :: rest ∧ e.kind = .newline ∧
      ∀ rest', IsLineEnd (cs ++ e :: rest') comment rest' := by
  obtain ⟨hremark, hend⟩ := h
  cases hend with
  | newline ht => exact ⟨_, _, rfl, ht, fun rest' => .intro hremark (.newline ht)⟩
  | closing hall =>
    obtain ⟨t, ht, hkind⟩ := hrest
    exact absurd (hall t ht) hkind

mutual

/-- A statement that others follow ends with a token of layout, and is derived in front of anything
else too. -/
theorem IsStatement.split {place : Place} {ts rest : List Token} {s : Statement} :
    IsStatement true place ts s rest → GoesOn rest →
      ∃ fs e, ts = fs ++ e :: rest ∧ e.kind.isLayout = true ∧
        ∀ rest', IsStatement true place (fs ++ e :: rest') s rest'
  | @IsStatement.line _ _ fs _ _ _ _ hs hline, hrest => by
    obtain ⟨cs, e, rfl, he, hline'⟩ := hline.split hrest
    refine ⟨fs ++ cs, e, by simp, by simp [he, Kind.isLayout], fun rest' => ?_⟩
    rw [List.append_assoc]
    exact .line hs (hline' rest')
  | @IsStatement.procedure _ _ hs _ _ _ _ _ hheading hline hblock, hrest => by
    obtain ⟨bs, u, rfl, hu, hblock'⟩ := hblock.split hrest
    obtain ⟨cs, e, rfl, -, hline'⟩ := hline.split ((hrest.cons u).append bs)
    refine ⟨hs ++ (cs ++ e :: bs), u, by simp, by simp [hu, Kind.isLayout], fun rest' => ?_⟩
    rw [List.append_assoc, List.append_assoc, List.cons_append]
    exact .procedure hheading (hline' _) (hblock' rest')
  | .headerAlone hstrict _ _ _, _ => by cases hstrict

theorem IsBlock.split {ts rest : List Token} {body : List Statement} :
    IsBlock true ts body rest → GoesOn rest →
      ∃ bs u, ts = bs ++ u :: rest ∧ u.kind = .unindent ∧
        ∀ rest', IsBlock true (bs ++ u :: rest') body rest'
  | .intro hi hbody hu, hrest => by
    obtain ⟨bs, rfl, hbody'⟩ := hbody.split (hrest.cons _)
    exact ⟨_ :: bs, _, rfl, hu, fun rest' => .intro hi (hbody' _) hu⟩

theorem IsBody.split {ts rest : List Token} {body : List Statement} :
    IsBody true ts body rest → GoesOn rest →
      ∃ bs, ts = bs ++ rest ∧ ∀ rest', IsBody true (bs ++ rest') body rest'
  | .one hs, hrest => by
    obtain ⟨fs, e, rfl, -, hs'⟩ := hs.split hrest
    refine ⟨fs ++ [e], by simp, fun rest' => ?_⟩
    rw [List.append_assoc]
    exact .one (hs' rest')
  | .more hs hbody, hrest => by
    obtain ⟨bs, hus, hbody'⟩ := hbody.split hrest
    obtain ⟨fs, e, rfl, -, hs'⟩ := hs.split (hus ▸ hrest.append bs)
    subst hus
    refine ⟨fs ++ e :: bs, by simp, fun rest' => ?_⟩
    rw [List.append_assoc]
    exact .more (hs' _) (hbody' rest')

end

/-! ## The place of a statement -/

/-- A statement with something in front of it begins a line. -/
theorem Around.getLast_isLayout (h : Around s after place us body rest) :
    ∀ e ∈ us.getLast?, e.kind.isLayout = true := by
  induction h with
  | here => simp
  | @newline t us _ _ ht _ ih =>
    cases hlast : us.getLast? with
    | none => simp_all [Kind.isLayout]
    | some e => simp_all [List.getLast?_cons]
  | @later _ fs e us _ _ _ he _ _ ih =>
    cases hlast : us.getLast? with
    | none => simp_all
    | some e => simp_all [List.getLast?_append, List.getLast?_cons]
  | @inside _ _ _ _ us _ _ _ _ _ _ _ _ hi _ _ _ ih =>
    cases hlast : us.getLast? with
    | none => simp_all [Kind.isLayout]
    | some e => simp_all [List.getLast?_append, List.getLast?_cons]

/-- What stands in front of a statement that begins with `new` does not begin by closing a level. -/
theorem Around.leading {new : List Token} (h : Around s after place us body rest)
    (hnew : (leading new).isLayout = false) : leading (us ++ new) ≠ .unindent := by
  have hcontent {ts : List Token} (hts : (Token.leading ts).isLayout = false) :
      Token.leading ts ≠ .unindent := by
    intro hk
    rw [hk] at hts
    cases hts
  cases h with
  | here => exact hcontent hnew
  | newline ht => simp [ht]
  | @later _ fs e us _ _ _ _ hs =>
    rw [List.append_assoc]
    exact hcontent (Statement.leading_of_isStatement (hs (us ++ new)))
  | inside hheading =>
    obtain ⟨p, hs, rfl, hp, -⟩ := Statement.isHeading_cons hheading
    simp [hp]

/-- The statement `s` is derived somewhere in the statements of a level. -/
def Found (s : Statement) (place : Place) (ts : List Token) (body : List Statement)
    (rest : List Token) : Prop :=
  ∃ us xs after place', ts = us ++ xs ∧ IsStatement true place' xs s after ∧
    Around s after place us body rest

theorem Found.goesOn (h : Found s place ts body rest) : GoesOn ts := by
  obtain ⟨us, xs, after, place', rfl, hs, -⟩ := h
  refine GoesOn.append ?_ us
  have hcontent := Statement.leading_of_isStatement hs
  cases xs with
  | nil => cases hcontent
  | cons x xs =>
    refine ⟨x, List.mem_cons_self, fun hx => ?_⟩
    rw [leading_cons, hx] at hcontent
    cases hcontent

theorem Found.later {t : Statement} (hs : IsStatement true place ts t us)
    (h : Found s place us body rest) : Found s place ts (t :: body) rest := by
  obtain ⟨fs, e, rfl, he, hs'⟩ := hs.split h.goesOn
  obtain ⟨us, xs, after, place', rfl, hfound, haround⟩ := h
  exact ⟨fs ++ e :: us, xs, after, place', by simp, hfound, .later he hs' haround⟩

theorem Found.inside {header : Header} {inner : List Statement}
    (hs : IsStatement true place ts (.procedure header inner) us)
    (hrest : IsSequence place us body rest)
    (h : ∀ {bs us}, IsSequence .block bs inner us → Found s .block bs inner us) :
    Found s place ts (.procedure header inner :: body) rest := by
  cases hs with
  | line hs => cases hs
  | headerAlone hstrict => cases hstrict
  | @procedure _ hs ls bs _ _ _ hheading hline hblock =>
    obtain ⟨hi, hbody, hu⟩ := hblock
    rename_i i u bs
    have hfound := h hbody.sequence
    obtain ⟨cs, e, rfl, -, hline'⟩ := hline.split (hfound.goesOn.cons i)
    obtain ⟨us, xs, after, place', rfl, hs', haround⟩ := hfound
    refine ⟨hs ++ (cs ++ [e] ++ i :: us), xs, after, place', by simp, hs', ?_⟩
    refine .inside hheading (fun rest' => ?_) hi haround hu hrest
    rw [List.append_assoc]
    exact hline' rest'

/-- Empty lines in front of a statement do not matter. -/
theorem IsSequence.found {t : Statement} (h : IsSequence place ts (t :: body) rest)
    (hfound : ∀ {ts us}, IsStatement true place ts t us → IsSequence place us body rest →
      Found s place ts (t :: body) rest) : Found s place ts (t :: body) rest := by
  generalize hall : t :: body = all at h hfound
  induction h with
  | nil => cases hall
  | newline ht _ ih =>
    obtain ⟨us, xs, after, place', rfl, hs, haround⟩ := ih hall hfound
    exact ⟨_ :: us, xs, after, place', rfl, hs, .newline ht haround⟩
  | statement hs hrest =>
    cases hall
    exact hfound hs hrest

/-- Every statement of a derived tree has its place in the derivation. -/
theorem found_of_within (hwithin : s.Within body) (h : IsSequence place ts body rest) :
    Found s place ts body rest := by
  induction hwithin generalizing place ts rest with
  | here => exact h.found fun hs hrest => ⟨[], _, _, _, rfl, hs, .here hrest⟩
  | later _ ih => exact h.found fun hs hrest => .later hs (ih hrest)
  | inside _ ih => exact h.found fun hs hrest => .inside hs hrest ih

end Grammar

end FirSyntax
