import FirSyntax.Proofs.Token.Text
import FirSyntax.Proofs.Writing.Line

/-!
# Shapes of derived trees

What the grammar derives has a shape: the lists that must not be empty are not, names are names,
comments stay on their line, and statements are where their place allows them. What a name is comes
from the tokens of the source; where it is an identifier, the tree can be written.
-/
namespace FirSyntax

open Token Grammar Unicode

/-- Expressions whose names satisfy `Named`, other than the words for truth values where they stand
for themselves. -/
inductive Expr.Shaped (Named : String → Prop) : Expr → Prop where
  | bool {value l} : Shaped Named (.bool value l)
  | int {value l} : Shaped Named (.int value l)
  | nil {l} : Shaped Named (.nil l)
  | name {n : Name} : Named n.text → n.text ≠ "true" → n.text ≠ "false" → Shaped Named (.name n)
  | dot {receiver l} {member : Name} : Shaped Named receiver → Named member.text →
      Shaped Named (.dot receiver member l)
  | binary {op left right l} : Shaped Named left → Shaped Named right →
      Shaped Named (.binary op left right l)

structure DottedName.Shaped (Named : String → Prop) (path : DottedName) : Prop where
  nonempty : path.names ≠ []
  names : ∀ n ∈ path.names, Named n.text

/-- A type without segments is one that is not given, which stands nowhere. -/
structure TypeRef.Shaped (Named : String → Prop) (type : TypeRef) : Prop where
  segments : ∀ text ∈ type.segments, Named text
  plain : type.segments = [] → type = .unspecified

structure Clause.Shaped (Named : String → Prop) (clause : Clause) : Prop where
  nonempty : clause.names ≠ []
  names : ∀ n ∈ clause.names, Named n.text
  type : clause.type.Shaped Named
  value : ∀ e ∈ clause.value, e.Shaped Named

structure Header.Shaped (Named : String → Prop) (header : Header) : Prop where
  name : Named header.name.text
  parameters : ∀ clause ∈ header.parameters, clause.Shaped Named
  result : header.result.Shaped Named
  comment : ∀ text ∈ header.comment, IsRemarkText text

/-- Statements that are allowed in a place: values are returned in blocks only, and imports and the
name of the module stand at the top level only. -/
inductive Statement.Shaped (Named : String → Prop) : Place → Statement → Prop where
  | empty {place text l} : IsRemarkText text → Shaped Named place (.empty (some text) l)
  | returns {value comment l} : (∀ e ∈ value, e.Shaped Named) →
      (∀ text ∈ comment, IsRemarkText text) → Shaped Named .block (.returns value comment l)
  | consts {place clauses comment l} : clauses ≠ [] → (∀ clause ∈ clauses, clause.Shaped Named) →
      (∀ text ∈ comment, IsRemarkText text) → Shaped Named place (.consts clauses comment l)
  | vars {place clauses comment l} : clauses ≠ [] → (∀ clause ∈ clauses, clause.Shaped Named) →
      (∀ text ∈ comment, IsRemarkText text) → Shaped Named place (.vars clauses comment l)
  | imports {paths comment l} : paths ≠ [] → (∀ path ∈ paths, path.Shaped Named) →
      (∀ text ∈ comment, IsRemarkText text) → Shaped Named .file (.imports paths comment l)
  | moduleName {path comment l} : path.Shaped Named → (∀ text ∈ comment, IsRemarkText text) →
      Shaped Named .file (.moduleName path comment l)
  | procedure {place header body} : header.Shaped Named → (∀ s ∈ body, Shaped Named .block s) →
      Shaped Named place (.procedure header body)

/-! ## Trees of identifiers -/

section

variable {U : CharData}

theorem Expr.Shaped.wellShaped {e : Expr} (h : e.Shaped (IsIdentifier U)) : e.WellShaped U := by
  induction h with
  | bool => exact .bool
  | int => exact .int
  | nil => exact .nil
  | name hname htrue hfalse => exact .name hname htrue hfalse
  | dot _ hmember ih => exact .dot ih hmember
  | binary _ _ ihl ihr => exact .binary ihl ihr

theorem DottedName.Shaped.wellShaped {path : DottedName} (h : path.Shaped (IsIdentifier U)) :
    path.WellShaped U := ⟨h.nonempty, h.names⟩

theorem TypeRef.Shaped.wellShaped {type : TypeRef} (h : type.Shaped (IsIdentifier U)) :
    type.WellShaped U :=
  ⟨h.segments, fun hnil => congrArg TypeRef.optional (h.plain hnil)⟩

theorem Clause.Shaped.wellShaped {clause : Clause} (h : clause.Shaped (IsIdentifier U)) :
    clause.WellShaped U :=
  ⟨h.nonempty, h.names, h.type.wellShaped, fun e he => (h.value e he).wellShaped⟩

theorem Header.Shaped.wellShaped {header : Header} (h : header.Shaped (IsIdentifier U)) :
    header.WellShaped U :=
  ⟨h.name, fun clause hclause => (h.parameters clause hclause).wellShaped, h.result.wellShaped,
    h.comment⟩

theorem Statement.Shaped.wellShaped {place : Place} {s : Statement}
    (h : s.Shaped (IsIdentifier U) place) : s.WellShaped U place := by
  induction s using Statement.inductionOn generalizing place with
  | line s hline =>
    cases h with
    | empty htext => exact .empty htext
    | returns hvalue hcomment => exact .returns (fun e he => (hvalue e he).wellShaped) hcomment
    | consts hne hclauses hcomment =>
      exact .consts hne (fun clause hclause => (hclauses clause hclause).wellShaped) hcomment
    | vars hne hclauses hcomment =>
      exact .vars hne (fun clause hclause => (hclauses clause hclause).wellShaped) hcomment
    | imports hne hpaths hcomment =>
      exact .imports hne (fun path hpath => (hpaths path hpath).wellShaped) hcomment
    | moduleName hpath hcomment => exact .moduleName hpath.wellShaped hcomment
    | procedure => cases hline
  | procedure header body ih =>
    cases h with
    | procedure hheader hbody =>
      exact .procedure hheader.wellShaped fun s hs => ih s hs (hbody s hs)

theorem Grammar.wellShaped_unspecified : TypeRef.unspecified.WellShaped U :=
  ⟨by simp [TypeRef.unspecified], fun _ => rfl⟩

end

/-! ## Derived trees -/

namespace Grammar

variable {Named : String → Prop} {ts : List Token}

theorem IsName.named {n : Name} (h : IsName ts n) (hts : ∀ t ∈ ts, t.WellSpelled Named) :
    Named n.text := by
  cases h with
  | intro hkind => exact (hts _ List.mem_cons_self).identifier hkind

theorem Separated.forall_items {α : Type} {sign : Punctuation} {Item : List Token → α → Prop}
    {P : α → Prop} {as : List α} (h : Separated sign Item ts as)
    (hitem : ∀ {ts a}, Item ts a → (∀ t ∈ ts, t.WellSpelled Named) → P a)
    (hts : ∀ t ∈ ts, t.WellSpelled Named) : ∀ a ∈ as, P a := by
  induction h with
  | one ha =>
    rw [List.forall_mem_singleton]
    exact hitem ha hts
  | more ha _ _ ih =>
    rw [List.forall_mem_append, List.forall_mem_cons] at hts
    rw [List.forall_mem_cons]
    exact ⟨hitem ha hts.1, ih hts.2.2⟩

theorem IsExpr.shaped {rank : Rank} {e : Expr} (h : IsExpr rank ts e)
    (hts : ∀ t ∈ ts, t.WellSpelled Named) : e.Shaped Named := by
  induction h with
  | ofProduct _ ih | ofPrimary _ ih | ofAtom _ ih => exact ih hts
  | sum _ _ _ _ ihl ihr | product _ _ _ _ ihl ihr =>
    rw [List.forall_mem_append, List.forall_mem_cons] at hts
    exact .binary (ihl hts.1) (ihr hts.2.2)
  | member _ _ hn ih =>
    rw [List.forall_mem_append, List.forall_mem_cons] at hts
    exact .dot (ih hts.1) (hn.named hts.2.2)
  | group _ _ _ ih =>
    rw [List.forall_mem_cons, List.forall_mem_append] at hts
    exact ih hts.2.1
  | identifier hkind htrue hfalse =>
    exact .name ((hts _ List.mem_cons_self).identifier hkind) htrue hfalse
  | truth => exact .bool
  | integer => exact .int
  | nil => exact .nil

theorem IsPath.shaped {path : DottedName} (h : IsPath ts path)
    (hts : ∀ t ∈ ts, t.WellSpelled Named) : path.Shaped Named :=
  ⟨h.ne_nil, h.forall_items IsName.named hts⟩

/-- The segments of a type are the names of its path. -/
theorem IsPath.segments {path : DottedName} (h : IsPath ts path)
    (hts : ∀ t ∈ ts, t.WellSpelled Named) :
    (∀ text ∈ path.names.map (·.text), Named text) ∧ path.names.map (·.text) ≠ [] := by
  refine ⟨?_, by simpa using (h.shaped hts).nonempty⟩
  rw [List.forall_mem_map]
  exact (h.shaped hts).names

theorem shaped_unspecified : TypeRef.unspecified.Shaped Named :=
  ⟨by simp [TypeRef.unspecified], fun _ => rfl⟩

theorem IsType.shaped {type : TypeRef} (h : IsType ts type)
    (hts : ∀ t ∈ ts, t.WellSpelled Named) : type.Shaped Named := by
  cases h with
  | plain hpath =>
    obtain ⟨hsegments, hne⟩ := hpath.segments hts
    exact ⟨hsegments, fun hnil => absurd hnil hne⟩
  | optional _ hpath =>
    rw [List.forall_mem_cons] at hts
    obtain ⟨hsegments, hne⟩ := hpath.segments hts.2
    exact ⟨hsegments, fun hnil => absurd hnil hne⟩

theorem IsTyping.shaped {type : TypeRef} (h : IsTyping ts type)
    (hts : ∀ t ∈ ts, t.WellSpelled Named) : type.Shaped Named := by
  cases h with
  | absent => exact shaped_unspecified
  | given _ htype =>
    rw [List.forall_mem_cons] at hts
    exact htype.shaped hts.2

theorem IsInitial.shaped {value : Option Expr} (h : IsInitial ts value)
    (hts : ∀ t ∈ ts, t.WellSpelled Named) : ∀ e ∈ value, e.Shaped Named := by
  cases h with
  | absent => simp
  | given _ he =>
    rw [List.forall_mem_cons] at hts
    simpa using he.shaped hts.2

theorem IsClause.shaped {clause : Clause} (h : IsClause ts clause)
    (hts : ∀ t ∈ ts, t.WellSpelled Named) : clause.Shaped Named := by
  cases h with
  | intro hnames htype hvalue =>
    rw [List.forall_mem_append, List.forall_mem_append] at hts
    exact ⟨hnames.ne_nil, hnames.forall_items IsName.named hts.1, htype.shaped hts.2.1,
      hvalue.shaped hts.2.2⟩

theorem IsParameters.shaped {clauses : List Clause} (h : IsParameters ts clauses)
    (hts : ∀ t ∈ ts, t.WellSpelled Named) : ∀ clause ∈ clauses, clause.Shaped Named := by
  cases h with
  | none => simp
  | some hclauses => exact hclauses.forall_items IsClause.shaped hts

theorem IsResult.shaped {type : TypeRef} (h : IsResult ts type)
    (hts : ∀ t ∈ ts, t.WellSpelled Named) : type.Shaped Named := by
  cases h with
  | absent => exact shaped_unspecified
  | given htype => exact htype.shaped hts

theorem IsReturned.shaped {value : Option Expr} (h : IsReturned ts value)
    (hts : ∀ t ∈ ts, t.WellSpelled Named) : ∀ e ∈ value, e.Shaped Named := by
  cases h with
  | absent => simp
  | given he => simpa using he.shaped hts

theorem IsRemark.shaped {comment : Option String} (h : IsRemark ts comment)
    (hts : ∀ t ∈ ts, t.WellSpelled Named) : ∀ text ∈ comment, IsRemarkText text := by
  cases h with
  | absent => simp
  | given hkind => simpa using (hts _ List.mem_cons_self).comment hkind

theorem IsHeading.shaped {header : Header} (h : IsHeading ts header)
    (hts : ∀ t ∈ ts, t.WellSpelled Named) (hcomment : ∀ text ∈ header.comment, IsRemarkText text) :
    header.Shaped Named := by
  cases h with
  | intro _ hname _ hparameters _ _ hresult =>
    simp only [List.forall_mem_cons, List.forall_mem_append] at hts
    obtain ⟨-, hns, -, hps, -, -, hrs⟩ := hts
    exact ⟨hname.named hns, hparameters.shaped hps, hresult.shaped hrs, hcomment⟩

theorem IsLine.shaped {place : Place} {comment : Option String} {s : Statement}
    (h : IsLine false place ts comment s) (hts : ∀ t ∈ ts, t.WellSpelled Named)
    (hcomment : ∀ text ∈ comment, IsRemarkText text) : s.Shaped Named place := by
  cases h with
  | consts _ hclauses _ =>
    rw [List.forall_mem_cons] at hts
    exact .consts hclauses.ne_nil (hclauses.forall_items IsClause.shaped hts.2) hcomment
  | vars _ hclauses =>
    rw [List.forall_mem_cons] at hts
    exact .vars hclauses.ne_nil (hclauses.forall_items IsClause.shaped hts.2) hcomment
  | returns _ hvalue =>
    rw [List.forall_mem_cons] at hts
    exact .returns (hvalue.shaped hts.2) hcomment
  | comment hkind => exact .empty ((hts _ List.mem_cons_self).comment hkind)
  | imports _ hpaths =>
    rw [List.forall_mem_cons] at hts
    exact .imports hpaths.ne_nil (hpaths.forall_items IsPath.shaped hts.2) hcomment
  | moduleName _ _ hpath =>
    rw [List.forall_mem_cons] at hts
    exact .moduleName (hpath.shaped hts.2) hcomment

end Grammar

end FirSyntax
