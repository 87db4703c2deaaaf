import FirSyntax.Diagnostic
import FirSyntax.Tree.Statement

/-!
# Trees at other places

A relocation moves every location of a token, a tree or a diagnostic by one function and leaves all
else as it is. Two of them matter: the shift by a number of lines, and the one that forgets where
things stand, so that two trees are equal up to locations when they are equal once forgotten.
-/
namespace FirSyntax

namespace Location

/-- The location `n` lines further down. What the source does not spell out stands on no line and
stays there. -/
def down (n : Nat) (l : Location) : Location :=
  if l.line = 0 then l else ⟨l.line + n, l.column⟩

theorem down_unwritten (n : Nat) : unwritten.down n = unwritten := rfl

theorem down_of_pos {n : Nat} {l : Location} (h : 0 < l.line) :
    l.down n = ⟨l.line + n, l.column⟩ :=
  if_neg (by omega)

@[simp] theorem down_zero (l : Location) : l.down 0 = l := by
  unfold down
  split <;> rfl

theorem down_injective (n : Nat) : Function.Injective (down n) := by
  intro a b h
  obtain ⟨i, j⟩ := a
  obtain ⟨k, l⟩ := b
  simp only [down] at h
  split at h <;> split at h <;> rw [mk.injEq] at h ⊢ <;> omega

/-- The relocation that forgets where things stand. -/
def erase (_ : Location) : Location := unwritten

end Location

variable (φ : Location → Location)

def Token.relocate (t : Token) : Token := { t with location := φ t.location }

@[simp] theorem Token.kind_relocate (t : Token) : (t.relocate φ).kind = t.kind := rfl

@[simp] theorem Token.text_relocate (t : Token) : (t.relocate φ).text = t.text := rfl

@[simp] theorem Token.location_relocate (t : Token) :
    (t.relocate φ).location = φ t.location := rfl

@[simp] theorem Token.describe_relocate (t : Token) : (t.relocate φ).describe = t.describe := rfl

def Name.relocate (n : Name) : Name := { n with location := φ n.location }

def Expr.relocate : Expr → Expr
  | .bool value l => .bool value (φ l)
  | .int value l => .int value (φ l)
  | .nil l => .nil (φ l)
  | .name n => .name (n.relocate φ)
  | .dot receiver member l => .dot receiver.relocate (member.relocate φ) (φ l)
  | .binary op left right l => .binary op left.relocate right.relocate (φ l)

def DottedName.relocate (path : DottedName) : DottedName := ⟨path.names.map (Name.relocate φ)⟩

def TypeRef.relocate (t : TypeRef) : TypeRef := { t with location := φ t.location }

def Clause.relocate (clause : Clause) : Clause :=
  ⟨clause.names.map (Name.relocate φ), clause.type.relocate φ, clause.value.map (Expr.relocate φ)⟩

def Header.relocate (header : Header) : Header :=
  ⟨header.name.relocate φ, header.parameters.map (Clause.relocate φ), header.result.relocate φ,
    header.comment, φ header.location⟩

namespace Statement

mutual

def relocate : Statement → Statement
  | .empty comment l => .empty comment (φ l)
  | .returns value comment l => .returns (value.map (Expr.relocate φ)) comment (φ l)
  | .consts clauses comment l => .consts (clauses.map (Clause.relocate φ)) comment (φ l)
  | .vars clauses comment l => .vars (clauses.map (Clause.relocate φ)) comment (φ l)
  | .imports paths comment l => .imports (paths.map (DottedName.relocate φ)) comment (φ l)
  | .moduleName path comment l => .moduleName (path.relocate φ) comment (φ l)
  | .procedure header body => .procedure (header.relocate φ) (relocateAll body)

def relocateAll : List Statement → List Statement
  | [] => []
  | statement :: rest => relocate statement :: relocateAll rest

end

theorem relocateAll_eq_map (statements : List Statement) :
    relocateAll φ statements = statements.map (relocate φ) := by
  induction statements with
  | nil => rfl
  | cons statement rest ih => rw [relocateAll, ih, List.map_cons]

/-- A proof for every statement treats the lines one by one and a procedure by its body. -/
theorem inductionOn {motive : Statement → Prop} (statement : Statement)
    (line : ∀ s : Statement, s.header? = none → motive s)
    (procedure : ∀ header body, (∀ s ∈ body, motive s) → motive (.procedure header body)) :
    motive statement := by
  refine @Statement.rec motive (fun body => ∀ s ∈ body, motive s)
    (fun _ _ => line _ rfl) (fun _ _ _ => line _ rfl) (fun _ _ _ => line _ rfl)
    (fun _ _ _ => line _ rfl) (fun _ _ _ => line _ rfl) (fun _ _ _ => line _ rfl)
    procedure ?_ ?_ statement
  · simp
  · intro s body hs hbody
    simpa [hs] using hbody

end Statement

def Cause.relocate : Cause → Cause
  | .expected wanted found => .expected wanted (found.relocate φ)
  | cause => cause

@[simp] theorem Cause.message_relocate (c : Cause) : (c.relocate φ).message = c.message := by
  cases c <;> rfl

def Diagnostic.relocate (d : Diagnostic) : Diagnostic := ⟨d.cause.relocate φ, φ d.location⟩

@[simp] theorem Diagnostic.message_relocate (d : Diagnostic) :
    (d.relocate φ).message = d.message :=
  Cause.message_relocate φ d.cause

/-! ## The relocation that moves nothing -/

theorem Token.relocate_id : Token.relocate id = id := rfl

theorem Name.relocate_id : Name.relocate id = id := rfl

theorem Expr.relocate_id (e : Expr) : e.relocate id = e := by
  induction e with
  | bool | int | nil => rfl
  | name n => rfl
  | dot receiver member l ih => rw [relocate, ih, Name.relocate_id]; rfl
  | binary op left right l ihl ihr => rw [relocate, ihl, ihr]; rfl

theorem Clause.relocate_id (clause : Clause) : clause.relocate id = clause := by
  obtain ⟨names, type, value⟩ := clause
  rw [relocate, Name.relocate_id, List.map_id, funext Expr.relocate_id, Option.map_id_fun']
  rfl

theorem DottedName.relocate_id (path : DottedName) : path.relocate id = path := by
  rw [relocate, Name.relocate_id, List.map_id]

theorem Header.relocate_id (header : Header) : header.relocate id = header := by
  rw [relocate, funext Clause.relocate_id, List.map_id', Name.relocate_id]
  rfl

theorem Statement.relocate_id (s : Statement) : s.relocate id = s := by
  induction s using inductionOn with
  | line s hline =>
    cases s with
    | empty => rfl
    | returns => rw [relocate, funext Expr.relocate_id, Option.map_id_fun']; rfl
    | consts | vars => rw [relocate, funext Clause.relocate_id, List.map_id']; rfl
    | imports => rw [relocate, funext DottedName.relocate_id, List.map_id']; rfl
    | moduleName => rw [relocate, DottedName.relocate_id]; rfl
    | procedure => cases hline
  | procedure header body ih =>
    rw [relocate, relocateAll_eq_map, Header.relocate_id, List.map_congr_left ih, List.map_id']

theorem Cause.relocate_id (c : Cause) : c.relocate id = c := by
  cases c <;> rfl

theorem Diagnostic.relocate_id : Diagnostic.relocate id = id := by
  funext d
  rw [relocate, Cause.relocate_id]
  rfl

/-! ## One relocation after another -/

section

variable (ψ : Location → Location)

theorem Name.relocate_comp : Name.relocate ψ ∘ Name.relocate φ = Name.relocate (ψ ∘ φ) := rfl

theorem Expr.relocate_relocate (e : Expr) : (e.relocate φ).relocate ψ = e.relocate (ψ ∘ φ) := by
  induction e with
  | bool | int | nil | name => rfl
  | dot receiver member l ih => rw [relocate, relocate, relocate, ih]; rfl
  | binary op left right l ihl ihr => rw [relocate, relocate, relocate, ihl, ihr]; rfl

theorem Expr.relocate_comp : Expr.relocate ψ ∘ Expr.relocate φ = Expr.relocate (ψ ∘ φ) :=
  funext (relocate_relocate φ ψ)

theorem Clause.relocate_comp : Clause.relocate ψ ∘ Clause.relocate φ = Clause.relocate (ψ ∘ φ) := by
  funext clause
  rw [Function.comp_apply, relocate, relocate, relocate, List.map_map, Option.map_map,
    Name.relocate_comp, Expr.relocate_comp]
  rfl

theorem DottedName.relocate_comp :
    DottedName.relocate ψ ∘ DottedName.relocate φ = DottedName.relocate (ψ ∘ φ) := by
  funext path
  rw [Function.comp_apply, relocate, relocate, relocate, List.map_map, Name.relocate_comp]

theorem Header.relocate_relocate (header : Header) :
    (header.relocate φ).relocate ψ = header.relocate (ψ ∘ φ) := by
  rw [relocate, relocate, relocate, List.map_map, Clause.relocate_comp]
  rfl

theorem Statement.relocate_relocate (s : Statement) :
    (s.relocate φ).relocate ψ = s.relocate (ψ ∘ φ) := by
  induction s using inductionOn with
  | line s hline =>
    cases s with
    | empty => rfl
    | returns =>
      rw [relocate, relocate, relocate, Option.map_map, Expr.relocate_comp]
      rfl
    | consts | vars =>
      rw [relocate, relocate, relocate, List.map_map, Clause.relocate_comp]
      rfl
    | imports =>
      rw [relocate, relocate, relocate, List.map_map, DottedName.relocate_comp]
      rfl
    | moduleName =>
      rw [relocate, relocate, relocate, ← DottedName.relocate_comp]
      rfl
    | procedure => cases hline
  | procedure header body ih =>
    rw [relocate, relocate, relocate, relocateAll_eq_map, relocateAll_eq_map, relocateAll_eq_map,
      Header.relocate_relocate, List.map_map]
    exact congrArg _ (List.map_congr_left ih)

/-- Where things stood before does not matter once it is forgotten. -/
theorem Statement.relocate_erase (s : Statement) : (s.relocate φ).relocate .erase = s.relocate .erase :=
  relocate_relocate φ .erase s

end

end FirSyntax
