import FirSyntax.Proofs.Grammar.Line
import FirSyntax.Proofs.Token.Spelling
import FirSyntax.Proofs.Tree.Relocation
import FirSyntax.Writing.Expr

/-!
# Written expressions

The text of an expression spells tokens from which the expression is derived again, wherever those
tokens stand. Parentheses are written where the rank of an operand is too low for its place.
-/
namespace FirSyntax

open Token Grammar Unicode Source

/-- The tokens of an item that is `c` under `f`. -/
def Grammar.Yields {β γ : Type} (Item : List Token → β → Prop) (f : β → γ) (c : γ)
    (ts : List Token) : Prop :=
  ∃ b, Item ts b ∧ f b = c

variable {U : CharData}

theorem Name.spells (hU : U.BlanksApart) {n : Name} (h : IsIdentifier U n.text) :
    Spells U (Apart U) n.text (Yields IsName (relocate .erase) (n.relocate .erase)) := by
  refine (h.spells hU).imp ?_
  rintro ts ⟨l, rfl⟩
  exact ⟨_, .intro rfl, rfl⟩

/-- A list of items with a sign between them. -/
theorem Token.Spells.separated {α β γ : Type} {sign : Punctuation} {sep x : String}
    {write : α → String} {Item : List Token → β → Prop} {f : β → γ} {g : α → γ} {items : List α}
    (hsep : Spells U Anything sep (IsToken (.punctuation sign) x))
    (hapart : ∀ rest, Apart U (pieces sep ++ rest)) (hne : items ≠ [])
    (hitem : ∀ a ∈ items, Spells U (Apart U) (write a) (Yields Item f (g a))) :
    Spells U (Apart U) (sep.intercalate (items.map write))
      (Yields (Separated sign Item) (List.map f) (items.map g)) := by
  induction items with
  | nil => exact absurd rfl hne
  | cons a items ih =>
    rw [List.forall_mem_cons] at hitem
    cases items with
    | nil =>
      rw [List.map_singleton, String.intercalate_singleton]
      refine hitem.1.imp ?_
      rintro ts ⟨b, hb, heq⟩
      exact ⟨[b], .one hb, by rw [List.map_singleton, heq]; rfl⟩
    | cons a' items =>
      rw [List.map_cons, List.map_cons, String.intercalate_cons_cons, ← List.map_cons]
      refine ((hitem.1.append hsep fun rest _ => hapart rest).append
        (ih (List.cons_ne_nil a' items) hitem.2) fun _ _ => trivial).imp ?_
      rintro _ ⟨_, vs, rfl, ⟨ts, _, rfl, ⟨b, hb, heq⟩, ⟨l, rfl⟩⟩, ⟨bs, hbs, hrest⟩⟩
      refine ⟨b :: bs, ?_, by rw [List.map_cons, heq, hrest]; rfl⟩
      rw [List.append_assoc]
      exact .more hb rfl hbs

namespace Expr

/-- Expressions of names that are identifiers, other than the words for truth values where they
stand for themselves. -/
inductive WellShaped (U : CharData) : Expr → Prop where
  | bool {value l} : WellShaped U (.bool value l)
  | int {value l} : WellShaped U (.int value l)
  | nil {l} : WellShaped U (.nil l)
  | name {n : Name} : IsIdentifier U n.text → n.text ≠ "true" → n.text ≠ "false" →
      WellShaped U (.name n)
  | dot {receiver l} {member : Name} : WellShaped U receiver → IsIdentifier U member.text →
      WellShaped U (.dot receiver member l)
  | binary {op left right l} : WellShaped U left → WellShaped U right →
      WellShaped U (.binary op left right l)

/-- The rank that an expression has without parentheses. -/
def rank : Expr → Rank
  | binary op _ _ _ => if op.precedence = 20 then .sum else .product
  | dot _ _ _ => .primary
  | _ => .atom

/-- Whether an expression is a binary operation. -/
def isOperation : Expr → Bool
  | binary _ _ _ _ => true
  | _ => false

/-- The dot behind an expression. -/
def dotText : Expr → String
  | int _ _ => " ."
  | _ => "."

/-- The number of pairs of parentheses in the text of an expression. -/
def parens : Expr → Nat
  | dot receiver _ _ => receiver.parens + receiver.isOperation.toNat
  | binary op left right _ =>
    left.parens + (left.looserThan op.precedence).toNat +
      (right.parens + (right.looserThan (op.precedence + 1)).toNat)
  | _ => 0

end Expr

/-- The number of parentheses that are opened. -/
def Token.parens (ts : List Token) : Nat := ts.countP (·.kind = .punctuation .leftParen)

theorem Token.parens_append (ts us : List Token) : parens (ts ++ us) = parens ts + parens us :=
  List.countP_append

theorem Token.parens_cons (t : Token) (ts : List Token) :
    parens (t :: ts) = parens ts + if t.kind = .punctuation .leftParen then 1 else 0 := by
  simp [parens, List.countP_cons]

@[simp] theorem Token.parens_nil : parens [] = 0 := rfl

theorem Token.parens_operator {t : Token} {op : Operator} (h : t.kind.operator? = some op)
    (ts : List Token) : parens (t :: ts) = parens ts := by
  have hne : t.kind ≠ .punctuation .leftParen := by
    intro hkind
    rw [hkind] at h
    cases h
  rw [parens_cons, if_neg hne, Nat.add_zero]

theorem Grammar.IsName.parens {ts : List Token} {n : Name} (h : IsName ts n) : parens ts = 0 := by
  cases h with
  | intro hkind => simp [parens_cons, hkind]

/-- Ranks that bind more tightly have higher levels. -/
def Grammar.Rank.level : Rank → Nat
  | .sum => 0
  | .product => 1
  | .primary => 2
  | .atom => 3

/-- Whether an expression needs parentheses where a rank is asked for. -/
def Expr.needsParens (rank : Rank) (e : Expr) : Bool := decide (e.rank.level < rank.level)

theorem Grammar.IsExpr.lower {rank rank' : Rank} {ts : List Token} {e : Expr}
    (h : IsExpr rank ts e) (hle : rank'.level ≤ rank.level) : IsExpr rank' ts e := by
  cases rank <;> cases rank' <;> simp [Rank.level] at hle
  · exact h
  · exact .ofProduct h
  · exact h
  · exact .ofProduct (.ofPrimary h)
  · exact .ofPrimary h
  · exact h
  · exact .ofProduct (.ofPrimary (.ofAtom h))
  · exact .ofPrimary (.ofAtom h)
  · exact .ofAtom h
  · exact h

/-- The tokens of an expression of a rank that opens `n` parentheses. -/
def Grammar.Grouped (rank : Rank) (n : Nat) (ts : List Token) (e : Expr) : Prop :=
  IsExpr rank ts e ∧ parens ts = n

namespace Expr

/-- An expression in parentheses is an atom. -/
theorem grouped_spells (rank : Rank) {n : Nat} {e : Expr}
    (h : Spells U (Apart U) e.write
      (Yields (Grouped e.rank n) (relocate .erase) (e.relocate .erase))) :
    Spells U (Apart U) (grouped (e.needsParens rank) e.write)
      (Yields (Grouped rank (n + (e.needsParens rank).toNat)) (relocate .erase)
        (e.relocate .erase)) := by
  cases hneeded : e.needsParens rank with
  | false =>
    have hrank : rank.level ≤ e.rank.level := Nat.le_of_not_lt (of_decide_eq_false hneeded)
    refine h.imp ?_
    rintro ts ⟨e', ⟨he, hn⟩, heq⟩
    exact ⟨e', ⟨he.lower hrank, hn⟩, heq⟩
  | true =>
    have hopen := Spells.mark (U := U) .leftParen (by decide)
    have hclose := Spells.mark (U := U) .rightParen (by decide)
    refine (((hopen.append h fun _ _ => trivial).append hclose fun rest _ => rfl).weaken
      fun _ _ => trivial).imp ?_
    rintro _ ⟨_, _, rfl, ⟨_, ts, rfl, ⟨l, rfl⟩, ⟨e', ⟨he, hn⟩, heq⟩⟩, ⟨l', rfl⟩⟩
    have hsum : IsExpr .sum ts e' := he.lower (Nat.zero_le _)
    refine ⟨e', ⟨IsExpr.lower (.group rfl hsum rfl) ?_, ?_⟩, heq⟩
    · cases rank <;> simp [Rank.level]
    · simp [parens_append, parens_cons, hn]

/-- Where a member is taken, the dot does not touch an integer. -/
theorem write_dot (receiver : Expr) (member : Name) (l : Location) :
    (dot receiver member l).write =
      grouped receiver.isOperation receiver.write ++ receiver.dotText ++ member.text := by
  cases receiver <;> rfl

theorem dotText_spells (e : Expr) :
    Spells U Anything e.dotText (IsToken (.punctuation .dot) ".") ∧
      ∀ rest, Apart U (pieces e.dotText ++ rest) := by
  have hdot := Spells.mark (U := U) .dot (by decide)
  unfold dotText
  split
  · refine ⟨(Spells.space.append hdot fun _ _ => trivial).imp ?_, fun rest => rfl⟩
    rintro _ ⟨_, _, rfl, rfl, hdot⟩
    exact hdot
  · exact ⟨hdot, fun rest => rfl⟩

theorem isIdentifier_truth (value : Bool) :
    IsIdentifier U (if value then "true" else "false") := by
  cases value <;> exact .of_letters (by decide) (by decide) (by decide)

/-! Parentheses are written just where they are needed. -/

theorem isOperation_eq (receiver : Expr) : receiver.isOperation = receiver.needsParens .primary := by
  cases receiver with
  | binary op => cases op <;> rfl
  | _ => rfl

theorem looserThan_left (op : Operator) (left right : Expr) (l : Location) :
    left.looserThan op.precedence = left.needsParens (binary op left right l).rank := by
  cases left with
  | binary op' => cases op <;> cases op' <;> rfl
  | _ => cases op <;> rfl

theorem looserThan_right (op : Operator) (right : Expr) :
    right.looserThan (op.precedence + 1) =
      right.needsParens (if op.precedence = 20 then .product else .primary) := by
  cases right with
  | binary op' => cases op <;> cases op' <;> rfl
  | _ => cases op <;> rfl

/-- The text of an expression spells it, and opens just the parentheses that were counted. -/
theorem write_grouped (hU : U.BlanksApart) {e : Expr} (h : e.WellShaped U) :
    Spells U (Apart U) e.write
      (Yields (Grouped e.rank e.parens) (relocate .erase) (e.relocate .erase)) := by
  induction h with
  | @bool value l =>
    have hwrite : (bool value l).write = if value then "true" else "false" := by
      cases value <;> rfl
    rw [hwrite]
    refine ((isIdentifier_truth value).spells hU).imp ?_
    rintro ts ⟨l', rfl⟩
    exact ⟨_, ⟨.truth rfl rfl, rfl⟩, rfl⟩
  | @int value l =>
    refine (Spells.integer value).imp ?_
    rintro ts ⟨l', rfl⟩
    exact ⟨_, ⟨.integer rfl, rfl⟩, by simp [Decimal.value_text, relocate, Location.erase]⟩
  | nil =>
    refine (Spells.keyword hU .nil).imp ?_
    rintro ts ⟨l', rfl⟩
    exact ⟨_, ⟨.nil rfl, rfl⟩, rfl⟩
  | name hname htrue hfalse =>
    refine (hname.spells hU).imp ?_
    rintro ts ⟨l', rfl⟩
    exact ⟨_, ⟨.identifier rfl htrue hfalse, rfl⟩, rfl⟩
  | @dot receiver l member _ hmember ih =>
    have hreceiver := grouped_spells .primary ih
    obtain ⟨hdot, hapart⟩ := dotText_spells (U := U) receiver
    rw [write_dot, parens, isOperation_eq]
    refine ((hreceiver.append hdot fun rest _ => hapart rest).append (Name.spells hU hmember)
      fun _ _ => trivial).imp ?_
    rintro _ ⟨_, ms, rfl, ⟨ts, _, rfl, ⟨e, ⟨he, hcount⟩, heq⟩, ⟨l', rfl⟩⟩, ⟨n, hn, hname⟩⟩
    refine ⟨.dot e n l', ⟨?_, ?_⟩, ?_⟩
    · rw [List.append_assoc]
      exact .member he rfl hn
    · simp [parens_append, parens_cons, hcount, hn.parens]
    · rw [relocate, relocate, heq, hname]
      rfl
  | @binary op left right l _ _ ihl ihr =>
    have hl := grouped_spells (binary op left right l).rank ihl
    have hr := grouped_spells (if op.precedence = 20 then .product else .primary) ihr
    rw [← looserThan_left] at hl
    rw [← looserThan_right] at hr
    have hspace := Spells.space (U := U)
    have hoperator := (hl.append hspace fun _ _ => rfl).append (Spells.operator op) fun _ _ => trivial
    refine ((hoperator.append hspace fun _ _ => rfl).append hr fun _ _ => trivial).imp ?_
    rintro _ ⟨_, rs, rfl, ⟨_, _, rfl, ⟨_, _, rfl, ⟨ls, _, rfl, ⟨e, ⟨he, hcount⟩, heq⟩, rfl⟩,
      ⟨t, rfl, hop⟩⟩, rfl⟩, ⟨e', ⟨he', hcount'⟩, heq'⟩⟩
    rw [List.append_nil, List.append_nil, List.append_assoc]
    refine ⟨.binary op e e' t.location, ⟨?_, ?_⟩, by rw [relocate, heq, heq']; rfl⟩
    · by_cases h20 : op.precedence = 20
      · rw [rank, if_pos h20] at he ⊢
        rw [if_pos h20] at he'
        exact .sum he hop h20 he'
      · rw [rank, if_neg h20] at he ⊢
        rw [if_neg h20] at he'
        exact .product he hop (op.precedence_cases.resolve_left h20) he'
    · rw [parens_append, List.singleton_append, parens_operator hop, hcount, hcount', parens]

theorem write_spells (hU : U.BlanksApart) {e : Expr} (h : e.WellShaped U) :
    Spells U (Apart U) e.write (Yields (IsExpr e.rank) (relocate .erase) (e.relocate .erase)) := by
  refine (write_grouped hU h).imp ?_
  rintro ts ⟨e', ⟨he, -⟩, heq⟩
  exact ⟨e', he, heq⟩

end Expr

end FirSyntax
