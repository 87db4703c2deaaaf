import FirSyntax.Proofs.Grammar.Line
import FirSyntax.Proofs.Reading.Passage
import FirSyntax.Proofs.Reading.Turns

/-!
# Steps that take given tokens

A step takes tokens when it gives a result and stands in front of what is behind them. Steps that
take tokens one behind the other take all of them; a step that ends a line may also take its end.
-/
namespace FirSyntax

open Token Grammar

/-- The kind of the token in front, which is the end of the file when there is none. -/
def Token.leading (ts : List Token) : Kind := (ts.head?.map (·.kind)).getD .eof

@[simp] theorem Token.leading_nil : leading [] = .eof := rfl

@[simp] theorem Token.leading_cons (t : Token) (ts : List Token) : leading (t :: ts) = t.kind := rfl

theorem Token.Kind.ne_dot_of_operator {k : Kind} {op : Operator} (h : k.operator? = some op) :
    k ≠ .punctuation .dot := by
  rintro rfl
  cases h

namespace Reading

/-- `r` stands in front of the tokens `ts`, behind a token of the same line. -/
structure Before (r : Reading) (ts : List Token) : Prop where
  tokens : r.stream.tokens = ts
  previous : r.previous.isLayout = false

variable {r : Reading} {t : Token} {ts : List Token}

theorem kind_current (r : Reading) : r.current.kind = leading r.stream.tokens := by
  cases h : r.stream.tokens with
  | nil =>
    rw [current_of_nil h]
    rfl
  | cons t ts =>
    rw [current_of_tokens h]
    rfl

theorem advance_before (h : r.stream.tokens = t :: ts) (ht : t.kind.isLayout = false) :
    r.advance.Before ts := by
  have hcurrent := current_of_tokens h
  have hpass := Passes.advance (r := r) (by rwa [hcurrent])
  refine ⟨?_, hpass.previous_isLayout (by simp)⟩
  have := hpass.tokens
  rw [h, hcurrent] at this
  exact (List.cons_inj_right t).mp this.symm

namespace Before

theorem leading (h : r.Before ts) : r.current.kind = leading ts := by
  rw [kind_current, h.tokens]

theorem current (h : r.Before (t :: ts)) : r.current = t := current_of_tokens h.tokens

theorem advance (h : r.Before (t :: ts)) (ht : t.kind.isLayout = false) : r.advance.Before ts :=
  advance_before h.tokens ht

theorem report (h : r.Before ts) (l : Location) (c : Cause) : (r.report l c).Before ts :=
  ⟨by rw [stream_report, h.tokens], by rw [previous_report, h.previous]⟩

end Before

end Reading

variable {α β : Type} {n : Nat}

/-- An outcome has the result `a` and stops in front of the tokens `rest` of the same line. -/
structure Step.Takes (s : Outcome α n) (a : α) (rest : List Token) : Prop where
  value : s.value = some a
  after : s.after.Before rest

/-- An outcome has the result `a` and stops in front of the tokens `rest`. -/
structure Step.Gives (s : Outcome α n) (a : α) (rest : List Token) : Prop where
  value : s.value = some a
  tokens : s.after.stream.tokens = rest

namespace Step

variable {a : α} {b : β} {mid rest : List Token} {s : Outcome α n}

theorem Takes.andThen {f : (a : α) → (r : Reading) → r.remaining ≤ n → Outcome β n}
    (hs : s.Takes a mid) (hf : ∀ r h, r.Before mid → (f a r h).Takes b rest) :
    (s.andThen f).Takes b rest := by
  obtain ⟨value, after, hle⟩ := s
  obtain ⟨rfl, hafter⟩ := hs
  exact hf after hle hafter

theorem Takes.within {m : Nat} (hs : s.Takes a rest) (h : n ≤ m) : (s.within h).Takes a rest :=
  ⟨hs.value, hs.after⟩

theorem Takes.andThenGives {f : (a : α) → (r : Reading) → r.remaining ≤ n → Outcome β n}
    (hs : s.Takes a mid) (hf : ∀ r h, r.Before mid → (f a r h).Gives b rest) :
    (s.andThen f).Gives b rest := by
  obtain ⟨value, after, hle⟩ := s
  obtain ⟨rfl, hafter⟩ := hs
  exact hf after hle hafter

theorem Gives.within {m : Nat} (hs : s.Gives a rest) (h : n ≤ m) : (s.within h).Gives a rest :=
  ⟨hs.value, hs.tokens⟩

theorem Gives.map {g : α → β} (hs : s.Gives a rest) :
    (s.andThen fun a after h => .done (g a) after h).Gives (g a) rest := by
  obtain ⟨value, after, hle⟩ := s
  obtain ⟨rfl, htokens⟩ := hs
  exact ⟨rfl, htokens⟩

/-- What is left behind a step, told from its result. -/
theorem remaining_of_result {value : Option α} {r : Reading} (h : s.result = (value, r)) :
    r.remaining ≤ n := by
  obtain ⟨value, after, hle⟩ := s
  cases h
  exact hle

/-- One outcome after another, seen without bounds. -/
theorem result_andThen {f : (a : α) → (r : Reading) → r.remaining ≤ n → Outcome β n} {r : Reading}
    (h : s.result = (some a, r)) : ∃ hle, (s.andThen f).result = (f a r hle).result := by
  obtain ⟨value, after, hle⟩ := s
  cases h
  exact ⟨hle, rfl⟩

theorem Takes.of_result {m : Nat} {s' : Outcome α m} (h : s'.Takes a rest)
    (heq : s.result = s'.result) : s.Takes a rest := by
  obtain ⟨hvalue, hafter⟩ := Prod.mk.inj heq
  exact ⟨hvalue.trans h.value, hafter ▸ h.after⟩

theorem Takes.result (h : s.Takes a rest) : s.result = (some a, s.after) := by
  rw [Step.result, h.value]

end Step

namespace Reading

variable {r : Reading} {rest : List Token}

theorem here_takes {a : α} (h : r.Before rest) : (Step.here a r).Takes a rest := ⟨rfl, h⟩

theorem taking_takes {a : α} {t : Token} (h : r.stream.tokens = t :: rest)
    (ht : t.kind.isLayout = false) : (Step.taking a r).Takes a rest := ⟨rfl, advance_before h ht⟩

theorem expect_takes {t : Token} {kind : Kind} (h : r.Before (t :: rest)) (ht : t.kind = kind)
    (hkind : kind.isLayout = false) : (r.expect kind).Takes t rest := by
  rw [expect, if_pos (h.leading.trans ht), h.current]
  exact ⟨rfl, h.advance (ht ▸ hkind)⟩

theorem expectName_takes {ts : List Token} {name : Name} (hname : IsName ts name)
    (h : r.Before (ts ++ rest)) : r.expectName.Takes name rest := by
  cases hname with
  | intro ht => exact (expect_takes h ht rfl).andThen fun r' _ hr' => ⟨rfl, hr'⟩

/-- Items are read up to a token that neither separates them nor carries the last of them on. -/
theorem separated_takes {sign : Punctuation} {item : (r : Reading) → Outcome α r.remaining}
    {Item : List Token → α → Prop} {P : Kind → Prop} (hsign : P (.punctuation sign))
    (hitem : ∀ {ts a r rest}, Item ts a → P (leading rest) → r.Before (ts ++ rest) →
      (item r).Takes a rest)
    {ts : List Token} {as : List α} (hrule : Separated sign Item ts as) (r : Reading)
    (hstop : P (leading rest)) (hne : leading rest ≠ .punctuation sign)
    (h : r.Before (ts ++ rest)) : (r.separated sign item).Takes as rest := by
  induction hrule generalizing r with
  | one ha =>
    rw [separated]
    refine (hitem ha hstop h).andThen fun r' _ hr' => ?_
    rw [dif_neg (by rwa [hr'.leading])]
    exact ⟨rfl, hr'⟩
  | more ha ht hrest ih =>
    rw [separated]
    rw [List.append_assoc] at h
    refine (hitem ha (by rwa [List.cons_append, leading_cons, ht]) h).andThen fun r' _ hr' => ?_
    rw [dif_pos (by rw [hr'.leading]; exact ht)]
    have hnext := hr'.advance (by rw [ht]; rfl)
    exact ((ih _ hnext).within _).andThen fun r'' _ hr'' => ⟨rfl, hr''⟩

end Reading

end FirSyntax
