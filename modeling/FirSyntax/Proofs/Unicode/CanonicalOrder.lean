import FirSyntax.Unicode.Normalization
import Mathlib.Data.List.Chain

/-!
# Canonical order

In canonical order no mark stands behind a mark of greater class. Canonical ordering reaches this
order, leaves a text that has it as it is, and does not depend on the order in which neighbouring
marks of different classes were given.
-/
namespace FirSyntax.Unicode.CharData

variable {U : CharData} {b c d : Char} {cs ds ms : List Char}

/-- `d` may stand directly behind `c`. -/
def MayFollow (U : CharData) (c d : Char) : Prop :=
  U.combiningClass d = 0 ∨ U.combiningClass c ≤ U.combiningClass d

/-- The text is in canonical order. -/
def Ordered (U : CharData) (cs : List Char) : Prop := cs.IsChain U.MayFollow

theorem ordered_cons : U.Ordered (c :: cs) ↔ (∀ d ∈ cs.head?, U.MayFollow c d) ∧ U.Ordered cs :=
  List.isChain_cons

/-- Among marks the classes never fall. -/
theorem Ordered.pairwise (h : U.Ordered cs) (hmarks : ∀ c ∈ cs, U.combiningClass c ≠ 0) :
    cs.Pairwise fun c d => U.combiningClass c ≤ U.combiningClass d := by
  rw [← List.pairwise_map (R := (· ≤ ·)), ← List.isChain_iff_pairwise, List.isChain_map]
  refine h.imp_of_mem_imp fun c d _ hd hfollow => ?_
  exact hfollow.resolve_left (hmarks d hd)

theorem ordered_of_starters (h : ∀ c ∈ cs, U.combiningClass c = 0) : U.Ordered cs := by
  induction cs with
  | nil => exact .nil
  | cons c cs ih =>
    rw [List.forall_mem_cons] at h
    rw [ordered_cons]
    exact ⟨fun d hd => .inl (h.2 d (List.mem_of_mem_head? hd)), ih h.2⟩

/-! ## Inserting a mark -/

theorem insertMark_cons_of_lt (hpos : 0 < U.combiningClass d)
    (hlt : U.combiningClass d < U.combiningClass c) :
    U.insertMark c (d :: ds) = d :: U.insertMark c ds := by
  simp [insertMark, hpos, hlt]

theorem insertMark_cons_of_mayFollow (h : U.MayFollow c d) :
    U.insertMark c (d :: ds) = c :: d :: ds := by
  have hstay : ¬ (0 < U.combiningClass d ∧ U.combiningClass d < U.combiningClass c) := by
    rw [MayFollow] at h
    omega
  rw [insertMark, if_neg (by simpa using hstay)]

theorem insertMark_of_head (h : ∀ d ∈ cs.head?, U.MayFollow c d) :
    U.insertMark c cs = c :: cs := by
  cases cs with
  | nil => rfl
  | cons d ds => exact insertMark_cons_of_mayFollow (h d rfl)

/-- A starter does not move. -/
theorem insertMark_starter (h : U.combiningClass c = 0) : U.insertMark c cs = c :: cs :=
  insertMark_of_head fun d _ => .inr (by omega)

/-- No mark moves behind a starter. -/
theorem insertMark_append_starter (h : U.combiningClass d = 0) :
    U.insertMark c (cs ++ d :: ds) = U.insertMark c cs ++ d :: ds := by
  induction cs with
  | nil => exact insertMark_cons_of_mayFollow (.inl h)
  | cons e es ih =>
    simp only [List.cons_append, insertMark, ih]
    split <;> rfl

theorem insertMark_perm (c : Char) (cs : List Char) : (U.insertMark c cs).Perm (c :: cs) := by
  induction cs with
  | nil => rfl
  | cons d ds ih =>
    rw [insertMark]
    split
    · exact (ih.cons d).trans (List.Perm.swap c d ds)
    · rfl

theorem head_insertMark (h : d ∈ (U.insertMark c cs).head?) : d = c ∨ d ∈ cs.head? := by
  cases cs with
  | nil => exact .inl (by simpa [insertMark] using h.symm)
  | cons e es =>
    rw [insertMark] at h
    split at h
    · exact .inr h
    · exact .inl (by simpa using h.symm)

theorem Ordered.insertMark (h : U.Ordered cs) : U.Ordered (U.insertMark c cs) := by
  induction cs with
  | nil => exact .singleton c
  | cons d ds ih =>
    by_cases hmove : 0 < U.combiningClass d ∧ U.combiningClass d < U.combiningClass c
    · rw [insertMark_cons_of_lt hmove.1 hmove.2]
      rw [ordered_cons] at h ⊢
      refine ⟨fun e he => ?_, ih h.2⟩
      cases head_insertMark he with
      | inl heq => exact .inr (heq ▸ hmove.2.le)
      | inr hmem => exact h.1 e hmem
    · have hfollow : U.MayFollow c d := by
        rw [MayFollow]
        omega
      rw [insertMark_cons_of_mayFollow hfollow]
      exact .cons_cons hfollow h

/-- Two marks of different classes may be inserted one after the other in either order. -/
theorem insertMark_comm (hpos : 0 < U.combiningClass c)
    (hlt : U.combiningClass c < U.combiningClass d) :
    U.insertMark c (U.insertMark d cs) = U.insertMark d (U.insertMark c cs) := by
  induction cs with
  | nil =>
    calc U.insertMark c [d]
        = [c, d] := insertMark_cons_of_mayFollow (.inr hlt.le)
      _ = c :: U.insertMark d [] := rfl
      _ = U.insertMark d [c] := (insertMark_cons_of_lt hpos hlt).symm
  | cons e es ih =>
    by_cases hc : 0 < U.combiningClass e ∧ U.combiningClass e < U.combiningClass c
    · rw [insertMark_cons_of_lt hc.1 hc.2, insertMark_cons_of_lt hc.1 (hc.2.trans hlt),
        insertMark_cons_of_lt hc.1 hc.2, insertMark_cons_of_lt hc.1 (hc.2.trans hlt), ih]
    · have hce : U.MayFollow c e := by
        rw [MayFollow]
        omega
      rw [insertMark_cons_of_mayFollow hce, insertMark_cons_of_lt hpos hlt]
      refine insertMark_of_head fun f hf => ?_
      cases head_insertMark hf with
      | inl heq => exact .inr (heq ▸ hlt.le)
      | inr hmem => exact (Option.some.inj hmem) ▸ hce

/-! ## Ordering a text -/

theorem canonicalOrder_cons : U.canonicalOrder (c :: cs) = U.insertMark c (U.canonicalOrder cs) :=
  rfl

theorem canonicalOrder_append :
    U.canonicalOrder (cs ++ ds) = cs.foldr U.insertMark (U.canonicalOrder ds) :=
  List.foldr_append

theorem ordered_canonicalOrder (cs : List Char) : U.Ordered (U.canonicalOrder cs) := by
  induction cs with
  | nil => exact .nil
  | cons c cs ih => exact ih.insertMark

theorem canonicalOrder_of_ordered (h : U.Ordered cs) : U.canonicalOrder cs = cs := by
  induction cs with
  | nil => rfl
  | cons c cs ih =>
    rw [ordered_cons] at h
    rw [canonicalOrder_cons, ih h.2, insertMark_of_head h.1]

theorem canonicalOrder_perm (cs : List Char) : (U.canonicalOrder cs).Perm cs := by
  induction cs with
  | nil => rfl
  | cons c cs ih => exact (insertMark_perm c _).trans (ih.cons c)

/-- What stands before a starter and what stands from it on are ordered apart. -/
theorem canonicalOrder_append_starter (h : U.combiningClass d = 0) :
    U.canonicalOrder (cs ++ d :: ds) = U.canonicalOrder cs ++ d :: U.canonicalOrder ds := by
  induction cs with
  | nil => exact insertMark_starter h
  | cons c cs ih => rw [List.cons_append, canonicalOrder_cons, ih, insertMark_append_starter h,
      canonicalOrder_cons]

/-- A mark may be given before or behind marks of smaller class. -/
theorem canonicalOrder_swap
    (h : ∀ m ∈ ms, 0 < U.combiningClass m ∧ U.combiningClass m < U.combiningClass b) :
    U.canonicalOrder (cs ++ b :: (ms ++ ds)) = U.canonicalOrder (cs ++ (ms ++ b :: ds)) := by
  have hmove : U.canonicalOrder (b :: (ms ++ ds)) = U.canonicalOrder (ms ++ b :: ds) := by
    induction ms with
    | nil => rfl
    | cons m ms ih =>
      rw [List.forall_mem_cons] at h
      calc U.canonicalOrder (b :: m :: (ms ++ ds))
          = U.insertMark b (U.insertMark m (U.canonicalOrder (ms ++ ds))) := rfl
        _ = U.insertMark m (U.canonicalOrder (b :: (ms ++ ds))) :=
          (insertMark_comm h.1.1 h.1.2).symm
        _ = U.canonicalOrder (m :: (ms ++ b :: ds)) := by rw [ih h.2, canonicalOrder_cons]
  rw [canonicalOrder_append, canonicalOrder_append, hmove]

end FirSyntax.Unicode.CharData
