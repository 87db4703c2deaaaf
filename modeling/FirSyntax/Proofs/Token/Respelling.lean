import Mathlib.Data.List.Chain
import FirSyntax.Proofs.Token.Breaks
import FirSyntax.Proofs.Token.Tiling

/-!
# Tokens of one spelling

Where two tokens of a source stand at one location is known from the kinds alone: a token of layout
stands where the next token does, and every other one before it. So the tokens of two sources that
are spelled alike are the same up to an injective relocation.
-/
namespace FirSyntax.Token

open Source Unicode

/-- The token `u` stands where `t` does, unless that takes the place. -/
def Adjoins (t u : Token) : Prop := t.kind.takesPlace = false → t.location = u.location

/-- Tokens that stand as those of a source do. -/
structure Placed (ts : List Token) : Prop where
  before : ts.Pairwise Before
  adjoins : ts.IsChain Adjoins
  written : ∀ t ∈ ts, t.location ≠ .unwritten

variable {U : CharData} {input : List Piece} {lineStart : Bool} {k : Nat} {ts us : List Token}
  {ending : Location}

/-! ## The places of a source -/

theorem Tiles.head_location (h : Tiles U input lineStart k ts ending)
    (hbegins : BeginsContent input k) :
    (ts ++ [bare .eof ending]).head?.map (·.location) = some (place input k) := by
  obtain ⟨-, hk, hblank⟩ := hbegins
  have hgap {gap rest : List Piece} {lineStart : Bool} (hdrop : input.drop k = gap ++ rest)
      (hpasses : Passes (spaceTest lineStart) gap rest) : k + gap.length = k := by
    rw [hdrop] at hblank
    rw [nil_of_passes hpasses hblank]
    rfl
  cases h with
  | ending hpasses =>
    have hnil := nil_of_passes hpasses (by rwa [List.append_nil])
    rw [List.drop_eq_nil_iff] at hnil
    omega
  | layout hdrop hpasses =>
    rw [hgap hdrop hpasses]
    rfl
  | span hdrop hpasses _ hlocation =>
    rw [hgap hdrop hpasses] at hlocation
    exact congrArg some hlocation

/-- A token of layout stands where the next token does. -/
theorem Tiles.adjoins (h : Tiles U input lineStart k ts ending) :
    (ts ++ [bare .eof ending]).IsChain Adjoins := by
  induction h with
  | @ending _ _ closing _ hclosing =>
    apply List.Pairwise.isChain
    apply List.pairwise_of_forall_mem_list
    have hend (t : Token) (ht : t ∈ closing ++ [bare .eof (place input input.length)]) :
        t.location = place input input.length := by
      rcases List.mem_append.mp ht with ht | ht
      · rw [hclosing t ht]
        rfl
      · rw [List.mem_singleton.mp ht]
        rfl
    exact fun t ht u hu _ => (hend t ht).trans (hend u hu).symm
  | layout _ _ hbegins _ htiles ih =>
    rw [List.cons_append, List.isChain_cons]
    refine ⟨fun u hu _ => ?_, ih⟩
    have hhead := htiles.head_location hbegins
    rw [Option.mem_def.mp hu] at hhead
    exact (Option.some.inj hhead).symm
  | span _ _ hspan _ _ ih =>
    rw [List.cons_append, List.isChain_cons]
    refine ⟨fun u _ hplace => ?_, ih⟩
    rw [hspan.takesPlace] at hplace
    cases hplace

theorem placed_ofBytes (U : CharData) (bytes : List UInt8) :
    Placed ((Stream.ofBytes U bytes).tokens ++ [bare .eof (Stream.ofBytes U bytes).ending]) where
  before := (Scanner.stream_ordered (Scanner.start (Source.ofBytes bytes))).1
  adjoins := (Scanner.standsAt_start (Source.ofBytes bytes)).tiles.adjoins
  written := by
    intro t ht hunwritten
    have hline := (Scanner.stream_ordered (Scanner.start (Source.ofBytes bytes))).2 t ht
    rw [hunwritten] at hline
    change Location.start ≤ Location.unwritten at hline
    revert hline
    decide

/-! ## Relocations -/

/-- The partner of a location that is paired; all others are moved down by `bound` lines. -/
def partner (pairs : List (Location × Location)) (bound : Nat) (l : Location) : Location :=
  match pairs.find? fun a => a.1 = l with
  | some a => a.2
  | none => ⟨bound + l.line, l.column⟩

/-- Locations that are paired one to one. -/
def Paired (pairs : List (Location × Location)) : Prop :=
  ∀ a ∈ pairs, ∀ b ∈ pairs, a.1 = b.1 ↔ a.2 = b.2

section

variable {pairs : List (Location × Location)} {a : Location × Location} {bound : Nat} {l m : Location}

theorem partner_of_mem (h : Paired pairs) (ha : a ∈ pairs) : partner pairs bound a.1 = a.2 := by
  rw [partner]
  cases hfind : pairs.find? fun b => b.1 = a.1 with
  | none => exact absurd (List.find?_eq_none.mp hfind a ha) (by simp)
  | some b =>
    have hb : b.1 = a.1 := by simpa using List.find?_some hfind
    exact (h b (List.mem_of_find?_eq_some hfind) a ha).mp hb

theorem partner_of_not_mem (hl : ¬ ∃ a ∈ pairs, a.1 = l) :
    partner pairs bound l = ⟨bound + l.line, l.column⟩ := by
  have hfind : (pairs.find? fun a => a.1 = l) = none := by
    rw [List.find?_eq_none]
    intro a ha
    rw [decide_eq_true_iff]
    exact fun heq => hl ⟨a, ha, heq⟩
  rw [partner, hfind]

/-- What is not paired is moved below all partners. -/
theorem partner_ne (h : Paired pairs) (hbound : ∀ a ∈ pairs, a.2.line < bound) (ha : a ∈ pairs)
    (hm : ¬ ∃ b ∈ pairs, b.1 = m) : partner pairs bound a.1 ≠ partner pairs bound m := by
  intro heq
  rw [partner_of_mem h ha, partner_of_not_mem hm] at heq
  have hline := hbound a ha
  rw [heq] at hline
  exact absurd hline (Nat.not_lt_of_le (Nat.le_add_right _ _))

theorem partner_injective (h : Paired pairs) (hbound : ∀ a ∈ pairs, a.2.line < bound) :
    Function.Injective (partner pairs bound) := by
  intro l m hlm
  by_cases hl : ∃ a ∈ pairs, a.1 = l
  · obtain ⟨a, ha, rfl⟩ := hl
    by_cases hm : ∃ b ∈ pairs, b.1 = m
    · obtain ⟨b, hb, rfl⟩ := hm
      rw [partner_of_mem h ha, partner_of_mem h hb] at hlm
      exact (h a ha b hb).mpr hlm
    · exact absurd hlm (partner_ne h hbound ha hm)
  · by_cases hm : ∃ b ∈ pairs, b.1 = m
    · obtain ⟨b, hb, rfl⟩ := hm
      exact absurd hlm.symm (partner_ne h hbound hb hl)
    · rw [partner_of_not_mem hl, partner_of_not_mem hm, Location.mk.injEq] at hlm
      obtain ⟨line, column⟩ := l
      obtain ⟨line', column'⟩ := m
      rw [Location.mk.injEq]
      exact ⟨Nat.add_left_cancel hlm.1, hlm.2⟩

/-- Finitely many locations that are paired one to one are relocated to their partners. -/
theorem exists_relocation (h : Paired pairs) :
    ∃ φ : Location → Location, Function.Injective φ ∧ ∀ a ∈ pairs, φ a.1 = a.2 := by
  have hbound : ∀ a ∈ pairs, a.2.line < (pairs.map fun a => a.2.line).max?.getD 0 + 1 := by
    intro a ha
    apply Nat.lt_succ_of_le
    apply List.le_max?_getD_of_mem
    exact List.mem_map_of_mem ha
  exact ⟨_, partner_injective h hbound, fun a ha => partner_of_mem h ha⟩

end

theorem spelling_cons {t u : Token} (h : spelling (t :: ts) = spelling (u :: us)) :
    t.kind = u.kind ∧ t.text = u.text ∧ spelling ts = spelling us := by
  obtain ⟨hhead, htail⟩ := List.cons.inj h
  obtain ⟨hkind, htext⟩ := Prod.mk.inj hhead
  exact ⟨hkind, htext, htail⟩

theorem Placed.tail {t : Token} (h : Placed (t :: ts)) : Placed ts where
  before := h.before.of_cons
  adjoins := h.adjoins.tail
  written := (List.forall_mem_cons.mp h.written).2

/-- Tokens that are spelled alike share their locations alike. -/
theorem Placed.zip (hts : Placed ts) (hus : Placed us) (h : spelling ts = spelling us) :
    (ts.zip us).Pairwise fun a b => a.1.location = b.1.location ↔ a.2.location = b.2.location := by
  induction ts generalizing us with
  | nil => exact .nil
  | cons t ts ih =>
    cases us with
    | nil => cases h
    | cons u us =>
      obtain ⟨hkind, -, htail⟩ := spelling_cons h
      have hrest := ih hts.tail hus.tail htail
      rw [List.zip_cons_cons, List.pairwise_cons]
      refine ⟨fun b hb => ?_, hrest⟩
      obtain ⟨hbt, hbu⟩ := List.of_mem_zip hb
      cases hplace : t.kind.takesPlace with
      | true =>
        have hlt := (List.rel_of_pairwise_cons hts.before hbt).2 hplace
        have hlt' := (List.rel_of_pairwise_cons hus.before hbu).2 (hkind ▸ hplace)
        exact iff_of_false (ne_of_lt hlt) (ne_of_lt hlt')
      | false =>
        -- Both stand where the next tokens do, for which the rest of the list tells.
        cases ts with
        | nil => cases hbt
        | cons t' ts =>
          cases us with
          | nil => cases hbu
          | cons u' us =>
            have hnext := (List.isChain_cons_cons.mp hts.adjoins).1 hplace
            have hnext' := (List.isChain_cons_cons.mp hus.adjoins).1 (hkind ▸ hplace)
            rw [hnext, hnext']
            rw [List.zip_cons_cons] at hb hrest
            rcases List.mem_cons.mp hb with rfl | hb
            · exact iff_of_true rfl rfl
            · exact List.rel_of_pairwise_cons hrest hb

theorem eq_map_relocate {φ : Location → Location} (h : spelling ts = spelling us)
    (hφ : ∀ a ∈ ts.zip us, φ a.1.location = a.2.location) : us = ts.map (Token.relocate φ) := by
  induction ts generalizing us with
  | nil =>
    cases us with
    | nil => rfl
    | cons u us => cases h
  | cons t ts ih =>
    cases us with
    | nil => cases h
    | cons u us =>
      obtain ⟨hkind, htext, htail⟩ := spelling_cons h
      rw [List.zip_cons_cons, List.forall_mem_cons] at hφ
      rw [List.map_cons, ← ih htail hφ.2, Token.relocate, hφ.1, hkind, htext]

/-- Tokens that are spelled alike are the same at other locations. -/
theorem Placed.exists_relocate (hts : Placed ts) (hus : Placed us) (h : spelling ts = spelling us) :
    ∃ φ : Location → Location, Function.Injective φ ∧ φ .unwritten = .unwritten ∧
      us = ts.map (Token.relocate φ) := by
  let pairs := (Location.unwritten, Location.unwritten) ::
    (ts.zip us).map fun a => (a.1.location, a.2.location)
  have hpairwise : pairs.Pairwise fun a b => a.1 = b.1 ↔ a.2 = b.2 := by
    rw [List.pairwise_cons, List.pairwise_map]
    refine ⟨List.forall_mem_map.mpr fun a ha => ?_, hts.zip hus h⟩
    obtain ⟨hat, hau⟩ := List.of_mem_zip ha
    exact iff_of_false (hts.written _ hat).symm (hus.written _ hau).symm
  have : Std.Symm fun a b : Location × Location => a.1 = b.1 ↔ a.2 = b.2 :=
    ⟨fun a b hab => by rw [eq_comm, hab, eq_comm]⟩
  have hpairs : Paired pairs :=
    hpairwise.forall_of_forall fun a _ => iff_of_true rfl rfl
  obtain ⟨φ, hinjective, hφ⟩ := exists_relocation hpairs
  rw [List.forall_mem_cons, List.forall_mem_map] at hφ
  exact ⟨φ, hinjective, hφ.1, eq_map_relocate h hφ.2⟩

end FirSyntax.Token
