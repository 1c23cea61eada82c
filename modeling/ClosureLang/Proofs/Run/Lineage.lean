/-! Chains of ancestors in a table whose entries may name older ones as their parents. -/
namespace ClosureLang

/-- What the entries of a table name as their parents; `none` where there is no entry. -/
abbrev Parents := Nat → Option (Option Nat)

namespace Parents

variable {parents parents' : Parents} {e : Nat} {parent : Option Nat}

/-- At most `limit` entries from `e` towards the root. -/
def lineageUpTo (parents : Parents) : Nat → Nat → List Nat
  | 0, _ => []
  | limit + 1, e =>
    match parents e with
    | none => []
    | some parent => e :: (parent.map (lineageUpTo parents limit)).getD []

/-- The entries from `e` to the root. -/
def lineage (parents : Parents) (e : Nat) : List Nat := parents.lineageUpTo (e + 1) e

/-- Every entry is younger than its parent. -/
def Older (parents : Parents) : Prop := ∀ e p, parents e = some (some p) → p < e

/-- The limit does not matter if it is large enough. -/
theorem lineageUpTo_eq (h : parents.Older) : ∀ e limit, e < limit →
    parents.lineageUpTo limit e = parents.lineage e := by
  intro e
  induction e using Nat.strongRecOn with
  | ind e ih =>
    intro limit he
    obtain ⟨limit, rfl⟩ := Nat.exists_eq_add_one_of_ne_zero (Nat.ne_zero_of_lt he)
    simp only [lineage, lineageUpTo]
    cases hparent : parents e with
    | none => rfl
    | some parent =>
      cases parent with
      | none => rfl
      | some p =>
        have hp := h e p hparent
        simp only [Option.map_some, Option.getD_some]
        rw [ih p hp limit (by omega), ih p hp e hp]

/-- An entry comes first in its lineage, then the lineage of its parent. -/
theorem lineage_eq (h : parents.Older) (hparent : parents e = some parent) :
    parents.lineage e = e :: (parent.map parents.lineage).getD [] := by
  simp only [lineage, lineageUpTo, hparent]
  cases parent with
  | none => rfl
  | some p =>
    have hp := h e p hparent
    simp only [Option.map_some, Option.getD_some]
    rw [lineageUpTo_eq h p e hp]

theorem lineage_eq_nil (he : parents e = none) : parents.lineage e = [] := by
  simp only [lineage, lineageUpTo, he]

theorem isSome_of_mem (h : parents.Older) :
    ∀ e, ∀ i ∈ parents.lineage e, (parents i).isSome ∧ i ≤ e := by
  intro e
  induction e using Nat.strongRecOn with
  | ind e ih =>
    intro i hi
    cases hparent : parents e with
    | none => simp [lineage_eq_nil hparent] at hi
    | some parent =>
      rw [lineage_eq h hparent] at hi
      rcases List.mem_cons.mp hi with rfl | hi
      · exact ⟨by rw [hparent]; rfl, Nat.le_refl _⟩
      · cases parent with
        | none => cases hi
        | some p =>
          have hp := h e p hparent
          obtain ⟨hsome, hle⟩ := ih p hp i hi
          exact ⟨hsome, Nat.le_of_lt (Nat.lt_of_le_of_lt hle hp)⟩

/-- Every entry of a lineage but the first is a parent. -/
theorem exists_child_of_mem_tail (h : parents.Older) : ∀ e, ∀ i ∈ (parents.lineage e).tail,
    ∃ child, parents child = some (some i) := by
  intro e
  induction e using Nat.strongRecOn with
  | ind e ih =>
    intro i hi
    cases hparent : parents e with
    | none => simp [lineage_eq_nil hparent] at hi
    | some parent =>
      rw [lineage_eq h hparent, List.tail_cons] at hi
      cases parent with
      | none => cases hi
      | some p =>
        have hp := h e p hparent
        simp only [Option.map_some, Option.getD_some] at hi
        cases hgrand : parents p with
        | none => simp [lineage_eq_nil hgrand] at hi
        | some grand =>
          have htail := ih p hp i
          rw [lineage_eq h hgrand] at hi htail
          rcases List.mem_cons.mp hi with rfl | hi
          · exact ⟨e, hparent⟩
          · exact htail hi

/-- Later entries do not matter. -/
theorem lineage_congr (h : parents.Older) (h' : parents'.Older) :
    ∀ e, (∀ i ≤ e, parents' i = parents i) → parents'.lineage e = parents.lineage e := by
  intro e
  induction e using Nat.strongRecOn with
  | ind e ih =>
    intro hsame
    have he := hsame e (Nat.le_refl e)
    cases hparent : parents e with
    | none => rw [lineage_eq_nil hparent, lineage_eq_nil (he.trans hparent)]
    | some parent =>
      rw [lineage_eq h hparent, lineage_eq h' (he.trans hparent)]
      cases parent with
      | none => rfl
      | some p =>
        have hp := h e p hparent
        simp only [Option.map_some, Option.getD_some]
        rw [ih p hp fun i hi => hsame i (Nat.le_trans hi (Nat.le_of_lt hp))]

end Parents

end ClosureLang
