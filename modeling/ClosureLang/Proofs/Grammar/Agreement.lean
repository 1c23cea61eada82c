import ClosureLang.Proofs.Grammar.Memoization

/-! Actions of two parses side by side. The first parse may leave the second one behind as soon as
it misses a token that is far enough to the right. -/
namespace ClosureLang.Grammar

variable {α β γ δ : Type}

/-- An action after which the parse has got no less far than before. -/
def Grows (x : Parse α) : Prop := ∀ m, m.farthest ≤ (x m).2.farthest

namespace Grows

theorem pure (a : α) : Grows (pure a : Parse α) := fun _ => Nat.le_refl _

theorem bind {x : Parse α} {f : α → Parse β} (hx : Grows x) (hf : ∀ a, Grows (f a)) :
    Grows (x >>= f) :=
  fun m => Nat.le_trans (hx m) (hf _ _)

theorem missing (p : Nat) : Grows (missing p : Parse (Option α)) := fun _ => Nat.le_max_left _ _

end Grows

/-- Whether a place lies before the limit, if there is one. -/
def Before (limit : Option Nat) (n : Nat) : Prop := ∀ l, limit = some l → n < l

theorem Before.of_le {limit : Option Nat} {a b : Nat} (hle : a ≤ b) (h : Before limit b) :
    Before limit a :=
  fun l hl => Nat.lt_of_le_of_lt hle (h l hl)

/-- Under the assumption `D`, the values of both actions are related if the first one leaves its
parse before the limit. -/
structure Agrees (limit : Option Nat) (D : Prop) (R : α → β → Prop) (x : Parse α)
    (y : Parse β) : Prop where
  grows : Grows x
  related : D → ∀ m n, Before limit (x m).2.farthest → R (x m).1 (y n).1

namespace Agrees

variable {limit : Option Nat} {D E : Prop} {R : α → β → Prop} {R' : γ → δ → Prop} {x : Parse α}
  {y : Parse β}

theorem done {a : α} {b : β} (h : D → R a b) : Agrees limit D R (pure a) (pure b) :=
  ⟨.pure a, fun d _ _ _ => h d⟩

theorem vacuous (hx : Grows x) (h : ¬ D) : Agrees limit D R x y := ⟨hx, fun d => absurd d h⟩

theorem mono {D' : Prop} {R₁ : α → β → Prop} (h : Agrees limit D R x y) (hD : D' → D)
    (hR : ∀ a b, D' → R a b → R₁ a b) : Agrees limit D' R₁ x y :=
  ⟨h.grows, fun d m n hm => hR _ _ d (h.related (hD d) m n hm)⟩

/-- What follows may assume that the values so far are related: it gets no less far. -/
theorem bind {f : α → Parse γ} {g : β → Parse δ} (hx : Agrees limit D R x y)
    (hf : ∀ a b, Agrees limit (D ∧ R a b) R' (f a) (g b)) :
    Agrees limit D R' (x >>= f) (y >>= g) := by
  have hgrows : ∀ m n, Grows (f (x m).1) := fun m n => (hf _ (y n).1).grows
  refine ⟨fun m => Nat.le_trans (hx.grows m) (hgrows m m _), fun d m n hm => ?_⟩
  have hbefore : Before limit (x m).2.farthest := .of_le (hgrows m m _) hm
  exact (hf _ _).related ⟨d, hx.related d m n hbefore⟩ _ _ hm

theorem ite {c c' : Prop} [Decidable c] [Decidable c'] {x' : Parse α} {y' : Parse β}
    (hc : D → (c ↔ c')) (h : Agrees limit D R x y) (h' : Agrees limit D R x' y') :
    Agrees limit D R (if c then x else x') (if c' then y else y') := by
  constructor
  · split
    · exact h.grows
    · exact h'.grows
  · intro d
    simp only [hc d]
    split
    · exact h.related d
    · exact h'.related d

/-- Continues by whether the first action fails. -/
theorem cases [Inhabited β] {x : Parse (Option α)} {y : Parse (Option β)} {f : Option α → Parse γ}
    {g : Option β → Parse δ} (hx : Agrees limit D (fun o o' => E ∧ Option.Rel R o o') x y)
    (hnone : Agrees limit (D ∧ E) R' (f none) (g none))
    (hsome : ∀ a b, Agrees limit (D ∧ E ∧ R a b) R' (f (some a)) (g (some b))) :
    Agrees limit D R' (x >>= f) (y >>= g) := by
  refine hx.bind fun o o' => ?_
  cases o with
  | none =>
    cases o' with
    | none => exact hnone.mono (fun d => ⟨d.1, d.2.1⟩) fun _ _ _ h => h
    | some b => exact .vacuous hnone.grows fun ⟨_, _, h⟩ => nomatch h
  | some a =>
    cases o' with
    | none => exact .vacuous (hsome a default).grows fun ⟨_, _, h⟩ => nomatch h
    | some b => exact (hsome a b).mono (fun ⟨d, e, .some h⟩ => ⟨d, e, h⟩) fun _ _ _ h => h

/-- An action whose failure is that of the whole. -/
theorem orNone [Inhabited β] {F : Prop} {R' : γ → δ → Prop} {x : Parse (Option α)}
    {y : Parse (Option β)} {f : Option α → Parse (Option γ)} {g : Option β → Parse (Option δ)}
    (hx : Agrees limit D (fun o o' => E ∧ Option.Rel R o o') x y) (hf : f none = pure none)
    (hg : g none = pure none) (hF : D → E → F)
    (hsome : ∀ a b,
      Agrees limit (D ∧ E ∧ R a b) (fun o o' => F ∧ Option.Rel R' o o') (f (some a)) (g (some b))) :
    Agrees limit D (fun o o' => F ∧ Option.Rel R' o o') (x >>= f) (y >>= g) :=
  hx.cases (by rw [hf, hg]; exact .done fun d => ⟨hF d.1 d.2, .none⟩) hsome

end Agrees

/-- Applies a rule without the table, and fails outside the text. -/
def inside (src : ByteArray) (r : Rule) (p : Nat) : Parse Outcome :=
  if p ≤ src.size then plain src r p else return none

section Inside

variable {src : ByteArray} {r : Rule} {p q : Nat} {S : Memo → Memo → Prop}

theorem inside_eq (hp : p ≤ src.size) : inside src r p = plain src r p := if_pos hp

theorem grows_inside : Grows (inside src r p) := by
  unfold inside
  split
  · rename_i hp
    intro m
    rw [farthest_plain hp]
    exact Nat.le_max_left _ _
  · exact .pure none

theorem plain_eq_inside (r : Rule) (hp : p ≤ src.size) :
    plain src r p = body src (inside src) r p := by
  have hknown : Known Eq src (plain src) (inside src) r.rank p := by
    constructor
    · intro r' q _ hq _
      rw [inside_eq hq]
      exact yields_plain recording_eq hq
    · intro r' q _ hq
      rw [inside_eq hq]
      exact yields_plain recording_eq hq
  rw [plain_eq r hp]
  exact eq_of_yields (yields_body recording_eq r hp hknown)

theorem value_inside (hp : p ≤ src.size) (m : Memo) : (inside src r p m).1 = reading src r p := by
  rw [inside_eq hp]
  exact (yields_plain recording_eq hp m m rfl).1

theorem skip_inside (hq : q ≤ src.size) : skip (inside src) q = pure (layoutEnd src q) := by
  rw [skip, inside_eq hq, plain_eq .space hq]
  rfl

theorem grows_skip : Grows (skip (inside src) q) := grows_inside.bind fun _ => .pure _

/-- What a token comes to, with its start recorded if it is missing. -/
def tokenAt (start : Nat) : Option α → Parse (Option α)
  | some a => return some a
  | none => missing start

theorem literal_inside {s : String} (hq : q ≤ src.size) :
    literal src (inside src) q s = tokenAt (layoutEnd src q) (litAt src s q) := by
  rw [literal, skip_inside hq, pure_bind, litAt]
  split
  · rename_i hh
    have hstop := holds_le hh (layoutEnd_le hq)
    rw [String.length_toList] at hstop
    rw [skip_inside hstop, pure_bind]
    rfl
  · rfl

theorem keyword_inside {s : String} (hq : q ≤ src.size) :
    keyword src (inside src) q s = tokenAt (layoutEnd src q) (wordAt src s q) := by
  rw [keyword, skip_inside hq, pure_bind, wordAt]
  dsimp only
  split
  · rename_i hh
    have hstop := holds_le (Bool.and_eq_true_iff.mp hh).1 (layoutEnd_le hq)
    rw [String.length_toList] at hstop
    rw [skip_inside hstop, pure_bind]
    rfl
  · rfl

theorem grows_literal {s : String} : Grows (literal src (inside src) q s) := by
  refine grows_skip.bind fun start => ?_
  split
  · exact grows_skip.bind fun _ => .pure _
  · exact .missing _

theorem grows_keyword {s : String} : Grows (keyword src (inside src) q s) := by
  refine grows_skip.bind fun start => ?_
  dsimp only
  split
  · exact grows_skip.bind fun _ => .pure _
  · exact .missing _

theorem identRule_inside (hq : q ≤ src.size) :
    identRule src (inside src) q = tokenAt (layoutEnd src q) (ofRead (identAt src q)) := by
  rw [identRule, skip_inside hq, pure_bind, identAt]
  have hstop : runEnd isIdentByte src (layoutEnd src q) ≤ src.size := runEnd_le _ (layoutEnd_le hq)
  dsimp only
  split
  · rw [Pattern.name]
    split
    · rfl
    · rw [skip_inside hstop, pure_bind]
      rfl
  · rfl

theorem integerRule_inside (hq : q ≤ src.size) :
    integerRule src (inside src) q = tokenAt (layoutEnd src q) (ofRead (integerAt src q)) := by
  rw [integerRule, skip_inside hq, pure_bind, integerAt]
  have hstop : runEnd isDigitByte src (layoutEnd src q) ≤ src.size := runEnd_le _ (layoutEnd_le hq)
  dsimp only
  cases Decimal.word?
    (asciiText src (layoutEnd src q) (runEnd isDigitByte src (layoutEnd src q))) with
  | none => rfl
  | some w =>
    simp only
    rw [skip_inside hstop, pure_bind]
    rfl

end Inside

end ClosureLang.Grammar
