import ClosureLang.Proofs.Grammar.Fronts
import ClosureLang.Proofs.Grammar.Orderly

/-! The parse of a text next to that of one with the same start. As long as the first parse stays in
this start, the second one comes to the same, and it misses the same tokens. -/
namespace ClosureLang.Grammar

variable {src src' : ByteArray} {w p q start bound : Nat} {r : Rule} {α β : Type}

/-- Where a token may start: no layout stands here, and no comment goes on. -/
structure Spot (src : ByteArray) (p : Nat) : Prop where
  le : p ≤ src.size
  clear : Clear src p
  settled : Settled src p

/-- Behind the layout at `p`, which is no part of a comment, a token may start. -/
structure Begins (src : ByteArray) (p start : Nat) : Prop where
  le : p ≤ src.size
  clear : Clear src p
  eq : layoutEnd src p = start

/-- A place from `bound` on where a match ends. -/
structure Reached (src : ByteArray) (bound p : Nat) : Prop extends Spot src p where
  bound_le : bound ≤ p

theorem Begins.spot (h : Begins src p start) : Spot src start := by
  obtain ⟨hle, hclear, rfl⟩ := h
  exact ⟨layoutEnd_le hle, (level_layout hclear).clear, settled_layoutEnd src p⟩

theorem Begins.le_start (h : Begins src p start) : p ≤ start := h.eq ▸ le_layoutEnd src p

theorem Spot.begins (h : Spot src p) : Begins src p p :=
  ⟨h.le, h.clear, layoutEnd_of_settled h.settled⟩

theorem Reached.le_succ (h : Reached src bound p) : bound ≤ p + 1 := Nat.le_succ_of_le h.bound_le

/-- The action `y` on `src'` follows the action `x` on `src` as far as `w`: it comes to the same
with the same missing tokens, if `x` starts, misses tokens and ends up to there. Wherever `x` ends,
this is no less far than `start`, and if it fails, a token is missing that far, unless others have
been `tried` before. -/
structure Follows (src src' : ByteArray) (w bound : Nat) (tried : Prop) (start : Nat)
    (stop : α → Option Nat) (x y : Parse α) : Prop where
  grows : ∀ m, m.farthest ≤ (x m).2.farthest
  records : ∀ m, (x m).2.farthest = m.farthest ∨ Spot src (x m).2.farthest
  missed : ¬ tried → ∀ m, stop (x m).1 = none → start ≤ (x m).2.farthest
  ends : ∀ m s, stop (x m).1 = some s → start ≤ s ∧ Reached src bound s
  same : Shared src src' w → start ≤ w → ∀ m n, m.farthest = n.farthest → (x m).2.farthest ≤ w →
    (∀ s, stop (x m).1 = some s → s ≤ w) → (y n).1 = (x m).1 ∧ (y n).2.farthest = (x m).2.farthest

namespace Follows

variable {tried t u : Prop} {x y y' : Parse α} {f g : α → Parse β} {stop : α → Option Nat}
  {stop' : β → Option Nat}

theorem mono {bound' : Nat} (h : Follows src src' w bound t start stop x y)
    (hbound : bound' ≤ bound) (ht : t → tried) :
    Follows src src' w bound' tried start stop x y where
  grows := h.grows
  records := h.records
  missed hno := h.missed fun htried => hno (ht htried)
  ends m s hs := (h.ends m s hs).imp_right fun hreached => { hreached with
    bound_le := Nat.le_trans hbound hreached.bound_le }
  same := h.same

/-- Only an action on a text that shares the start has to follow. -/
theorem congr (h : Follows src src' w bound tried start stop x y)
    (hy : Shared src src' w → start ≤ w → y' = y) :
    Follows src src' w bound tried start stop x y' :=
  { h with same := fun hw hstart => hy hw hstart ▸ h.same hw hstart }

theorem result {a : α} (ha : stop a = some start) (h : Reached src bound start) :
    Follows src src' w bound tried start stop (pure a) (pure a) where
  grows _ := Nat.le_refl _
  records _ := .inl rfl
  missed _ m hnone := by
    rw [show stop ((pure a : Parse α) m).1 = some start from ha] at hnone
    cases hnone
  ends m s hs := by
    rw [show stop ((pure a : Parse α) m).1 = some start from ha] at hs
    cases hs
    exact ⟨Nat.le_refl _, h⟩
  same _ _ _ _ hfar _ _ := ⟨rfl, hfar.symm⟩

theorem giveUp {a : α} (ha : stop a = none) (ht : tried) :
    Follows src src' w bound tried start stop (pure a) (pure a) where
  grows _ := Nat.le_refl _
  records _ := .inl rfl
  missed hno := absurd ht hno
  ends m s hs := by
    rw [show stop ((pure a : Parse α) m).1 = none from ha] at hs
    cases hs
  same _ _ _ _ hfar _ _ := ⟨rfl, hfar.symm⟩

/-- One action behind another. If the first one ends beyond `w`, so does the second, or it misses a
token there. -/
theorem bind (hx : Follows src src' w bound t start stop x y)
    (hnone : ∀ m, stop (x m).1 = none →
      Follows src src' w bound u start stop' (f (x m).1) (g (x m).1)) (ht : ¬ tried → ¬ t ∨ ¬ u)
    (hsome : ∀ m s, stop (x m).1 = some s → Reached src bound s →
      Follows src src' w bound False s stop' (f (x m).1) (g (x m).1)) :
    Follows src src' w bound tried start stop' (x >>= f) (y >>= g) := by
  have hgrows : ∀ m m', m'.farthest ≤ (f (x m).1 m').2.farthest := by
    intro m m'
    cases hs : stop (x m).1 with
    | none => exact (hnone m hs).grows m'
    | some s => exact (hsome m s hs (hx.ends m s hs).2).grows m'
  constructor
  · exact fun m => Nat.le_trans (hx.grows m) (hgrows m _)
  · intro m
    have hrecords : (f (x m).1 (x m).2).2.farthest = (x m).2.farthest ∨
        Spot src (f (x m).1 (x m).2).2.farthest := by
      cases hs : stop (x m).1 with
      | none => exact (hnone m hs).records _
      | some s => exact (hsome m s hs (hx.ends m s hs).2).records _
    obtain heq | hspot := hrecords
    · show (f (x m).1 (x m).2).2.farthest = _ ∨ Spot src (f (x m).1 (x m).2).2.farthest
      rw [heq]
      exact hx.records m
    · exact .inr hspot
  · intro hno m hfail
    cases hs : stop (x m).1 with
    | none =>
      obtain ht | ht := ht hno
      · exact Nat.le_trans (hx.missed ht m hs) (hgrows m _)
      · exact (hnone m hs).missed ht _ hfail
    | some s =>
      obtain ⟨hle, hreached⟩ := hx.ends m s hs
      exact Nat.le_trans hle ((hsome m s hs hreached).missed not_false _ hfail)
  · intro m s' hs'
    cases hs : stop (x m).1 with
    | none => exact (hnone m hs).ends _ s' hs'
    | some s =>
      obtain ⟨hle, hreached⟩ := hx.ends m s hs
      obtain ⟨hle', hreached'⟩ := (hsome m s hs hreached).ends _ s' hs'
      exact ⟨Nat.le_trans hle hle', hreached'⟩
  · intro hw hstart m n hmn hfar hstop
    have hfar' : (x m).2.farthest ≤ w := Nat.le_trans (hgrows m _) hfar
    show (g (y n).1 (y n).2).1 = (f (x m).1 (x m).2).1 ∧
      (g (y n).1 (y n).2).2.farthest = (f (x m).1 (x m).2).2.farthest
    cases hs : stop (x m).1 with
    | none =>
      obtain ⟨hvalue, hsame⟩ := hx.same hw hstart m n hmn hfar' (by simp [hs])
      rw [hvalue]
      exact (hnone m hs).same hw hstart _ _ hsame.symm hfar hstop
    | some s =>
      have hnext := hsome m s hs (hx.ends m s hs).2
      have hle : s ≤ w := by
        cases hs' : stop' (f (x m).1 (x m).2).1 with
        | none => exact Nat.le_trans (hnext.missed not_false _ hs') hfar
        | some s' => exact Nat.le_trans (hnext.ends _ s' hs').1 (hstop s' hs')
      obtain ⟨hvalue, hsame⟩ := hx.same hw hstart m n hmn hfar' (by simpa [hs] using hle)
      rw [hvalue]
      exact hnext.same hw hle _ _ hsame.symm hfar hstop

section Options

variable {stop : α → Nat} {x y : Parse (Option α)} {f g : Option α → Parse β}

/-- Continues by whether the first action fails. -/
theorem cases (hx : Follows src src' w bound False start (Option.map stop) x y)
    (hnone : Follows src src' w bound True start stop' (f none) (g none))
    (hsome : ∀ a, Reached src bound (stop a) →
      Follows src src' w bound False (stop a) stop' (f (some a)) (g (some a))) :
    Follows src src' w bound tried start stop' (x >>= f) (y >>= g) := by
  have hrest : ∀ m, (x m).1.map stop = none →
      Follows src src' w bound True start stop' (f (x m).1) (g (x m).1) :=
    fun m hm => by rwa [Option.map_eq_none_iff.mp hm]
  refine hx.bind hrest (fun _ => .inl not_false) fun m s hs hreached => ?_
  obtain ⟨a, ha, rfl⟩ := Option.map_eq_some_iff.mp hs
  exact ha ▸ hsome a hreached

/-- An action whose failure is that of the whole. -/
theorem orNone {stop' : β → Nat} {f g : Option α → Parse (Option β)}
    (hx : Follows src src' w bound False start (Option.map stop) x y) (hf : f none = pure none)
    (hg : g none = pure none) (hsome : ∀ a, Reached src bound (stop a) →
      Follows src src' w bound False (stop a) (Option.map stop') (f (some a)) (g (some a))) :
    Follows src src' w bound tried start (Option.map stop') (x >>= f) (y >>= g) :=
  hx.cases (by rw [hf, hg]; exact .giveUp rfl trivial) hsome

end Options

/-- Continues behind an action that does not fail. -/
theorem andThen {stop : α → Nat}
    (hx : Follows src src' w bound False start (fun a => some (stop a)) x y)
    (hf : ∀ a, Reached src bound (stop a) →
      Follows src src' w bound False (stop a) stop' (f a) (g a)) :
    Follows src src' w bound tried start stop' (x >>= f) (y >>= g) := by
  have hnone : ∀ m, some (stop (x m).1) = none →
      Follows src src' w bound True start stop' (f (x m).1) (g (x m).1) := nofun
  refine hx.bind hnone (fun _ => .inl not_false) fun m s hs hreached => ?_
  obtain rfl := Option.some.inj hs
  exact hf _ hreached

end Follows

/-- The outcome of the first action, or else that of the second. -/
def orElse (x y : Parse (Option α)) : Parse (Option α) := do
  match ← x with
  | some a => return some a
  | none => y

theorem follows_orElse {tried t u : Prop} {stop : α → Nat} {x y x' y' : Parse (Option α)}
    (ht : ¬ tried → ¬ t ∨ ¬ u) (hx : Follows src src' w bound t start (Option.map stop) x x')
    (hy : Follows src src' w bound u start (Option.map stop) y y') :
    Follows src src' w bound tried start (Option.map stop) (orElse x y) (orElse x' y') := by
  refine hx.bind (fun m hm => ?_) ht fun m s hs hreached => ?_
  · rw [Option.map_eq_none_iff.mp hm]
    exact hy
  · obtain ⟨a, ha, rfl⟩ := Option.map_eq_some_iff.mp hs
    rw [ha]
    exact .result rfl hreached

section Tokens

theorem value_tokenAt (start : Nat) (o : Option α) (m : Memo) : (tokenAt start o m).1 = o := by
  cases o <;> rfl

/-- A token that both texts have or miss. -/
theorem follows_token {stop : α → Nat} {o : Option α} {y : Parse (Option α)}
    (hstart : Spot src start)
    (hends : ∀ a, o = some a → start ≤ stop a ∧ Reached src bound (stop a))
    (hy : Shared src src' w → start ≤ w → (∀ a, o = some a → stop a ≤ w) → y = tokenAt start o) :
    Follows src src' w bound False start (Option.map stop) (tokenAt start o) y := by
  cases o with
  | some a =>
    obtain ⟨hle, hreached⟩ := hends a rfl
    refine ⟨fun _ => Nat.le_refl _, fun _ => .inl rfl, nofun, ?_, fun hw hle m n hmn _ hstop => ?_⟩
    · rintro m _ ⟨⟩
      exact ⟨hle, hreached⟩
    · rw [hy hw hle fun b hb => Option.some.inj hb ▸ hstop _ rfl]
      exact ⟨rfl, hmn.symm⟩
  | none =>
    refine ⟨fun m => Nat.le_max_left _ _, fun m => ?_, fun _ m _ => Nat.le_max_right _ _, nofun,
      fun hw hle m n hmn _ _ => ?_⟩
    · show max m.farthest start = m.farthest ∨ Spot src (max m.farthest start)
      obtain hle | hle := Nat.le_total start m.farthest
      · exact .inl (Nat.max_eq_left hle)
      · rw [Nat.max_eq_right hle]
        exact .inr hstart
    · rw [hy hw hle nofun]
      exact ⟨rfl, congrArg (max · start) hmn.symm⟩

theorem Begins.le_size' (hq : Begins src q start) (hw : Shared src src' w) (hstart : start ≤ w) :
    q ≤ src'.size := by
  have hle := hq.le_start
  have hlt := hw.lt_size'
  omega

theorem Begins.eq' (hq : Begins src q start) (hw : Shared src src' w) (hstart : start ≤ w) :
    layoutEnd src' q = start := (hw.layoutEnd_eq (hq.eq ▸ hstart)).trans hq.eq

/-- A token with the layout behind it. -/
theorem reached_layoutEnd {e : Nat} (hle : start ≤ e)
    (hfits : q < layoutEnd src e ∧ layoutEnd src e ≤ src.size)
    (hclear : Clear src (layoutEnd src e)) (hbound : bound ≤ q + 1) :
    start ≤ layoutEnd src e ∧ Reached src bound (layoutEnd src e) :=
  ⟨Nat.le_trans hle (le_layoutEnd src e), ⟨hfits.2, hclear, settled_layoutEnd src e⟩,
    Nat.le_trans hbound hfits.1⟩

theorem follows_literal (s : String) (hs : isMark s = true) (hq : Begins src q start)
    (hbound : bound ≤ q + 1) :
    Follows src src' w bound False start (Option.map Prod.snd) (literal src (inside src) q s)
      (literal src' (inside src') q s) := by
  rw [literal_inside hq.le, hq.eq]
  refine follows_token hq.spot (fun m hm => ?_) fun hw hstart hstop => ?_
  · have hlength : 0 < s.length := by
      rw [← String.length_toList]
      exact List.length_pos_of_ne_nil (chars_of_isMark hs).1
    have hfits := litAt_lt hm hq.le hlength
    have hclear := (edge_of_litAt hs hm hq.clear).1.clear
    obtain ⟨-, hbegin, heq⟩ := litAt_some hm
    rw [heq] at hfits hclear ⊢
    exact reached_layoutEnd (by rw [hbegin, hq.eq]; exact Nat.le_add_right _ _) hfits hclear hbound
  · rw [literal_inside (hq.le_size' hw hstart), hq.eq' hw hstart,
      hw.litAt_eq hs (hq.eq ▸ hstart) hstop]

theorem follows_keyword (s : String) (hs : isReserved s = true) (hq : Begins src q start)
    (hbound : bound ≤ q + 1) :
    Follows src src' w bound False start (Option.map Prod.snd) (keyword src (inside src) q s)
      (keyword src' (inside src') q s) := by
  rw [keyword_inside hq.le, hq.eq]
  refine follows_token hq.spot (fun m hm => ?_) fun hw hstart hstop => ?_
  · have hlength : ∀ s ∈ keywords, 0 < s.length := by decide
    have hfits := wordAt_lt hm hq.le (hlength s (by simpa [isReserved] using hs))
    have hclear := (Passage.goes_wordAt (P := leveling src) hs hm hq.clear).clear
    obtain ⟨-, hbegin, heq⟩ := wordAt_some hm
    rw [heq] at hfits hclear ⊢
    exact reached_layoutEnd (by rw [hbegin, hq.eq]; exact Nat.le_add_right _ _) hfits hclear hbound
  · rw [keyword_inside (hq.le_size' hw hstart), hq.eq' hw hstart,
      hw.wordAt_eq hs (hq.eq ▸ hstart) hstop]

theorem follows_identRule (hq : Begins src q start) (hbound : bound ≤ q + 1) :
    Follows src src' w bound False start (Option.map Match.stop) (identRule src (inside src) q)
      (identRule src' (inside src') q) := by
  rw [identRule_inside hq.le, hq.eq]
  refine follows_token hq.spot (fun m hm => ?_) fun hw hstart hstop => ?_
  · obtain ⟨⟨t, s⟩, hread, rfl⟩ := Option.map_eq_some_iff.mp hm
    have hfits := identAt_fits hread hq.le
    have hclear := (Passage.goes_identAt (P := leveling src) hread hq.clear).clear
    simp only [identAt, Option.ite_none_right_eq_some, Option.map_eq_some_iff,
      Prod.mk.injEq] at hread
    obtain ⟨-, _, -, -, rfl⟩ := hread
    exact reached_layoutEnd (hq.eq ▸ Nat.le_add_right _ _) hfits hclear hbound
  · rw [identRule_inside (hq.le_size' hw hstart), hq.eq' hw hstart, hw.identAt_eq (hq.eq ▸ hstart)]
    intro m hm
    exact hstop { node := m.1, stop := m.2 } (by rw [hm]; rfl)

theorem follows_integerRule (hq : Begins src q start) (hbound : bound ≤ q + 1) :
    Follows src src' w bound False start (Option.map Match.stop) (integerRule src (inside src) q)
      (integerRule src' (inside src') q) := by
  rw [integerRule_inside hq.le, hq.eq]
  refine follows_token hq.spot (fun m hm => ?_) fun hw hstart hstop => ?_
  · obtain ⟨⟨t, s⟩, hread, rfl⟩ := Option.map_eq_some_iff.mp hm
    have hmatch : Peg.eval src (read src) Pattern.integer q = some (t, s) := by
      rw [eval_integer]; exact hread
    have hfits := eval_fits hmatch hq.le
    have hclear := (Passage.goes_integerAt (P := leveling src) hread hq.clear).clear
    simp only [integerAt, Option.map_eq_some_iff, Prod.mk.injEq] at hread
    obtain ⟨_, -, -, rfl⟩ := hread
    exact reached_layoutEnd (hq.eq ▸ Nat.le_add_right _ _) ⟨hfits.2.2 rfl, hfits.2.1⟩ hclear hbound
  · rw [integerRule_inside (hq.le_size' hw hstart), hq.eq' hw hstart,
      hw.integerAt_eq (hq.eq ▸ hstart)]
    intro m hm
    exact hstop { node := m.1, stop := m.2 } (by rw [hm]; rfl)

end Tokens

/-- The rules follow that the body of `r` at `p` may apply. -/
def RulesFollow (src src' : ByteArray) (w : Nat) (r : Rule) (p : Nat) : Prop :=
  ∀ r' q start bound, r' ≠ .space → Parallel.Below r p r' q → Begins src q start →
    bound ≤ q ∨ bound = q + 1 ∧ r' ≠ .program →
    Follows src src' w bound False start (Option.map Match.stop) (inside src r' q)
      (inside src' r' q)

theorem moves_inside : LoopsMove src (inside src) := by
  refine loopsMove_of_landing fun r p hp m => ?_
  rw [value_inside hp]
  exact lands_reading hp

/-- Loops that may have more rounds than the texts have bytes. How many more does not matter, so
that they may have as many in both. -/
theorem follows_of_rounds {tried : Prop} {stop : α → Option Nat} {x y : Nat → Parse α}
    (hx : ∀ limit, src.size < limit → x limit = x (src.size + 1))
    (hy : start ≤ src'.size → ∀ limit, src'.size < limit → y limit = y (src'.size + 1))
    (h : ∀ limit, Follows src src' w bound tried start stop (x limit) (y limit)) :
    Follows src src' w bound tried start stop (x (src.size + 1)) (y (src'.size + 1)) := by
  rw [← hx (src.size + src'.size + 1) (by omega)]
  refine (h _).congr fun hw hle => ?_
  exact (hy (hw.le_size' hle) _ (by omega)).symm

section Rules

variable (known : RulesFollow src src' w r p)

include known

/-- A rule that is applied behind a match. -/
theorem follows_ahead (r' : Rule) (hr : r' ≠ .space) (hq : Reached src (p + 1) q) :
    Follows src src' w (p + 1) False q (Option.map Match.stop) (inside src r' q)
      (inside src' r' q) :=
  known r' q q (p + 1) hr (.inl hq.bound_le) hq.begins (.inl hq.bound_le)

/-- A rule that is applied first. -/
theorem follows_first (r' : Rule) (hr : r' ≠ .space ∧ r' ≠ .program) (hrank : r'.rank < r.rank)
    (hp : Begins src p start) :
    Follows src src' w (p + 1) False start (Option.map Match.stop) (inside src r' p)
      (inside src' r' p) :=
  known r' p start (p + 1) hr.1 (.inr ⟨rfl, hrank⟩) hp (.inr ⟨rfl, hr.2⟩)

theorem follows_initializer (hq : Reached src (p + 1) q) :
    Follows src src' w (p + 1) False q (Option.map Match.stop) (initializer src (inside src) q)
      (initializer src' (inside src') q) := by
  refine (follows_literal "=" (by decide) hq.begins hq.le_succ).orNone rfl rfl fun a ha => ?_
  refine (follows_ahead known .expr (by decide) ha).orNone rfl rfl fun v hv => ?_
  refine (follows_literal ";" (by decide) hv.begins hv.le_succ).orNone rfl rfl fun c hc => ?_
  exact .result rfl hc

omit known in
theorem follows_declareRule (known : RulesFollow src src' w .declare p) (hp : Begins src p start) :
    Follows src src' w (p + 1) False start (Option.map Match.stop) (declareRule src (inside src) p)
      (declareRule src' (inside src') p) := by
  refine (follows_keyword "var" (by decide) hp (Nat.le_refl _)).cases ?_ fun a ha => ?_
  · refine (follows_first known .type (by decide) (by decide) hp).orNone rfl rfl fun t ht => ?_
    refine (follows_ahead known .ident (by decide) ht).orNone rfl rfl fun x hx => ?_
    refine (follows_initializer known hx).orNone rfl rfl fun v hv => ?_
    exact .result rfl hv
  · refine (follows_ahead known .ident (by decide) ha).orNone rfl rfl fun x hx => ?_
    refine (follows_initializer known hx).orNone rfl rfl fun v hv => ?_
    exact .result rfl hv

omit known in
theorem follows_assignRule (known : RulesFollow src src' w .assign p) (hp : Begins src p start) :
    Follows src src' w (p + 1) False start (Option.map Match.stop) (assignRule src (inside src) p)
      (assignRule src' (inside src') p) := by
  refine (follows_first known .ident (by decide) (by decide) hp).orNone rfl rfl fun x hx => ?_
  refine (follows_initializer known hx).orNone rfl rfl fun v hv => ?_
  exact .result rfl hv

theorem follows_keywordExpr (s : String) (f : Form) (hs : isReserved s = true)
    (hp : Begins src p start) :
    Follows src src' w (p + 1) False start (Option.map Match.stop)
      (keywordExpr src (inside src) s f p) (keywordExpr src' (inside src') s f p) := by
  refine (follows_keyword s hs hp (Nat.le_refl _)).orNone rfl rfl fun a ha => ?_
  refine (follows_ahead known .expr (by decide) ha).orNone rfl rfl fun v hv => ?_
  refine (follows_literal ";" (by decide) hv.begins hv.le_succ).orNone rfl rfl fun c hc => ?_
  exact .result rfl hc

theorem follows_conditional (s : String) (f : Form) (hs : isReserved s = true)
    (hp : Begins src p start) :
    Follows src src' w (p + 1) False start (Option.map Match.stop)
      (conditional src (inside src) s f p) (conditional src' (inside src') s f p) := by
  refine (follows_keyword s hs hp (Nat.le_refl _)).orNone rfl rfl fun a ha => ?_
  refine (follows_literal "(" (by decide) ha.begins ha.le_succ).orNone rfl rfl fun b hb => ?_
  refine (follows_ahead known .expr (by decide) hb).orNone rfl rfl fun v hv => ?_
  refine (follows_literal ")" (by decide) hv.begins hv.le_succ).orNone rfl rfl fun c hc => ?_
  refine (follows_ahead known .block (by decide) hc).orNone rfl rfl fun u hu => ?_
  exact .result rfl hu

omit known in
theorem follows_ifElseRule (known : RulesFollow src src' w .ifElse p) (hp : Begins src p start) :
    Follows src src' w (p + 1) False start (Option.map Match.stop) (ifElseRule src (inside src) p)
      (ifElseRule src' (inside src') p) := by
  refine (follows_first known .ifThen (by decide) (by decide) hp).orNone rfl rfl fun v hv => ?_
  refine (follows_keyword "else" (by decide) hv.begins hv.le_succ).orNone rfl rfl fun a ha => ?_
  refine (follows_ahead known .block (by decide) ha).orNone rfl rfl fun u hu => ?_
  exact .result rfl hu

omit known in
theorem follows_exprStatementRule (known : RulesFollow src src' w .exprStatement p)
    (hp : Begins src p start) :
    Follows src src' w (p + 1) False start (Option.map Match.stop)
      (exprStatementRule src (inside src) p) (exprStatementRule src' (inside src') p) := by
  refine (follows_first known .expr (by decide) (by decide) hp).orNone rfl rfl fun v hv => ?_
  refine (follows_literal ";" (by decide) hv.begins hv.le_succ).orNone rfl rfl fun a ha => ?_
  exact .result rfl ha

theorem follows_blockRule (hp : Begins src p start) :
    Follows src src' w (p + 1) False start (Option.map Match.stop) (blockRule src (inside src) p)
      (blockRule src' (inside src') p) := by
  refine (follows_literal "\x7b" (by decide) hp (Nat.le_refl _)).orNone rfl rfl fun a ha => ?_
  refine (follows_ahead known .program (by decide) ha).orNone rfl rfl fun v hv => ?_
  refine (follows_literal "\x7d" (by decide) hv.begins hv.le_succ).orNone rfl rfl fun c hc => ?_
  exact .result rfl hc

omit known in
theorem follows_skip (hp : Begins src p start) :
    Follows src src' w p False start some (skip (inside src) p) (skip (inside src') p) := by
  rw [skip_inside hp.le, hp.eq]
  have hstart : Follows src src' w p False start some (pure start) (pure start) :=
    .result rfl ⟨hp.spot, hp.le_start⟩
  refine hstart.congr fun hw hle => ?_
  rw [skip_inside (hp.le_size' hw hle), hp.eq' hw hle]

omit known in
/-- Statements, with as many rounds to go in both texts. -/
theorem follows_rounds_statements (known : RulesFollow src src' w .program p) (limit : Nat)
    (hq : Reached src p q) :
    Follows src src' w p False q (fun l => some l.2) (statements (inside src) limit q)
      (statements (inside src') limit q) := by
  induction limit generalizing q with
  | zero => exact .result rfl hq
  | succ limit ih =>
    have hbelow : Parallel.Below .program p .statement q := by
      obtain hlt | heq := Nat.lt_or_eq_of_le hq.bound_le
      · exact .inl hlt
      · exact .inr ⟨heq, by decide⟩
    refine (known .statement q q p (by decide) hbelow hq.begins (.inl hq.bound_le)).cases
      (.result rfl hq) fun v hv => ?_
    exact (ih hv).andThen fun l hl => .result rfl hl

omit known in
theorem follows_statements (known : RulesFollow src src' w .program p) (hq : Reached src p q) :
    Follows src src' w p False q (fun l => some l.2) (statements (inside src) (src.size + 1) q)
      (statements (inside src') (src'.size + 1) q) :=
  follows_of_rounds (fun l => moves_inside.statements l q hq.le)
    (fun hle l => moves_inside.statements l q hle) fun l => follows_rounds_statements known l hq

omit known in
theorem follows_programRule (known : RulesFollow src src' w .program p) (hbound : bound ≤ p)
    (hp : Begins src p start) :
    Follows src src' w bound False start (Option.map Match.stop) (programRule src (inside src) p)
      (programRule src' (inside src') p) := by
  refine Follows.mono ?_ hbound id
  refine (follows_skip hp).andThen fun s hs => ?_
  refine (follows_statements known hs).andThen fun l hl => ?_
  exact .result rfl hl

/-- One of the operators, with its operand. -/
def attempt (src : ByteArray) (apply : Rule → Nat → Parse Outcome) (operand : Rule) (q : Nat)
    (op : BinaryOp) : Parse (Option (BinaryOp × Nat × Match)) := do
  let some (start, stop) ← literal src apply q op.symbol | return none
  let some rhs ← apply operand stop | return none
  return some (op, start, rhs)

omit known in
theorem operation_cons (apply : Rule → Nat → Parse Outcome) (operand : Rule) (op : BinaryOp)
    (ops : List BinaryOp) :
    operation src apply operand q (op :: ops) =
      orElse (attempt src apply operand q op) (operation src apply operand q ops) := by
  rw [operation, orElse, attempt, bind_assoc]
  congr 1
  funext o
  cases o with
  | none => rfl
  | some a =>
    dsimp only
    rw [bind_assoc]
    congr 1
    funext o
    cases o <;> rfl

theorem follows_attempts (operand : Rule) (hr : operand ≠ .space) (ops : List BinaryOp)
    (hq : Reached src (p + 1) q) :
    Follows src src' w (p + 1) (ops = []) q (Option.map fun o => o.2.2.stop)
      (operation src (inside src) operand q ops) (operation src' (inside src') operand q ops) := by
  induction ops with
  | nil => exact .giveUp rfl rfl
  | cons op ops ih =>
    rw [operation_cons, operation_cons]
    refine follows_orElse (fun _ => .inl not_false) ?_ ih
    refine (follows_literal op.symbol (isMark_symbol op) hq.begins hq.le_succ).orNone
      rfl rfl fun a ha => ?_
    refine (follows_ahead known operand hr ha).orNone rfl rfl fun v hv => ?_
    exact .result rfl hv

theorem follows_operation (operand : Rule) (hr : operand ≠ .space) (ops : List BinaryOp)
    (hops : ops ≠ []) (hq : Reached src (p + 1) q) :
    Follows src src' w (p + 1) False q (Option.map fun o => o.2.2.stop)
      (operation src (inside src) operand q ops) (operation src' (inside src') operand q ops) :=
  (follows_attempts known operand hr ops hq).mono (Nat.le_refl _) hops

theorem follows_rounds_operations (operand : Rule) (hr : operand ≠ .space) (ops : List BinaryOp)
    (hops : ops ≠ []) (limit : Nat) (t : Tree) (hq : Reached src (p + 1) q) :
    Follows src src' w (p + 1) False q (fun m => some m.stop)
      (operations src (inside src) operand ops limit t q)
      (operations src' (inside src') operand ops limit t q) := by
  induction limit generalizing t q with
  | zero => exact .result rfl hq
  | succ limit ih =>
    refine (follows_operation known operand hr ops hops hq).cases (.result rfl hq) fun o ho => ?_
    exact ih _ ho

theorem follows_operations (operand : Rule) (hr : operand ≠ .space ∧ operand ≠ .program)
    (ops : List BinaryOp) (hops : ops ≠ []) (t : Tree) (hq : Reached src (p + 1) q) :
    Follows src src' w (p + 1) False q (fun m => some m.stop)
      (operations src (inside src) operand ops (src.size + 1) t q)
      (operations src' (inside src') operand ops (src'.size + 1) t q) :=
  follows_of_rounds (fun l => moves_inside.operations operand ops l t q hr hq.le)
    (fun hle l => moves_inside.operations operand ops l t q hr hle)
    fun l => follows_rounds_operations known operand hr.1 ops hops l t hq

theorem follows_leftAssoc (operand : Rule) (hr : operand ≠ .space ∧ operand ≠ .program)
    (hrank : operand.rank < r.rank) (ops : List BinaryOp) (hops : ops ≠ [])
    (hp : Begins src p start) :
    Follows src src' w (p + 1) False start (Option.map Match.stop)
      (leftAssoc src (inside src) operand ops p) (leftAssoc src' (inside src') operand ops p) := by
  refine (follows_first known operand hr hrank hp).orNone rfl rfl fun v hv => ?_
  refine (follows_operations known operand hr ops hops v.node hv).andThen fun m hm => ?_
  exact .result rfl hm

/-- The operand of a sign, if the sign is not the start of the longer mark that `c` ends. -/
def signed (src : ByteArray) (apply : Rule → Nat → Parse Outcome) (operand : Rule) (s : String)
    (c : Char) (build : Nat → Match → Match) (p : Nat) : Parse Outcome := do
  let some (start, stop) ← literal src apply p s | return none
  if peek src (start + 1) c then return none
  let some m ← apply operand stop | return none
  return some (build start m)

/-- What the rules for signs have in common. -/
def signRule (src : ByteArray) (apply : Rule → Nat → Parse Outcome) (operand : Rule) (s : String)
    (c : Char) (build : Nat → Match → Match) (unsigned : Rule) (p : Nat) : Parse Outcome := do
  let operand ← match ← literal src apply p s with
    | some (start, stop) =>
      if peek src (start + 1) c then pure none
      else pure ((← apply operand stop).map (build start))
    | none => pure none
  match operand with
  | some m => return some m
  | none => apply unsigned p

omit known in
theorem signRule_eq (apply : Rule → Nat → Parse Outcome) (operand : Rule) (s : String) (c : Char)
    (build : Nat → Match → Match) (unsigned : Rule) :
    signRule src apply operand s c build unsigned p =
      orElse (signed src apply operand s c build p) (apply unsigned p) := by
  rw [signRule, orElse, signed, bind_assoc]
  congr 1
  funext o
  cases o with
  | none => rfl
  | some a =>
    obtain ⟨start, stop⟩ := a
    dsimp only
    split
    · rfl
    · rw [bind_assoc]
      congr 1
      funext o
      cases o <;> rfl

omit known in
/-- A longer mark that starts up to `w` does not go beyond, so nothing is missing behind its first
character. -/
theorem stop_le_of_peek {s : String} {c : Char} {m : Nat × Nat} (hs : isMark s = true)
    (hlength : s.length = 1) (hc : isLayoutByte (UInt8.ofNat c.toNat) = false)
    (hm : litAt src s p = some m) (hpeek : peek src (m.1 + 1) c = true) (hw : Shared src src' w)
    (hstart : m.1 ≤ w) : m.1 + 1 ≤ w ∧ m.2 = m.1 + 1 := by
  obtain ⟨hh, -, hstop⟩ := litAt_some hm
  have hle := (hw.holds_eq (not_isLayoutByte_of_isMark hs) hstart).2 hh
  have hsettled : Settled src (m.1 + 1) := by
    intro b hb
    rw [holds_head hpeek, Option.some.injEq] at hb
    simpa [isLayoutByte, hb] using hc
  rw [String.length_toList, hlength] at hle
  rw [hstop, hlength, layoutEnd_of_settled hsettled]
  exact ⟨hle, rfl⟩

omit known in
theorem signed_of_peek {operand : Rule} {s : String} {c : Char} {build : Nat → Match → Match}
    {m : Nat × Nat} (hp : p ≤ src.size) (hm : litAt src s p = some m)
    (hpeek : peek src (m.1 + 1) c = true) :
    signed src (inside src) operand s c build p = pure none := by
  rw [signed, literal_inside hp, hm, tokenAt, pure_bind]
  exact if_pos hpeek

section Signs

variable (operand : Rule) (s : String) (c : Char) (build : Nat → Match → Match)
  (hoperand : operand ≠ .space) (hs : isMark s = true) (hlength : s.length = 1)
  (hc : isLayoutByte (UInt8.ofNat c.toNat) = false) (hbuild : ∀ i m, (build i m).stop = m.stop)
  (hp : Begins src p start)

include hoperand hs hlength hc hbuild hp

theorem follows_signed : Follows src src' w (p + 1) True start (Option.map Match.stop)
    (signed src (inside src) operand s c build p)
    (signed src' (inside src') operand s c build p) := by
  by_cases hpeek : ∃ m, litAt src s p = some m ∧ peek src (m.1 + 1) c = true
  · obtain ⟨m, hm, hpeek⟩ := hpeek
    rw [signed_of_peek hp.le hm hpeek]
    refine (Follows.giveUp rfl trivial).congr fun hw hstart => ?_
    have hbegin : m.1 = start := (litAt_some hm).2.1.trans hp.eq
    obtain ⟨hle, hstop⟩ := stop_le_of_peek hs hlength hc hm hpeek hw (hbegin ▸ hstart)
    refine signed_of_peek (hp.le_size' hw hstart) ?_ ((hw.peek_eq hc hle).trans hpeek)
    rw [hw.litAt_eq hs (hp.eq ▸ hstart) fun m' hm' => ?_, hm]
    rw [hm, Option.some.injEq] at hm'
    rwa [← hm', hstop]
  · refine (follows_literal s hs hp (Nat.le_refl _)).bind (u := True) (fun m hm => ?_)
      (fun _ => .inl not_false) fun m i hi ha => ?_
    · rw [Option.map_eq_none_iff.mp hm]
      exact .giveUp rfl trivial
    · obtain ⟨a, hvalue, rfl⟩ := Option.map_eq_some_iff.mp hi
      have hlit : litAt src s p = some a := by rwa [literal_inside hp.le, value_tokenAt] at hvalue
      have hno : ¬ peek src (a.1 + 1) c = true := fun h => hpeek ⟨a, hlit, h⟩
      have hmatch : Follows src src' w (p + 1) False a.2 (Option.map Match.stop)
          (do
            let some m ← inside src operand a.2 | return none
            return some (build a.1 m))
          (do
            let some m ← inside src' operand a.2 | return none
            return some (build a.1 m)) := by
        refine (follows_ahead known operand hoperand ha).orNone rfl rfl fun v hv => ?_
        exact .result (congrArg some (hbuild a.1 v)) hv
      rw [hvalue]
      dsimp only
      rw [if_neg hno]
      refine hmatch.congr fun hw hstart => ?_
      have hle := (litAt_fits hlit hp.le).2.1
      rw [hw.peek_eq hc (by omega), if_neg hno]

theorem follows_signRule (unsigned : Rule) (hunsigned : unsigned ≠ .space ∧ unsigned ≠ .program)
    (hrank : unsigned.rank < r.rank) :
    Follows src src' w (p + 1) False start (Option.map Match.stop)
      (signRule src (inside src) operand s c build unsigned p)
      (signRule src' (inside src') operand s c build unsigned p) := by
  rw [signRule_eq, signRule_eq]
  exact follows_orElse (fun _ => .inr not_false)
    (follows_signed known operand s c build hoperand hs hlength hc hbuild hp)
    (follows_first known unsigned hunsigned hrank hp)

end Signs

theorem follows_notRule (hrank : Rule.compare.rank < r.rank) (hp : Begins src p start) :
    Follows src src' w (p + 1) False start (Option.map Match.stop) (notRule src (inside src) p)
      (notRule src' (inside src') p) :=
  follows_signRule known .not "!" '=' (fun i m => { m with node := .form .not i [m.node] })
    (by decide) (by decide) rfl (by decide) (fun _ _ => rfl) hp .compare (by decide) hrank

theorem follows_unaryRule (hrank : Rule.call.rank < r.rank) (hp : Begins src p start) :
    Follows src src' w (p + 1) False start (Option.map Match.stop) (unaryRule src (inside src) p)
      (unaryRule src' (inside src') p) :=
  follows_signRule known .unary "-" '>'
    (fun i m => { m with node := .binary .sub i (.int i 0) m.node }) (by decide)
    (by decide) rfl (by decide) (fun _ _ => rfl) hp .call (by decide) hrank

omit known in
theorem follows_compareRule (known : RulesFollow src src' w .compare p) (hp : Begins src p start) :
    Follows src src' w (p + 1) False start (Option.map Match.stop) (compareRule src (inside src) p)
      (compareRule src' (inside src') p) := by
  refine (follows_first known .add (by decide) (by decide) hp).orNone rfl rfl fun v hv => ?_
  refine (follows_operation known .add (by decide) comparisons (by decide) hv).cases
    (.result rfl hv) fun o ho => ?_
  exact .result rfl ho

theorem follows_rounds_commaSeparated (item : Rule) (hr : item ≠ .space) (limit : Nat)
    (hq : Reached src (p + 1) q) :
    Follows src src' w (p + 1) False q (Option.map Prod.snd)
      (commaSeparated src (inside src) item limit q)
      (commaSeparated src' (inside src') item limit q) := by
  induction limit generalizing q with
  | zero => exact .result rfl hq
  | succ limit ih =>
    refine (follows_literal "," (by decide) hq.begins hq.le_succ).cases (.result rfl hq)
      fun a ha => ?_
    refine (follows_ahead known item hr ha).orNone rfl rfl fun v hv => ?_
    refine (ih hv).orNone rfl rfl fun l hl => ?_
    exact .result rfl hl

theorem follows_commaSeparated (item : Rule) (hr : item ≠ .space ∧ item ≠ .program)
    (hq : Reached src (p + 1) q) :
    Follows src src' w (p + 1) False q (Option.map Prod.snd)
      (commaSeparated src (inside src) item (src.size + 1) q)
      (commaSeparated src' (inside src') item (src'.size + 1) q) :=
  follows_of_rounds (fun l => moves_inside.commaSeparated item l q hr hq.le)
    (fun hle l => moves_inside.commaSeparated item l q hr hle)
    fun l => follows_rounds_commaSeparated known item hr.1 l hq

theorem follows_parenthesized (item : Rule) (hr : item ≠ .space ∧ item ≠ .program)
    (hq : Reached src (p + 1) q) :
    Follows src src' w (p + 1) False q (Option.map fun l => l.2.2)
      (parenthesized src (inside src) item q) (parenthesized src' (inside src') item q) := by
  refine (follows_literal "(" (by decide) hq.begins hq.le_succ).orNone rfl rfl fun a ha => ?_
  refine (follows_ahead known item hr.1 ha).cases ?_ fun v hv => ?_
  · refine (follows_literal ")" (by decide) ha.begins ha.le_succ).orNone rfl rfl fun c hc => ?_
    exact .result rfl hc
  · refine (follows_commaSeparated known item hr hv).orNone rfl rfl fun l hl => ?_
    refine (follows_literal ")" (by decide) hl.begins hl.le_succ).orNone rfl rfl fun c hc => ?_
    exact .result rfl hc

theorem follows_rounds_calls (limit : Nat) (t : Tree) (hq : Reached src (p + 1) q) :
    Follows src src' w (p + 1) False q (fun m => some m.stop) (calls src (inside src) limit t q)
      (calls src' (inside src') limit t q) := by
  induction limit generalizing t q with
  | zero => exact .result rfl hq
  | succ limit ih =>
    refine (follows_parenthesized known .expr (by decide) hq).cases (.result rfl hq) fun l hl => ?_
    exact ih _ hl

theorem follows_calls (t : Tree) (hq : Reached src (p + 1) q) :
    Follows src src' w (p + 1) False q (fun m => some m.stop)
      (calls src (inside src) (src.size + 1) t q) (calls src' (inside src') (src'.size + 1) t q) :=
  follows_of_rounds (fun l => moves_inside.calls l t q hq.le)
    (fun hle l => moves_inside.calls l t q hle) fun l => follows_rounds_calls known l t hq

omit known in
theorem follows_callRule (known : RulesFollow src src' w .call p) (hp : Begins src p start) :
    Follows src src' w (p + 1) False start (Option.map Match.stop) (callRule src (inside src) p)
      (callRule src' (inside src') p) := by
  refine (follows_first known .primary (by decide) (by decide) hp).orNone rfl rfl fun v hv => ?_
  refine (follows_calls known v.node hv).andThen fun m hm => ?_
  exact .result rfl hm

omit known in
theorem firstOf_cons (apply : Rule → Nat → Parse Outcome) (r' : Rule) (rs : List Rule) :
    firstOf apply p (r' :: rs) = orElse (apply r' p) (firstOf apply p rs) := by
  rw [firstOf, orElse]
  congr 1
  funext o
  cases o <;> rfl

theorem follows_alternatives (rs : List Rule)
    (hrs : ∀ r' ∈ rs, (r' ≠ .space ∧ r' ≠ .program) ∧ r'.rank < r.rank) (hp : Begins src p start) :
    Follows src src' w (p + 1) (rs = []) start (Option.map Match.stop) (firstOf (inside src) p rs)
      (firstOf (inside src') p rs) := by
  induction rs with
  | nil => exact .giveUp rfl rfl
  | cons r' rs ih =>
    obtain ⟨hr, hrank⟩ := hrs r' List.mem_cons_self
    rw [firstOf_cons, firstOf_cons]
    exact follows_orElse (fun _ => .inl not_false) (follows_first known r' hr hrank hp)
      (ih fun r₁ hr₁ => hrs r₁ (List.mem_cons_of_mem _ hr₁))

theorem follows_firstOf (rs : List Rule)
    (hrs : ∀ r' ∈ rs, (r' ≠ .space ∧ r' ≠ .program) ∧ r'.rank < r.rank) (hne : rs ≠ [])
    (hp : Begins src p start) :
    Follows src src' w (p + 1) False start (Option.map Match.stop) (firstOf (inside src) p rs)
      (firstOf (inside src') p rs) :=
  (follows_alternatives known rs hrs hp).mono (Nat.le_refl _) hne

omit known in
theorem stop_looked (m : Match) : (Parallel.looked m).stop = m.stop := by
  unfold Parallel.looked
  split <;> rfl

omit known in
theorem follows_primaryRule (known : RulesFollow src src' w .primary p) (hp : Begins src p start) :
    Follows src src' w (p + 1) False start (Option.map Match.stop) (primaryRule (inside src) p)
      (primaryRule (inside src') p) := by
  rw [Parallel.primaryRule_eq, Parallel.primaryRule_eq]
  refine (follows_firstOf known [.paren, .function, .ident, .integer] (by decide) (by decide)
    hp).orNone rfl rfl fun v hv => ?_
  exact .result (congrArg some (stop_looked v)) hv

theorem follows_parenRule (hp : Begins src p start) :
    Follows src src' w (p + 1) False start (Option.map Match.stop) (parenRule src (inside src) p)
      (parenRule src' (inside src') p) := by
  refine (follows_literal "(" (by decide) hp (Nat.le_refl _)).orNone rfl rfl fun a ha => ?_
  refine (follows_ahead known .expr (by decide) ha).orNone rfl rfl fun v hv => ?_
  refine (follows_literal ")" (by decide) hv.begins hv.le_succ).orNone rfl rfl fun c hc => ?_
  exact .result rfl hc

theorem follows_returnType (hq : Reached src (p + 1) q) :
    Follows src src' w (p + 1) False q (Option.map Prod.snd) (returnType src (inside src) q)
      (returnType src' (inside src') q) := by
  refine (follows_literal "->" (by decide) hq.begins hq.le_succ).cases (.result rfl hq)
    fun a ha => ?_
  refine (follows_ahead known .type (by decide) ha).orNone rfl rfl fun t ht => ?_
  exact .result rfl ht

theorem follows_functionRule (hp : Begins src p start) :
    Follows src src' w (p + 1) False start (Option.map Match.stop) (functionRule src (inside src) p)
      (functionRule src' (inside src') p) := by
  refine (follows_keyword "func" (by decide) hp (Nat.le_refl _)).orNone rfl rfl fun a ha => ?_
  refine (follows_parenthesized known .param (by decide) ha).orNone rfl rfl fun l hl => ?_
  refine (follows_returnType known hl).orNone rfl rfl fun t ht => ?_
  refine (follows_ahead known .block (by decide) ht).orNone rfl rfl fun u hu => ?_
  exact .result rfl hu

omit known in
theorem paramRule_eq (apply : Rule → Nat → Parse Outcome) : paramRule apply p =
    orElse (do
        let some type ← apply .type p | return none
        let some name ← apply .ident type.stop | return none
        return some { name with type := type.type })
      (apply .ident p) := by
  rw [paramRule, orElse, bind_assoc]
  congr 1
  funext o
  cases o with
  | none => rfl
  | some t =>
    dsimp only
    rw [bind_assoc]
    congr 1
    funext o
    cases o <;> rfl

omit known in
theorem follows_paramRule (known : RulesFollow src src' w .param p) (hp : Begins src p start) :
    Follows src src' w (p + 1) False start (Option.map Match.stop) (paramRule (inside src) p)
      (paramRule (inside src') p) := by
  rw [paramRule_eq, paramRule_eq]
  refine follows_orElse (fun _ => .inl not_false)
    ?_ (follows_first known .ident (by decide) (by decide) hp)
  refine (follows_first known .type (by decide) (by decide) hp).orNone rfl rfl fun t ht => ?_
  refine (follows_ahead known .ident (by decide) ht).orNone rfl rfl fun x hx => ?_
  exact .result rfl hx

omit known in
theorem follows_typeRule (hp : Begins src p start) :
    Follows src src' w (p + 1) False start (Option.map Match.stop) (typeRule src (inside src) p)
      (typeRule src' (inside src') p) := by
  refine (follows_keyword "int" (by decide) hp (Nat.le_refl _)).cases ?_ fun a ha => .result rfl ha
  exact (follows_keyword "func" (by decide) hp (Nat.le_refl _)).cases (.giveUp rfl trivial)
    fun a ha => .result rfl ha

/-- The step lemma: the body of a rule on the second text follows that on the first one if the rules
do that it applies. -/
theorem follows_body (hr : r ≠ .space) (hp : Begins src p start)
    (hbound : bound ≤ p ∨ bound = p + 1 ∧ r ≠ .program) :
    Follows src src' w bound False start (Option.map Match.stop) (body src (inside src) r p)
      (body src' (inside src') r p) := by
  by_cases hprogram : r = .program
  · subst hprogram
    exact follows_programRule known (hbound.resolve_right fun h => h.2 rfl) hp
  refine Follows.mono (?_ : Follows src src' w (p + 1) False _ _ _ _) (by omega) id
  cases r with
  | space => exact absurd rfl hr
  | program => exact absurd rfl hprogram
  | statement => exact follows_firstOf known _ (by decide) (by decide) hp
  | declare => exact follows_declareRule known hp
  | assign => exact follows_assignRule known hp
  | print => exact follows_keywordExpr known "print" .print (by decide) hp
  | ifElse => exact follows_ifElseRule known hp
  | ifThen => exact follows_conditional known "if" .ifThen (by decide) hp
  | whileDo => exact follows_conditional known "while" .whileDo (by decide) hp
  | ret => exact follows_keywordExpr known "ret" .ret (by decide) hp
  | exprStatement => exact follows_exprStatementRule known hp
  | block => exact follows_blockRule known hp
  | expr => exact follows_leftAssoc known .and (by decide) (by decide) _ (by decide) hp
  | and => exact follows_leftAssoc known .not (by decide) (by decide) _ (by decide) hp
  | not => exact follows_notRule known (by decide) hp
  | compare => exact follows_compareRule known hp
  | add => exact follows_leftAssoc known .mul (by decide) (by decide) _ (by decide) hp
  | mul => exact follows_leftAssoc known .unary (by decide) (by decide) _ (by decide) hp
  | unary => exact follows_unaryRule known (by decide) hp
  | call => exact follows_callRule known hp
  | primary => exact follows_primaryRule known hp
  | paren => exact follows_parenRule known hp
  | function => exact follows_functionRule known hp
  | param => exact follows_paramRule known hp
  | type => exact follows_typeRule hp
  | ident => exact follows_identRule hp (Nat.le_refl _)
  | integer => exact follows_integerRule hp (Nat.le_refl _)

end Rules

/-- The run lemma: every rule on the second text follows itself on the first one. -/
theorem follows_inside (hr : r ≠ .space) (hp : Begins src p start)
    (hbound : bound ≤ p ∨ bound = p + 1 ∧ r ≠ .program) :
    Follows src src' w bound False start (Option.map Match.stop) (inside src r p)
      (inside src' r p) := by
  induction hneed : r.need src p using Nat.strongRecOn generalizing r p start bound with
  | ind n ih =>
    subst hneed
    have known : RulesFollow src src' w r p := by
      intro r' q start' bound' hr' hbelow hq hbound'
      refine ih _ ?_ hr' hq hbound' rfl
      obtain hlt | ⟨rfl, hrank⟩ := hbelow
      · exact need_lt_of_lt hlt hq.le
      · exact need_lt_of_rank (Nat.le_refl _) hrank
    rw [inside_eq hp.le, plain_eq_inside r hp.le]
    refine (follows_body known hr hp hbound).congr fun hw hle => ?_
    rw [inside_eq (hp.le_size' hw hle), plain_eq_inside r (hp.le_size' hw hle)]

theorem rulesFollow : RulesFollow src src' w r p :=
  fun _ _ _ _ hr _ hq hbound => follows_inside hr hq hbound

end ClosureLang.Grammar
