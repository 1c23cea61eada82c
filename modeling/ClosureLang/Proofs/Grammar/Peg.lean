/-! Parsing expression grammars over bytes. Every expression denotes a value when it matches. -/
namespace ClosureLang

/-- Parsing expressions with nonterminals in `N`, whose matches denote values in `V`. -/
inductive Peg (N V : Type) : Type → Type 1 where
  /-- Matches nothing; the value is the offset at which it stands. -/
  | offset : Peg N V Nat
  | byte (accept : UInt8 → Bool) : Peg N V UInt8
  | rule (n : N) : Peg N V V
  | seq {α β : Type} (a : Peg N V α) (b : Peg N V β) : Peg N V (α × β)
  /-- Ordered choice: `b` is tried only where `a` fails. -/
  | alt {α : Type} (a b : Peg N V α) : Peg N V α
  | opt {α : Type} (a : Peg N V α) : Peg N V (Option α)
  /-- Greedy repetition. -/
  | star {α : Type} (a : Peg N V α) : Peg N V (List α)
  /-- Matches nothing, where `a` fails. -/
  | without {α : Type} (a : Peg N V α) : Peg N V Unit
  /-- Computes a value from that of `a`, or refuses the match. -/
  | act {α β : Type} (f : α → Option β) (a : Peg N V α) : Peg N V β

namespace Peg

variable {N V α β : Type} {G : N → Peg N V V} {src : ByteArray}

/-- What a parsing expression comes to at an offset: a value and the offset behind the match, or
`none` where it fails. -/
inductive Parses (G : N → Peg N V V) (src : ByteArray) :
    {α : Type} → Peg N V α → Nat → Option (α × Nat) → Prop where
  | offset {p : Nat} : Parses G src .offset p (some (p, p))
  | byte {c : UInt8 → Bool} {p : Nat} {b : UInt8} :
      src[p]? = some b → c b = true → Parses G src (.byte c) p (some (b, p + 1))
  | byteNone {c : UInt8 → Bool} {p : Nat} :
      (∀ b, src[p]? = some b → c b = false) → Parses G src (.byte c) p none
  | rule {n : N} {p : Nat} {o : Option (V × Nat)} :
      Parses G src (G n) p o → Parses G src (.rule n) p o
  | seq {α β : Type} {a : Peg N V α} {b : Peg N V β} {p q r : Nat} {x : α} {y : β} :
      Parses G src a p (some (x, q)) → Parses G src b q (some (y, r)) →
      Parses G src (.seq a b) p (some ((x, y), r))
  | seqLeft {α β : Type} {a : Peg N V α} {b : Peg N V β} {p : Nat} :
      Parses G src a p none → Parses G src (.seq a b) p none
  | seqRight {α β : Type} {a : Peg N V α} {b : Peg N V β} {p q : Nat} {x : α} :
      Parses G src a p (some (x, q)) → Parses G src b q none → Parses G src (.seq a b) p none
  | altLeft {α : Type} {a b : Peg N V α} {p : Nat} {m : α × Nat} :
      Parses G src a p (some m) → Parses G src (.alt a b) p (some m)
  | altRight {α : Type} {a b : Peg N V α} {p : Nat} {o : Option (α × Nat)} :
      Parses G src a p none → Parses G src b p o → Parses G src (.alt a b) p o
  | opt {α : Type} {a : Peg N V α} {p q : Nat} {x : α} :
      Parses G src a p (some (x, q)) → Parses G src (.opt a) p (some (some x, q))
  | optNone {α : Type} {a : Peg N V α} {p : Nat} :
      Parses G src a p none → Parses G src (.opt a) p (some (none, p))
  | starStop {α : Type} {a : Peg N V α} {p : Nat} :
      Parses G src a p none → Parses G src (.star a) p (some ([], p))
  | starMore {α : Type} {a : Peg N V α} {p q r : Nat} {x : α} {xs : List α} :
      Parses G src a p (some (x, q)) → Parses G src (.star a) q (some (xs, r)) →
      Parses G src (.star a) p (some (x :: xs, r))
  | without {α : Type} {a : Peg N V α} {p : Nat} :
      Parses G src a p none → Parses G src (.without a) p (some ((), p))
  | withoutNone {α : Type} {a : Peg N V α} {p : Nat} {m : α × Nat} :
      Parses G src a p (some m) → Parses G src (.without a) p none
  | act {α β : Type} {f : α → Option β} {a : Peg N V α} {p q : Nat} {x : α} {y : β} :
      Parses G src a p (some (x, q)) → f x = some y → Parses G src (.act f a) p (some (y, q))
  | actRefused {α β : Type} {f : α → Option β} {a : Peg N V α} {p q : Nat} {x : α} :
      Parses G src a p (some (x, q)) → f x = none → Parses G src (.act f a) p none
  | actNone {α β : Type} {f : α → Option β} {a : Peg N V α} {p : Nat} :
      Parses G src a p none → Parses G src (.act f a) p none

/-- At most `limit` matches of `g`, each from where the one before it ended. -/
def repeatUpTo (g : Nat → Option (α × Nat)) : Nat → Nat → List α × Nat
  | 0, p => ([], p)
  | limit + 1, p =>
    match g p with
    | none => ([], p)
    | some (x, q) => (x :: (repeatUpTo g limit q).1, (repeatUpTo g limit q).2)

/-- The outcome of an expression, given the outcomes of the nonterminals. -/
def eval (src : ByteArray) (f : N → Nat → Option (V × Nat)) :
    {α : Type} → Peg N V α → Nat → Option (α × Nat)
  | _, .offset, p => some (p, p)
  | _, .byte c, p => (src[p]?).bind fun b => if c b then some (b, p + 1) else none
  | _, .rule n, p => f n p
  | _, .seq a b, p =>
    (eval src f a p).bind fun m => (eval src f b m.2).map fun n => ((m.1, n.1), n.2)
  | _, .alt a b, p => (eval src f a p).or (eval src f b p)
  | _, .opt a, p => some (((eval src f a p).map fun m => (some m.1, m.2)).getD (none, p))
  | _, .star a, p => some (repeatUpTo (eval src f a) (src.size + 1) p)
  | _, .without a, p => if (eval src f a p).isSome then none else some ((), p)
  | _, .act g a, p => (eval src f a p).bind fun m => (g m.1).map (·, m.2)

section

variable {f : N → Nat → Option (V × Nat)} {p : Nat}

@[simp] theorem eval_offset : eval src f .offset p = some (p, p) := rfl

theorem eval_byte_eq (c : UInt8 → Bool) :
    eval src f (.byte c : Peg N V UInt8) p =
      (src[p]?).bind fun b => if c b then some (b, p + 1) else none := rfl

@[simp] theorem eval_rule (n : N) : eval src f (.rule n) = f n := rfl

@[simp] theorem eval_seq (a : Peg N V α) (b : Peg N V β) :
    eval src f (.seq a b) p =
      (eval src f a p).bind fun m => (eval src f b m.2).map fun n => ((m.1, n.1), n.2) := rfl

@[simp] theorem eval_alt (a b : Peg N V α) :
    eval src f (.alt a b) p = (eval src f a p).or (eval src f b p) := rfl

@[simp] theorem eval_opt (a : Peg N V α) :
    eval src f (.opt a) p =
      some (((eval src f a p).map fun m => (some m.1, m.2)).getD (none, p)) := rfl

@[simp] theorem eval_star (a : Peg N V α) :
    eval src f (.star a) p = some (repeatUpTo (eval src f a) (src.size + 1) p) := rfl

@[simp] theorem eval_without (a : Peg N V α) :
    eval src f (.without a) p = if (eval src f a p).isSome then none else some ((), p) := rfl

@[simp] theorem eval_act (g : α → Option β) (a : Peg N V α) :
    eval src f (.act g a) p = (eval src f a p).bind fun m => (g m.1).map (·, m.2) := rfl

end

/-- The values that matches of an expression can have, if those of a nonterminal satisfy `Q`. -/
def Value (Q : N → V → Prop) : {α : Type} → Peg N V α → α → Prop
  | _, .offset, _ => True
  | _, .byte c, b => c b = true
  | _, .rule n, v => Q n v
  | _, .seq a b, m => a.Value Q m.1 ∧ b.Value Q m.2
  | _, .alt a b, x => a.Value Q x ∨ b.Value Q x
  | _, .opt a, o => ∀ x, o = some x → a.Value Q x
  | _, .star a, xs => ∀ x ∈ xs, a.Value Q x
  | _, .without _, _ => True
  | _, .act f a, y => ∃ x, a.Value Q x ∧ f x = some y

theorem mem_repeatUpTo {g : Nat → Option (α × Nat)} {limit p : Nat} {x : α}
    (h : x ∈ (repeatUpTo g limit p).1) : ∃ q r, g q = some (x, r) := by
  induction limit generalizing p with
  | zero => simp [repeatUpTo] at h
  | succ limit ih =>
    unfold repeatUpTo at h
    cases hm : g p with
    | none => simp [hm] at h
    | some m =>
      simp only [hm, List.mem_cons] at h
      rcases h with rfl | h
      · exact ⟨p, m.2, hm⟩
      · exact ih h

theorem value_of_eval {Q : N → V → Prop} {f : N → Nat → Option (V × Nat)}
    (hf : ∀ n p m, f n p = some m → Q n m.1) (e : Peg N V α) :
    ∀ p m, eval src f e p = some m → e.Value Q m.1 := by
  induction e with
  | offset => intros; trivial
  | byte c =>
    intro p m h
    simp only [eval_byte_eq, Option.bind_eq_some_iff] at h
    obtain ⟨b, -, h⟩ := h
    split at h <;> simp only [Option.some.injEq, reduceCtorEq] at h
    subst h
    assumption
  | rule n => exact hf n
  | seq a b iha ihb =>
    intro p m h
    simp only [eval_seq, Option.bind_eq_some_iff, Option.map_eq_some_iff] at h
    obtain ⟨x, ha, y, hb, rfl⟩ := h
    exact ⟨iha p x ha, ihb x.2 y hb⟩
  | alt a b iha ihb =>
    intro p m h
    simp only [eval_alt, Option.or_eq_some_iff] at h
    rcases h with h | ⟨-, h⟩
    · exact .inl (iha p m h)
    · exact .inr (ihb p m h)
  | opt a ih =>
    intro p m h x hx
    simp only [eval_opt, Option.some.injEq] at h
    cases ha : eval src f a p with
    | none => simp [ha, ← h] at hx
    | some y =>
      simp only [ha, Option.map_some, Option.getD_some, ← h, Option.some.injEq] at hx
      subst hx
      exact ih p y ha
  | star a ih =>
    intro p m h x hx
    simp only [eval_star, Option.some.injEq] at h
    subst h
    obtain ⟨q, r, hq⟩ := mem_repeatUpTo hx
    exact ih q (x, r) hq
  | without a _ => intros; trivial
  | act g a ih =>
    intro p m h
    simp only [eval_act, Option.bind_eq_some_iff, Option.map_eq_some_iff] at h
    obtain ⟨x, ha, y, hy, rfl⟩ := h
    exact ⟨x.1, ih p x ha, hy⟩

/-- Every match of the expression takes at least one byte, if those of the nonterminals that are
not `nullable` do. -/
def consumes (nullable : N → Bool) : {α : Type} → Peg N V α → Bool
  | _, .offset | _, .opt _ | _, .star _ | _, .without _ => false
  | _, .byte _ => true
  | _, .rule n => !nullable n
  | _, .seq a b => consumes nullable a || consumes nullable b
  | _, .alt a b => consumes nullable a && consumes nullable b
  | _, .act _ a => consumes nullable a

/-- Nonterminals reached before a byte is taken have ranks below `k`, and whatever is repeated
takes a byte. -/
def guarded (nullable : N → Bool) (rank : N → Nat) (top : Nat) : {α : Type} → Nat → Peg N V α → Bool
  | _, _, .offset | _, _, .byte _ => true
  | _, k, .rule n => rank n < k
  | _, k, .seq a b =>
    guarded nullable rank top k a &&
      guarded nullable rank top (if consumes nullable a then top else k) b
  | _, k, .alt a b => guarded nullable rank top k a && guarded nullable rank top k b
  | _, k, .opt a | _, k, .without a | _, k, .act _ a => guarded nullable rank top k a
  | _, k, .star a => consumes nullable a && guarded nullable rank top k a

end Peg

/-- A grammar without left recursion: applied at the same offset, nonterminals lead only to those
of lower rank. -/
structure Ranking {N V : Type} (G : N → Peg N V V) where
  rank : N → Nat
  top : Nat
  nullable : N → Bool
  rank_lt_top : ∀ n, rank n < top
  guarded : ∀ n, (G n).guarded nullable rank top (rank n) = true
  consumes : ∀ n, nullable n = false → (G n).consumes nullable = true

namespace Ranking

open Peg

variable {N V α : Type} {G : N → Peg N V V} (R : Ranking G) {src : ByteArray}
  {f g : N → Nat → Option (V × Nat)} {k p q r : Nat} {n : N}

/-- A match from `p` to `q` lies in the text, and takes a byte if it must. -/
def Fits (src : ByteArray) (p q : Nat) (consuming : Bool) : Prop :=
  p ≤ q ∧ q ≤ src.size ∧ (consuming = true → p < q)

def AllFit (src : ByteArray) (f : N → Nat → Option (V × Nat)) : Prop :=
  ∀ n p m, p ≤ src.size → f n p = some m → Fits src p m.2 (!R.nullable n)

theorem repeatUpTo_fits {a : Nat → Option (α × Nat)}
    (ha : ∀ p m, p ≤ src.size → a p = some m → p ≤ m.2 ∧ m.2 ≤ src.size) (limit : Nat)
    (hp : p ≤ src.size) : p ≤ (repeatUpTo a limit p).2 ∧ (repeatUpTo a limit p).2 ≤ src.size := by
  induction limit generalizing p with
  | zero => exact ⟨Nat.le_refl p, hp⟩
  | succ limit ih =>
    unfold repeatUpTo
    cases hm : a p with
    | none => exact ⟨Nat.le_refl p, hp⟩
    | some m =>
      have hq := ha p m hp hm
      have hr := ih hq.2
      exact ⟨Nat.le_trans hq.1 hr.1, hr.2⟩

theorem eval_fits (hf : R.AllFit src f) (e : Peg N V α) :
    ∀ p m, p ≤ src.size → eval src f e p = some m → Fits src p m.2 (e.consumes R.nullable) := by
  induction e with
  | offset =>
    intro p m hp h
    simp only [eval_offset, Option.some.injEq] at h
    subst h
    exact ⟨Nat.le_refl p, hp, by simp [Peg.consumes]⟩
  | byte c =>
    intro p m hp h
    simp only [eval_byte_eq, Option.bind_eq_some_iff] at h
    obtain ⟨b, hb, h⟩ := h
    split at h <;> simp only [Option.some.injEq, reduceCtorEq] at h
    subst h
    have hlt : p < src.size := (getElem?_eq_some_iff.mp hb).1
    exact ⟨Nat.le_succ p, hlt, fun _ => Nat.lt_succ_self p⟩
  | rule n =>
    intro p m hp h
    exact hf n p m hp h
  | seq a b iha ihb =>
    intro p m hp h
    simp only [eval_seq, Option.bind_eq_some_iff, Option.map_eq_some_iff] at h
    obtain ⟨⟨x, q⟩, ha, ⟨y, r⟩, hb, rfl⟩ := h
    obtain ⟨hpq, hq, hlt⟩ := iha p _ hp ha
    obtain ⟨hqr, hr, hlt'⟩ := ihb q _ hq hb
    refine ⟨Nat.le_trans hpq hqr, hr, fun hc => ?_⟩
    simp only [Peg.consumes, Bool.or_eq_true] at hc
    rcases hc with hc | hc
    · exact Nat.lt_of_lt_of_le (hlt hc) hqr
    · exact Nat.lt_of_le_of_lt hpq (hlt' hc)
  | alt a b iha ihb =>
    intro p m hp h
    simp only [eval_alt, Option.or_eq_some_iff] at h
    simp only [Fits, Peg.consumes, Bool.and_eq_true]
    rcases h with h | ⟨-, h⟩
    · exact ⟨(iha p m hp h).1, (iha p m hp h).2.1, fun hc => (iha p m hp h).2.2 hc.1⟩
    · exact ⟨(ihb p m hp h).1, (ihb p m hp h).2.1, fun hc => (ihb p m hp h).2.2 hc.2⟩
  | opt a ih =>
    intro p m hp h
    simp only [eval_opt, Option.some.injEq] at h
    subst h
    cases ha : eval src f a p with
    | none => exact ⟨Nat.le_refl p, hp, by simp [Peg.consumes]⟩
    | some m => exact ⟨(ih p m hp ha).1, (ih p m hp ha).2.1, by simp [Peg.consumes]⟩
  | star a ih =>
    intro p m hp h
    simp only [eval_star, Option.some.injEq] at h
    subst h
    have hfit := repeatUpTo_fits (fun p m hp hm => ⟨(ih p m hp hm).1, (ih p m hp hm).2.1⟩)
      (src.size + 1) hp
    exact ⟨hfit.1, hfit.2, by simp [Peg.consumes]⟩
  | without a ih =>
    intro p m hp h
    simp only [eval_without] at h
    split at h <;> simp only [Option.some.injEq, reduceCtorEq] at h
    subst h
    exact ⟨Nat.le_refl p, hp, by simp [Peg.consumes]⟩
  | act g a ih =>
    intro p m hp h
    simp only [eval_act, Option.bind_eq_some_iff, Option.map_eq_some_iff] at h
    obtain ⟨m', ha, y, -, rfl⟩ := h
    exact ih p m' hp ha

/-- An application at `q` that comes before those of rank `k` at `p`: one further right, or one of
lower rank at the same place. -/
def Below (k p : Nat) (n : N) (q : Nat) : Prop := p < q ∨ q = p ∧ R.rank n < k

theorem below_of_le (hpq : p ≤ q) (h : R.Below k q n r) : R.Below k p n r := by
  rcases h with h | ⟨rfl, h⟩
  · exact .inl (Nat.lt_of_le_of_lt hpq h)
  · rcases Nat.lt_or_eq_of_le hpq with hlt | rfl
    · exact .inl hlt
    · exact .inr ⟨rfl, h⟩

theorem below_of_lt {k' : Nat} (hpq : p < q) (h : R.Below k' q n r) : R.Below k p n r := by
  rcases h with h | ⟨rfl, -⟩
  · exact .inl (Nat.lt_trans hpq h)
  · exact .inl hpq

/-- Behind a match of the first part of a sequence, whatever the second part may apply comes before
what the sequence may not. -/
theorem below_of_fits {c : Bool} (hfit : Fits src p q c)
    (h : R.Below (if c then R.top else k) q n r) : R.Below k p n r := by
  cases c with
  | false => exact R.below_of_le hfit.1 h
  | true => exact R.below_of_lt (hfit.2.2 rfl) h

theorem repeatUpTo_congr {a b : Nat → Option (α × Nat)} (limit : Nat)
    (ha : ∀ q m, p ≤ q → q ≤ src.size → a q = some m → q ≤ m.2 ∧ m.2 ≤ src.size)
    (hab : ∀ q, p ≤ q → q ≤ src.size → a q = b q) (hp : p ≤ src.size) :
    repeatUpTo a limit p = repeatUpTo b limit p := by
  induction limit generalizing p with
  | zero => rfl
  | succ limit ih =>
    simp only [repeatUpTo, ← hab p (Nat.le_refl p) hp]
    cases hm : a p with
    | none => rfl
    | some m =>
      obtain ⟨hq, hs⟩ := ha p m (Nat.le_refl p) hp hm
      simp only [ih (fun q m' hmq => ha q m' (Nat.le_trans hq hmq))
        (fun q hmq => hab q (Nat.le_trans hq hmq)) hs]

theorem eval_congr (hf : R.AllFit src f) (e : Peg N V α) :
    ∀ k p, p ≤ src.size → e.guarded R.nullable R.rank R.top k = true →
      (∀ n q, q ≤ src.size → R.Below k p n q → f n q = g n q) →
      eval src f e p = eval src g e p := by
  induction e with
  | offset => intros; rfl
  | byte c => intros; rfl
  | rule n =>
    intro k p hp hk h
    exact h n p hp (.inr ⟨rfl, by simpa [Peg.guarded] using hk⟩)
  | seq a b iha ihb =>
    intro k p hp hk h
    simp only [Peg.guarded, Bool.and_eq_true] at hk
    simp only [eval_seq, ← iha k p hp hk.1 h]
    cases ha : eval src f a p with
    | none => rfl
    | some m =>
      have hfit := R.eval_fits hf a p m hp ha
      have hb := ihb _ m.2 hfit.2.1 hk.2 fun n q hq hbelow => h n q hq (R.below_of_fits hfit hbelow)
      simp only [Option.bind_some, hb]
  | alt a b iha ihb =>
    intro k p hp hk h
    simp only [Peg.guarded, Bool.and_eq_true] at hk
    simp only [eval_alt, iha k p hp hk.1 h, ihb k p hp hk.2 h]
  | opt a ih =>
    intro k p hp hk h
    simp only [eval_opt, ih k p hp hk h]
  | star a ih =>
    intro k p hp hk h
    simp only [Peg.guarded, Bool.and_eq_true] at hk
    have hfits : ∀ q m, p ≤ q → q ≤ src.size → eval src f a q = some m →
        q ≤ m.2 ∧ m.2 ≤ src.size := by
      intro q m _ hq hm
      exact ⟨(R.eval_fits hf a q m hq hm).1, (R.eval_fits hf a q m hq hm).2.1⟩
    have hsame : ∀ q, p ≤ q → q ≤ src.size → eval src f a q = eval src g a q := by
      intro q hpq hq
      exact ih k q hq hk.2 fun n r hr hbelow => h n r hr (R.below_of_le hpq hbelow)
    simp only [eval_star, repeatUpTo_congr (src.size + 1) hfits hsame hp]
  | without a ih =>
    intro k p hp hk h
    simp only [eval_without, ih k p hp hk h]
  | act g' a ih =>
    intro k p hp hk h
    simp only [eval_act, ih k p hp hk h]

/-- The outcomes of the nonterminals when applications are nested at most `depth` deep. -/
def approx (G : N → Peg N V V) (src : ByteArray) : Nat → N → Nat → Option (V × Nat)
  | 0, _, _ => none
  | depth + 1, n, p => eval src (approx G src depth) (G n) p

theorem approx_allFit (depth : Nat) : R.AllFit src (approx G src depth) := by
  induction depth with
  | zero => intro n p m _ h; simp [approx] at h
  | succ depth ih =>
    intro n p m hp h
    obtain ⟨hle, hs, hlt⟩ := R.eval_fits ih (G n) p m hp h
    refine ⟨hle, hs, fun hn => hlt (R.consumes n ?_)⟩
    simpa using hn

/-- How deep applications can be nested below that of `n` at `p`. -/
def need (src : ByteArray) (n : N) (p : Nat) : Nat := R.top * (src.size - p) + R.rank n + 1

theorem need_lt {m : N} (hq : q ≤ src.size) (h : R.Below (R.rank n) p m q) :
    R.need src m q < R.need src n p := by
  rcases h with h | ⟨rfl, h⟩
  · have hm := R.rank_lt_top m
    have hs : R.top * (src.size - q) + R.top ≤ R.top * (src.size - p) := by
      rw [← Nat.mul_succ]
      exact Nat.mul_le_mul_left _ (by omega)
    simp only [need]
    omega
  · simp only [need]
    omega

theorem approx_succ (depth : Nat) (n : N) (p : Nat) (hp : p ≤ src.size)
    (hd : R.need src n p ≤ depth) :
    approx G src (depth + 1) n p = approx G src depth n p := by
  induction depth generalizing n p with
  | zero => simp [need] at hd
  | succ depth ih =>
    apply R.eval_congr (R.approx_allFit _) (G n) (R.rank n) p hp (R.guarded n)
    intro m q hq hbelow
    have := R.need_lt hq hbelow
    exact ih m q hq (by omega)

/-- The outcomes of the nonterminals. -/
def read (src : ByteArray) : N → Nat → Option (V × Nat) :=
  approx G src (R.top * (src.size + 1))

theorem read_allFit : R.AllFit src (R.read src) := R.approx_allFit _

theorem need_le (n : N) (p : Nat) : R.need src n p ≤ R.top * (src.size + 1) := by
  have hn := R.rank_lt_top n
  have hs : R.top * (src.size - p) + R.top ≤ R.top * (src.size + 1) := by
    rw [← Nat.mul_succ]
    exact Nat.mul_le_mul_left _ (by omega)
  simp only [need]
  omega

/-- The outcomes solve the equations that the grammar sets up. -/
theorem read_eq (n : N) (hp : p ≤ src.size) : R.read src n p = eval src (R.read src) (G n) p := by
  rw [read, ← R.approx_succ _ n p hp (R.need_le n p)]
  rfl

/-- What holds of every match that a rule makes from matches for which it holds, holds of every
match read. -/
theorem match_of_read {Q : N → Nat → V × Nat → Prop} {m : V × Nat}
    (hQ : ∀ f : N → Nat → Option (V × Nat), (∀ n p m, f n p = some m → Q n p m) →
      ∀ n p m, eval src f (G n) p = some m → Q n p m)
    (h : R.read src n p = some m) : Q n p m := by
  have happrox : ∀ depth n p m, approx G src depth n p = some m → Q n p m := by
    intro depth
    induction depth with
    | zero => intro n p m h; simp [approx] at h
    | succ depth ih => exact hQ _ ih
  exact happrox _ n p m h

/-- What holds of every match that a rule makes from matches read for which it holds, holds of every
match read. -/
theorem holds_of_read {Q : N → Nat → V × Nat → Prop} {m : V × Nat}
    (hQ : ∀ f : N → Nat → Option (V × Nat),
      (∀ n p m, f n p = some m → p ≤ src.size ∧ R.read src n p = some m ∧ Q n p m) →
        ∀ n p m, p ≤ src.size → eval src f (G n) p = some m → Q n p m)
    (hp : p ≤ src.size) (h : R.read src n p = some m) : Q n p m := by
  classical
  induction hd : R.need src n p using Nat.strongRecOn generalizing n p m with
  | ind d ih =>
    subst hd
    let f : N → Nat → Option (V × Nat) := fun n' q =>
      if q ≤ src.size ∧ R.Below (R.rank n) p n' q then R.read src n' q else none
    have hsame : eval src (R.read src) (G n) p = eval src f (G n) p := by
      refine R.eval_congr R.read_allFit (G n) (R.rank n) p hp (R.guarded n) fun n' q hq hbelow => ?_
      exact (if_pos ⟨hq, hbelow⟩).symm
    refine hQ f (fun n' q m' h' => ?_) n p m hp (by rw [← hsame, ← R.read_eq n hp, h])
    obtain ⟨⟨hq, hbelow⟩, h'⟩ := Option.ite_none_right_eq_some.mp h'
    exact ⟨hq, h', ih _ (R.need_lt hq hbelow) hq h' rfl⟩

/-- What holds of every value that a rule makes from values for which it holds, holds of every
value read. -/
theorem value_of_read {Q : N → V → Prop} (hQ : ∀ n v, (G n).Value Q v → Q n v) {m : V × Nat}
    (h : R.read src n p = some m) : Q n m.1 :=
  R.match_of_read (Q := fun n _ m => Q n m.1)
    (fun _ hf n p m h => hQ n m.1 (value_of_eval hf (G n) p m h)) h

theorem parses_repeatUpTo {a : Peg N V α} (limit : Nat) (hp : p ≤ src.size)
    (hl : src.size - p < limit)
    (ha : ∀ q, p ≤ q → q ≤ src.size → Parses G src a q (eval src f a q))
    (hlt : ∀ q m, p ≤ q → q ≤ src.size → eval src f a q = some m → q < m.2 ∧ m.2 ≤ src.size) :
    Parses G src (.star a) p (some (repeatUpTo (eval src f a) limit p)) := by
  induction limit generalizing p with
  | zero => omega
  | succ limit ih =>
    have hstep := ha p (Nat.le_refl p) hp
    simp only [repeatUpTo]
    cases hm : eval src f a p with
    | none => exact .starStop (hm ▸ hstep)
    | some m =>
      obtain ⟨hpm, hs⟩ := hlt p m (Nat.le_refl p) hp hm
      have hrest :=
        ih hs (by omega) (fun q hq => ha q (by omega)) (fun q m' hq => hlt q m' (by omega))
      exact .starMore (hm ▸ hstep) hrest

theorem parses_eval (hf : R.AllFit src f) (e : Peg N V α) :
    ∀ k p, p ≤ src.size → e.guarded R.nullable R.rank R.top k = true →
      (∀ n q, q ≤ src.size → R.Below k p n q → Parses G src (.rule n) q (f n q)) →
      Parses G src e p (eval src f e p) := by
  induction e with
  | offset => intros; exact .offset
  | byte c =>
    intro k p hp hk h
    simp only [eval_byte_eq]
    cases hb : src[p]? with
    | none => exact .byteNone (by simp [hb])
    | some b =>
      simp only [Option.bind_some]
      split
      · exact .byte hb ‹_›
      · exact .byteNone (by simp_all)
  | rule n =>
    intro k p hp hk h
    exact h n p hp (.inr ⟨rfl, by simpa [Peg.guarded] using hk⟩)
  | seq a b iha ihb =>
    intro k p hp hk h
    simp only [Peg.guarded, Bool.and_eq_true] at hk
    have hpa := iha k p hp hk.1 h
    simp only [eval_seq]
    cases ha : eval src f a p with
    | none => exact .seqLeft (ha ▸ hpa)
    | some m =>
      have hfit := R.eval_fits hf a p m hp ha
      have hpb := ihb _ m.2 hfit.2.1 hk.2 fun n q hq hbelow =>
        h n q hq (R.below_of_fits hfit hbelow)
      simp only [Option.bind_some]
      cases hb : eval src f b m.2 with
      | none => exact .seqRight (ha ▸ hpa) (hb ▸ hpb)
      | some m' => exact .seq (ha ▸ hpa) (hb ▸ hpb)
  | alt a b iha ihb =>
    intro k p hp hk h
    simp only [Peg.guarded, Bool.and_eq_true] at hk
    have hpa := iha k p hp hk.1 h
    simp only [eval_alt]
    cases ha : eval src f a p with
    | none => exact .altRight (ha ▸ hpa) (ihb k p hp hk.2 h)
    | some m => exact .altLeft (ha ▸ hpa)
  | opt a ih =>
    intro k p hp hk h
    have hpa := ih k p hp hk h
    simp only [eval_opt]
    cases ha : eval src f a p with
    | none => exact .optNone (ha ▸ hpa)
    | some m => exact .opt (ha ▸ hpa)
  | star a ih =>
    intro k p hp hk h
    simp only [Peg.guarded, Bool.and_eq_true] at hk
    refine parses_repeatUpTo (src.size + 1) hp (by omega) ?_ ?_
    · intro q hpq hq
      exact ih k q hq hk.2 fun n r hr hbelow => h n r hr (R.below_of_le hpq hbelow)
    · intro q m _ hq hm
      have hfit := R.eval_fits hf a q m hq hm
      exact ⟨hfit.2.2 hk.1, hfit.2.1⟩
  | without a ih =>
    intro k p hp hk h
    have hpa := ih k p hp hk h
    simp only [eval_without]
    cases ha : eval src f a p with
    | none => exact .without (ha ▸ hpa)
    | some m => exact .withoutNone (ha ▸ hpa)
  | act g a ih =>
    intro k p hp hk h
    have hpa := ih k p hp hk h
    simp only [eval_act]
    cases ha : eval src f a p with
    | none => exact .actNone (ha ▸ hpa)
    | some m =>
      simp only [Option.bind_some]
      cases hg : g m.1 with
      | none => exact .actRefused (ha ▸ hpa) hg
      | some y => exact .act (ha ▸ hpa) hg

/-- Every nonterminal has an outcome at every offset of a text. -/
theorem parses_read (n : N) (p : Nat) (hp : p ≤ src.size) :
    Parses G src (.rule n) p (R.read src n p) := by
  induction h : R.need src n p using Nat.strongRecOn generalizing n p with
  | ind d ih =>
    subst h
    rw [R.read_eq n hp]
    refine .rule (R.parses_eval R.read_allFit (G n) (R.rank n) p hp (R.guarded n) ?_)
    intro m q hq hbelow
    exact ih _ (R.need_lt hq hbelow) m q hq rfl

theorem guarded_mono (e : Peg N V α) : ∀ k, k ≤ R.top →
    e.guarded R.nullable R.rank R.top k = true →
      e.guarded R.nullable R.rank R.top R.top = true := by
  induction e with
  | offset => intros; rfl
  | byte c => intros; rfl
  | rule n => intro k hk h; simp only [Peg.guarded, decide_eq_true_eq] at h ⊢; omega
  | seq a b iha ihb =>
    intro k hk h
    simp only [Peg.guarded, Bool.and_eq_true, ite_self] at h ⊢
    refine ⟨iha k hk h.1, ihb _ ?_ h.2⟩
    split <;> omega
  | alt a b iha ihb =>
    intro k hk h
    simp only [Peg.guarded, Bool.and_eq_true] at h ⊢
    exact ⟨iha k hk h.1, ihb k hk h.2⟩
  | opt a ih => exact ih
  | star a ih =>
    intro k hk h
    simp only [Peg.guarded, Bool.and_eq_true] at h ⊢
    exact ⟨h.1, ih k hk h.2⟩
  | without a ih => exact ih
  | act g a ih => exact ih

/-- One more repetition than the text has room for changes nothing. -/
theorem repeatUpTo_succ {a : Nat → Option (α × Nat)} (limit : Nat)
    (ha : ∀ q m, q ≤ src.size → a q = some m → q < m.2 ∧ m.2 ≤ src.size) (hp : p ≤ src.size)
    (hl : src.size - p < limit) : repeatUpTo a (limit + 1) p = repeatUpTo a limit p := by
  induction limit generalizing p with
  | zero => omega
  | succ limit ih =>
    rw [repeatUpTo, repeatUpTo]
    cases hm : a p with
    | none => rfl
    | some m =>
      obtain ⟨hlt, hs⟩ := ha p m hp hm
      simp only [ih hs (by omega)]

/-- The outcomes are the only ones that the grammar allows. -/
theorem eval_of_parses {e : Peg N V α} {o : Option (α × Nat)} (h : Parses G src e p o)
    (hp : p ≤ src.size) (hk : e.guarded R.nullable R.rank R.top R.top = true) :
    eval src (R.read src) e p = o := by
  induction h with
  | offset => rfl
  | byte hb hc => simp [eval_byte_eq, hb, hc]
  | @byteNone c p hc =>
    simp only [eval_byte_eq]
    cases hb : src[p]? with
    | none => rfl
    | some b => simp [hc b hb]
  | @rule n p o _ ih =>
    rw [eval, R.read_eq n hp]
    exact ih hp (R.guarded_mono _ _ (Nat.le_of_lt (R.rank_lt_top n)) (R.guarded n))
  | seq _ _ iha ihb =>
    simp only [Peg.guarded, Bool.and_eq_true, ite_self] at hk
    have ha := iha hp hk.1
    have hb := ihb (R.eval_fits R.read_allFit _ _ _ hp ha).2.1 hk.2
    simp [eval_seq, ha, hb]
  | seqLeft _ ih =>
    simp only [Peg.guarded, Bool.and_eq_true] at hk
    simp [eval_seq, ih hp hk.1]
  | seqRight _ _ iha ihb =>
    simp only [Peg.guarded, Bool.and_eq_true, ite_self] at hk
    have ha := iha hp hk.1
    have hb := ihb (R.eval_fits R.read_allFit _ _ _ hp ha).2.1 hk.2
    simp [eval_seq, ha, hb]
  | altLeft _ ih =>
    simp only [Peg.guarded, Bool.and_eq_true] at hk
    simp [eval_alt, ih hp hk.1]
  | altRight _ _ iha ihb =>
    simp only [Peg.guarded, Bool.and_eq_true] at hk
    simp [eval_alt, iha hp hk.1, ihb hp hk.2]
  | opt _ ih => simp [eval_opt, ih hp hk]
  | optNone _ ih => simp [eval_opt, ih hp hk]
  | starStop _ ih =>
    simp only [Peg.guarded, Bool.and_eq_true] at hk
    simp [eval_star, repeatUpTo, ih hp hk.2]
  | @starMore α a p q r x xs _ _ iha ihs =>
    simp only [Peg.guarded, Bool.and_eq_true] at hk
    have ha := iha hp hk.2
    have hstep : ∀ q m, q ≤ src.size → eval src (R.read src) a q = some m →
        q < m.2 ∧ m.2 ≤ src.size := by
      intro q m hq hm
      have hfit := R.eval_fits R.read_allFit a q m hq hm
      exact ⟨hfit.2.2 hk.1, hfit.2.1⟩
    obtain ⟨hlt, hq⟩ := hstep p _ hp ha
    have hs := ihs hq (by simp [Peg.guarded, hk])
    simp only [eval_star, Option.some.injEq] at hs ⊢
    rw [repeatUpTo_succ (src.size) hstep hq (by simp at hlt; omega)] at hs
    simp [repeatUpTo, ha, hs]
  | without _ ih => simp [eval_without, ih hp hk]
  | withoutNone _ ih => simp [eval_without, ih hp hk]
  | act _ hg ih => simp [eval_act, ih hp hk, hg]
  | actRefused _ hg ih => simp [eval_act, ih hp hk, hg]
  | actNone _ ih => simp [eval_act, ih hp hk]

/-- A ranked grammar is total and deterministic. -/
theorem parses_iff (n : N) (hp : p ≤ src.size) (o : Option (V × Nat)) :
    Parses G src (.rule n) p o ↔ R.read src n p = o := by
  constructor
  · intro h
    exact R.eval_of_parses h hp (by simpa [Peg.guarded] using R.rank_lt_top n)
  · rintro rfl
    exact R.parses_read n p hp

end Ranking

end ClosureLang
