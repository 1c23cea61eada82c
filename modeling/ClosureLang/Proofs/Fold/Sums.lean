import ClosureLang.Proofs.Fold.Terms
import ClosureLang.Proofs.Run.Simulation

/-! Evaluating the terms of a chain in turn, and what becomes of that when they are gathered and
put in another order. -/
namespace ClosureLang.Fold

open ClosureLang.Tree ClosureLang.Action

variable {R : Tree → Tree → Prop} {P : Int64 → Prop} {options : Options} {still : Prop}
  {ts us : List Term} {m m₁ m₂ : Machine}

theorem eval_binary (k : Nat) (op : BinaryOp) (o : Int) (lhs rhs : Tree) :
    eval options (k + 1) (binary op o lhs rhs) = (do
      traceStep options "evaluate" (binary op o lhs rhs)
      nested (do
        let v ← eval options k lhs
        let w ← eval options k rhs
        match op.apply v w with
        | .ok result => pure result
        | .error c => raise c (binary op o lhs rhs))) := rfl

theorem eval_literal {t : Tree} {c : Int64} (h : t.value? = some c) (k : Nat) :
    eval options (k + 1) t = (do
      traceStep options "evaluate" t
      nested (pure (.int c))) := by
  cases t with
  | absent => cases h
  | node l o cs =>
    cases l with
    | integer w =>
      cases h
      rfl
    | ident x => cases h
    | form f => cases h

/-- The steps of a binary operation that goes well. -/
theorem eval_binary_ok {k : Nat} {op : BinaryOp} {o : Int} {lhs rhs : Tree} {v : Value}
    (h : eval options (k + 1) (binary op o lhs rhs) m = .ok v m₁) :
    ∃ n a n₁ b n₂, Alike m n ∧ eval options k lhs n = .ok a n₁ ∧ eval options k rhs n₁ = .ok b n₂ ∧
      op.apply a b = .ok v ∧ Alike n₂ m₁ := by
  rw [eval_binary] at h
  obtain ⟨n, n₂, hn, hx, hn₂⟩ := step_ok h
  obtain ⟨a, n₁, ha, hx⟩ := bind_ok.mp hx
  obtain ⟨b, n₃, hb, hx⟩ := bind_ok.mp hx
  cases hop : op.apply a b with
  | error c =>
    rw [hop] at hx
    cases hx
  | ok w =>
    rw [hop] at hx
    cases hx
    exact ⟨n, a, n₁, b, n₂, hn, ha, hb, hop, hn₂⟩

theorem follows_binary {op : BinaryOp} {o : Int} {lhs rhs : Tree} {a b v : Value}
    (hl : Follows R (fun n => eval options n lhs) m a m₁)
    (hr : Follows R (fun n => eval options n rhs) m₁ b m₂) (hop : op.apply a b = .ok v) :
    Follows R (fun n => eval options n (binary op o lhs rhs)) m v m₂ := by
  refine Follows.succ ?_
  simp only [eval_binary]
  refine (hl.bind (hr.bind ?_)).step
  simp only [hop]
  exact .pure (.refl m₂)

theorem follows_literal {t : Tree} {c : Int64} (h : t.value? = some c) (hm : Alike m m₁) :
    Follows R (fun n => eval options n t) m (.int c) m₁ := by
  refine Follows.succ ?_
  simp only [eval_literal h]
  exact (Follows.pure hm).step

theorem value_of_follows {t : Tree} {c : Int64} {v : Value} (h : t.value? = some c)
    (ht : Follows R (fun n => eval options n t) m v m₁) {m' : Machine} (hm : Corresponds R m m') :
    v = .int c := by
  obtain ⟨m₁', -, k, hk⟩ := ht m' hm
  have heval := hk (k + 1) (Nat.le_succ k)
  simp only [eval_literal h] at heval
  obtain ⟨n, n₁, -, hx, -⟩ := step_ok heval
  cases hx
  rfl

/-- The value of a term, as it enters the sum. -/
def signed (negative : Bool) (w : Int64) : Int64 := if negative then -w else w

/-- The value of a literal term, as it enters the sum. -/
def Term.share (t : Term) : Int64 := ((t.node.value?).map (signed t.negative)).getD 0

theorem constant_eq (ts : List Term) : constant ts = ts.foldl (fun s t => s + t.share) 0 := by
  unfold constant
  congr
  funext s t
  simp only [Term.share]
  cases t.node.value? with
  | none => simp
  | some w =>
    cases t.negative with
    | true => simp [signed, Int64.sub_eq_add_neg]
    | false => simp [signed]

theorem constant_cons (t : Term) (ts : List Term) : constant (t :: ts) = t.share + constant ts := by
  have hfold : ∀ (s : Int64) (ts : List Term),
      ts.foldl (fun s u => s + u.share) s = s + ts.foldl (fun s u => s + u.share) 0 := by
    intro s ts
    induction ts generalizing s with
    | nil => simp
    | cons u ts ih =>
      simp only [List.foldl_cons]
      rw [ih, ih (0 + u.share), Int64.zero_add, Int64.add_assoc]
  rw [constant_eq, constant_eq, List.foldl_cons, hfold, Int64.zero_add]

/-- The folded terms of a chain, evaluated in turn, are worth `s` together. Literals change nothing,
and if the chain is still then no term does. -/
inductive Sweep (R : Tree → Tree → Prop) (options : Options) (still : Prop) :
    List Term → Machine → Int64 → Machine → Prop where
  | nil {m m₁ : Machine} : Alike m m₁ → Sweep R options still [] m 0 m₁
  | cons {t : Term} {ts : List Term} {m m₁ m₂ : Machine} {w s : Int64} :
      Follows R (fun n => eval options n t.node) m (.int w) m₁ →
      (∀ c, t.node.value? = some c → w = c ∧ Alike m m₁) → (still → Alike m m₁) →
      Sweep R options still ts m₁ s m₂ →
      Sweep R options still (t :: ts) m (signed t.negative w + s) m₂

namespace Sweep

variable {s s' : Int64} {t : Term}

theorem congr {n n₁ : Machine} (h : Sweep R options still ts m s m₁) (hm : Alike n m)
    (hm₁ : Alike m₁ n₁) : Sweep R options still ts n s n₁ := by
  induction h generalizing n with
  | nil h => exact .nil (hm.trans (h.trans hm₁))
  | cons ht hlit hstill _ ih =>
    exact .cons (ht.congr hm (.refl _)) (fun c hc => ⟨(hlit c hc).1, hm.trans (hlit c hc).2⟩)
      (fun h => hm.trans (hstill h)) (ih (.refl _) hm₁)

theorem append (h : Sweep R options still ts m s m₁) (h' : Sweep R options still us m₁ s' m₂) :
    Sweep R options still (ts ++ us) m (s + s') m₂ := by
  induction h with
  | nil h =>
    rw [Int64.zero_add]
    exact h'.congr h (.refl _)
  | cons ht hlit hstill _ ih =>
    rw [Int64.add_assoc]
    exact .cons ht hlit hstill (ih h')

theorem corresponds (h : Sweep R options still ts m s m₁) {m' : Machine} (hm : Corresponds R m m') :
    ∃ m₁', Corresponds R m₁ m₁' := by
  induction h generalizing m' with
  | nil h => exact ⟨m', hm.congr h (.refl m')⟩
  | cons ht _ _ _ ih =>
    obtain ⟨m₁', hm₁, -⟩ := ht m' hm
    exact ih hm₁

theorem literal (ht : t.isLiteral = true) : Sweep R options still [t] m t.share m := by
  obtain ⟨c, hc⟩ := Option.isSome_iff_exists.mp ht
  have hshare : t.share = signed t.negative c + 0 := by simp [Term.share, hc]
  rw [hshare]
  refine .cons (follows_literal hc (.refl m)) (fun d hd => ?_) (fun _ => .refl m) (.nil (.refl m))
  rw [hc] at hd
  exact ⟨Option.some.inj hd, .refl m⟩

/-- A literal in front comes to its share. -/
theorem uncons_literal (h : Sweep R options still (t :: ts) m s m₁) (ht : t.isLiteral = true) :
    ∃ r, s = t.share + r ∧ Sweep R options still ts m r m₁ := by
  obtain ⟨c, hc⟩ := Option.isSome_iff_exists.mp ht
  cases h with
  | cons _ hlit _ hrest =>
    obtain ⟨rfl, hm⟩ := hlit c hc
    exact ⟨_, by simp [Term.share, hc], hrest.congr hm (.refl _)⟩

/-- Without the literals, what the rest is worth. -/
theorem withoutLiterals (h : Sweep R options still ts m s m₁) :
    ∃ r, s = r + constant ts ∧ Sweep R options still (others ts) m r m₁ := by
  induction h with
  | nil h => exact ⟨0, by simp [constant], .nil h⟩
  | @cons t ts m m₁ m₂ w s ht hlit hstill hrest ih =>
    obtain ⟨r, hr, hothers⟩ := ih
    cases htlit : t.isLiteral with
    | true =>
      obtain ⟨q, hq, -⟩ := (Sweep.cons ht hlit hstill hrest).uncons_literal htlit
      obtain ⟨c, hc⟩ := Option.isSome_iff_exists.mp htlit
      obtain ⟨rfl, hm⟩ := hlit c hc
      refine ⟨r, ?_, ?_⟩
      · have hshare : signed t.negative w = t.share := by simp [Term.share, hc]
        rw [constant_cons, hr, hshare]
        grind
      · simpa [others, htlit] using hothers.congr hm (.refl _)
    | false =>
      have hshare : t.share = 0 := by
        have hnone : t.node.value? = none := by simpa [Term.isLiteral] using htlit
        simp [Term.share, hnone]
      refine ⟨signed t.negative w + r, ?_, ?_⟩
      · rw [constant_cons, hr, hshare]
        grind
      · have hcons : others (t :: ts) = t :: others ts := by simp [others, htlit]
        rw [hcons]
        exact .cons ht hlit hstill hothers

theorem literals (ts : List Term) : Sweep R options still (literals ts) m (constant ts) m := by
  simp only [Fold.literals]
  split
  · have hshare : Term.share ⟨int 0 (constant ts), false⟩ = constant ts := by
      simp [Term.share, signed, int, value?]
    exact hshare ▸ literal rfl
  · split
    · have hshare : Term.share ⟨int 0 (-constant ts), true⟩ = constant ts := by
        simp [Term.share, signed, int, value?]
      have hsweep : Sweep R options still [⟨int 0 (-constant ts), true⟩] m
          (Term.share ⟨int 0 (-constant ts), true⟩) m := literal rfl
      rwa [hshare] at hsweep
    · rename_i hpos hneg
      have hzero : constant ts = 0 :=
        Int64.le_antisymm (Int64.not_lt.mp hpos) (Int64.not_lt.mp hneg)
      exact hzero ▸ .nil (.refl m)

theorem gather (h : Sweep R options still ts m s m₁) :
    Sweep R options still (gathered ts) m s m₁ := by
  obtain ⟨r, rfl, hothers⟩ := h.withoutLiterals
  rw [gathered_eq]
  exact hothers.append (literals ts)

/-- A literal can be moved to the front. -/
theorem literal_first {as bs : List Term} (h : Sweep R options still (as ++ t :: bs) m s m₁)
    (ht : t.isLiteral = true) : Sweep R options still (t :: (as ++ bs)) m s m₁ := by
  induction as generalizing m s with
  | nil => exact h
  | cons a as ih =>
    cases h with
    | @cons _ _ _ _ _ w r ha hlit hstill hrest =>
      obtain ⟨q, rfl, hq⟩ := (ih hrest).uncons_literal ht
      have hsum :
          signed a.negative w + (t.share + q) = t.share + (signed a.negative w + q) := by grind
      rw [hsum]
      exact (literal ht).append (.cons ha hlit hstill hq)

/-- The terms of a still chain can be evaluated in any order. -/
theorem swap {a b : Term} (h : Sweep R options still (a :: b :: ts) m s m₁) (hstill : still) :
    Sweep R options still (b :: a :: ts) m s m₁ := by
  cases h with
  | @cons _ _ _ n _ w r ha halit hastill hrest =>
    cases hrest with
    | @cons _ _ _ n' _ w' r' hb hblit hbstill hrest =>
      have hm := hastill hstill
      have hn := hbstill hstill
      have hsum : signed a.negative w + (signed b.negative w' + r') =
          signed b.negative w' + (signed a.negative w + r') := by grind
      rw [hsum]
      refine .cons (hb.congr hm (hn.symm.trans hm.symm)) (fun c hc => ⟨(hblit c hc).1, .refl m⟩)
        (fun _ => .refl m) ?_
      refine .cons (ha.congr (.refl m) hm.symm) (fun c hc => ⟨(halit c hc).1, .refl m⟩)
        (fun _ => .refl m) ?_
      exact hrest.congr (hm.trans hn) (.refl m₁)

theorem still_first {as bs : List Term} (h : Sweep R options still (as ++ t :: bs) m s m₁)
    (hstill : still) : Sweep R options still (t :: (as ++ bs)) m s m₁ := by
  induction as generalizing m s with
  | nil => exact h
  | cons a as ih =>
    cases h with
    | cons ha hlit hst hrest => exact (Sweep.cons ha hlit hst (ih hrest)).swap hstill

/-- The first positive term can be moved to the front if it is a literal, or the first term
already, or if the chain is still. -/
theorem reorder (h : Sweep R options still (gathered ts) m s m₁)
    (hstill : ∀ as u bs, others ts = as ++ u :: bs → u.negative = false →
      (∀ a ∈ as, a.negative = true) → as ≠ [] → still) :
    Sweep R options still (positiveFirst (gathered ts)) m s m₁ := by
  obtain ⟨-, hfirst⟩ | ⟨as, u, bs, hsplit, has, hu, hfirst⟩ := positiveFirst_cases (gathered ts)
  · rwa [hfirst]
  · rw [hfirst]
    rw [hsplit] at h
    by_cases hlit : u.isLiteral = true
    · exact h.literal_first hlit
    by_cases hempty : as = []
    · rwa [hempty] at h ⊢
    -- the literal is the last term, so that `u` is among the others
    refine h.still_first ?_
    rw [gathered_eq] at hsplit
    have hlast : u ∉ Fold.literals ts := by
      intro hmem
      obtain ⟨w, hw⟩ := node_of_mem_literals hmem
      simp [Term.isLiteral, hw, int, value?] at hlit
    obtain ⟨as', -, hliterals⟩ | ⟨bs', hothers, hrest⟩ := List.append_eq_append_iff.mp hsplit
    · exact absurd (by simp [hliterals]) hlast
    · cases bs' with
      | nil =>
        rw [List.nil_append] at hrest
        exact absurd (by simp [← hrest]) hlast
      | cons v bs' =>
        cases hrest
        exact hstill as u bs' hothers hu has hempty

/-- A chain adds up its terms. -/
theorem attach {acc : Tree} {a : Int64}
    (hacc : Follows R (fun n => eval options n acc) m (.int a) m₁)
    (h : Sweep R options still ts m₁ s m₂) :
    Follows R (fun n => eval options n (ts.foldl attach acc)) m (.int (a + s)) m₂ := by
  induction h generalizing acc a with
  | nil h =>
    rw [Int64.add_zero]
    exact hacc.congr (.refl m) h
  | @cons t ts _ _ _ w s ht _ _ _ ih =>
    rw [← Int64.add_assoc]
    refine ih (follows_binary hacc ht ?_)
    cases t.negative with
    | true => simp [BinaryOp.apply, signed, Int64.sub_eq_add_neg]
    | false => simp [BinaryOp.apply, signed]

theorem total (h : Sweep R options still ts m s m₁) :
    Follows R (fun n => eval options n (chain ts)) m (.int s) m₁ := by
  cases h with
  | nil hm => exact follows_literal rfl hm
  | @cons t ts _ n _ w s ht hlit hstill hrest =>
    simp only [chain]
    cases hneg : t.negative with
    | true =>
      have hall := Sweep.cons ht hlit hstill hrest
      have hzero : Follows R (fun n => eval options n (int 0 0)) m (.int 0) m :=
        follows_literal rfl (.refl m)
      have hfollows := hall.attach hzero
      rw [Int64.zero_add] at hfollows
      simpa only [hneg, if_true] using hfollows
    | false =>
      simpa [signed] using hrest.attach ht

end Sweep

end ClosureLang.Fold
