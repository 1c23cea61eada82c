import Mathlib.Data.List.TakeWhile
import ClosureLang.Proofs.Fold.Hazards

/-! When the terms of a chain are evaluated and when their values are used, as it is written and as
it is folded. -/
namespace ClosureLang.Fold

open ClosureLang.Tree ClosureLang.Action

variable {P : Int64 → Prop} {R : Tree → Tree → Prop} {options options' : Options} {still : Prop}
  {t t' : Tree} {ts : List Term} {negative : Bool} {m m₁ m₂ m' n : Machine} {c : Condition}
  {out : String}

/-- A term of a chain as it is written, and how many further terms are evaluated before its value is
used. -/
structure Operand where
  node : Tree
  wait : Nat

/-- Terms that are folded to literals do not count. -/
def operand (wait : Nat) (t : Tree) : List Operand :=
  if ((fold t).bind value?).isSome then [] else [⟨t, wait⟩]

/-- The terms of a chain from left to right. The left operand of an operator waits for the right
one. -/
def operandsFrom (wait : Nat) : Tree → List Operand
  | .node (.form (.binary op)) o [lhs, rhs] =>
    if op.isAdditive then operandsFrom (operandsFrom 0 rhs).length lhs ++ operandsFrom 0 rhs
    else operand wait (.node (.form (.binary op)) o [lhs, rhs])
  | t => operand wait t

def operands (t : Tree) : List Operand := operandsFrom 0 t

/-- How many further terms of the folded chain are evaluated before the value of a term is used. A
positive term in front waits for the next one, if there is one, and terms that it is moved over are
used later than they were written. -/
def delays (ts : List Term) : List (Option Nat) :=
  match (others ts).takeWhile (·.negative), (others ts).dropWhile (·.negative) with
  | as, [] => as.map fun _ => some 0
  | [], _ :: bs =>
    (if bs ≠ [] then some 1 else if literals ts ≠ [] then some 0 else none) :: bs.map
      fun _ => some 0
  | as, _ :: bs => as.map (fun _ => none) ++ some 0 :: bs.map fun _ => some 0

/-- A folded term and the time at which its value is used in the folded chain. -/
abbrev Slot := Term × Option Nat

/-- The terms come to integers. -/
inductive Passes (R : Tree → Tree → Prop) (options : Options) (still : Prop) :
    List Slot → Machine → Machine → Prop where
  | nil {m m₁ : Machine} : Alike m m₁ → Passes R options still [] m m₁
  | cons {s : Slot} {ss : List Slot} {m m₁ m₂ : Machine}
      {w : Int64} : Follows R (fun n => eval options n s.1.node) m (.int w) m₁ →
      (still → Alike m m₁) → Passes R options still ss m₁ m₂ → Passes R options still (s :: ss) m m₂

/-- The evaluation of the terms ends early: one of them fails, or is a function whose time has
come. -/
inductive Halts (R : Tree → Tree → Prop) (options : Options) (still : Prop) :
    List Slot → Machine → Condition → String → Prop where
  | fails {s : Slot} {ss : List Slot} {m : Machine} {c : Condition}
      {out : String} : Fails R (fun n => eval options n s.1.node) m c out →
      Halts R options still (s :: ss) m c out
  | function {s : Slot} {ss : List Slot} {m m₁ : Machine}
      {id : ClosureId} : Follows R (fun n => eval options n s.1.node) m (.closure id) m₁ →
      (still → Alike m m₁) → s.2 = some 0 → Halts R options still (s :: ss) m .mathOnFunction m₁.out
  | nextFails {s s' : Slot} {ss : List Slot} {m m₁ : Machine} {id : ClosureId} {c : Condition}
      {out : String} : Follows R (fun n => eval options n s.1.node) m (.closure id) m₁ →
      s.2 = some 1 → Fails R (fun n => eval options n s'.1.node) m₁ c out →
      Halts R options still (s :: s' :: ss) m c out
  | afterNext {s s' : Slot} {ss : List Slot} {m m₁ m₂ : Machine} {id : ClosureId}
      {v : Value} : Follows R (fun n => eval options n s.1.node) m (.closure id) m₁ →
      s.2 = some 1 → Follows R (fun n => eval options n s'.1.node) m₁ v m₂ →
      Halts R options still (s :: s' :: ss) m .mathOnFunction m₂.out
  | pass {s : Slot} {ss : List Slot} {m m₁ : Machine} {w : Int64} {c : Condition}
      {out : String} : Follows R (fun n => eval options n s.1.node) m (.int w) m₁ →
      (still → Alike m m₁) → Halts R options still ss m₁ c out →
      Halts R options still (s :: ss) m c out

variable {ss ss' : List Slot}

theorem Passes.congr (h : Passes R options still ss m m₁) (hm : Alike n m) :
    Passes R options still ss n m₁ := by
  cases h with
  | nil h => exact .nil (hm.trans h)
  | cons hs hstill hrest => exact .cons (hs.congr hm (.refl _)) (fun h => hm.trans (hstill h)) hrest

theorem Passes.append (h : Passes R options still ss m m₁) (h' : Passes R options still ss' m₁ m₂) :
    Passes R options still (ss ++ ss') m m₂ := by
  induction h with
  | nil h => exact h'.congr h
  | cons hs hstill _ ih => exact .cons hs hstill (ih h')

theorem Halts.congr (h : Halts R options still ss m c out) (hm : Alike n m) :
    Halts R options still ss n c out := by
  cases h with
  | fails h => exact .fails (h.congr hm)
  | function hs hstill hd =>
    exact .function (hs.congr hm (.refl _)) (fun h => hm.trans (hstill h)) hd
  | nextFails hs hd h => exact .nextFails (hs.congr hm (.refl _)) hd h
  | afterNext hs hd h => exact .afterNext (hs.congr hm (.refl _)) hd h
  | pass hs hstill h => exact .pass (hs.congr hm (.refl _)) (fun h => hm.trans (hstill h)) h

theorem Halts.append (h : Halts R options still ss m c out) (ss' : List Slot) :
    Halts R options still (ss ++ ss') m c out := by
  induction h with
  | fails h => exact .fails h
  | function hs hstill hd => exact .function hs hstill hd
  | nextFails hs hd h => exact .nextFails hs hd h
  | afterNext hs hd h => exact .afterNext hs hd h
  | pass hs hstill _ ih => exact .pass hs hstill ih

theorem Passes.halts (h : Passes R options still ss m m₁)
    (h' : Halts R options still ss' m₁ c out) : Halts R options still (ss ++ ss') m c out := by
  induction h with
  | nil h => exact h'.congr h
  | cons hs hstill _ ih => exact .pass hs hstill (ih h')

/-! Failing in a folded chain. -/

section Chain

variable {op : BinaryOp} {o : Int} {lhs rhs acc : Tree} {v w : Value}

theorem fails_lhs (h : Fails R (fun n => eval options n lhs) m c out) :
    Fails R (fun n => eval options n (binary op o lhs rhs)) m c out := by
  refine Fails.succ ?_
  simp only [binary, (Evaluation.binary).eq]
  exact (h.bind _).traced options "evaluate" (binary op o lhs rhs)

theorem fails_rhs (hl : Follows R (fun n => eval options n lhs) m v m₁)
    (h : Fails R (fun n => eval options n rhs) m₁ c out) :
    Fails R (fun n => eval options n (binary op o lhs rhs)) m c out := by
  refine Fails.succ ?_
  simp only [binary, (Evaluation.binary).eq]
  exact (hl.fails (h.bind _)).traced options "evaluate" (binary op o lhs rhs)

theorem fails_apply (hl : Follows R (fun n => eval options n lhs) m v m₁)
    (hr : Follows R (fun n => eval options n rhs) m₁ w m₂) (h : op.apply v w = .error c) :
    Fails R (fun n => eval options n (binary op o lhs rhs)) m c m₂.out := by
  refine Fails.succ ?_
  simp only [binary, (Evaluation.binary).eq]
  refine Fails.traced ?_ options "evaluate" (binary op o lhs rhs)
  refine hl.fails (hr.fails ?_)
  have hraise : (fun _ : Nat => onStore ((form (.binary op) o [lhs, rhs]).operateAt op v w)) =
      fun _ => Action.raise c (form (.binary op) o [lhs, rhs]) := by
    funext _ n
    simp only [onStore, operateAt, h]
    rfl
  exact hraise ▸ .raise _

theorem fails_foldl_attach (h : Fails R (fun n => eval options n acc) m c out) (us : List Term) :
    Fails R (fun n => eval options n (us.foldl attach acc)) m c out := by
  induction us generalizing acc with
  | nil => exact h
  | cons u us ih => exact ih (fails_lhs h)

/-- The operator with which a term is attached to a chain. -/
theorem attach_eq (acc : Tree) (u : Term) :
    ∃ op : BinaryOp, op.isAdditive = true ∧ attach acc u = binary op 0 acc u.node ∧
      ∀ a b, op.apply (.int a) (.int b) = .ok (.int (a + signed u.negative b)) := by
  cases hneg : u.negative with
  | true =>
    refine ⟨.sub, rfl, by simp [attach, hneg], fun a b => ?_⟩
    simp [BinaryOp.apply, signed, Int64.sub_eq_add_neg]
  | false => exact ⟨.add, rfl, by simp [attach, hneg], fun a b => by simp [BinaryOp.apply, signed]⟩

theorem apply_function {op : BinaryOp} (hop : op.isAdditive = true) {v w : Value}
    (h : (∃ id, v = .closure id) ∨ ∃ id, w = .closure id) :
    op.apply v w = .error .mathOnFunction := by
  obtain ⟨id, rfl⟩ | ⟨id, rfl⟩ := h
  · cases op <;> first | rfl | cases hop
  · cases op <;> first | (cases v <;> rfl) | cases hop

/-- Behind an integer, every term of a folded chain is used at once. -/
theorem Halts.spine {a : Int64} {m₀ : Machine} (h : Halts R options still ss m c out)
    (hss : ∀ s ∈ ss, s.2 ≠ some 1) (hacc : Follows R (fun n => eval options n acc) m₀ (.int a) m)
    (us : List Term) :
    Fails R (fun n => eval options n ((ss.map Prod.fst ++ us).foldl attach acc)) m₀ c out := by
  induction h generalizing acc a m₀ with
  | @fails s ss m c out h =>
    obtain ⟨op, -, hattach, -⟩ := attach_eq acc s.1
    have hfails : Fails R (fun n => eval options n (attach acc s.1)) m₀ c out := by
      rw [hattach]
      exact fails_rhs hacc h
    exact fails_foldl_attach hfails _
  | @function s ss m m₁ id hs _ _ =>
    obtain ⟨op, hop, hattach, -⟩ := attach_eq acc s.1
    have hfails : Fails R (fun n => eval options n (attach acc s.1)) m₀ .mathOnFunction m₁.out := by
      rw [hattach]
      exact fails_apply hacc hs (apply_function hop (.inr ⟨id, rfl⟩))
    exact fails_foldl_attach hfails _
  | nextFails _ hd _ => exact absurd hd (hss _ (by simp))
  | afterNext _ hd _ => exact absurd hd (hss _ (by simp))
  | @pass s ss m m₁ w c out hs _ _ ih =>
    obtain ⟨op, -, hattach, happly⟩ := attach_eq acc s.1
    have hnext : Follows R (fun n => eval options n (attach acc s.1)) m₀
        (.int (a + signed s.1.negative w)) m₁ := by
      rw [hattach]
      exact follows_binary hacc hs (happly a w)
    exact ih (fun s hs => hss s (by simp [hs])) hnext

/-! The three places of the first positive term. -/

theorem delays_of_negative (h : ∀ u ∈ others ts, u.negative = true) :
    delays ts = (others ts).map fun _ => some 0 := by
  simp only [delays, List.takeWhile_eq_self_iff.mpr h, List.dropWhile_eq_nil_iff.mpr h]

theorem delays_of_lead {u : Term} {bs : List Term} (hothers : others ts = u :: bs)
    (hu : u.negative = false) :
    delays ts = (if bs ≠ [] then some 1 else if literals ts ≠ [] then some 0 else none) ::
      bs.map fun _ => some 0 := by
  simp [delays, hothers, hu]

theorem delays_of_moved {as bs : List Term} {u : Term} (hothers : others ts = as ++ u :: bs)
    (has : ∀ a ∈ as, a.negative = true) (hu : u.negative = false) (hne : as ≠ []) :
    delays ts = as.map (fun _ => none) ++ some 0 :: bs.map fun _ => some 0 := by
  obtain ⟨a, as, rfl⟩ := List.exists_cons_of_ne_nil hne
  simp only [delays, hothers, List.takeWhile_append_of_pos has, List.dropWhile_append_of_pos has]
  simp [hu]

/-- Where the first positive term is, if there is one. -/
theorem others_cases (ts : List Term) : (∀ u ∈ others ts, u.negative = true) ∨
    ∃ as u bs, others ts = as ++ u :: bs ∧ (∀ a ∈ as, a.negative = true) ∧ u.negative = false := by
  obtain ⟨h, -⟩ | ⟨as, u, bs, hsplit, has, hu, -⟩ := positiveFirst_cases (others ts)
  · exact .inl h
  · exact .inr ⟨as, u, bs, hsplit, has, hu⟩

theorem delays_length (ts : List Term) : (delays ts).length = (others ts).length := by
  obtain h | ⟨as, u, bs, hothers, has, hu⟩ := others_cases ts
  · simp [delays_of_negative h]
  · by_cases hne : as = []
    · subst hne
      simp [delays_of_lead hothers hu, hothers]
    · simp [delays_of_moved hothers has hu hne, hothers]

theorem delay_le_one {d : Nat} (h : some d ∈ delays ts) : d ≤ 1 := by
  obtain hnegative | ⟨as, u, bs, hothers, has, hu⟩ := others_cases ts
  · simp only [delays_of_negative hnegative, List.mem_map, Option.some.injEq] at h
    omega
  · by_cases hne : as = []
    · subst hne
      simp only [delays_of_lead hothers hu, List.mem_cons, List.mem_map, Option.some.injEq] at h
      rcases h with h | h
      · split at h
        · simp_all
        · split at h <;> simp_all
      · omega
    · simp only [delays_of_moved hothers has hu hne, List.mem_append, List.mem_cons, List.mem_map,
        Option.some.injEq, reduceCtorEq, and_false, exists_false, false_or] at h
      omega

theorem positiveFirst_split {as bs : List Term} {u : Term} (has : ∀ a ∈ as, a.negative = true)
    (hu : u.negative = false) : positiveFirst (as ++ u :: bs) = u :: (as ++ bs) := by
  have hfind : (as ++ u :: bs).find? (!·.negative) = some u := by
    rw [List.find?_append, List.find?_eq_none.mpr (by simpa using has)]
    simp [hu]
  simp only [positiveFirst, hfind, List.takeWhile_append_of_pos has,
    List.dropWhile_append_of_pos has]
  simp [hu]

theorem map_fst_zip_map (us : List Term) (f : Term → Option Nat) :
    (us.zip (us.map f)).map Prod.fst = us := List.map_fst_zip (by simp)

theorem snd_of_mem_zip_map {us : List Term} {f : Term → Option Nat} {s : Slot}
    (h : s ∈ us.zip (us.map f)) : ∃ u, s.2 = f u := by
  obtain ⟨u, -, hu⟩ := List.mem_map.mp (List.of_mem_zip h).2
  exact ⟨u, hu.symm⟩

theorem Halts.spine_at_once {us : List Term} {acc : Tree} {a : Int64} {m₀ : Machine}
    (h : Halts R options still (us.zip (us.map fun _ => some 0)) m c out)
    (hacc : Follows R (fun n => eval options n acc) m₀ (.int a) m) (us' : List Term) :
    Fails R (fun n => eval options n ((us ++ us').foldl attach acc)) m₀ c out := by
  have hspine :=
    h.spine (fun s hs => by obtain ⟨u, hu⟩ := snd_of_mem_zip_map hs; simp [hu]) hacc us'
  rwa [map_fst_zip_map] at hspine

/-- No term is positive: the chain starts with its literals, or with zero. -/
theorem Halts.all_negative (hnegative : ∀ u ∈ others ts, u.negative = true)
    (h : Halts R options still ((others ts).zip (delays ts)) m c out) :
    Fails R (fun n => eval options n (chain (positiveFirst (gathered ts)))) m c out := by
  rw [delays_of_negative hnegative] at h
  have hne : others ts ≠ [] := by
    intro hnil
    rw [hnil] at h
    cases h
  rw [gathered_eq]
  by_cases hpos : 0 < constant ts
  · have hliterals : literals ts = [⟨int 0 (constant ts), false⟩] := by simp [literals, hpos]
    rw [hliterals, positiveFirst_split hnegative rfl, List.append_nil]
    have hchain : chain (⟨int 0 (constant ts), false⟩ :: others ts) =
        (others ts ++ []).foldl attach (int 0 (constant ts)) := by simp [chain]
    rw [hchain]
    exact h.spine_at_once (follows_literal rfl (.refl m)) []
  · have hall : ∀ u ∈ others ts ++ literals ts, u.negative = true := by
      intro u hu
      rcases List.mem_append.mp hu with hu | hu
      · exact hnegative u hu
      · simp only [literals, hpos, if_false] at hu
        split at hu
        · simp_all
        · cases hu
    have hfirst : positiveFirst (others ts ++ literals ts) = others ts ++ literals ts := by
      have hfind : (others ts ++ literals ts).find? (!·.negative) = none :=
        List.find?_eq_none.mpr (by simpa using hall)
      simp only [positiveFirst, hfind]
    have hchain :
        chain (others ts ++ literals ts) = (others ts ++ literals ts).foldl attach (int 0 0) := by
      obtain ⟨u, us, hcons⟩ := List.exists_cons_of_ne_nil hne
      have hu : u.negative = true := hnegative u (by simp [hcons])
      simp [hcons, chain, hu]
    rw [hfirst, hchain]
    exact h.spine_at_once (follows_literal rfl (.refl m)) _

/-- The first term is positive: it waits for the next one. -/
theorem Halts.lead {u : Term} {bs : List Term} (hothers : others ts = u :: bs)
    (hu : u.negative = false) (h : Halts R options still ((others ts).zip (delays ts)) m c out) :
    Fails R (fun n => eval options n (chain (positiveFirst (gathered ts)))) m c out := by
  rw [delays_of_lead hothers hu, hothers, List.zip_cons_cons] at h
  have hchain : chain (positiveFirst (gathered ts)) = (bs ++ literals ts).foldl attach u.node := by
    have hfirst :
        positiveFirst ([] ++ u :: (bs ++ literals ts)) = u :: ([] ++ (bs ++ literals ts)) :=
      positiveFirst_split (by simp) hu
    rw [gathered_eq, hothers]
    simp only [List.nil_append, List.cons_append] at hfirst ⊢
    rw [hfirst]
    simp [chain, hu]
  rw [hchain]
  -- what comes behind the term that the first one waits for does not matter
  have hnext : ∀ {b : Term} {us : List Term} {c out}, bs ++ literals ts = b :: us →
      (∀ op, op.isAdditive = true →
        Fails R (fun n => eval options n (binary op 0 u.node b.node)) m c out) →
      Fails R (fun n => eval options n ((bs ++ literals ts).foldl attach u.node)) m c out := by
    intro b us c out hcons hfails
    rw [hcons, List.foldl_cons]
    obtain ⟨op, hop, hattach, -⟩ := attach_eq u.node b
    rw [hattach]
    exact fails_foldl_attach (hfails op hop) us
  generalize hslots : bs.zip (bs.map fun _ => some 0) = ss at h
  cases h with
  | fails h => exact fails_foldl_attach h _
  | @function _ _ _ m₁ id hs _ hd =>
    obtain ⟨rfl, hne⟩ : bs = [] ∧ literals ts ≠ [] := by
      by_cases hbs : bs = []
      · by_cases hliterals : literals ts = [] <;> simp_all
      · simp [hbs] at hd
    obtain ⟨l, ls, hcons⟩ := List.exists_cons_of_ne_nil hne
    have hmem : l ∈ literals ts := by simp [hcons]
    obtain ⟨w, hw⟩ := node_of_mem_literals hmem
    refine hnext hcons fun op hop => ?_
    rw [hw]
    exact fails_apply hs (follows_literal rfl (.refl m₁)) (apply_function hop (.inl ⟨id, rfl⟩))
  | @nextFails _ s' ss' _ m₁ id _ _ hs _ h =>
    obtain ⟨us, hcons⟩ : ∃ us, bs = s'.1 :: us := by
      have hfst := congrArg (List.map Prod.fst) hslots
      rw [map_fst_zip_map] at hfst
      exact ⟨_, hfst⟩
    exact hnext (by rw [hcons, List.cons_append]) fun op hop => fails_rhs hs h
  | @afterNext _ s' ss' _ m₁ m₂ id v hs _ hs' =>
    obtain ⟨us, hcons⟩ : ∃ us, bs = s'.1 :: us := by
      have hfst := congrArg (List.map Prod.fst) hslots
      rw [map_fst_zip_map] at hfst
      exact ⟨_, hfst⟩
    exact hnext (by rw [hcons, List.cons_append]) fun op hop =>
      fails_apply hs hs' (apply_function hop (.inl ⟨id, rfl⟩))
  | pass hs _ h =>
    subst hslots
    exact h.spine_at_once hs _

theorem Passes.alike (h : Passes R options still ss m m₁) (hstill : still) : Alike m m₁ := by
  induction h with
  | nil h => exact h
  | cons _ h _ ih => exact (h hstill).trans ih

/-- The slots of terms that are used later in the chain as it is written. -/
def early (us : List Term) : List Slot := us.zip (us.map fun _ => none)

theorem early_append (us us' : List Term) : early (us ++ us') = early us ++ early us' := by
  simp only [early, List.map_append]
  exact List.zip_append (by simp)

theorem delay_of_mem_early {us : List Term} {s : Slot} (h : s ∈ early us) : s.2 = none := by
  obtain ⟨u, hu⟩ := snd_of_mem_zip_map h
  exact hu

/-- Terms that a later one is moved over come to integers, or one of them fails. -/
theorem Halts.of_early {as : List Term} (h : Halts R options still (early as ++ ss) m c out) :
    (∃ as₁ a as₂ m₁, as = as₁ ++ a :: as₂ ∧ Passes R options still (early as₁) m m₁ ∧
      Fails R (fun n => eval options n a.node) m₁ c out) ∨
    ∃ m₁, Passes R options still (early as) m m₁ ∧ Halts R options still ss m₁ c out := by
  induction as generalizing m with
  | nil => exact .inr ⟨m, .nil (.refl m), h⟩
  | cons a as ih =>
    rw [show early (a :: as) ++ ss = (a, none) :: (early as ++ ss) from rfl] at h
    generalize hrest : early as ++ ss = rest at h
    cases h with
    | fails h => exact .inl ⟨[], a, as, m, rfl, .nil (.refl m), h⟩
    | function _ _ hd => cases hd
    | nextFails _ hd _ => cases hd
    | afterNext _ hd _ => cases hd
    | pass hs hstill h =>
      subst hrest
      obtain ⟨as₁, b, as₂, m₁, rfl, hpasses, hb⟩ | ⟨m₁, hpasses, h⟩ := ih h
      · exact .inl ⟨a :: as₁, b, as₂, m₁, rfl, .cons hs hstill hpasses, hb⟩
      · exact .inr ⟨m₁, .cons hs hstill hpasses, h⟩

/-- An evaluation that ends fails with one of its conditions, if it does. -/
theorem Ends.of_fails {cs : List Condition} {y : Nat → Action Value} (hy : Ends R cs y m)
    (h : Fails R y m c out) (hm : Corresponds R m m') : c ∈ cs ∧ out = m.out := by
  obtain ⟨k, hk⟩ := h m' hm
  obtain ⟨v, hfollows⟩ | ⟨d, hd, hfails⟩ := hy
  · obtain ⟨m₁', -, l, hl⟩ := hfollows m' hm
    obtain ⟨node, m₁, hrun, -⟩ := hk (max k l) (by omega)
    cases (hl (max k l) (by omega)).symm.trans hrun
  · obtain ⟨l, hl⟩ := hfails m' hm
    obtain ⟨node, m₁, hrun, rfl⟩ := hk (max k l) (by omega)
    obtain ⟨node', m₁', hrun', hout⟩ := hl (max k l) (by omega)
    cases hrun'.symm.trans hrun
    exact ⟨hd, hout⟩

/-- Moving a term over others, all of them inert, raises no condition in the place of another one. A
variable in front may be a function, which is noticed at the next term. -/
structure Agreeable (as : List Term) (u : Term) : Prop where
  first : ∀ a ∈ as, ∀ c ∈ hazards a.node, ∀ d ∈ hazards u.node, c = d
  later : isVariable u.node = true → ∀ a ∈ as.tail, ∀ c ∈ hazards a.node, c = .mathOnFunction

theorem fails_attach {u b : Term} {us : List Term}
    (h : ∀ op, op.isAdditive = true →
      Fails R (fun n => eval options n (binary op 0 u.node b.node)) m c out) :
    Fails R (fun n => eval options n ((b :: us).foldl attach u.node)) m c out := by
  obtain ⟨op, hop, hattach, -⟩ := attach_eq u.node b
  rw [List.foldl_cons, hattach]
  exact fails_foldl_attach (h op hop) us

/-- A term fails that another one is moved over. -/
theorem Passes.moved_fails {as₁ as₂ us : List Term} {a u : Term}
    (h : Passes R options still (early as₁) m m₁)
    (ha : Fails R (fun n => eval options n a.node) m₁ c out) (hstill : still)
    (hparts : ∀ x ∈ [a, u], InPlace .expression x.node ∧ Inert x.node)
    (hagree : Agreeable (as₁ ++ a :: as₂) u) (hm : Corresponds R m m') :
    Fails R (fun n => eval options n ((as₁ ++ a :: (as₂ ++ us)).foldl attach u.node)) m c out := by
  have halike := h.alike hstill
  obtain ⟨haplace, hainert⟩ := hparts a (by simp)
  obtain ⟨huplace, huinert⟩ := hparts u (by simp)
  obtain ⟨hc, rfl⟩ := (ends_of_inert haplace hainert (hm.congr halike (.refl m'))).of_fails ha
    (hm.congr halike (.refl m'))
  have hends : Ends R (hazards u.node) (fun n => eval options n u.node) m :=
    ends_of_inert huplace huinert hm
  obtain ⟨v, hfollows⟩ | ⟨d, hd, hfails⟩ := hends
  · cases v with
    | int w =>
      have hall : Halts R options still (early (as₁ ++ [a])) m c m₁.out := by
        rw [early_append]
        exact h.halts (.fails ha)
      have hspine := hall.spine (fun s hs => by simp [delay_of_mem_early hs]) hfollows (as₂ ++ us)
      rw [early, map_fst_zip_map] at hspine
      simpa only [List.append_assoc, List.singleton_append] using hspine
    | closure id =>
      have hvariable : isVariable u.node = true := by
        by_contra hne
        obtain ⟨m₂, -, k, hk⟩ := hfollows m' hm
        obtain ⟨w, hw⟩ := int_of_inert huplace huinert (by simpa using hne) (hk k (Nat.le_refl k))
        cases hw
      cases as₁ with
      | nil =>
        exact fails_attach fun op _ => fails_rhs hfollows (ha.congr halike)
      | cons b as₁ =>
        obtain rfl := hagree.later hvariable a (by simp) c hc
        cases h with
        | @cons _ _ _ n _ w hb hbstill hrest =>
          have hout : m₁.out = n.out := by rw [halike.out, (hbstill hstill).out]
          rw [hout]
          exact fails_attach fun op hop =>
            fails_apply hfollows hb (apply_function hop (.inl ⟨id, rfl⟩))
  · obtain rfl := hagree.first a (by simp) c hc d hd
    rw [halike.out]
    exact fails_foldl_attach hfails _

/-- The first positive term is moved over others. -/
theorem Halts.moved {as bs : List Term} {u : Term} (hothers : others ts = as ++ u :: bs)
    (has : ∀ a ∈ as, a.negative = true) (hu : u.negative = false) (hne : as ≠ []) (hstill : still)
    (hparts : ∀ x ∈ as ++ [u], InPlace .expression x.node ∧ Inert x.node) (hagree : Agreeable as u)
    (hm : Corresponds R m m') (h : Halts R options still ((others ts).zip (delays ts)) m c out) :
    Fails R (fun n => eval options n (chain (positiveFirst (gathered ts)))) m c out := by
  have hslots : (others ts).zip (delays ts) =
      early as ++ (u, some 0) :: bs.zip (bs.map fun _ => some 0) := by
    rw [delays_of_moved hothers has hu hne, hothers]
    exact List.zip_append (by simp)
  have hchain : chain (positiveFirst (gathered ts)) =
      (as ++ (bs ++ literals ts)).foldl attach u.node := by
    have hfirst :
        positiveFirst (as ++ u :: (bs ++ literals ts)) = u :: (as ++ (bs ++ literals ts)) :=
      positiveFirst_split has hu
    rw [gathered_eq, hothers, List.append_assoc, List.cons_append, hfirst]
    simp [chain, hu]
  rw [hslots] at h
  rw [hchain]
  obtain ⟨as₁, a, as₂, m₁, rfl, hpasses, ha⟩ | ⟨m₁, hpasses, h⟩ := h.of_early
  · rw [List.append_assoc, List.cons_append]
    exact hpasses.moved_fails ha hstill (fun x hx => hparts x (by simp_all; grind)) hagree hm
  have halike := hpasses.alike hstill
  generalize hrest : bs.zip (bs.map fun _ => some 0) = rest at h
  cases h with
  | fails h => exact fails_foldl_attach (h.congr halike) _
  | @function _ _ _ m₂ id hs hustill _ =>
    obtain ⟨a, as, rfl⟩ := List.exists_cons_of_ne_nil hne
    cases hpasses with
    | @cons _ _ _ n _ w ha hastill _ =>
      have hn := hastill hstill
      have hm₂ : Alike m m₂ := halike.trans (hustill hstill)
      have hout : m₂.out = n.out := by rw [hm₂.out, hn.out]
      rw [hout]
      have ha₂ : Follows R (fun n => eval options n a.node) m₂ (.int w) n :=
        ha.congr hm₂.symm (.refl n)
      exact fails_attach fun op hop =>
        fails_apply (hs.congr halike (.refl m₂)) ha₂ (apply_function hop (.inl ⟨id, rfl⟩))
  | nextFails _ hd _ => cases hd
  | afterNext _ hd _ => cases hd
  | @pass _ _ _ m₂ w _ _ hs hustill h =>
    subst hrest
    have hm₂ : Alike m₁ m₂ := hustill hstill
    have hall : Halts R options still (early as ++ bs.zip (bs.map fun _ => some 0)) m c out :=
      hpasses.halts (h.congr hm₂)
    have hlead : Follows R (fun n => eval options n u.node) m (.int w) m :=
      hs.congr halike (halike.trans hm₂).symm
    have hspine := hall.spine (fun s hs => ?_) hlead (literals ts)
    · rwa [List.map_append, early, map_fst_zip_map, map_fst_zip_map, List.append_assoc] at hspine
    · rcases List.mem_append.mp hs with hs | hs
      · simp [delay_of_mem_early hs]
      · obtain ⟨u, hu⟩ := snd_of_mem_zip_map hs
        simp [hu]

end Chain

end ClosureLang.Fold
