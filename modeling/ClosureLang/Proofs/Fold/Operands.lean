import ClosureLang.Proofs.Fold.Timing

/-! What the evaluation of a chain comes to as it is written, term by term, and that a tame chain
fails folded as it does unfolded. -/
namespace ClosureLang.Fold

open ClosureLang.Tree ClosureLang.Action

variable {P : Int64 → Prop} {R : Tree → Tree → Prop} {options options' : Options} {still : Prop}
  {run : Task} {t t' p : Tree} {ts : List Term} {negative : Bool} {m m₁ m' : Machine}
  {ss ls rs : List Slot} {k fuel wait : Nat}

/-- In a run, an expression is evaluated to a function. -/
def Yields (options : Options) (run : Task) (t : Tree) : Prop :=
  ∃ k m id m₁, Task.Reaches options run (.eval k t m) ∧ eval options k t m = .ok (.closure id) m₁

/-- The slots of the terms of a chain: whatever is a function is used at the time at which it is
used in the chain as it is written. -/
def Aligned (options : Options) (run : Task) (os : List Operand) (ss : List Slot) : Prop :=
  List.Forall₂ (fun o s => fold o.node = some s.1.node ∧
    (Yields options run o.node → s.2 = some o.wait)) os ss

/-- What the evaluation of a part of a chain comes to, in terms of its slots. A function is a term
that is left to the rest of the chain. -/
structure Matches (R : Tree → Tree → Prop) (options options' : Options) (still : Prop) (k : Nat)
    (t : Tree) (wait : Nat) (ss : List Slot) (m : Machine) : Prop where
  fails : ∀ c node m₁, eval options k t m = .error (.condition c node) m₁ →
    Halts R options' still ss m c m₁.out
  ends : ∀ v m₁, eval options k t m = .ok v m₁ →
    (∃ w, v = .int w ∧ Passes R options' still ss m m₁) ∨
    ∃ id s, v = .closure id ∧ ss = [s] ∧ s.2 = some wait ∧
      Follows R (fun n => eval options' n s.1.node) m v m₁ ∧ (still → Alike m m₁)

theorem eval_binary_done {op : BinaryOp} {o : Int} {lhs rhs : Tree} {v : Value}
    (h : eval options (k + 1) (binary op o lhs rhs) m = .ok v m₁) :
    ∃ a n₁ b n₂, eval options k lhs (m.within options "evaluate" (binary op o lhs rhs)) = .ok a n₁ ∧
      eval options k rhs n₁ = .ok b n₂ ∧ op.apply a b = .ok v ∧ Alike n₂ m₁ := by
  rw [binary, (Evaluation.binary).eq] at h
  obtain ⟨m₂, hx, rfl⟩ := traced_ok h
  obtain ⟨a, n₁, ha, hx⟩ := bind_ok.mp hx
  obtain ⟨b, n₂, hb, hx⟩ := bind_ok.mp hx
  obtain ⟨store, hstore, rfl⟩ := onStore_ok hx
  obtain ⟨rfl, happly⟩ := operateAt_eq_ok hstore
  exact ⟨a, n₁, b, n₂, ha, hb, happly, .level _ _⟩

section Pending

variable {s : Slot} {id : ClosureId} {c : Condition} {out : String} {m₂ : Machine}

/-- A function waits for all of the right operand, which is one term at most. -/
theorem Halts.pending (hs : Follows R (fun n => eval options' n s.1.node) m (.closure id) m₁)
    (hwait : s.2 = some rs.length) (hshort : rs.length ≤ 1)
    (h : Halts R options' still rs m₁ c out) :
    Halts R options' still (s :: rs) m c out := by
  cases h with
  | @fails s' ss _ _ _ h =>
    obtain rfl : ss = [] := List.length_eq_zero_iff.mp (by simpa using hshort)
    exact .nextFails hs hwait h
  | @function s' ss _ _ _ hs' _ _ =>
    obtain rfl : ss = [] := List.length_eq_zero_iff.mp (by simpa using hshort)
    exact .afterNext hs hwait hs'
  | nextFails => simp at hshort
  | afterNext => simp at hshort
  | @pass s' ss _ _ _ _ _ _ _ h =>
    obtain rfl : ss = [] := List.length_eq_zero_iff.mp (by simpa using hshort)
    cases h

/-- Behind the right operand, the function is noticed. -/
theorem Matches.noticed {rhs : Tree} {v : Value}
    (hs : Follows R (fun n => eval options' n s.1.node) m (.closure id) m₁)
    (hstill : still → Alike m m₁) (hwait : s.2 = some rs.length) (hshort : rs.length ≤ 1)
    (hr : Matches R options options' still k rhs 0 rs m₁) (hok : eval options k rhs m₁ = .ok v m₂) :
    Halts R options' still (s :: rs) m .mathOnFunction m₂.out := by
  obtain ⟨w, -, hpasses⟩ | ⟨id', s', -, rfl, -, hs', -⟩ := hr.ends v m₂ hok
  · cases hpasses with
    | nil halike =>
      rw [halike.out]
      exact .function hs hstill hwait
    | @cons s' ss _ n _ w hs' _ hrest =>
      obtain rfl : ss = [] := List.length_eq_zero_iff.mp (by simpa using hshort)
      cases hrest with
      | nil halike =>
        rw [halike.out]
        exact .afterNext hs hwait hs'
  · exact .afterNext hs hwait hs'

end Pending

/-- The step lemma: what the operands come to makes what a sum or difference comes to. -/
theorem Matches.binary {op : BinaryOp} {o : Int} {lhs rhs : Tree} (hop : op.isAdditive = true)
    (hshort : ∀ s ∈ ls, ∀ d, s.2 = some d → d ≤ 1)
    (hl : Matches R options options' still k lhs rs.length ls
      (m.within options "evaluate" (Tree.binary op o lhs rhs)))
    (hr : ∀ a n₁, eval options k lhs (m.within options "evaluate" (Tree.binary op o lhs rhs)) =
      .ok a n₁ →
      Matches R options options' still k rhs 0 rs n₁) :
    Matches R options options' still (k + 1) (Tree.binary op o lhs rhs) wait (ls ++ rs) m := by
  have hwithin := alike_within options "evaluate" (Tree.binary op o lhs rhs) m
  constructor
  · intro c node m₁ hfail
    refine Halts.congr ?_ hwithin
    obtain ⟨n₁, hlf, hout⟩ | ⟨a, n₁, n₂, ha, hrf, hout⟩ | ⟨a, n₁, b, n₂, ha, hb, happly, hout⟩ :=
      eval_binary_error hfail
    · rw [← hout]
      exact (hl.fails c node n₁ hlf).append rs
    · rw [← hout]
      have hhalts := (hr a n₁ ha).fails c node n₂ hrf
      obtain ⟨w, rfl, hpasses⟩ | ⟨id, s, rfl, rfl, hwait, hfollows, hstill⟩ := hl.ends a n₁ ha
      · exact hpasses.halts hhalts
      · exact hhalts.pending hfollows hwait (hshort s (by simp) _ hwait)
    · rw [← hout]
      obtain ⟨v, rfl, hpasses⟩ | ⟨id, s, rfl, rfl, hwait, hfollows, hstill⟩ := hl.ends a n₁ ha
      · obtain ⟨w, rfl, -⟩ | ⟨id, s, rfl, rfl, hwait, hfollows, hstill⟩ := (hr _ n₁ ha).ends b n₂ hb
        · obtain ⟨x, hx⟩ := apply_int hop v w
          cases hx.symm.trans happly
        · cases (apply_function hop (.inr ⟨id, rfl⟩)).symm.trans happly
          exact hpasses.halts (.function hfollows hstill hwait)
      · cases (apply_function hop (.inl ⟨id, rfl⟩)).symm.trans happly
        exact (hr _ n₁ ha).noticed hfollows hstill hwait (hshort s (by simp) _ hwait) hb
  · intro v m₁ hok
    obtain ⟨a, n₁, b, n₂, ha, hb, happly, hend⟩ := eval_binary_done hok
    obtain ⟨v, w, x, rfl, rfl, rfl, -⟩ := operands_of_additive hop happly
    obtain ⟨_, -, hpasses⟩ | ⟨_, _, hclosure, -⟩ := hl.ends _ n₁ ha
    · obtain ⟨_, -, hpasses'⟩ | ⟨_, _, hclosure, -⟩ := (hr _ n₁ ha).ends _ n₂ hb
      · refine .inl ⟨x, rfl, ?_⟩
        have hall := hpasses.append (hpasses'.append (.nil hend))
        rw [List.append_nil] at hall
        exact hall.congr hwithin
      · cases hclosure
    · cases hclosure

theorem Passes.corresponds (h : Passes R options' still ss m m₁) (hm : Corresponds R m m') :
    ∃ m₁', Corresponds R m₁ m₁' := by
  induction h generalizing m' with
  | nil h => exact ⟨m', hm.congr h (.refl m')⟩
  | cons hs _ _ ih =>
    obtain ⟨n', hn, -⟩ := hs m' hm
    exact ih hn

theorem Matches.corresponds {v : Value} (h : Matches R options options' still k t wait ss m)
    (hok : eval options k t m = .ok v m₁) (hm : Corresponds R m m') :
    ∃ m₁', Corresponds R m₁ m₁' := by
  obtain ⟨w, -, hpasses⟩ | ⟨id, s, -, -, -, hfollows, -⟩ := h.ends v m₁ hok
  · exact hpasses.corresponds hm
  · obtain ⟨m₁', hm₁, -⟩ := hfollows m' hm
    exact ⟨m₁', hm₁⟩

theorem Aligned.split {os os' : List Operand} (h : Aligned options run (os ++ os') ss) :
    ∃ ls rs, ss = ls ++ rs ∧ Aligned options run os ls ∧ Aligned options run os' rs := by
  induction os generalizing ss with
  | nil => exact ⟨[], ss, rfl, .nil, h⟩
  | cons o os ih =>
    cases h with
    | cons hs hrest =>
      obtain ⟨ls, rs, rfl, hls, hrs⟩ := ih hrest
      exact ⟨_ :: ls, rs, rfl, .cons hs hls, hrs⟩

theorem operandsFrom_of_not_chain (h : isChain t = false) :
    operandsFrom wait t = operand wait t := by
  unfold operandsFrom
  split
  · rename_i op o lhs rhs
    exact if_neg (by simpa [isChain] using h)
  · rfl

theorem operandsFrom_binary {op : BinaryOp} {o : Int} {lhs rhs : Tree}
    (hop : op.isAdditive = true) :
    operandsFrom wait (Tree.binary op o lhs rhs) =
      operandsFrom (operandsFrom 0 rhs).length lhs ++ operandsFrom 0 rhs := by
  rw [Tree.binary, form, operandsFrom, if_pos hop]

/-- What a term comes to. -/
theorem matches_term (heval : ∀ k, EvalFolds P options options' k)
    (hsorted : WellSorted P .expression t) (horderly : OrderlyBelow p t)
    (hchain : isChain t = false) (hstill : still → Inert t)
    (hslots : Aligned options run (operandsFrom wait t) ss)
    (hreach : Task.Reaches options run (.eval k t m)) (hm : Corresponds (Folds P) m m')
    (hbreaks : ∀ t', fold t = some t' →
      Breaks (Folds P) (eval options k t) (fun n => eval options' n t') m) :
    Matches (Folds P) options options' still k t wait ss m := by
  obtain ⟨t', hf⟩ := Option.isSome_iff_exists.mp (fold_isSome hsorted)
  have horderly' : ChainsOrderly t := horderly.root (by simp [hchain])
  rw [operandsFrom_of_not_chain hchain, operand, hf, Option.bind_some] at hslots
  cases hvalue : t'.value? with
  | some w =>
    rw [hvalue, Option.isSome_some, if_pos rfl] at hslots
    cases hslots
    have hne : t ≠ .absent := by
      rintro rfl
      cases hsorted
    have hts : foldedTerms false t = some [⟨t', false⟩] := by
      rw [foldedTerms_of_not_chain hne hchain, hf, Option.map_some]
    refine ⟨fun c node m₁ hfail => ?_, fun v m₁ hok => ?_⟩
    · exact absurd hfail (unfailing_of_literals heval hsorted horderly hts
        (by simp [Term.isLiteral, hvalue]) hm)
    · obtain ⟨rfl, halike⟩ := literal_operand (heval k) hsorted horderly' hf hvalue hok hm
      exact .inl ⟨w, rfl, .nil halike⟩
  | none =>
    rw [hvalue, Option.isSome_none, if_neg Bool.false_ne_true] at hslots
    obtain ⟨s, rfl, hfs, hwait⟩ : ∃ s, ss = [s] ∧ fold t = some s.1.node ∧
        (Yields options run t → s.2 = some wait) := by
      cases hslots with
      | cons hs hrest =>
        cases hrest
        exact ⟨_, rfl, hs⟩
    have hstep : ∀ v m₁, eval options k t m = .ok v m₁ →
        Follows (Folds P) (fun n => eval options' n s.1.node) m v m₁ ∧ (still → Alike m m₁) :=
      fun v m₁ hok => ⟨heval k hsorted horderly' hfs m v m₁ hok,
        fun h => Still.eval hsorted (hstill h) k m v m₁ hok⟩
    refine ⟨fun c node m₁ hfail => .fails (hbreaks _ hfs c node m₁ hfail), fun v m₁ hok => ?_⟩
    obtain ⟨hfollows, halike⟩ := hstep v m₁ hok
    cases v with
    | int w => exact .inl ⟨w, rfl, .cons hfollows halike (.nil (.refl m₁))⟩
    | closure id =>
      exact .inr ⟨id, s, rfl, rfl, hwait ⟨k, m, id, m₁, hreach, hok⟩, hfollows, halike⟩

/-- What a part of a chain comes to. -/
theorem matches_of_reaches (heval : ∀ k, EvalFolds P options options' k)
    (hbreaks : ∀ k ≤ fuel, ∀ t t' m, isChain t = false → Task.Reaches options run (.eval k t m) →
      fold t = some t' → Breaks (Folds P) (eval options k t) (fun n => eval options' n t') m)
    (hsorted : WellSorted P .expression t) (horderly : OrderlyBelow p t) (hstill : still → Inert t)
    (hshort : ∀ s ∈ ss, ∀ d, s.2 = some d → d ≤ 1)
    (hslots : Aligned options run (operandsFrom wait t) ss)
    (hk : k ≤ fuel ∨ isChain t = true ∧ k ≤ fuel + 1)
    (hreach : Task.Reaches options run (.eval k t m)) (hm : Corresponds (Folds P) m m') :
    Matches (Folds P) options options' still k t wait ss m := by
  have hterm : ∀ {p t k wait m m' ss}, WellSorted P .expression t → OrderlyBelow p t →
      (still → Inert t) → Aligned options run (operandsFrom wait t) ss →
      (k ≤ fuel ∨ isChain t = true ∧ k ≤ fuel + 1) → Task.Reaches options run (.eval k t m) →
      Corresponds (Folds P) m m' → isChain t = false →
      Matches (Folds P) options options' still k t wait ss m := by
    intro p t k wait m m' ss hsorted horderly hstill hslots hk hreach hm hchain
    have hfuel : k ≤ fuel := hk.resolve_right (by simp [hchain])
    exact matches_term heval hsorted horderly hchain hstill hslots hreach hm
      fun t' => hbreaks k hfuel t t' m hchain hreach
  induction hsorted using WellSorted.expression_induction generalizing p k wait m m' ss with
  | int o w hw => exact hterm (.int hw) horderly hstill hslots hk hreach hm rfl
  | lookup o x hx => exact hterm (.lookup hx) horderly hstill hslots hk hreach hm rfl
  | not o t ht => exact hterm (.not ht) horderly hstill hslots hk hreach hm rfl
  | call o o' callee args hc hargs =>
    exact hterm (.call hc hargs) horderly hstill hslots hk hreach hm rfl
  | function o o' params body sig hparams hbody hsig =>
    exact hterm (.function hparams hbody hsig) horderly hstill hslots hk hreach hm rfl
  | binary op o lhs rhs hl hr ihl ihr =>
    cases hop : op.isAdditive with
    | false => exact hterm (.binary hl hr) horderly hstill hslots hk hreach hm hop
    | true =>
      cases k with
      | zero => exact ⟨nofun, nofun⟩
      | succ k =>
        rw [operandsFrom_binary hop] at hslots
        obtain ⟨ls, rs, rfl, hls, hrs⟩ := hslots.split
        rw [List.forall_mem_append] at hshort
        have hfuel : k ≤ fuel := by omega
        have hinert : still → ∀ c ∈ [lhs, rhs], Inert c := fun h => (inert_node.mp (hstill h)).2
        have hwithin :=
          hm.congr (alike_within options "evaluate" (Tree.binary op o lhs rhs) m) (.refl m')
        have hleft := ihl (horderly.child lhs (by simp)) (fun h => hinert h lhs (by simp)) hshort.1
          (hrs.length_eq ▸ hls) (.inl hfuel) (hreach.tail (.operand rfl)) hwithin
        refine .binary hop hshort.1 hleft fun a n₁ ha => ?_
        obtain ⟨n₁', hn₁⟩ := hleft.corresponds ha hwithin
        exact ihr (horderly.child rhs (by simp)) (fun h => hinert h rhs (by simp)) hshort.2 hrs
          (.inl hfuel) (hreach.tail (.right ha)) hn₁

/-- Folding a chain raises no condition in the place of another one, as far as this run goes: terms
are moved over each other only if they are inert and agree in what they can raise, and a term that
is a function is noticed at the same time. -/
structure Tame (options : Options) (run : Task) (t : Tree) : Prop where
  orderly : Orderly t
  agreeable : ∀ ts as u bs, foldedTerms false t = some ts → others ts = as ++ u :: bs →
    u.negative = false → (∀ a ∈ as, a.negative = true) → as ≠ [] → Agreeable as u
  timely : ∀ ts, foldedTerms false t = some ts → ∀ x ∈ (operands t).zip (delays ts),
    Yields options run x.1.node → x.2 = some x.1.wait

/-- The maximal chains of a tree are tame. -/
def ChainsTame (options : Options) (run : Task) (t : Tree) : Prop :=
  ∀ v ∈ t.visits, isChain v.node = true → isChain v.parent = false → Tame options run v.node

/-- The same of a tree below a node. -/
def TameBelow (options : Options) (run : Task) (p t : Tree) : Prop :=
  Everywhere (fun u p => isChain u = true → isChain p = false → Tame options run u) p t

theorem ChainsTame.below (h : ChainsTame options run t) : TameBelow options run .absent t := h

theorem ChainsTame.orderly (h : ChainsTame options run t) : ChainsOrderly t :=
  fun v hv hchain hparent => (h v hv hchain hparent).orderly

theorem ChainsTame.child {l : Label} {o : Int} {cs : List Tree}
    (h : ChainsTame options run (.node l o cs)) (hchain : isChain (.node l o cs) = false) :
    ∀ c ∈ cs, ChainsTame options run c := by
  intro c hc
  have hbelow : TameBelow options run (.node l o cs) c := (everywhere_node.mp h.below).2 c hc
  exact everywhere_congr (fun hc hchain' _ => hc hchain' hchain) hbelow

theorem operandsFrom_aligned (hsorted : WellSorted P .expression t)
    (hts : foldedTerms negative t = some ts) :
    List.Forall₂ (fun o u => fold o.node = some u.node) (operandsFrom wait t) (others ts) := by
  have hterm : ∀ {t negative ts wait}, WellSorted P .expression t → isChain t = false →
      foldedTerms negative t = some ts →
      List.Forall₂ (fun o u => fold o.node = some u.node) (operandsFrom wait t) (others ts) := by
    intro t negative ts wait hsorted hchain hts
    have hpresent : t.isAbsent = false := by cases hsorted <;> rfl
    obtain ⟨t', hf, rfl⟩ := term_of_foldedTerms hchain hpresent hts
    rw [operandsFrom_of_not_chain hchain, operand, hf, Option.bind_some]
    cases hvalue : t'.value? with
    | some w => simp [others, Term.isLiteral, hvalue]
    | none => simpa [others, Term.isLiteral, hvalue] using hf
  induction hsorted using WellSorted.expression_induction generalizing negative ts wait with
  | int o w hw => exact hterm (.int hw) rfl hts
  | lookup o x hx => exact hterm (.lookup hx) rfl hts
  | not o t ht => exact hterm (.not ht) rfl hts
  | call o o' callee args hc hargs => exact hterm (.call hc hargs) rfl hts
  | function o o' params body sig hparams hbody hsig =>
    exact hterm (.function hparams hbody hsig) rfl hts
  | binary op o lhs rhs hl hr ihl ihr =>
    cases hop : op.isAdditive with
    | false => exact hterm (.binary hl hr) hop hts
    | true =>
      obtain ⟨ls, rs, hls, hrs, rfl⟩ := exists_terms_of_binary hop hts
      rw [operandsFrom_binary hop, others, List.filter_append]
      exact List.rel_append (ihl hls) (ihr hrs)

theorem aligned_of_timely (hsorted : WellSorted P .expression t)
    (hts : foldedTerms false t = some ts)
    (htimely : ∀ x ∈ (operands t).zip (delays ts), Yields options run x.1.node →
      x.2 = some x.1.wait) :
    Aligned options run (operands t) ((others ts).zip (delays ts)) := by
  have hfolded : List.Forall₂ (fun o u => fold o.node = some u.node) (operands t) (others ts) :=
    operandsFrom_aligned hsorted hts
  have hlength := delays_length ts
  generalize operands t = os, others ts = us, delays ts = ds at *
  induction hfolded generalizing ds with
  | nil => exact .nil
  | @cons o u os us ho _ ih =>
    obtain ⟨d, ds, rfl⟩ : ∃ d ds', ds = d :: ds' := List.exists_cons_of_length_eq_add_one hlength
    simp only [List.zip_cons_cons, List.forall_mem_cons] at htimely
    exact .cons ⟨ho, htimely.1⟩ (ih ds htimely.2 (by simpa using hlength))

/-- A tame chain fails folded as it does unfolded. -/
theorem breaks_chain {op : BinaryOp} {o : Int} {lhs rhs : Tree}
    (heval : ∀ k, EvalFolds P options options' k)
    (hbreaks : ∀ k ≤ fuel, ∀ t t' m, isChain t = false → Task.Reaches options run (.eval k t m) →
      fold t = some t' → Breaks (Folds P) (eval options k t) (fun n => eval options' n t') m)
    (hop : op.isAdditive = true) (hsorted : WellSorted P .expression (Tree.binary op o lhs rhs))
    (htame : ChainsTame options run (Tree.binary op o lhs rhs))
    (hreach : Task.Reaches options run (.eval (fuel + 1) (Tree.binary op o lhs rhs) m))
    (hf : fold (Tree.binary op o lhs rhs) = some t') :
    Breaks (Folds P) (eval options (fuel + 1) (Tree.binary op o lhs rhs))
      (fun n => eval options' n t') m := by
  intro c node m₁ hfail m' hm
  rw [fold_chain hop, Option.map_eq_some_iff] at hf
  obtain ⟨ts, hts, rfl⟩ := hf
  obtain ⟨horderly, hagreeable, htimely⟩ : Tame options run (Tree.binary op o lhs rhs) :=
    (everywhere_node.mp htame.below).1 hop rfl
  have hshort : ∀ s ∈ (others ts).zip (delays ts), ∀ d, s.2 = some d → d ≤ 1 := fun s hs d hd =>
    delay_le_one (hd ▸ (List.of_mem_zip hs).2)
  have hmatches : Matches (Folds P) options options' (Inert (Tree.binary op o lhs rhs)) (fuel + 1)
      (Tree.binary op o lhs rhs) 0 ((others ts).zip (delays ts)) m :=
    matches_of_reaches heval hbreaks hsorted htame.orderly.below id hshort
      (aligned_of_timely hsorted hts (htimely ts hts)) (.inr ⟨hop, Nat.le_refl _⟩) hreach hm
  have hhalts := hmatches.fails c node m₁ hfail
  obtain hnegative | ⟨as, u, bs, hothers, has, hu⟩ := others_cases ts
  · exact hhalts.all_negative hnegative m' hm
  · by_cases hne : as = []
    · subst hne
      exact hhalts.lead hothers hu m' hm
    · have hinert := horderly ts as u bs hts hothers hu has hne
      have hagree := hagreeable ts as u bs hts hothers hu has hne
      refine hhalts.moved hothers has hu hne hinert (fun x hx => ?_) hagree hm m' hm
      have hmem : x ∈ ts := by
        have hothers' : x ∈ others ts := by
          rw [hothers]
          simp only [List.mem_append, List.mem_cons, List.not_mem_nil, or_false] at hx ⊢
          tauto
        exact (List.mem_filter.mp hothers').1
      exact ⟨(inPlace_folded hsorted).2 rfl false ts hts x hmem,
        inert_terms hsorted hinert hts x hmem⟩

end ClosureLang.Fold
