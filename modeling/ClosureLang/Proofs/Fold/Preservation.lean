import ClosureLang.Proofs.Fold.Sorts
import ClosureLang.Proofs.Fold.Sums
import ClosureLang.Proofs.Grammar.Memoization
import ClosureLang.Proofs.Run.Simulation
import ClosureLang.Run.Program

/-! Folding preserves runs that end well. -/
namespace ClosureLang.Fold

open ClosureLang.Tree ClosureLang.Action

variable {P : Int64 → Prop} {options options' : Options} {t t' : Tree} {ts : List Term}
  {negative : Bool} {m m₁ : Machine}

/-- Folding a chain moves a term over another only if the chain calls nothing: that is, if a
negative term stands before the first positive one, literals aside. -/
def Orderly (t : Tree) : Prop :=
  ∀ ts as u bs, foldedTerms false t = some ts → others ts = as ++ u :: bs → u.negative = false →
    (∀ a ∈ as, a.negative = true) → as ≠ [] → Inert t

/-- The maximal chains of a tree are orderly. -/
def ChainsOrderly (t : Tree) : Prop :=
  ∀ v ∈ t.visits, isChain v.node = true → isChain v.parent = false → Orderly v.node

/-- The same of a tree below a node: a chain below a chain is not maximal. -/
def OrderlyBelow (p t : Tree) : Prop :=
  Everywhere (fun u p => isChain u = true → isChain p = false → Orderly u) p t

theorem OrderlyBelow.child {p : Tree} {l : Label} {o : Int} {cs : List Tree}
    (h : OrderlyBelow p (.node l o cs)) : ∀ c ∈ cs, OrderlyBelow (.node l o cs) c :=
  (everywhere_node.mp h).2

theorem OrderlyBelow.root {p : Tree} (h : OrderlyBelow p t)
    (ht : isChain t = true → isChain p = false) : ChainsOrderly t :=
  everywhere_congr (p := p) (fun hq hchain _ => hq hchain (ht hchain)) h

theorem ChainsOrderly.below (h : ChainsOrderly t) : OrderlyBelow .absent t := h

theorem ChainsOrderly.child {l : Label} {o : Int} {cs : List Tree}
    (h : ChainsOrderly (.node l o cs)) (hchain : isChain (.node l o cs) = false) :
    ∀ c ∈ cs, ChainsOrderly c :=
  fun c hc => (h.below.child c hc).root fun _ => hchain

/-- A part of a program and what it is folded to. -/
structure Folds (P : Int64 → Prop) (t t' : Tree) : Prop where
  sorted : ∃ role, WellSorted P role t
  orderly : ChainsOrderly t
  fold : fold t = some t'

/-- With some fuel, evaluation is simulated by that of the folded expression. -/
def EvalFolds (P : Int64 → Prop) (options options' : Options) (fuel : Nat) : Prop :=
  ∀ ⦃t t'⦄, WellSorted P .expression t → ChainsOrderly t → fold t = some t' →
    Simulates (Folds P) (eval options fuel t) fun n => eval options' n t'

def ExecFolds (P : Int64 → Prop) (options options' : Options) (fuel : Nat) : Prop :=
  ∀ ⦃role t t'⦄, WellSorted P role t → ChainsOrderly t → fold t = some t' →
    Simulates (Folds P) (exec options fuel t) fun n => exec options' n t'

def LoopFolds (P : Int64 → Prop) (options options' : Options) (fuel : Nat) : Prop :=
  ∀ ⦃cond cond' body body'⦄, WellSorted P .expression cond → WellSorted P .block body →
    ChainsOrderly cond → ChainsOrderly body → fold cond = some cond' → fold body = some body' →
    Simulates (Folds P) (loop options fuel cond body) fun n => loop options' n cond' body'

/-- Evaluating a tree to an integer evaluates its terms in turn. -/
def Sweeps (P : Int64 → Prop) (options options' : Options) (still : Prop) (k : Nat)
    (t : Tree) : Prop :=
  ∀ ⦃p negative ts w m m₁ m'⦄, OrderlyBelow p t → foldedTerms negative t = some ts →
    eval options k t m = .ok (.int w) m₁ → Corresponds (Folds P) m m' →
    Sweep (Folds P) options' still ts m (signed negative w) m₁

variable {still : Prop} {k fuel : Nat}

theorem sweeps_term (heval : EvalFolds P options options' k) (hsorted : WellSorted P .expression t)
    (hstill : still → Inert t) (hchain : isChain t = false) :
    Sweeps P options options' still k t := by
  intro p negative ts w m m₁ m' horderly ht h hm
  have hpresent : t.isAbsent = false := by cases hsorted <;> rfl
  obtain ⟨t', hf, rfl⟩ := term_of_foldedTerms hchain hpresent ht
  have hfollows := heval hsorted (horderly.root (by simp [hchain])) hf m _ m₁ h
  have hterm : Sweep (Folds P) options' still [⟨t', negative⟩] m (signed negative w + 0) m₁ := by
    refine .cons hfollows (fun c hc => ⟨?_, ?_⟩) (fun hs => ?_) (.nil (.refl m₁))
    · exact Value.int.inj (value_of_follows hc hfollows hm)
    · have hinert : Inert t := inert_of_literals hsorted ht (by simp [Term.isLiteral, hc])
      exact Still.eval hsorted hinert k m _ m₁ h
    · exact Still.eval hsorted (hstill hs) k m _ m₁ h
  rwa [Int64.add_zero] at hterm

theorem operands_of_additive {op : BinaryOp} {v v' x : Value} (hop : op.isAdditive = true)
    (h : op.apply v v' = .ok x) :
    ∃ a b w, v = .int a ∧ v' = .int b ∧ x = .int w ∧
      ∀ negative, signed negative a + signed (rightSign op negative) b = signed negative w := by
  have hints : ∃ a b, v = .int a ∧ v' = .int b := by
    cases v with
    | closure id => cases op <;> first | (cases hop; done) | cases h
    | int a =>
      cases v' with
      | closure id => cases op <;> first | (cases hop; done) | cases h
      | int b => exact ⟨a, b, rfl, rfl⟩
  obtain ⟨a, b, rfl, rfl⟩ := hints
  cases op with
  | add =>
    cases h
    refine ⟨a, b, _, rfl, rfl, rfl, fun negative => ?_⟩
    cases negative <;> simp only [signed, rightSign] <;> grind
  | sub =>
    cases h
    refine ⟨a, b, _, rfl, rfl, rfl, fun negative => ?_⟩
    cases negative <;> simp only [signed, rightSign] <;> grind
  | _ => cases hop

theorem sweeps_binary {op : BinaryOp} {o : Int} {lhs rhs : Tree} (hop : op.isAdditive = true)
    (hl : Sweeps P options options' still k lhs) (hr : Sweeps P options options' still k rhs) :
    Sweeps P options options' still (k + 1) (binary op o lhs rhs) := by
  intro p negative ts w m m₁ m' horderly ht h hm
  obtain ⟨ls, rs, hls, hrs, rfl⟩ := exists_terms_of_binary hop ht
  obtain ⟨n, v, n₁, v', n₂, hn, hv, hv', happly, hn₂⟩ := eval_binary_ok h
  obtain ⟨a, b, _, rfl, rfl, ⟨⟩, hsum⟩ := operands_of_additive hop happly
  have hleft := hl (horderly.child lhs (by simp)) hls hv (hm.congr hn (.refl m'))
  obtain ⟨n₁', hn₁⟩ := hleft.corresponds (hm.congr hn (.refl m'))
  have hright := hr (horderly.child rhs (by simp)) hrs hv' hn₁
  rw [← hsum]
  exact (hleft.append hright).congr hn hn₂

theorem sweeps_of_eval (heval : ∀ k ≤ fuel, EvalFolds P options options' k)
    (hsorted : WellSorted P .expression t) (hstill : still → Inert t) (hk : k ≤ fuel) :
    Sweeps P options options' still k t := by
  induction hsorted using WellSorted.expression_induction generalizing k with
  | binary op o lhs rhs hl hr ihl ihr =>
    cases hop : op.isAdditive with
    | false => exact sweeps_term (heval k hk) (.binary hl hr) hstill hop
    | true =>
      cases k with
      | zero => exact fun _ _ _ _ _ _ _ _ _ h _ => nomatch h
      | succ k =>
        have hinert : still → ∀ c ∈ [lhs, rhs], Inert c := fun hs => (inert_node.mp (hstill hs)).2
        exact sweeps_binary hop (ihl (fun hs => hinert hs lhs (by simp)) (Nat.le_of_succ_le hk))
          (ihr (fun hs => hinert hs rhs (by simp)) (Nat.le_of_succ_le hk))
  | int o w hw => exact sweeps_term (heval k hk) (.int hw) hstill rfl
  | lookup o x hx => exact sweeps_term (heval k hk) (.lookup hx) hstill rfl
  | not o t hs => exact sweeps_term (heval k hk) (.not hs) hstill rfl
  | call o o' callee args hc hargs => exact sweeps_term (heval k hk) (.call hc hargs) hstill rfl
  | function o o' params body sig hparams hbody hsig =>
    exact sweeps_term (heval k hk) (.function hparams hbody hsig) hstill rfl

/-- A chain is worth what its terms are, gathered and put in order. -/
theorem eval_chain {op : BinaryOp} {o : Int} {lhs rhs : Tree}
    (heval : ∀ k ≤ fuel, EvalFolds P options options' k) (hop : op.isAdditive = true)
    (hl : WellSorted P .expression lhs) (hr : WellSorted P .expression rhs)
    (horderly : ChainsOrderly (binary op o lhs rhs)) (hf : fold (binary op o lhs rhs) = some t') :
    Simulates (Folds P) (eval options (fuel + 1) (binary op o lhs rhs)) fun n =>
      eval options' n t' := by
  intro m v m₁ h m' hm
  rw [fold_chain hop, Option.map_eq_some_iff] at hf
  obtain ⟨ts, hts, rfl⟩ := hf
  obtain ⟨n, a, n₁, b, n₂, -, -, -, happly, -⟩ := eval_binary_ok h
  obtain ⟨-, -, w, -, -, rfl, -⟩ := operands_of_additive hop happly
  have hroot : Orderly (binary op o lhs rhs) := (everywhere_node.mp horderly.below).1 hop rfl
  have hinert : Inert (binary op o lhs rhs) → ∀ c ∈ [lhs, rhs], Inert c :=
    fun h => (inert_node.mp h).2
  have hsweep : Sweep (Folds P) options' (Inert (binary op o lhs rhs)) ts m w m₁ :=
    sweeps_binary hop
      (sweeps_of_eval heval hl (fun h => hinert h lhs (by simp)) (Nat.le_refl fuel))
      (sweeps_of_eval heval hr (fun h => hinert h rhs (by simp)) (Nat.le_refl fuel))
      horderly.below hts h hm
  exact (hsweep.gather.reorder fun as u bs => hroot ts as u bs hts).total m' hm

theorem foldProduct_cases (op : BinaryOp) (o : Int) (lhs rhs : Tree) :
    foldProduct (binary op o lhs rhs) = binary op o lhs rhs ∨
    ∃ a b w, lhs.value? = some a ∧ rhs.value? = some b ∧
      op.apply (.int a) (.int b) = .ok (.int w) ∧ foldProduct (binary op o lhs rhs) = int 0 w := by
  simp only [binary, form, foldProduct, List.getElem?_cons_zero, List.getElem?_cons_succ,
    Option.bind_some]
  split
  · rename_i a b ha hb
    exact .inr ⟨a, b, _, ha, hb, rfl, rfl⟩
  · rename_i a b ha hb
    by_cases hzero : b = 0
    · exact .inl (if_pos hzero)
    · exact .inr ⟨a, b, _, ha, hb, if_neg hzero, if_neg hzero⟩
  · exact .inl rfl

/-- An operand that is folded to a literal has its value and changes nothing. -/
theorem literal_operand (heval : EvalFolds P options options' k)
    (hsorted : WellSorted P .expression t) (horderly : ChainsOrderly t) (hf : fold t = some t')
    {c : Int64} (hc : t'.value? = some c) {v : Value} (h : eval options k t m = .ok v m₁)
    {m' : Machine} (hm : Corresponds (Folds P) m m') : v = .int c ∧ Alike m m₁ := by
  obtain ⟨ts, hts⟩ := Option.isSome_iff_exists.mp (foldedTerms_of_wellSorted hsorted false)
  have hinert : Inert t := inert_of_literals hsorted hts (isLiteral_of_fold hts hf (by simp [hc]))
  exact ⟨value_of_follows hc (heval hsorted horderly hf m v m₁ h) hm,
    Still.eval hsorted hinert k m v m₁ h⟩

theorem eval_product {op : BinaryOp} {o : Int} {lhs rhs : Tree}
    (heval : EvalFolds P options options' k) (hop : op.isAdditive = false)
    (hl : WellSorted P .expression lhs) (hr : WellSorted P .expression rhs)
    (horderly : ChainsOrderly (binary op o lhs rhs)) (hf : fold (binary op o lhs rhs) = some t') :
    Simulates (Folds P) (eval options (k + 1) (binary op o lhs rhs)) fun n =>
      eval options' n t' := by
  intro m v m₁ h m' hm
  obtain ⟨lhs', rhs', hlf, hrf, rfl⟩ := fold_binary hop hf
  obtain ⟨n, a, n₁, b, n₂, hn, ha, hb, happly, hn₂⟩ := eval_binary_ok h
  have hlo : ChainsOrderly lhs := horderly.child hop lhs (by simp)
  have hro : ChainsOrderly rhs := horderly.child hop rhs (by simp)
  have hleft := heval hl hlo hlf n a n₁ ha
  have hright := heval hr hro hrf n₁ b n₂ hb
  obtain hsame | ⟨c, d, w, hc, hd, hvalue, hint⟩ := foldProduct_cases op o lhs' rhs'
  · rw [hsame]
    exact (follows_binary hleft hright happly).congr hn hn₂ m' hm
  · rw [hint]
    have hm' := hm.congr hn (.refl m')
    obtain ⟨rfl, hstill⟩ := literal_operand heval hl hlo hlf hc ha hm'
    obtain ⟨rfl, hstill'⟩ := literal_operand heval hr hro hrf hd hb (hm'.congr hstill (.refl m'))
    rw [hvalue] at happly
    cases happly
    exact follows_literal rfl (hn.trans (hstill.trans (hstill'.trans hn₂))) m' hm

theorem ExecFolds.of_folds (hexec : ExecFolds P options options' k) (h : Folds P t t') :
    Simulates (Folds P) (exec options k t) fun n => exec options' n t' := by
  obtain ⟨⟨role, hsorted⟩, horderly, hf⟩ := h
  exact hexec hsorted horderly hf

theorem eval_not {o : Int} (heval : EvalFolds P options options' k)
    (ht : WellSorted P .expression t) (horderly : ChainsOrderly (form .not o [t]))
    (hf : fold (form .not o [t]) = some t') :
    Simulates (Folds P) (eval options (k + 1) (form .not o [t])) fun n => eval options' n t' := by
  obtain ⟨_, hcs, rfl⟩ := fold_form_cases rfl hf
  let .cons hft .nil := hcs
  exact .succ (.step ((heval ht (horderly.child rfl t (by simp)) hft).bind fun v => .pure _))

theorem eval_call {o o' : Int} {callee : Tree} {args : List Tree}
    (hdepth : options'.maxDepth = options.maxDepth) (heval : EvalFolds P options options' k)
    (hexec : ExecFolds P options options' k) (hc : WellSorted P .expression callee)
    (hargs : ∀ t ∈ args, WellSorted P .expression t)
    (horderly : ChainsOrderly (form .call o [callee, form .arguments o' args]))
    (hf : fold (form .call o [callee, form .arguments o' args]) = some t') :
    Simulates (Folds P) (eval options (k + 1) (form .call o [callee, form .arguments o' args]))
      fun n => eval options' n t' := by
  obtain ⟨_, hcs, rfl⟩ := fold_form_cases rfl hf
  let .cons hcallee (.cons harguments .nil) := hcs
  obtain ⟨args', hargs', rfl⟩ := fold_form_cases rfl harguments
  have hco := horderly.child rfl callee (by simp)
  have hao := (horderly.child rfl (form .arguments o' args) (by simp)).child rfl
  refine .succ (.step ((heval hc hco hcallee).bind fun v => ?_))
  refine Simulates.calleeOf v fun id c c' hrel => ?_
  refine Simulates.bind (.evalAll ?_) fun vs => ?_
  · have hmem := (List.forall₂_and_left args args').mpr ⟨fun t (ht : t ∈ args) => ht, hargs'⟩
    exact hmem.imp fun t t' h => heval (hargs t h.1) (hao t h.1) h.2
  · exact (Simulates.checkCall hdepth hrel vs).bind fun _ =>
      .enterCall hrel vs (hexec.of_folds hrel.body)

theorem eval_function {o o' : Int} {params sig : List Tree} {body : Tree}
    (hparams : ∀ x ∈ params, IsIdent x) (hbody : WellSorted P .block body)
    (hsig : IsSignature params.length sig)
    (horderly : ChainsOrderly (form .function o (form .parameters o' params :: body :: sig)))
    (hf : fold (form .function o (form .parameters o' params :: body :: sig)) = some t') :
    Simulates (Folds P)
      (eval options (k + 1) (form .function o (form .parameters o' params :: body :: sig)))
      fun n => eval options' n t' := by
  have hfolds : Folds P _ t' := ⟨⟨_, .function hparams hbody hsig⟩, horderly, hf⟩
  obtain ⟨body', hb, rfl⟩ := fold_function hparams hsig hf
  have hbodies : Folds P body body' := ⟨⟨_, hbody⟩, horderly.child rfl body (by simp), hb⟩
  exact .succ (.step (.makeClosure hfolds hbodies rfl rfl))

/-- The step lemma of evaluation. -/
theorem evalFolds_succ (hdepth : options'.maxDepth = options.maxDepth)
    (heval : ∀ k ≤ fuel, EvalFolds P options options' k)
    (hexec : ExecFolds P options options' fuel) :
    EvalFolds P options options' (fuel + 1) := by
  intro t t' hsorted horderly hf
  cases hsorted with
  | @int o w hw =>
    cases hf
    exact .succ (.step (.pure _))
  | @lookup o x hx =>
    rw [fold_leaves rfl (by simpa using hx.leaf)] at hf
    cases hf
    exact .succ (.step (.lookup rfl))
  | @binary op o lhs rhs hl hr =>
    cases hop : op.isAdditive with
    | true => exact eval_chain heval hop hl hr horderly hf
    | false => exact eval_product (heval fuel (Nat.le_refl fuel)) hop hl hr horderly hf
  | not ht => exact eval_not (heval fuel (Nat.le_refl fuel)) ht horderly hf
  | call hc hargs =>
    exact eval_call hdepth (heval fuel (Nat.le_refl fuel)) hexec hc hargs horderly hf
  | function hparams hbody hsig => exact eval_function hparams hbody hsig horderly hf

theorem simulates_discard {α : Type} {R : Tree → Tree → Prop} {x : Action α} {y : Nat → Action α}
    (h : Simulates R x y) : Simulates R (discard x) fun n => discard (y n) :=
  h.bind fun _ => .pure ()

/-- Expressions are evaluated in the place of statements. -/
theorem exec_of_isExpression (h : isExpression t = true) (k : Nat) :
    exec options (k + 1) t = (do
      traceStep options "execute" t
      nested (discard (eval options k t))) := by
  cases t with
  | absent => cases h
  | node l o cs =>
    cases l with
    | integer w => rfl
    | ident x => cases h
    | form f => cases f <;> first | rfl | cases h

theorem isExpression_of_wellSorted (h : WellSorted P .expression t) : isExpression t = true := by
  cases h <;> rfl

theorem exec_expression (heval : EvalFolds P options options' k) (h : WellSorted P .expression t)
    (horderly : ChainsOrderly t) (hf : fold t = some t') :
    Simulates (Folds P) (exec options (k + 1) t) fun n => exec options' n t' := by
  refine .succ ?_
  simp only [exec_of_isExpression (isExpression_of_wellSorted h),
    exec_of_isExpression (isExpression_of_wellSorted (inPlace_of_fold h hf))]
  exact .step (simulates_discard (heval h horderly hf))

theorem execFolds_succ (heval : EvalFolds P options options' fuel)
    (hexec : ExecFolds P options options' fuel) (hloop : LoopFolds P options options' fuel) :
    ExecFolds P options options' (fuel + 1) := by
  intro role t t' hsorted horderly hf
  cases hsorted with
  | @block o ts hts =>
    obtain ⟨ts', hcs, rfl⟩ := fold_form_cases rfl hf
    have hmem := (List.forall₂_and_left ts ts').mpr ⟨fun t (ht : t ∈ ts) => ht, hcs⟩
    refine .succ (.step (.execAll (hmem.imp fun t t' h => ?_)))
    exact hexec (hts t h.1) (horderly.child rfl t h.1) h.2
  | @ret o e he =>
    obtain ⟨_, hcs, rfl⟩ := fold_form_cases rfl hf
    let .cons hfe .nil := hcs
    refine .succ (.step (.get fun m m' hm => ?_))
    rw [hm.depth]
    have hret := (heval he (horderly.child rfl e (by simp)) hfe).bind fun v =>
      Simulates.changes (f := fun m => { m with returning := true, result := v })
        (g := fun m => { m with returning := true, result := v })
        fun m m' hm => { hm with returning := rfl, result := rfl, closures := hm.closures }
    exact .ite (Simulates.raise.bind fun _ => hret) hret
  | @print o e he =>
    obtain ⟨_, hcs, rfl⟩ := fold_form_cases rfl hf
    let .cons hfe .nil := hcs
    exact .succ
      (.step ((heval he (horderly.child rfl e (by simp)) hfe).bind fun v => .printLine v.text))
  | @declare o x e type hx he htype hlen =>
    obtain ⟨e', hfe, rfl⟩ := fold_declare hx htype hf
    have hdeclare : ∀ v, Simulates (Folds P) (declare (form .declare o (x :: e :: type)) v)
        fun _ => declare (form .declare o (x :: e' :: type)) v := by
      intro v
      refine .declare ?_ ?_ v <;> rfl
    exact .succ (.step ((heval he (horderly.child rfl e (by simp)) hfe).bind hdeclare))
  | @assign o o' x e hx he =>
    obtain ⟨_, hcs, rfl⟩ := fold_form_cases rfl hf
    let .cons hloc (.cons hfe .nil) := hcs
    rw [fold_leaves rfl (by simpa using hx.leaf)] at hloc
    cases hloc
    refine .succ (.step ((heval he (horderly.child rfl e (by simp)) hfe).bind fun v =>
      (Simulates.locate _).bind fun l => .changes fun m m' hm => ?_))
    exact hm.withStore (by simp only [Store.set, hm.scopes]) rfl rfl
  | @ifThen o c b hc hb =>
    obtain ⟨_, hcs, rfl⟩ := fold_form_cases rfl hf
    let .cons hfc (.cons hfb .nil) := hcs
    refine .succ (.step ((heval hc (horderly.child rfl c (by simp)) hfc).bind fun v => ?_))
    exact .ite (.inScope (hexec hb (horderly.child rfl b (by simp)) hfb)) (.pure ())
  | @ifElse o c b a hc hb ha =>
    obtain ⟨_, hcs, rfl⟩ := fold_form_cases rfl hf
    let .cons hfc (.cons hfb (.cons hfa .nil)) := hcs
    refine .succ (.step ((heval hc (horderly.child rfl c (by simp)) hfc).bind fun v => ?_))
    exact .ite (.inScope (hexec hb (horderly.child rfl b (by simp)) hfb))
      (.inScope (hexec ha (horderly.child rfl a (by simp)) hfa))
  | @whileDo o c b hc hb =>
    obtain ⟨_, hcs, rfl⟩ := fold_form_cases rfl hf
    let .cons hfc (.cons hfb .nil) := hcs
    exact .succ
      (.step (hloop hc hb (horderly.child rfl c (by simp)) (horderly.child rfl b (by simp))
      hfc hfb))
  | expression he => exact exec_expression heval he horderly hf
  | int hw => exact exec_expression heval (.int hw) horderly hf
  | lookup hx => exact exec_expression heval (.lookup hx) horderly hf
  | binary hl hr => exact exec_expression heval (.binary hl hr) horderly hf
  | not ht => exact exec_expression heval (.not ht) horderly hf
  | call hc hargs => exact exec_expression heval (.call hc hargs) horderly hf
  | function hps hb hsig => exact exec_expression heval (.function hps hb hsig) horderly hf

theorem loopFolds_succ (heval : EvalFolds P options options' fuel)
    (hexec : ExecFolds P options options' fuel) (hloop : LoopFolds P options options' fuel) :
    LoopFolds P options options' (fuel + 1) := by
  intro cond cond' body body' hc hb hco hbo hfc hfb
  refine .succ (.get fun m m' hm => ?_)
  rw [hm.returning]
  refine .ite (.pure ()) ((heval hc hco hfc).bind fun v => .ite ?_ (.pure ()))
  exact (Simulates.inScope (hexec hb hbo hfb)).bind fun _ => hloop hc hb hco hbo hfc hfb

/-- The run lemma: with any fuel, execution is simulated by that of the folded tree. -/
theorem folds (hdepth : options'.maxDepth = options.maxDepth) (fuel : Nat) :
    (∀ k ≤ fuel, EvalFolds P options options' k) ∧ ExecFolds P options options' fuel ∧
      LoopFolds P options options' fuel := by
  induction fuel with
  | zero =>
    refine ⟨fun k hk => ?_, ?_, ?_⟩
    · cases Nat.le_zero.mp hk
      intro t t' _ _ _
      exact .throw
    · intro role t t' _ _ _
      exact .throw
    · intro cond cond' body body' _ _ _ _ _ _
      exact .throw
  | succ fuel ih =>
    obtain ⟨heval, hexec, hloop⟩ := ih
    have hlast := heval fuel (Nat.le_refl fuel)
    refine ⟨fun k hk => ?_, execFolds_succ hlast hexec hloop, loopFolds_succ hlast hexec hloop⟩
    rcases Nat.le_succ_iff.mp hk with hk | rfl
    · exact heval k hk
    · exact evalFolds_succ hdepth heval hexec

/-- The closures of a run and of the run of the folded program. -/
def ClosuresFolded (m m' : Machine) : Prop :=
  m'.store.closures.size = m.store.closures.size ∧
  ∀ id c c', m.store.closure? id = some c → m'.store.closure? id = some c' →
    fold c.body = some c'.body ∧ fold c.node = some c'.node ∧
    c' = { c with body := c'.body, node := c'.node }

theorem globals_congr {m m' : Machine} (h : m'.store.scopes = m.store.scopes) :
    m'.globals = m.globals := by
  simp only [Machine.globals, Store.names, Store.binding?, h]

theorem corresponds_initial (R : Tree → Tree → Prop) : Corresponds R {} {} where
  scopes := rfl
  count := rfl
  closures id c c' hc _ := by simp [Store.closure?, Store.initial] at hc
  scope := rfl
  returning := rfl
  result := rfl
  depth := rfl
  out := rfl

/-- A run that ends without an error is one of the whole tree. -/
theorem runWith_ok {fuel : Nat} {prepared : Tree} {out : String}
    (hprepare : options.prepare t = some prepared) :
    runWith fuel options t {} = (⟨out, none⟩, m) ↔
      exec options fuel prepared {} = .ok () m ∧ Text.stripEnd m.out "\n" = out := by
  have hready : Machine.ready {} = {} := rfl
  simp only [runWith, hprepare, hready]
  cases hexec : exec options fuel prepared {} with
  | ok u m₁ =>
    constructor
    · intro h
      cases h
      exact ⟨rfl, rfl⟩
    · rintro ⟨⟨⟩, rfl⟩
      rfl
  | error e m₁ => cases e <;> simp

/-- A program whose chains are orderly and that ends without an error does so folded, too: it
prints the same and leaves the same globals. Folding may nest a term deeper in its chain, so that
the folded run can take more fuel. -/
theorem fold_preserves_run {src : String} (options : Options)
    (hparse : Grammar.parseProgram src = .ok t) (hchains : ChainsOrderly t) {fuel : Nat}
    {out : String} (hrun : runWith fuel { options with fold := false } t {} = (⟨out, none⟩, m)) :
    ∃ enough m', (∀ fuel', enough ≤ fuel' →
        runWith fuel' { options with fold := true } t {} = (⟨out, none⟩, m')) ∧
      m'.globals = m.globals ∧ ClosuresFolded m m' := by
  have hsorted : WellSorted (0 ≤ ·) .block t :=
    Grammar.sorted_of_read (Grammar.parseProgram_ok.mp hparse)
  obtain ⟨t', hf⟩ := Option.isSome_iff_exists.mp (fold_isSome hsorted)
  obtain ⟨hexec, rfl⟩ := (runWith_ok rfl).mp hrun
  have hfolds :
      ExecFolds (0 ≤ ·) { options with fold := false } { options with fold := true } fuel := by
    refine (folds ?_ fuel).2.1
    rfl
  have hsim := hfolds hsorted hchains hf
  obtain ⟨m', hm, enough, hsettles⟩ := hsim {} () m hexec {} (corresponds_initial _)
  refine ⟨enough, m', fun fuel' hfuel => ?_, globals_congr hm.scopes, hm.count, ?_⟩
  · have hprepare : Options.prepare { options with fold := true } t = some t' := hf
    exact (runWith_ok hprepare).mpr ⟨hsettles fuel' hfuel, by rw [hm.out]⟩
  · intro id c c' hc hc'
    have hrel := hm.closures id c c' hc hc'
    exact ⟨hrel.body.fold, hrel.node.fold, hrel.rest⟩

/-- A chain is orderly if its first term that is no literal is positive. -/
theorem orderly_of_head
    (h : (foldedTerms false t).all fun ts => (others ts).head?.all (!·.negative)) : Orderly t := by
  intro ts as u bs hts hsplit _ has hne
  obtain ⟨a, as, rfl⟩ := List.exists_cons_of_ne_nil hne
  simp [hts, hsplit, has a (by simp)] at h

/-- A function is made and called inside a chain, and its body holds another chain. -/
theorem fold_preserves_run_call :
    ∃ t out m enough m', Grammar.parseProgram "func(x)\x7bret 1+x+2;\x7d(4)-3;" = .ok t ∧
      ChainsOrderly t ∧
      runWith 20 {} t {} = (⟨out, none⟩, m) ∧
      (∀ fuel', enough ≤ fuel' → runWith fuel' { fold := true } t {} = (⟨out, none⟩, m')) ∧
      m'.globals = m.globals ∧ ClosuresFolded m m' := by
  have hcheck : (Grammar.parseProgram "func(x)\x7bret 1+x+2;\x7d(4)-3;").toOption.any (fun t =>
      t.visits.all (fun v => !isChain v.node ||
        (foldedTerms false v.node).all fun ts => (others ts).head?.all (!·.negative)) &&
      (runWith 20 {} t {}).1.stop.isNone) = true := by decide +kernel
  obtain ⟨t, hparse, hcheck⟩ := Grammar.exists_ok_of_any hcheck
  simp only [Bool.and_eq_true, List.all_eq_true] at hcheck
  obtain ⟨hall, hstop⟩ := hcheck
  have hchains : ChainsOrderly t := by
    intro v hv hchain _
    exact orderly_of_head (by simpa [hchain] using hall v hv)
  have hrun :
      runWith 20 {} t {} = (⟨(runWith 20 {} t {}).1.out, none⟩, (runWith 20 {} t {}).2) := by
    rw [← Option.isNone_iff_eq_none.mp hstop]
  obtain ⟨enough, m', hfolded, hrest⟩ := fold_preserves_run {} hparse hchains hrun
  exact ⟨t, _, _, enough, m', hparse, hchains, hrun, hfolded, hrest⟩

end ClosureLang.Fold
