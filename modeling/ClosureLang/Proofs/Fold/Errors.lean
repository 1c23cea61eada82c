import ClosureLang.Proofs.Fold.Operands
import ClosureLang.Proofs.Tree.Uses

/-! Folding preserves runs that fail. -/
namespace ClosureLang.Fold

open ClosureLang.Tree ClosureLang.Action

/-- Parts of programs that are placed, and what they are folded to. -/
abbrev Placeable : Tree → Tree → Prop := Folds fun _ => True

variable {options options' : Options} {run : Task} {t t' program : Tree} {m : Machine}
  {k fuel : Nat}

/-- Every failing evaluation that a run gets to fails folded, too. -/
def EvalBreaks (options options' : Options) (run : Task) (k : Nat) : Prop :=
  ∀ ⦃t t' m⦄, InPlace .expression t → ChainsTame options run t → fold t = some t' →
    Task.Reaches options run (.eval k t m) →
    Breaks Placeable (eval options k t) (fun n => eval options' n t') m

def ExecBreaks (options options' : Options) (run : Task) (k : Nat) : Prop :=
  ∀ ⦃role t t' m⦄, InPlace role t → ChainsTame options run t → fold t = some t' →
    Task.Reaches options run (.exec k t m) →
    Breaks Placeable (exec options k t) (fun n => exec options' n t') m

def LoopBreaks (options options' : Options) (run : Task) (k : Nat) : Prop :=
  ∀ ⦃cond cond' body body' m⦄, InPlace .expression cond → InPlace .block body →
    ChainsTame options run cond → ChainsTame options run body → fold cond = some cond' →
    fold body = some body' → Task.Reaches options run (.loop k cond body m) →
    Breaks Placeable (loop options k cond body) (fun n => loop options' n cond' body') m

/-- What a run does is about nodes of a program, whose chains are tame. -/
structure Within (options : Options) (run : Task) (program : Tree) : Prop where
  placed : ∀ τ, Task.Reaches options run τ → ∃ φ, Task.Placed (fun _ u => u ∈ program.nodes) φ τ
  tame : ChainsTame options run program

theorem breaks_eval {x : Action Value} {y : Nat → Action Value} {R : Tree → Tree → Prop}
    (hx : Evaluation options k t x) (hy : ∀ n, Evaluation options' n t' (y n))
    (h : Breaks R x y (m.within options "evaluate" t)) :
    Breaks R (eval options (k + 1) t) (fun n => eval options' n t') m := by
  refine .succ ?_
  simp only [hx.eq, (hy _).eq]
  exact .traced h

theorem breaks_exec {x : Action Unit} {y : Nat → Action Unit} {R : Tree → Tree → Prop}
    (hx : Execution options k t x) (hy : ∀ n, Execution options' n t' (y n))
    (h : Breaks R x y (m.within options "execute" t)) :
    Breaks R (exec options (k + 1) t) (fun n => exec options' n t') m := by
  refine .succ ?_
  simp only [hx.eq, (hy _).eq]
  exact .traced h

theorem Within.chainsTame {u : Tree} (h : Within options run program) (hu : u ∈ program.nodes)
    (hchain : isChain u = false) : ChainsTame options run u := by
  obtain ⟨q, hq⟩ := everywhere_of_mem_nodes program h.tame.below u hu
  exact everywhere_congr (fun _ hc => by simp [hchain] at hc) hq

theorem isChain_of_block (h : InPlace .block t) : isChain t = false := by
  cases h
  rfl

theorem mem_nodes_of_sited {Q : Role} {c : Context} (h : InPlace Q t)
    (hsited : Sited (fun _ u => u ∈ program.nodes) c t) : t ∈ program.nodes := by
  cases t with
  | absent =>
    cases h with
    | expression h => cases h
  | node l o cs => exact hsited.here

theorem Within.term (h : Within options run program) (hbreaks : EvalBreaks options options' run k)
    (hchain : isChain t = false) (hreach : Task.Reaches options run (.eval k t m))
    (hf : fold t = some t') :
    Breaks Placeable (eval options k t) (fun n => eval options' n t') m := by
  obtain ⟨φ, c, -, hplace, hsited⟩ := h.placed _ hreach
  exact hbreaks hplace (h.chainsTame (mem_nodes_of_sited hplace hsited) hchain) hf hreach

theorem breaks_product {op : BinaryOp} {o : Int} {lhs rhs : Tree}
    (heval : ∀ k, EvalFolds (fun _ => True) options options' k)
    (hbreaks : EvalBreaks options options' run k) (hop : op.isAdditive = false)
    (hl : InPlace .expression lhs) (hr : InPlace .expression rhs)
    (htame : ChainsTame options run (binary op o lhs rhs))
    (hf : fold (binary op o lhs rhs) = some t')
    (hreach : Task.Reaches options run (.eval (k + 1) (binary op o lhs rhs) m)) :
    Breaks Placeable (eval options (k + 1) (binary op o lhs rhs))
      (fun n => eval options' n t') m := by
  have hterms : foldedTerms false (binary op o lhs rhs) = some [⟨t', false⟩] := by
    have hne : binary op o lhs rhs ≠ .absent := nofun
    rw [foldedTerms_of_not_chain hne hop, hf, Option.map_some]
  obtain ⟨lhs', rhs', hlf, hrf, rfl⟩ := fold_binary hop hf
  have hlt : ChainsTame options run lhs := htame.child hop lhs (by simp)
  have hrt : ChainsTame options run rhs := htame.child hop rhs (by simp)
  obtain hsame | ⟨_, _, w, -, -, -, hint⟩ := foldProduct_cases op o lhs' rhs'
  · rw [hsame]
    refine breaks_eval .binary (fun _ => .binary) ?_
    refine .bind (heval k hl hlt.orderly hlf) (hbreaks hl hlt hlf (hreach.tail (.operand rfl)))
      fun a n₁ ha => ?_
    exact .bind (heval k hr hrt.orderly hrf) (hbreaks hr hrt hrf (hreach.tail (.right ha)))
        fun b n₂ _ =>
      .operate
  · intro c node m₁ hfail m' hm
    refine absurd hfail
      (unfailing_of_literals heval (.binary hl hr) htame.orderly.below hterms ?_ hm)
    simp [hint, Term.isLiteral, int, value?]

theorem breaks_evalAll {ts ts' : List Tree}
    (heval : ∀ k, EvalFolds (fun _ => True) options options' k)
    (hbreaks : EvalBreaks options options' run k) (hts : ∀ t ∈ ts, InPlace .expression t)
    (htame : ∀ t ∈ ts, ChainsTame options run t)
    (hf : List.Forall₂ (fun t t' => fold t = some t') ts ts')
    (hreach : Task.Reaches options run (.evalAll k ts m)) :
    Breaks Placeable (evalAll (eval options k) ts) (fun n => evalAll (eval options' n) ts') m := by
  induction hf generalizing m with
  | nil => exact .pure []
  | @cons t t' ts ts' ht hrest ih =>
    rw [List.forall_mem_cons] at hts htame
    refine .bind (heval k hts.1 htame.1.orderly ht)
      (hbreaks hts.1 htame.1 ht (hreach.tail .argument)) fun v m₁ hv => ?_
    have hmem := (List.forall₂_and_left ts ts').mpr ⟨fun t (ht : t ∈ ts) => ht, hrest⟩
    have hlater : Simulates Placeable (evalAll (eval options k) ts) fun n =>
        evalAll (eval options' n) ts' :=
      .evalAll (hmem.imp fun t t' h => heval k (hts.2 t h.1) (htame.2 t h.1).orderly h.2)
    exact .bind hlater (ih hts.2 htame.2 (hreach.tail (.laterArguments hv))) fun vs m₂ _ => .pure _

theorem breaks_call {o o' : Int} {callee : Tree} {args : List Tree}
    (hrun : Within options run program) (hdepth : options'.maxDepth = options.maxDepth)
    (heval : ∀ k, EvalFolds (fun _ => True) options options' k)
    (hbreaks : EvalBreaks options options' run k) (hexec : ExecBreaks options options' run k)
    (hc : InPlace .expression callee) (hargs : ∀ t ∈ args, InPlace .expression t)
    (htame : ChainsTame options run (form .call o [callee, form .arguments o' args]))
    (hf : fold (form .call o [callee, form .arguments o' args]) = some t')
    (hreach : Task.Reaches options run
      (.eval (k + 1) (form .call o [callee, form .arguments o' args]) m)) :
    Breaks Placeable (eval options (k + 1) (form .call o [callee, form .arguments o' args]))
      (fun n => eval options' n t') m := by
  obtain ⟨_, hcs, rfl⟩ := fold_form_cases rfl hf
  let .cons hcallee (.cons harguments .nil) := hcs
  obtain ⟨args', hargs', rfl⟩ := fold_form_cases rfl harguments
  have hct : ChainsTame options run callee := htame.child rfl callee (by simp)
  have hat : ∀ t ∈ args, ChainsTame options run t :=
    (htame.child rfl (form .arguments o' args) (by simp)).child rfl
  refine breaks_eval .call (fun _ => .call) ?_
  refine .bind (heval k hc hct.orderly hcallee)
    (hbreaks hc hct hcallee (hreach.tail (.operand rfl)))
    fun v n₁ hv => .callee fun id f f' hcalled hrel => ?_
  have hmem := (List.forall₂_and_left args args').mpr ⟨fun t (ht : t ∈ args) => ht, hargs'⟩
  have hsims : Simulates Placeable (evalAll (eval options k) args) fun n =>
      evalAll (eval options' n) args' :=
    .evalAll (hmem.imp fun t t' h => heval k (hargs t h.1) (hat t h.1).orderly h.2)
  refine .bind hsims
    (breaks_evalAll heval hbreaks hargs hat hargs' (hreach.tail (.arguments hv hcalled rfl)))
    fun vs n₂ hvs => ?_
  refine .bind (.checkCall hdepth hrel vs) (.checkCall hdepth hrel vs) fun _ n₃ hcheck =>
    .enterCall hrel vs ?_
  -- the body is that of a closure in the store, so that it is a block of the program
  obtain ⟨φ, c, hscoped, -⟩ := hrun.placed _ (hreach.tail (.arguments hv hcalled rfl))
  obtain ⟨-, hclosure⟩ := Task.onStore_calleeAt_ok hcalled
  obtain ⟨hplace, hsited⟩ := hscoped.typed.bodies id f hclosure
  exact hexec hplace (hrun.chainsTame (mem_nodes_of_sited hplace hsited) (isChain_of_block hplace))
    hrel.body.fold
    (hreach.tail (.body hv hcalled hvs hcheck))

/-- The step lemma of evaluation. -/
theorem evalBreaks_succ (hrun : Within options run program)
    (hdepth : options'.maxDepth = options.maxDepth)
    (heval : ∀ k, EvalFolds (fun _ => True) options options' k)
    (hbreaks : ∀ k ≤ fuel, EvalBreaks options options' run k)
    (hexec : ExecBreaks options options' run fuel) :
    EvalBreaks options options' run (fuel + 1) := by
  intro t t' m hplace htame hf hreach
  have hlast := hbreaks fuel (Nat.le_refl fuel)
  cases hplace with
  | @int o w hw =>
    cases hf
    exact breaks_eval .integer (fun _ => .integer) (.pure _)
  | @lookup o x hx =>
    rw [fold_leaves rfl (by simpa using hx.leaf)] at hf
    cases hf
    exact breaks_eval .lookup (fun _ => .lookup) (.lookup rfl)
  | @binary op o lhs rhs hl hr =>
    cases hop : op.isAdditive with
    | false => exact breaks_product heval hlast hop hl hr htame hf hreach
    | true =>
      exact breaks_chain heval
        (fun k hk t t' m hchain hreach hf => hrun.term (hbreaks k hk) hchain hreach hf)
        hop (.binary hl hr) htame hreach hf
  | @not o e he =>
    obtain ⟨_, hcs, rfl⟩ := fold_form_cases rfl hf
    let .cons hfe .nil := hcs
    have het : ChainsTame options run e := htame.child rfl e (by simp)
    refine breaks_eval .not (fun _ => .not) ?_
    exact .bind (heval fuel he het.orderly hfe) (hlast he het hfe (hreach.tail (.operand rfl)))
      fun v n₁ _ => .pure _
  | call hc hargs => exact breaks_call hrun hdepth heval hlast hexec hc hargs htame hf hreach
  | @function o o' params body sig hparams hbody hsig =>
    obtain ⟨body', hb, rfl⟩ := fold_function hparams hsig hf
    refine breaks_eval .function (fun _ => .function) (.function ?_ ?_) <;> rfl

theorem breaks_execAll {ts ts' : List Tree}
    (hexec : ∀ k, ExecFolds (fun _ => True) options options' k)
    (hbreaks : ExecBreaks options options' run k) (hts : ∀ t ∈ ts, InPlace .statement t)
    (htame : ∀ t ∈ ts, ChainsTame options run t)
    (hf : List.Forall₂ (fun t t' => fold t = some t') ts ts')
    (hreach : Task.Reaches options run (.execAll k ts m)) :
    Breaks Placeable (execAll (exec options k) ts) (fun n => execAll (exec options' n) ts') m := by
  induction hf generalizing m with
  | nil => exact .pure ()
  | @cons t t' ts ts' ht hrest ih =>
    rw [List.forall_mem_cons] at hts htame
    refine .get fun m' hm => ?_
    rw [hm.returning]
    refine .ite (fun _ => .pure ()) fun hreturning => ?_
    rw [Bool.not_eq_true] at hreturning
    exact .bind (hexec k hts.1 htame.1.orderly ht)
      (hbreaks hts.1 htame.1 ht (hreach.tail (.statement hreturning)))
      fun _ m₁ hok => ih hts.2 htame.2 (hreach.tail (.laterStatements hreturning hok))

theorem loopBreaks_succ (heval : ∀ k, EvalFolds (fun _ => True) options options' k)
    (hexec : ∀ k, ExecFolds (fun _ => True) options options' k)
    (hbreaks : EvalBreaks options options' run fuel) (hbody : ExecBreaks options options' run fuel)
    (hloop : LoopBreaks options options' run fuel) :
    LoopBreaks options options' run (fuel + 1) := by
  intro cond cond' body body' m hc hb hct hbt hfc hfb hreach
  refine .succ (.get fun m' hm => ?_)
  rw [hm.returning]
  refine .ite (fun _ => .pure ()) fun hreturning => ?_
  rw [Bool.not_eq_true] at hreturning
  refine .bind (heval fuel hc hct.orderly hfc)
    (hbreaks hc hct hfc (hreach.tail (.condition hreturning)))
    fun v m₁ hv => .ite (fun htruthy => ?_) fun _ => .pure ()
  refine .bind (.inScope (hexec fuel hb hbt.orderly hfb))
    (.inScope (hbody hb hbt hfb (hreach.tail (.iteration hreturning hv htruthy))))
    fun _ m₂ hrun => ?_
  exact hloop hc hb hct hbt hfc hfb (hreach.tail (.again hreturning hv htruthy hrun))

theorem breaks_expression (heval : ∀ k, EvalFolds (fun _ => True) options options' k)
    (hbreaks : EvalBreaks options options' run k) (hplace : InPlace .expression t)
    (htame : ChainsTame options run t) (hf : fold t = some t')
    (hreach : Task.Reaches options run (.exec (k + 1) t m)) :
    Breaks Placeable (exec options (k + 1) t) (fun n => exec options' n t') m := by
  have hexecution : ∀ {options : Options} {t : Tree}, InPlace .expression t → ∀ n,
      Execution options n t (discard (eval options n t)) := by
    intro options t h n
    cases h <;> exact .expression rfl rfl
  have hstart :
      Task.Starts options (.exec (k + 1) t m) (.eval k t (m.within options "execute" t)) := by
    cases hplace <;> exact .expression rfl rfl
  refine breaks_exec (hexecution hplace k) (hexecution (inPlace_of_fold hplace hf)) ?_
  exact .bind (heval k hplace htame.orderly hf) (hbreaks hplace htame hf (hreach.tail hstart))
    fun _ _ _ => .pure _

/-- The step lemma of execution. -/
theorem execBreaks_succ (heval : ∀ k, EvalFolds (fun _ => True) options options' k)
    (hexec : ∀ k, ExecFolds (fun _ => True) options options' k)
    (hbreaks : EvalBreaks options options' run fuel) (hbody : ExecBreaks options options' run fuel)
    (hloop : LoopBreaks options options' run fuel) :
    ExecBreaks options options' run (fuel + 1) := by
  intro role t t' m hplace htame hf hreach
  cases hplace with
  | @block o ts hts =>
    obtain ⟨ts', hcs, rfl⟩ := fold_form_cases rfl hf
    refine breaks_exec .sequence (fun _ => .sequence) ?_
    exact breaks_execAll hexec hbody hts (htame.child rfl) hcs (hreach.tail .statements)
  | @ret o e he =>
    obtain ⟨_, hcs, rfl⟩ := fold_form_cases rfl hf
    let .cons hfe .nil := hcs
    have het : ChainsTame options run e := htame.child rfl e (by simp)
    refine breaks_exec .ret (fun _ => .ret) (.get fun m' hm => ?_)
    rw [hm.depth]
    refine .ite (fun _ => .raise) fun hdepth => ?_
    exact .bind (heval fuel he het.orderly hfe)
      (hbreaks he het hfe (hreach.tail (.result (by simpa using hdepth)))) fun v m₁ _ => nofun
  | @print o e he =>
    obtain ⟨_, hcs, rfl⟩ := fold_form_cases rfl hf
    let .cons hfe .nil := hcs
    have het : ChainsTame options run e := htame.child rfl e (by simp)
    refine breaks_exec .print (fun _ => .print) ?_
    exact .bind (heval fuel he het.orderly hfe) (hbreaks he het hfe (hreach.tail (.subject rfl)))
      fun v m₁ _ => nofun
  | @declare o x e type hx he htype hlen =>
    obtain ⟨e', hfe, rfl⟩ := fold_declare hx htype hf
    have het : ChainsTame options run e := htame.child rfl e (by simp)
    refine breaks_exec .declare (fun _ => .declare) ?_
    refine .bind (heval fuel he het.orderly hfe) (hbreaks he het hfe (hreach.tail (.subject rfl)))
      fun v m₁ _ => .declare ?_ v
    rfl
  | @assign o o' x e hx he =>
    obtain ⟨_, hcs, rfl⟩ := fold_form_cases rfl hf
    let .cons hloc (.cons hfe .nil) := hcs
    rw [fold_leaves rfl (by simpa using hx.leaf)] at hloc
    cases hloc
    have het : ChainsTame options run e := htame.child rfl e (by simp)
    refine breaks_exec .assign (fun _ => .assign) ?_
    exact .bind (heval fuel he het.orderly hfe) (hbreaks he het hfe (hreach.tail (.subject rfl)))
      fun v m₁ _ => .bind (.locate _) .locate fun _ _ _ => nofun
  | @ifThen o c b hc hb =>
    obtain ⟨_, hcs, rfl⟩ := fold_form_cases rfl hf
    let .cons hfc (.cons hfb .nil) := hcs
    have hct : ChainsTame options run c := htame.child rfl c (by simp)
    have hbt : ChainsTame options run b := htame.child rfl b (by simp)
    refine breaks_exec .ifThen (fun _ => .ifThen) ?_
    refine .bind (heval fuel hc hct.orderly hfc) (hbreaks hc hct hfc (hreach.tail (.subject rfl)))
      fun v m₁ hv => .ite (fun htruthy => ?_) fun _ => .pure ()
    exact .inScope (hbody hb hbt hfb (hreach.tail (.branch hv htruthy)))
  | @ifElse o c b a hc hb ha =>
    obtain ⟨_, hcs, rfl⟩ := fold_form_cases rfl hf
    let .cons hfc (.cons hfb (.cons hfa .nil)) := hcs
    have hct : ChainsTame options run c := htame.child rfl c (by simp)
    have hbt : ChainsTame options run b := htame.child rfl b (by simp)
    have hat : ChainsTame options run a := htame.child rfl a (by simp)
    refine breaks_exec .ifElse (fun _ => .ifElse) ?_
    refine .bind (heval fuel hc hct.orderly hfc) (hbreaks hc hct hfc (hreach.tail (.subject rfl)))
      fun v m₁ hv => ?_
    have hbranch := hreach.tail (.alternative hv)
    refine .ite (fun htruthy => ?_) fun htruthy => ?_
    · rw [if_pos htruthy] at hbranch
      exact .inScope (hbody hb hbt hfb hbranch)
    · rw [if_neg htruthy] at hbranch
      exact .inScope (hbody ha hat hfa hbranch)
  | @whileDo o c b hc hb =>
    obtain ⟨_, hcs, rfl⟩ := fold_form_cases rfl hf
    let .cons hfc (.cons hfb .nil) := hcs
    refine breaks_exec .whileDo (fun _ => .whileDo) ?_
    exact hloop hc hb (htame.child rfl c (by simp)) (htame.child rfl b (by simp)) hfc hfb
      (hreach.tail .repetition)
  | expression he => exact breaks_expression heval hbreaks he htame hf hreach
  | int hw => exact breaks_expression heval hbreaks (.int hw) htame hf hreach
  | lookup hx => exact breaks_expression heval hbreaks (.lookup hx) htame hf hreach
  | binary hl hr => exact breaks_expression heval hbreaks (.binary hl hr) htame hf hreach
  | not ht => exact breaks_expression heval hbreaks (.not ht) htame hf hreach
  | call hc hargs => exact breaks_expression heval hbreaks (.call hc hargs) htame hf hreach
  | function hps hb hsig =>
    exact breaks_expression heval hbreaks (.function hps hb hsig) htame hf hreach

/-- The run lemma: with any fuel, what fails in a run fails in the run of the folded program. -/
theorem breaks (hrun : Within options run program) (hdepth : options'.maxDepth = options.maxDepth)
    (fuel : Nat) :
    (∀ k ≤ fuel, EvalBreaks options options' run k) ∧ ExecBreaks options options' run fuel ∧
      LoopBreaks options options' run fuel := by
  have heval : ∀ k, EvalFolds (fun _ => True) options options' k := fun k =>
    (folds hdepth k).1 k (Nat.le_refl k)
  have hexec : ∀ k, ExecFolds (fun _ => True) options options' k := fun k => (folds hdepth k).2.1
  induction fuel with
  | zero =>
    refine ⟨fun k hk => ?_, ?_, ?_⟩
    · cases Nat.le_zero.mp hk
      intro t t' m _ _ _ _
      exact nofun
    · intro role t t' m _ _ _ _
      exact nofun
    · intro cond cond' body body' m _ _ _ _ _ _ _
      exact nofun
  | succ fuel ih =>
    obtain ⟨hbreaks, hbody, hloop⟩ := ih
    have hlast := hbreaks fuel (Nat.le_refl fuel)
    refine ⟨fun k hk => ?_, execBreaks_succ heval hexec hlast hbody hloop,
      loopBreaks_succ heval hexec hlast hbody hloop⟩
    rcases Nat.le_succ_iff.mp hk with hk | rfl
    · exact hbreaks k hk
    · exact evalBreaks_succ hrun hdepth heval hbreaks hbody

/-- A run that fails with a condition is one of the whole tree. -/
theorem runWith_condition {prepared node : Tree} {c : Condition} {out : String}
    (hprepare : options.prepare t = some prepared) :
    runWith fuel options t {} = (⟨out, some (.condition c node)⟩, m) ↔
      exec options fuel prepared {} = .error (.condition c node) m ∧
      Text.stripEnd m.out "\n" = out := by
  have hready : Machine.ready {} = {} := rfl
  simp only [runWith, hprepare, hready]
  cases hexec : exec options fuel prepared {} with
  | ok u m₁ => simp
  | error s m₁ =>
    cases s with
    | condition d u =>
      constructor
      · intro h
        cases h
        exact ⟨rfl, rfl⟩
      · rintro ⟨⟨⟩, rfl⟩
        rfl
    | _ => simp

/-- A program whose chains are tame and that fails with a condition does so folded, too, with the
same output. -/
theorem fold_preserves_error {src : String} (options : Options)
    (hparse : Grammar.parseProgram src = .ok t) {c : Condition} {node : Tree} {out : String}
    (hrun : runWith fuel { options with fold := false } t {} = (⟨out, some (.condition c node)⟩, m))
    (hchains : ChainsTame { options with fold := false } (.exec fuel t {}) t) :
    ∃ enough, ∀ fuel', enough ≤ fuel' → ∃ node' m',
      runWith fuel' { options with fold := true } t {} =
        (⟨out, some (.condition c node')⟩, m') := by
  have hplace : InPlace .block t :=
    (Grammar.sorted_of_read (Grammar.parseProgram_ok.mp hparse)).inPlace
  obtain ⟨t', hf⟩ := Option.isSome_iff_exists.mp (fold_isSome hplace)
  obtain ⟨hexec, rfl⟩ := (runWith_condition rfl).mp hrun
  have hwithin : Within { options with fold := false } (.exec fuel t {}) t := by
    refine ⟨fun τ hreach => ?_, hchains⟩
    have hnodes : Sited (fun _ u => u ∈ t.nodes) (.program t) t := by
      intro s hs
      rw [← map_snd_sites (.program t) t]
      exact List.mem_map_of_mem hs
    obtain ⟨φ, hplaced⟩ := Task.placed_program hplace hnodes fuel
    exact Task.placed_of_reaches hplaced hreach
  have hbreaks : ExecBreaks { options with fold := false } { options with fold := true }
      (.exec fuel t {}) fuel := by
    refine (breaks hwithin ?_ fuel).2.1
    rfl
  obtain ⟨enough, hfails⟩ :=
    hbreaks hplace hchains hf .refl c node m hexec {} (corresponds_initial _)
  refine ⟨enough, fun fuel' hfuel => ?_⟩
  obtain ⟨node', m', hexec', hout⟩ := hfails fuel' hfuel
  have hprepare : Options.prepare { options with fold := true } t = some t' := hf
  exact ⟨node', m', (runWith_condition hprepare).mpr ⟨hexec', by rw [hout]⟩⟩

/-- A chain is tame if its first term that is no literal is positive and folding changes no
waiting. -/
theorem tame_of_waits {options : Options} {run : Task}
    (h : (foldedTerms false t).all fun ts => (others ts).head?.all (!·.negative) &&
      decide ((operands t).map (fun o => some o.wait) = delays ts)) : Tame options run t where
  orderly := by
    refine orderly_of_head ?_
    cases hts : foldedTerms false t with
    | none => rfl
    | some ts => simp_all
  agreeable := by
    intro ts as u bs hts hothers hu has hne
    obtain ⟨a, as, rfl⟩ := List.exists_cons_of_ne_nil hne
    simp [hts, hothers, has a (by simp)] at h
  timely := by
    intro ts hts x hx _
    simp only [hts, Option.all_some, Bool.and_eq_true, decide_eq_true_eq] at h
    have hzip : (operands t).zip (delays ts) = (operands t).map fun o => (o, some o.wait) := by
      rw [← h.2]
      have hmap : ((operands t).map id).zip ((operands t).map fun o => some o.wait) =
          (operands t).map fun o => (o, some o.wait) := List.zip_map'
      rwa [List.map_id] at hmap
    rw [hzip] at hx
    obtain ⟨o, -, rfl⟩ := List.mem_map.mp hx
    rfl

/-- A function is called in front of an undefined variable; the zero at the end is dropped. -/
theorem fold_preserves_error_undefined :
    ∃ t c node m enough, Grammar.parseProgram "var g=func()\x7bprint 7;\x7d;g()+h+0;" = .ok t ∧
      runWith 20 {} t {} = (⟨"7", some (.condition c node)⟩, m) ∧
      ChainsTame {} (.exec 20 t {}) t ∧
      ∀ fuel', enough ≤ fuel' → ∃ node' m',
        runWith fuel' { fold := true } t {} = (⟨"7", some (.condition c node')⟩, m') := by
  have hcheck : (Grammar.parseProgram "var g=func()\x7bprint 7;\x7d;g()+h+0;").toOption.any
      (fun t => t.visits.all (fun v => !isChain v.node || (foldedTerms false v.node).all fun ts =>
          (others ts).head?.all (!·.negative) &&
            decide ((operands v.node).map (fun o => some o.wait) = delays ts)) &&
        decide ((runWith 20 {} t {}).1.out = "7") && (runWith 20 {} t {}).1.condition?.isSome) =
          true := by decide +kernel
  obtain ⟨t, hparse, hcheck⟩ := Grammar.exists_ok_of_any hcheck
  simp only [Bool.and_eq_true, List.all_eq_true,
    decide_eq_true_eq] at hcheck
  obtain ⟨⟨hall, hout⟩, hstop⟩ := hcheck
  have htame : ChainsTame {} (.exec 20 t {}) t := by
    intro v hv hchain _
    exact tame_of_waits (by simpa [hchain] using hall v hv)
  obtain ⟨c, hc⟩ := Option.isSome_iff_exists.mp hstop
  obtain ⟨node, hcondition⟩ := Output.stop_of_condition? hc
  have hrun : runWith 20 {} t {} = (⟨"7", some (.condition c node)⟩, (runWith 20 {} t {}).2) := by
    rw [← hout, ← hcondition]
  obtain ⟨enough, hfolded⟩ := fold_preserves_error {} hparse hrun htame
  exact ⟨t, c, node, _, enough, hparse, hrun, htame, hfolded⟩

/-- A zero is dropped, and with it the failure of adding it to a function. -/
theorem fold_hides_error :
    ∃ t node, Grammar.parseProgram "var f=func()\x7b\x7d;f+0;" = .ok t ∧
      (ClosureLang.run {} t {}).1 = ⟨"", some (.condition .mathOnFunction node)⟩ ∧
      (ClosureLang.run { fold := true } t {}).1 = ⟨"", none⟩ := by
  have hcheck : (Grammar.parseProgram "var f=func()\x7b\x7d;f+0;").toOption.any (fun t =>
      decide ((ClosureLang.run {} t {}).1.out = "") &&
      decide ((ClosureLang.run {} t {}).1.condition? = some .mathOnFunction) &&
      decide ((ClosureLang.run { fold := true } t {}).1.out = "") &&
        (ClosureLang.run { fold := true } t {}).1.stop.isNone) = true := by
    decide +kernel
  obtain ⟨t, hparse, hcheck⟩ := Grammar.exists_ok_of_any hcheck
  simp only [Bool.and_eq_true, decide_eq_true_eq,
    Option.isNone_iff_eq_none] at hcheck
  obtain ⟨⟨⟨hout, hstop⟩, hout'⟩, hstop'⟩ := hcheck
  obtain ⟨node, hcondition⟩ := Output.stop_of_condition? hstop
  have houtput : ∀ (o : Output) s, o.out = "" → o.stop = s → o = ⟨"", s⟩ := by
    rintro ⟨_, _⟩ _ rfl rfl
    rfl
  exact ⟨t, node, hparse, houtput _ _ hout hcondition, houtput _ _ hout' hstop'⟩

end ClosureLang.Fold
