import ClosureLang.Proofs.Fold.Shapes
import ClosureLang.Proofs.Run.Requests
import ClosureLang.Proofs.Run.Safety

/-! Whatever the outcome of a valid tree, no node is missing while it runs. -/
namespace ClosureLang

open ClosureLang.Action ClosureLang.Tree

/-- The run did not stop for want of a node. -/
def Stop.Supplied (s : Stop) : Prop := s ≠ .absentNode

section Steps

variable {options : Options} {fuel : Nat} {m : Machine}

theorem supplied_condition (c : Condition) (node : Tree) :
    Stop.Supplied (.condition c node) := nofun

def EvalSupplied (options : Options) (fuel : Nat) : Prop :=
  ∀ ⦃t⦄, Whole t → ∀ m, m.Sound Whole → Safe Whole Stop.Supplied (eval options fuel t) m Value.Below

def ExecSupplied (options : Options) (fuel : Nat) : Prop :=
  ∀ ⦃t⦄, Whole t → ∀ m, m.Sound Whole →
    Safe Whole Stop.Supplied (exec options fuel t) m fun _ _ => True

def LoopSupplied (options : Options) (fuel : Nat) : Prop :=
  ∀ ⦃cond body⦄, Whole cond → Whole body → ∀ m, m.Sound Whole →
    Safe Whole Stop.Supplied (loop options fuel cond body) m fun _ _ => True

theorem evalSupplied_succ (heval : EvalSupplied options fuel) (hexec : ExecSupplied options fuel) :
    EvalSupplied options (fuel + 1) := by
  intro t ht m hm
  obtain ⟨x, hx, heq⟩ := eval_succ options fuel t
  rw [heq]
  refine .traced (fun n hn => ?_) hm
  cases hx with
  | absent => exact nomatch ht.present
  | other => exact .throw hn nofun
  | integer => exact .pure hn trivial
  | lookup =>
    cases ht.shape with
    | lookup => exact .lookup hn rfl (supplied_condition _ _)
  | @binary op o cs =>
    have hparts := (whole_form_iff.mp ht).2
    cases ht.shape with
    | @binary _ lhs rhs =>
      exact (heval (hparts lhs (by simp)) n hn).bind fun v m₁ hm₁ _ =>
        (heval (hparts rhs (by simp)) m₁ hm₁.sound).bind fun w m₂ hm₂ _ =>
          .operate hm₂.sound fun c _ => supplied_condition c _
  | not =>
    have hparts := (whole_form_iff.mp ht).2
    cases ht.shape with
    | @not t =>
      exact (heval (hparts t (by simp)) n hn).bind fun v m₁ hm₁ _ => .pure hm₁.sound trivial
  | function =>
    have hparts := (whole_form_iff.mp ht).2
    cases ht.shape with
    | @function o o' params ts sig hparams hsig =>
      refine .makeClosure hn ?_ (supplied_condition _ _)
      refine (ofNode?_function _ o _ n.scope hparams hsig).imp_left fun ⟨c, hc, hnode⟩ => ?_
      exact ⟨c, hc ▸ hparts (form .sequence o' ts) (by simp), hnode⟩
  | call =>
    have hparts := (whole_form_iff.mp ht).2
    cases ht.shape with
    | @call callee o args =>
      have hargs : ∀ t ∈ args, Whole t :=
        (whole_form_iff.mp (hparts (form .arguments o args) (by simp))).2
      refine (heval (hparts callee (by simp)) n hn).bind fun v m₁ hm₁ hv => ?_
      refine (Safe.calleeOf hm₁.sound hv (supplied_condition _ _)).bind
        fun callee m₂ hm₂ hbody => ?_
      refine Safe.bind (.evalArguments hm₂.sound rfl fun t h => heval (hargs t h))
        fun vs m₃ hm₃ hvs => ?_
      refine (Safe.checkCall hm₃.sound (fun c _ => supplied_condition c _)
        fun _ => supplied_condition _ _).bind fun _ m₄ hm₄ _ => ?_
      exact .enterCall hm₄.sound (fun v hv => (hvs v hv).mono hm₄.count) (hexec hbody)

theorem execSupplied_succ (heval : EvalSupplied options fuel) (hexec : ExecSupplied options fuel)
    (hloop : LoopSupplied options fuel) : ExecSupplied options (fuel + 1) := by
  intro t ht m hm
  obtain ⟨x, hx, heq⟩ := exec_succ options fuel t
  rw [heq]
  refine .traced (fun n hn => ?_) hm
  cases hx with
  | absent => exact nomatch ht.present
  | fragment => exact .throw hn nofun
  | expression => exact (heval ht n hn).bind fun _ m₁ hm₁ _ => .pure hm₁.sound trivial
  | sequence => exact .execAll hn fun t h => hexec ((whole_form_iff.mp ht).2 t h)
  | declare =>
    have hparts := (whole_form_iff.mp ht).2
    cases ht.shape with
    | @declare o x value type =>
      exact (heval (hparts value (by simp)) n hn).bind fun v m₁ hm₁ hv =>
        .declare hm₁.sound rfl hv (supplied_condition _ _)
  | assign =>
    have hparts := (whole_form_iff.mp ht).2
    cases ht.shape with
    | @assign o o' x value =>
      exact (heval (hparts value (by simp)) n hn).bind fun v m₁ hm₁ hv =>
        (Safe.locate hm₁.sound rfl (supplied_condition _ _)).bind fun target m₂ hm₂ _ =>
          .assign hm₂.sound (hv.mono hm₂.count)
  | print =>
    have hparts := (whole_form_iff.mp ht).2
    cases ht.shape with
    | @print t =>
      exact (heval (hparts t (by simp)) n hn).bind fun v m₁ hm₁ _ => .printLine hm₁.sound
  | ifThen =>
    have hparts := (whole_form_iff.mp ht).2
    cases ht.shape with
    | @ifThen cond o ts =>
      exact (heval (hparts cond (by simp)) n hn).bind fun v m₁ hm₁ _ =>
        .ite (fun _ => .inScope (hexec (hparts (form .sequence o ts) (by simp))) hm₁.sound)
          fun _ => .pure hm₁.sound trivial
  | ifElse =>
    have hparts := (whole_form_iff.mp ht).2
    cases ht.shape with
    | @ifElse cond o ts o' us =>
      exact (heval (hparts cond (by simp)) n hn).bind fun v m₁ hm₁ _ =>
        .ite (fun _ => .inScope (hexec (hparts (form .sequence o ts) (by simp))) hm₁.sound)
          fun _ => .inScope (hexec (hparts (form .sequence o' us) (by simp))) hm₁.sound
  | whileDo =>
    have hparts := (whole_form_iff.mp ht).2
    cases ht.shape with
    | @whileDo cond o ts =>
      exact hloop (hparts cond (by simp)) (hparts (form .sequence o ts) (by simp)) n hn
  | ret =>
    have hparts := (whole_form_iff.mp ht).2
    cases ht.shape with
    | @ret t =>
      refine .get (.ite (fun _ => .throw hn (supplied_condition _ _)) fun _ => ?_)
      exact (heval (hparts t (by simp)) n hn).bind fun v m₁ hm₁ hv => .setOut hm₁.sound hv

theorem loopSupplied_succ (heval : EvalSupplied options fuel) (hexec : ExecSupplied options fuel)
    (hloop : LoopSupplied options fuel) : LoopSupplied options (fuel + 1) := by
  intro cond body hc hb m hm
  refine .get (.ite (fun _ => .pure hm trivial) fun _ => ?_)
  refine (heval hc m hm).bind fun v m₁ hm₁ _ => .ite (fun _ => ?_) fun _ => .pure hm₁.sound trivial
  exact (Safe.inScope (hexec hb) hm₁.sound).bind fun _ m₂ hm₂ _ => hloop hc hb m₂ hm₂.sound

/-- The run lemma: the machine stays sound, and no node is missing. -/
theorem supplied (options : Options) (fuel : Nat) :
    EvalSupplied options fuel ∧ ExecSupplied options fuel ∧ LoopSupplied options fuel := by
  induction fuel with
  | zero =>
    exact ⟨fun _ _ _ hm => .throw hm nofun, fun _ _ _ hm => .throw hm nofun,
      fun _ _ _ _ _ hm => .throw hm nofun⟩
  | succ fuel ih =>
    obtain ⟨heval, hexec, hloop⟩ := ih
    exact ⟨evalSupplied_succ heval hexec, execSupplied_succ heval hexec hloop,
      loopSupplied_succ heval hexec hloop⟩

end Steps

section Requests

variable {options : Options} {t : Tree} {m : Machine}

theorem supplied_locate (ht : Whole t) (hm : m.Sound Whole) :
    Safe Whole Stop.Supplied (locate options t) m fun _ _ => True := by
  match t, ht with
  | absent, ht => exact nomatch ht.present
  | node l o cs, ht =>
    by_cases hl : l = .form .varLoc
    · subst hl
      cases Whole.shape ht with
      | varLoc => exact .locate hm rfl (supplied_condition _ _)
    · rw [locate_eq]
      refine (Safe.traceStep hm).bind fun _ m₁ hm₁ _ =>
        .onStore hm₁.sound (fun target s h => ?_) fun s h => ?_
      · rw [locateAt_eq_ok h]
        exact ⟨hm₁.sound.store, Nat.le_refl _, trivial⟩
      · unfold locateAt at h
        split at h
        · contradiction
        · rename_i hnode
          cases hnode
          exact absurd rfl hl
        · cases h
          exact nofun

theorem Store.Sound.ready (h : m.store.Sound Whole) : m.ready.Sound Whole := ⟨h, trivial⟩

/-- Folded or not, a valid tree is run, and what is run is valid. -/
theorem Options.prepare_of_whole (options : Options) (ht : Whole t) :
    ∃ t', options.prepare t = some t' ∧ Whole t' := by
  unfold Options.prepare
  split
  · exact Fold.exists_whole_fold ht
  · exact ⟨t, rfl, ht⟩

theorem supplied_runWith (fuel : Nat) (options : Options) (ht : Whole t)
    (hm : m.store.Sound Whole) :
    (runWith fuel options t m).2.store.Sound Whole ∧
      (runWith fuel options t m).1.stop ≠ some .absentNode := by
  obtain ⟨t', hprepare, ht'⟩ := options.prepare_of_whole ht
  obtain ⟨events, hmachine, hstop⟩ := runWith_eq options fuel hprepare m
  have hsafe := (supplied options fuel).2.1 ht' m.ready hm.ready
  rw [hmachine, hstop]
  exact ⟨hsafe.sound_after.store, fun hs => hsafe.allowed_stop hs rfl⟩

/-- The step lemma: one more request with a valid tree. -/
theorem Request.sound_serve (r : Request) (hr : Whole r.tree) (hm : m.Sound Whole) :
    (r.serve m).2.Sound Whole := by
  obtain ⟨entry, options, fuel, t⟩ := r
  have hrun : (runWith fuel options t m).2.Sound Whole :=
    ⟨(supplied_runWith fuel options hr hm.store).1, by
      rw [(atRest_runWith fuel options t m).result]; trivial⟩
  cases entry with
  | run => exact hrun
  | execute => exact hrun
  | exec =>
    simp only [serve, Answer.ofResult_snd]
    exact ((supplied options fuel).2.1 hr m hm).sound_after
  | eval =>
    simp only [serve, Answer.ofResult_snd]
    exact ((supplied options fuel).1 hr m hm).sound_after
  | locate =>
    simp only [serve, Answer.ofResult_snd]
    exact (supplied_locate hr hm).sound_after

/-- The run lemma: any number of requests with valid trees. -/
theorem Request.sound_serveAll (requests : List Request) (h : ∀ r ∈ requests, Whole r.tree)
    (hm : m.Sound Whole) : (serveAll requests m).Sound Whole := by
  induction requests generalizing m with
  | nil => exact hm
  | cons r requests ih =>
    rw [List.forall_mem_cons] at h
    exact ih h.2 (r.sound_serve h.1 hm)

end Requests

end ClosureLang
