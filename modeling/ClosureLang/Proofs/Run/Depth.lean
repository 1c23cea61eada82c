import ClosureLang.Proofs.Run.Comparison
import ClosureLang.Proofs.Run.Origins
import ClosureLang.Proofs.Run.Safety

/-! Limits on the depth of calls: how many calls are active, which calls are refused, and what a
limit changes otherwise, which is nothing. -/
namespace ClosureLang

open ClosureLang.Action ClosureLang.Tree

namespace Task

/-- One task starts another one inside a call if the value of an expression takes the execution of a
tree, which is the body of a function. -/
def callsMade : Task → Task → Nat
  | eval .., exec .. => 1
  | _, _ => 0

/-- `Active options τ₀ k τ`: a run that begins with `τ₀` gets to `τ`, and `k` of the calls that it
made on the way are not over then. -/
inductive Active (options : Options) (τ₀ : Task) : Nat → Task → Prop where
  | start : Active options τ₀ 0 τ₀
  | starts {k τ τ'} : Active options τ₀ k τ → Starts options τ τ' →
      Active options τ₀ (k + callsMade τ τ') τ'

variable {options : Options} {τ₀ τ τ' : Task} {k : Nat} {u : Tree}

/-- What a run gets to, it gets to with some number of active calls. -/
theorem active_of_reaches (h : Reaches options τ₀ τ) : ∃ k, Active options τ₀ k τ := by
  induction h with
  | refl => exact ⟨0, .start⟩
  | tail _ hstart ih =>
    obtain ⟨k, hactive⟩ := ih
    exact ⟨_, .starts hactive hstart⟩

theorem Active.reaches (h : Active options τ₀ k τ) : Reaches options τ₀ τ := by
  induction h with
  | start => exact .refl
  | starts _ hstart ih => exact .tail ih hstart

section Depth

variable {node t : Tree} {m m' : Machine} {fuel : Nat}

theorem depth_of_part {what : String} {v : Value}
    (h : ClosureLang.eval options fuel t (m.within options what node) = .ok v m') :
    m'.depth = m.depth := by
  rw [(evaluated_of_ok h).depth, Machine.within_depth]

theorem depth_of_arguments {args : List Value}
    (h : evalArguments (ClosureLang.eval options fuel) node m = .ok args m') :
    m'.depth = m.depth := by
  have harguments := Leads.evalArguments (evaluated options fuel) node m
  rw [after_of_ok h] at harguments
  exact harguments.depth

/-- A call that passes the checks takes the right number of arguments and stays below the limit. -/
theorem admitted_of_checkCall {f : Closure} {args : List Value}
    (h : checkCall options node f args m = .ok () m') :
    m' = m ∧ args.length = f.params.length ∧
    (0 < options.maxDepth → m.depth < options.maxDepth) := by
  have hnone : (checkCall options node f args).stop? m = none := by
    simp only [Action.stop?, h]
  rw [stop?_checkCall] at hnone
  split at hnone
  · cases hnone
  · rename_i harity
    split at hnone
    · cases hnone
    · rename_i hshallow
      exact ⟨checkCall_ok h, not_not.mp harity,
        fun hlimit => Nat.lt_of_not_le fun hdeep => hshallow ⟨hlimit, hdeep⟩⟩

/-- The step lemma: the depth of the machine counts the calls that are made. -/
theorem depth_of_starts (h : Starts options τ τ') :
    τ'.machine.depth = τ.machine.depth + callsMade τ τ' := by
  cases h with
  | operand | subject | expression | statements | repetition | result => exact Machine.within_depth
  | right hv | target hv => exact depth_of_part hv
  | branch hv | alternative hv =>
    have hdepth := depth_of_part hv
    exact hdepth
  | arguments hv hcallee =>
    obtain ⟨rfl, -⟩ := onStore_calleeAt_ok hcallee
    exact depth_of_part hv
  | body hv hcallee hargs hcheck =>
    obtain ⟨rfl, -⟩ := onStore_calleeAt_ok hcallee
    obtain ⟨rfl, -⟩ := admitted_of_checkCall hcheck
    exact congrArg (· + 1) ((depth_of_arguments hargs).trans (depth_of_part hv))
  | condition | argument | statement => rfl
  | iteration _ hv | laterArguments hv => exact (evaluated_of_ok hv).depth
  | @again n cond body m v m₁ m₂ _ hv _ hbody =>
    have hblock := Leads.inScope (executed options n body) m₁
    rw [after_of_ok hbody] at hblock
    exact hblock.depth.trans (evaluated_of_ok hv).depth
  | laterStatements _ ht => exact (executed_of_ok ht).depth

/-- The run lemma: the depth of the machine is the number of active calls. -/
theorem Active.depth (h : Active options τ₀ k τ) : τ.machine.depth = τ₀.machine.depth + k := by
  induction h with
  | start => rfl
  | starts _ hstart ih => rw [depth_of_starts hstart, ih, Nat.add_assoc]

/-- No start of a task leads beyond the limit. -/
theorem depth_le_of_starts (hlimit : 0 < options.maxDepth) (hτ : τ.machine.depth ≤ options.maxDepth)
    (h : Starts options τ τ') : τ'.machine.depth ≤ options.maxDepth := by
  have hdepth := depth_of_starts h
  cases h with
  | body _ _ _ hcheck =>
    obtain ⟨rfl, -, hshallow⟩ := admitted_of_checkCall hcheck
    exact hshallow hlimit
  | _ => exact hdepth ▸ hτ

theorem Active.depth_le (hlimit : 0 < options.maxDepth) (hτ₀ : τ₀.machine.depth ≤ options.maxDepth)
    (h : Active options τ₀ k τ) : τ.machine.depth ≤ options.maxDepth := by
  induction h with
  | start => exact hτ₀
  | starts _ hstart ih => exact depth_le_of_starts hlimit ih hstart

end Depth

/-- The evaluation of a call node whose function and arguments have values, and as many arguments as
the function has parameters. -/
inductive Accepted (options : Options) : Tree → Task → Prop where
  | call {n o cs m v m₁ callee m₂ args m₃} :
      ClosureLang.eval options n ((form .call o cs).child 0)
        (m.within options "evaluate" (form .call o cs)) = .ok v m₁ →
      onStore ((form .call o cs).calleeAt v) m₁ = .ok callee m₂ →
      evalArguments (ClosureLang.eval options n) (form .call o cs) m₂ = .ok args m₃ →
      args.length = callee.2.params.length →
      Accepted options (form .call o cs) (eval (n + 1) (form .call o cs) m)

/-- What an accepted call starts besides its body ends well. -/
theorem Accepted.stop_of_starts (h : Accepted options u τ) (hdeep : 0 < options.maxDepth)
    (hτ : options.maxDepth ≤ τ.machine.depth) (hstart : Starts options τ τ') :
    τ'.stop? options = none := by
  cases h with
  | @call n o cs m v m₁ callee m₂ args m₃ hv hcallee hargs harity =>
    cases hstart with
    | operand ht =>
      cases ht
      simp only [stop?, Action.stop?, hv]
    | arguments hv' hcallee' hpresent =>
      cases hv.symm.trans hv'
      cases hcallee.symm.trans hcallee'
      simp only [stop?, Action.stop?]
      unfold ClosureLang.evalArguments at hargs
      revert hargs hpresent
      cases (form .call o cs).child 1 with
      | absent =>
        intro _ hpresent
        cases hpresent
      | node l o' ts =>
        intro hargs _
        change ClosureLang.evalAll (ClosureLang.eval options n) (node l o' ts).children m₂ =
          .ok args m₃ at hargs
        rw [hargs]
    | body hv' hcallee' hargs' hcheck =>
      cases hv.symm.trans hv'
      cases hcallee.symm.trans hcallee'
      cases hargs.symm.trans hargs'
      obtain ⟨-, -, hshallow⟩ := admitted_of_checkCall hcheck
      obtain ⟨rfl, -⟩ := onStore_calleeAt_ok hcallee
      have hdepth : m₃.depth = m.depth := (depth_of_arguments hargs).trans (depth_of_part hv)
      have hbelow := hshallow hdeep
      rw [hdepth] at hbelow
      exact absurd hτ (Nat.not_le.mpr hbelow)

/-- A stack overflow is raised at a call that was accepted, just if the limit is reached. -/
theorem raises_stackOverflow_iff :
    Raises options (.condition .stackOverflow u) τ ↔
      Accepted options u τ ∧ 0 < options.maxDepth ∧ options.maxDepth ≤ τ.machine.depth := by
  constructor
  · intro h
    cases origin_of_raises h with
    | operator happly => exact absurd happly (apply_ne_stackOverflow _ _ _)
    | depth hv hcallee hargs harity hlimit hdeep =>
      obtain ⟨rfl, -⟩ := onStore_calleeAt_ok hcallee
      rw [(depth_of_arguments hargs).trans (depth_of_part hv)] at hdeep
      exact ⟨.call hv hcallee hargs harity, hlimit, hdeep⟩
  · rintro ⟨h, hlimit, hdeep⟩
    refine ⟨?_, fun τ' hstart => h.stop_of_starts hlimit hdeep hstart⟩
    cases h with
    | @call n o cs m v m₁ callee m₂ args m₃ hv hcallee hargs harity =>
      have hdepth : m₃.depth = m.depth := by
        obtain ⟨rfl, -⟩ := onStore_calleeAt_ok hcallee
        exact (depth_of_arguments hargs).trans (depth_of_part hv)
      have hcheck : (checkCall options (form .call o cs) callee.2 args).stop? m₃ =
          some (.condition .stackOverflow (form .call o cs)) := by
        rw [stop?_checkCall, if_neg (not_not.mpr harity), if_pos ⟨hlimit, hdepth ▸ hdeep⟩]
      rw [stop?, (Evaluation.call).eq, stop?_traced, stop?_bind_of_ok hv, stop?_bind_of_ok hcallee,
        stop?_bind_of_ok hargs, stop?_bind_of_stop hcheck]

end Task

/-- A higher limit, or none, admits the calls that a limit admits. -/
theorem mirrorsChecks_of_limit {n n' : Nat} (hn : 0 < n) (hn' : n' = 0 ∨ n ≤ n')
    (options : Options) :
    MirrorsChecks (fun s => ∃ u, s = .condition .stackOverflow u) { options with maxDepth := n }
      { options with maxDepth := n' } := by
  intro node f args m m' hm
  have hdepth : m.depth = m'.depth := Mirrors.depth_eq hm
  simp only [MirrorsAt, stop?_checkCall, checkCall_eq]
  by_cases harity : args.length ≠ f.params.length
  · rw [if_pos harity, if_pos harity, if_pos harity]
    exact .inr (congrArg (EStateM.Result.error _) hm)
  · rw [if_neg harity, if_neg harity, if_neg harity]
    by_cases hdeep : 0 < n ∧ n ≤ m.depth
    · rw [if_pos hdeep]
      exact .inl ⟨_, rfl, _, rfl⟩
    · have hdeep' : ¬ (0 < n' ∧ n' ≤ m'.depth) := by omega
      rw [if_neg hdeep, if_neg hdeep, if_neg hdeep']
      exact .inr (congrArg (EStateM.Result.ok ()) hm)

open ClosureLang.Task

/-- Under a limit, a run has as many active calls as the depth of its machine says, and never more
than the limit. A stack overflow is raised at the calls that are accepted when that many calls are
active, and a run stops with one just if it gets to such a call. A run that does not would have gone
the same way under any higher limit and under none. -/
theorem limit_exact {n : Nat} (hn : 0 < n) (options : Options) (fuel : Nat) (t : Tree)
    (m : Machine) : let limited : Options := { options with maxDepth := n }
    (∀ t', limited.prepare t = some t' →
      (∀ k τ, Active limited (.exec fuel t' m.ready) k τ →
        τ.machine.depth = k ∧ k ≤ n ∧
        ∀ u, Raises limited (.condition .stackOverflow u) τ ↔ k = n ∧ Accepted limited u τ) ∧
      ∀ u, (runWith fuel limited t m).1.stop = some (.condition .stackOverflow u) ↔
        ∃ τ, Active limited (.exec fuel t' m.ready) n τ ∧ Accepted limited u τ) ∧
    ((∀ u, (runWith fuel limited t m).1.stop ≠ some (.condition .stackOverflow u)) →
      ∀ n', n' = 0 ∨ n ≤ n' →
        (runWith fuel { options with maxDepth := n' } t m).1 = (runWith fuel limited t m).1 ∧
        (runWith fuel { options with maxDepth := n' } t m).2.silent =
          (runWith fuel limited t m).2.silent) := by
  intro limited
  refine ⟨fun t' ht' => ?_, fun hstop n' hn' => ?_⟩
  · have hactive : ∀ k τ, Active limited (.exec fuel t' m.ready) k τ →
        τ.machine.depth = k ∧ k ≤ n ∧
        ∀ u, Raises limited (.condition .stackOverflow u) τ ↔ k = n ∧ Accepted limited u τ := by
      intro k τ h
      have hdepth : τ.machine.depth = k := by
        rw [h.depth]
        exact Nat.zero_add k
      have hle : k ≤ n := by
        have hstart : (Task.exec fuel t' m.ready).machine.depth ≤ limited.maxDepth := Nat.zero_le n
        exact hdepth ▸ h.depth_le hn hstart
      refine ⟨hdepth, hle, fun u => ?_⟩
      rw [raises_stackOverflow_iff, hdepth, and_comm]
      exact and_congr_left'
        ⟨fun ⟨_, hdeep⟩ => Nat.le_antisymm hle hdeep, fun h => ⟨hn, Nat.le_of_eq h.symm⟩⟩
    refine ⟨hactive, fun u => ?_⟩
    obtain ⟨events, -, hrun⟩ := runWith_eq limited fuel ht' m
    rw [hrun]
    constructor
    · intro hstop
      obtain ⟨τ, hreaches, hraises⟩ :=
        raised_of_stop (show (Task.exec fuel t' m.ready).stop? limited =
          some (.condition .stackOverflow u) from hstop)
      obtain ⟨k, hk⟩ := active_of_reaches hreaches
      obtain ⟨rfl, haccepted⟩ := ((hactive k τ hk).2.2 u).mp hraises
      exact ⟨τ, hk, haccepted⟩
    · rintro ⟨τ, hn, haccepted⟩
      have hraises := ((hactive n τ hn).2.2 u).mpr ⟨rfl, haccepted⟩
      exact stop_of_reaches hn.reaches hraises.1
  · obtain ⟨s, hs, u, rfl⟩ | ⟨hout, hsilent⟩ :=
      runWith_mirrors (mirrorsChecks_of_limit hn hn' options) rfl fuel t m
    · exact absurd hs (hstop u)
    · exact ⟨hout.symm, hsilent.symm⟩

/-- A function that calls itself once: the inner call goes beyond a limit of one, but not of two. -/
theorem limit_exact_recursion :
    ∃ t, Grammar.parseProgram "var g=func(n)\x7bif(n)\x7bret g(n-1);\x7dret 7;\x7d;print g(1);" =
      .ok t ∧
      0 < 1 ∧ 0 < 2 ∧
      (∃ u τ, Active { maxDepth := 1 } (.exec 30 t (Machine.ready {})) 1 τ ∧
        Accepted { maxDepth := 1 } u τ) ∧
      (runWith 30 { maxDepth := 2 } t {}).1.out = "7" ∧
      ∀ n', n' = 0 ∨ 2 ≤ n' →
        (runWith 30 { maxDepth := n' } t {}).1 = (runWith 30 { maxDepth := 2 } t {}).1 := by
  have hcheck : (Grammar.parseProgram
      "var g=func(n)\x7bif(n)\x7bret g(n-1);\x7dret 7;\x7d;print g(1);").toOption.any
      (fun t => decide ((runWith 30 { maxDepth := 1 } t {}).1.condition? = some .stackOverflow) &&
        decide ((runWith 30 { maxDepth := 2 } t {}).1.out = "7") &&
        (runWith 30 { maxDepth := 2 } t {}).1.stop.isNone) = true := by
    decide +kernel
  obtain ⟨t, hparse, hcheck⟩ := Grammar.exists_ok_of_any hcheck
  simp only [Bool.and_eq_true, decide_eq_true_eq,
    Option.isNone_iff_eq_none] at hcheck
  obtain ⟨⟨hstop, hout⟩, hends⟩ := hcheck
  refine ⟨t, hparse, by decide, by decide, ?_, hout, fun n' hn' => ?_⟩
  · obtain ⟨u, hu⟩ := Output.stop_of_condition? hstop
    exact ⟨u, (((limit_exact (by decide) {} 30 t {}).1 t rfl).2 u).mp hu⟩
  · have hlimit := (limit_exact (n := 2) (by decide) {} 30 t {}).2 fun u => by simp [hends]
    exact (hlimit n' hn').1

end ClosureLang
