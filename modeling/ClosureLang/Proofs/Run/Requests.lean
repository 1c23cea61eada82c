import ClosureLang.Proofs.Run.Effects
import ClosureLang.Proofs.Run.Observation

/-! A machine that serves one request after the other is at rest between them, however they end. -/
namespace ClosureLang

open ClosureLang.Action Machine

/-- The ways to use a machine. -/
inductive Entry where
  | run | execute | exec | eval | locate

structure Request where
  entry : Entry
  options : Options
  fuel : Nat
  tree : Tree

inductive Answer where
  | output (o : Output)
  | text (s : String)
  | done
  | value (v : Value)
  | location (scope : ScopeId) (name : String)
  | stopped (s : Stop)

/-- The answer at the end of an action. -/
def Answer.ofResult {α : Type} (answer : α → Answer) :
    EStateM.Result Stop Machine α → Answer × Machine
  | .ok a m => (answer a, m)
  | .error s m => (.stopped s, m)

namespace Request

def serve (r : Request) (m : Machine) : Answer × Machine :=
  match r.entry with
  | .run => let o := runWith r.fuel r.options r.tree m; (.output o.1, o.2)
  | .execute => let o := runWith r.fuel r.options r.tree m; (.text o.1.text, o.2)
  | .exec => Answer.ofResult (fun _ => .done) (ClosureLang.exec r.options r.fuel r.tree m)
  | .eval => Answer.ofResult .value (ClosureLang.eval r.options r.fuel r.tree m)
  | .locate => Answer.ofResult (fun l => .location l.1 l.2) (Action.locate r.options r.tree m)

/-- The machine after requests, served in order. -/
def serveAll (requests : List Request) (m : Machine) : Machine :=
  requests.foldl (fun m r => (r.serve m).2) m

/-- The output that a request adds to. A run starts its output anew. -/
def kept (r : Request) (m : Machine) : String :=
  match r.entry with
  | .run | .execute => ""
  | .exec | .eval | .locate => m.out

end Request

/-- The machine is in the global scope and outside all calls. -/
structure Machine.AtRest (m : Machine) : Prop where
  scope : m.scope = Store.root
  depth : m.depth = 0
  level : m.level = 0
  returning : m.returning = false
  result : m.result = .int 0

variable {m m' : Machine}

theorem Machine.AtRest.executed {names : List String} (h : m.AtRest) (hm : m.Executed names m') :
    m'.AtRest := by
  obtain ⟨hreturning, hresult⟩ := hm.outside h.depth
  exact ⟨hm.scope.trans h.scope, hm.depth.trans h.depth, hm.level.trans h.level,
    hreturning.trans h.returning, hresult.trans h.result⟩

theorem Machine.AtRest.evaluated (h : m.AtRest) (hm : m.Evaluated m') : m'.AtRest :=
  have hexecuted : m.Executed [] m' := hm.executed
  h.executed hexecuted

/-- Between requests, only what was printed and reported tells a machine from a new one. -/
theorem Machine.AtRest.eq_behind (h : m.AtRest) :
    m = ({ store := m.store } : Machine).behind m.out m.events := by
  obtain ⟨hscope, hdepth, hlevel, hreturning, hresult⟩ := h
  cases m
  simp_all [behind]

theorem Answer.ofResult_snd {α : Type} (answer : α → Answer) (x : Action α) (m : Machine) :
    (ofResult answer (x m)).2 = x.after m := by
  simp only [after]
  cases x m <;> rfl

theorem Answer.ofResult_mapEnd {α : Type} (answer : α → Answer) (f : Machine → Machine)
    (r : EStateM.Result Stop Machine α) :
    ofResult answer (mapEnd f r) = ((ofResult answer r).1, f (ofResult answer r).2) := by
  cases r <;> rfl

theorem atRest_ready (m : Machine) : m.ready.AtRest := ⟨rfl, rfl, rfl, rfl, rfl⟩

theorem atRest_runWith (fuel : Nat) (options : Options) (t : Tree) (m : Machine) :
    (runWith fuel options t m).2.AtRest := by
  cases hprepare : options.prepare t with
  | none => simpa only [runWith, hprepare] using atRest_ready m
  | some t' =>
    obtain ⟨events, heq, -⟩ := runWith_eq options fuel hprepare m
    have hexec := (atRest_ready m).executed (executed options fuel t' m.ready)
    rw [heq]
    exact ⟨hexec.scope, hexec.depth, hexec.level, hexec.returning, hexec.result⟩

theorem Request.atRest_serve (r : Request) (h : m.AtRest) : (r.serve m).2.AtRest := by
  obtain ⟨entry, options, fuel, t⟩ := r
  cases entry with
  | run => exact atRest_runWith fuel options t m
  | execute => exact atRest_runWith fuel options t m
  | exec =>
    simp only [serve, Answer.ofResult_snd]
    exact h.executed (executed options fuel t m)
  | eval =>
    simp only [serve, Answer.ofResult_snd]
    exact h.evaluated (evaluated options fuel t m)
  | locate =>
    simp only [serve, Answer.ofResult_snd]
    exact h.evaluated (Leads.locate t m)

theorem atRest_serveAll (requests : List Request) (h : m.AtRest) :
    (Request.serveAll requests m).AtRest := by
  induction requests generalizing m with
  | nil => exact h
  | cons r requests ih => exact ih (r.atRest_serve h)

theorem runWith_behind (fuel : Nat) (options : Options) (t : Tree) (m : Machine) (out : String)
    (events : Array Event) :
    runWith fuel options t (m.behind out events) =
      ((runWith fuel options t m).1, (runWith fuel options t m).2.behind "" events) := by
  have hready : (m.behind out events).ready = m.ready.behind "" events := by
    simp [ready, behind]
  simp only [runWith, hready]
  cases options.prepare t with
  | none => rfl
  | some t =>
    simp only [(oblivious options fuel).2.1 t "" events m.ready]
    cases exec options fuel t m.ready with
    | ok u m' => simp [mapEnd, behind]
    | error s m' => cases s <;> simp [mapEnd, behind]

theorem Request.serve_behind (r : Request) (m : Machine) (out : String) (events : Array Event) :
    r.serve (m.behind out events) =
      ((r.serve m).1, (r.serve m).2.behind (r.kept { m with out := out }) events) := by
  obtain ⟨entry, options, fuel, t⟩ := r
  cases entry with
  | run => simp only [serve, kept, runWith_behind]
  | execute => simp only [serve, kept, runWith_behind]
  | exec =>
    simp only [serve, kept, (oblivious options fuel).2.1 t out events m, Answer.ofResult_mapEnd]
  | eval =>
    simp only [serve, kept, (oblivious options fuel).1 t out events m, Answer.ofResult_mapEnd]
  | locate =>
    simp only [serve, kept, Oblivious.locate t out events m, Answer.ofResult_mapEnd]

/-- Whatever the outcome, evaluation and execution end in the scope, the call and the nesting of the
trace that they began in. Evaluation leaves a return on its way as it is; execution lets one set out
only inside a call, and none stop. So between requests the machine is at rest, and the next request
is served as by a new machine with the same global scope. -/
theorem restored_on_every_path (options : Options) (fuel : Nat) :
    (∀ t m, let m' := (eval options fuel t).after m
      m'.scope = m.scope ∧ m'.depth = m.depth ∧ m'.level = m.level ∧
      m'.returning = m.returning ∧ m'.result = m.result) ∧
    (∀ t m, let m' := (exec options fuel t).after m
      m'.scope = m.scope ∧ m'.depth = m.depth ∧ m'.level = m.level ∧
      (m'.returning = m.returning ∨ m'.returning = true ∧ 0 < m.depth)) ∧
    ∀ requests, let m := Request.serveAll requests {}
      m.AtRest ∧ ∀ r : Request,
        (r.serve m).1 = (r.serve { store := m.store }).1 ∧
        (r.serve m).2 = (r.serve { store := m.store }).2.behind (r.kept m) m.events := by
  refine ⟨fun t m => ?_, fun t m => ?_, fun requests => ?_⟩
  · have h := evaluated options fuel t m
    exact ⟨h.scope, h.depth, h.level, h.returning, h.result⟩
  · have h := executed options fuel t m
    refine ⟨h.scope, h.depth, h.level, ?_⟩
    rcases Nat.eq_zero_or_pos m.depth with hdepth | hdepth
    · exact .inl (h.outside hdepth).1
    · cases hreturning : m.returning with
      | true => exact .inl (h.returning hreturning)
      | false =>
        cases ((exec options fuel t).after m).returning with
        | true => exact .inr ⟨rfl, hdepth⟩
        | false => exact .inl rfl
  · intro m
    have hrest : m.AtRest := atRest_serveAll requests ⟨rfl, rfl, rfl, rfl, rfl⟩
    refine ⟨hrest, fun r => ?_⟩
    have hserve := r.serve_behind { store := m.store } m.out m.events
    rw [← hrest.eq_behind] at hserve
    rw [hserve]
    refine ⟨rfl, ?_⟩
    cases hentry : r.entry <;> simp [Request.kept, hentry]

end ClosureLang
