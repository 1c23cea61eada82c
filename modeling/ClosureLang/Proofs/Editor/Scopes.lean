import ClosureLang.Proofs.Editor.Resolution
import ClosureLang.Proofs.Grammar.Names
import ClosureLang.Proofs.Lint.Checks
import ClosureLang.Proofs.Run.Origins
import ClosureLang.Proofs.Run.Progress

/-! The index of a program agrees with its runs: names that it leaves unresolved are not found, and
the others are found where it says. -/
namespace ClosureLang

open ClosureLang.Tree

/-- How many blocks lie around the innermost block of a context. -/
def Context.depth (c : Context) : Nat := c.frames.length - 1

section Lookup

variable {φ : Finals} {c : Context} {m : Machine} {s : Store} {outside : Bool} {es : List ScopeId}
  {fs : List Frame} {x : String} {k : Nat}

theorem find?_of_unbound (h : List.Forall₂ (s.Holds φ outside) es fs)
    (hx : fs.findIdx? (fun f => decide (x ∈ f.bound)) = none) :
    es.find? (fun e => (s.binding? e x).isSome) = none := by
  induction h with
  | nil => rfl
  | @cons e f es fs hf _ ih =>
    rw [List.findIdx?_cons] at hx
    by_cases hbound : x ∈ f.bound
    · simp [hbound] at hx
    · have hfree : ¬ (s.binding? e x).isSome = true := fun hbinds => hbound (hf.bound x hbinds)
      rw [List.find?_cons_of_neg (p := fun e => (s.binding? e x).isSome) hfree]
      exact ih (by simpa [hbound] using hx)

/-- Outside of functions, the scope that binds a name is as far out as the block that does. -/
theorem find?_of_bound (h : List.Forall₂ (s.Holds φ outside) es fs) (ho : outside = true)
    (hx : fs.findIdx? (fun f => decide (x ∈ f.bound)) = some k) :
    ∃ e, es[k]? = some e ∧ es.find? (fun e => (s.binding? e x).isSome) = some e := by
  induction h generalizing k with
  | nil => cases hx
  | @cons e f es fs hf _ ih =>
    rw [List.findIdx?_cons] at hx
    by_cases hbound : x ∈ f.bound
    · obtain rfl : k = 0 := by simpa [hbound] using hx.symm
      exact ⟨e, rfl, List.find?_cons_of_pos (hf.exact ho x hbound)⟩
    · have hfree : ¬ (s.binding? e x).isSome = true := fun hbinds => hbound (hf.bound x hbinds)
      simp only [hbound, decide_false, Bool.false_eq_true, if_false, Option.map_eq_some_iff] at hx
      obtain ⟨k, hk, rfl⟩ := hx
      rw [List.find?_cons_of_neg (p := fun e => (s.binding? e x).isSome) hfree]
      exact ih hk

/-- A name that no block has bound is not found. -/
theorem Machine.At.locate_eq_none (h : m.At φ c) (hx : c.binder? x = none) :
    m.store.locate m.scope x = none :=
  find?_of_unbound h.frames hx

theorem Machine.At.locate_eq_some (h : m.At φ c) (ho : c.outside = true)
    (hx : c.binder? x = some k) :
    ∃ e, (m.store.chain m.scope)[k]? = some e ∧ m.store.locate m.scope x = some e :=
  find?_of_bound h.frames ho hx

end Lookup

namespace Task

variable {options : Options} {τ : Task} {u : Tree} {m : Machine} {x : String} {e : ScopeId}

/-- A task that reads a variable or looks up the target of an assignment. -/
inductive Uses (u : Tree) (m : Machine) : Task → Prop where
  | read {n} : u.isForm .lookup = true → Uses u m (eval (n + 1) u m)
  | target : u.isForm .varLoc = true → Uses u m (locate u m)

/-- A task finds a name in a scope: it comes to the value of the variable there, or to the variable
itself. -/
def Finds (options : Options) (e : ScopeId) (x : String) : Task → Prop
  | eval fuel t m =>
    ∃ b m', m.store.binding? e x = some b ∧ ClosureLang.eval options fuel t m = .ok b.value m'
  | locate t m => (m.store.binding? e x).isSome ∧ ∃ m', Action.locate options t m = .ok (e, x) m'
  | _ => False

theorem Uses.isUse (h : Uses u m τ) : u.isUse = true := by
  cases h with
  | read hu => rw [Tree.isUse, hu, Bool.true_or]
  | target hu => rw [Tree.isUse, hu, Bool.or_true]

theorem binding?_of_locate {s : Store} {scope : ScopeId} (he : s.locate scope x = some e) :
    ∃ b, s.binding? e x = some b :=
  Option.isSome_iff_exists.mp (Store.binds_of_locate he)

theorem eval_lookup (options : Options) (n : Nat) (o : Int) (cs : List Tree) (m : Machine) :
    ClosureLang.eval options (n + 1) (form .lookup o cs) m =
      Action.mapEnd (fun m' => { m' with level := m'.level - 1 })
        (Action.onStore (form .lookup o cs).lookupAt
          (m.within options "evaluate" (form .lookup o cs))) := by
  rw [(show Evaluation options n (form .lookup o cs) _ from .lookup).eq, Action.traced_eq_within]

theorem locate_varLoc (options : Options) (o : Int) (cs : List Tree) (m : Machine) :
    ∃ m₁, Alike m m₁ ∧
    Action.locate options (form .varLoc o cs) m =
      Action.onStore (form .varLoc o cs).locateAt m₁ := by
  obtain ⟨events, hstep⟩ := Action.traceStep_eq_ok options "locate" (form .varLoc o cs) m
  refine ⟨_, traceStep_ok hstep, ?_⟩
  rw [locate_eq]
  simp only [bind, EStateM.bind, hstep]

/-- A use of a name that is not found fails. -/
theorem Uses.fails (h : Uses u m τ) (hx : u.UsesName x) (hfree : m.store.locate m.scope x = none) :
    τ.stop? options = some (.condition .undefinedVariable u) := by
  cases h with
  | @read n hu =>
    obtain ⟨o, cs, rfl⟩ := Lint.eq_form_of_isForm hu
    have hlookup : (form .lookup o cs).lookupAt m.scope m.store =
        .error (.condition .undefinedVariable (form .lookup o cs)) := by
      simp only [lookupAt, named, hx.2, Store.get?, hfree]
      rfl
    rw [stop?, Action.stop?, eval_lookup]
    simp only [Action.onStore, Machine.within_scope, Machine.within_store, hlookup]
    rfl
  | target hu =>
    obtain ⟨o, cs, rfl⟩ := Lint.eq_form_of_isForm hu
    obtain ⟨m₁, hm₁, hlocate⟩ := locate_varLoc options o cs m
    have hplace : (form .varLoc o cs).locateAt m₁.scope m₁.store =
        .error (.condition .undefinedVariable (form .varLoc o cs)) := by
      simp only [form, locateAt, named] at hx ⊢
      simp only [hx.2, hm₁.scope, hm₁.store, hfree]
    rw [stop?, Action.stop?, hlocate]
    simp only [Action.onStore, hplace]

/-- A use of a name that is found comes to the variable. -/
theorem Uses.finds (h : Uses u m τ) (hx : u.UsesName x) (he : m.store.locate m.scope x = some e) :
    τ.Finds options e x := by
  obtain ⟨b, hb⟩ := binding?_of_locate he
  cases h with
  | @read n hu =>
    obtain ⟨o, cs, rfl⟩ := Lint.eq_form_of_isForm hu
    have hlookup : (form .lookup o cs).lookupAt m.scope m.store = .ok (b.value, m.store) := by
      simp only [lookupAt, named, hx.2, Store.get?, he, Option.bind_eq_bind, Option.bind_some, hb]
      rfl
    have heval := eval_lookup options n o cs m
    simp only [Action.onStore, Machine.within_scope, Machine.within_store, hlookup,
      Action.mapEnd] at heval
    exact ⟨b, _, hb, heval⟩
  | target hu =>
    obtain ⟨o, cs, rfl⟩ := Lint.eq_form_of_isForm hu
    obtain ⟨m₁, hm₁, hlocate⟩ := locate_varLoc options o cs m
    have hplace : (form .varLoc o cs).locateAt m₁.scope m₁.store = .ok ((e, x), m₁.store) := by
      simp only [form, locateAt, named] at hx ⊢
      simp only [hx.2, hm₁.scope, hm₁.store, he]
    simp only [Action.onStore, hplace] at hlocate
    exact ⟨by rw [hb]; rfl, _, hlocate⟩

/-- A use stands where the machine is. -/
theorem Uses.placed {P : Context → Tree → Prop} {φ : Finals} (h : Uses u m τ) (hτ : Placed P φ τ) :
    ∃ c, m.At φ c ∧ P c u := by
  cases h with
  | read hu =>
    obtain ⟨o, cs, rfl⟩ := Lint.eq_form_of_isForm hu
    obtain ⟨c, hm, -, hsited⟩ := hτ
    exact ⟨c, hm.here, hsited.here⟩
  | target hu =>
    obtain ⟨o, cs, rfl⟩ := Lint.eq_form_of_isForm hu
    obtain ⟨c, hm, hsited⟩ := hτ
    exact ⟨c, hm.here, hsited.here⟩

end Task

namespace Editor

/-- The index of a program agrees with its runs. A name that it leaves unresolved is not found,
wherever it is used. Outside of functions, every other name is found, as many scopes further out as
the blocks around the use are more than those around the symbol that the index says it means. -/
theorem index_agrees_with_runs {src : String} {t : Tree} (h : Grammar.parseProgram src = .ok t)
    (text : String) :
    ∃ ix, Index.build? t text = some ix ∧
      ∀ (options : Options) (fuel : Nat) (τ : Task) (u : Tree) (m : Machine), options.fold = false →
        Task.Reaches options (.exec fuel t (Machine.ready {})) τ → τ.Uses u m →
          (u ∈ ix.unresolved →
            (runWith fuel options t {}).1.stop = some (.condition .undefinedVariable u)) ∧
          (u ∈ Lint.outsideFunctions t → u ∉ ix.unresolved →
            ∃ c x e, (c, u) ∈ t.sites (.program t) ∧
            u.UsesName x ∧ τ.Finds options e x ∧ (∃ r ∈ ix.references, r.offset = u.useOffset) ∧
            ∀ r ∈ ix.references, r.offset = u.useOffset →
              ∃ s, ix.symbol? r.symbol = some s ∧ s.name = x ∧
              s.depth ≤ c.depth ∧ (m.store.chain m.scope)[c.depth - s.depth]? = some e) := by
  have hplace : InPlace .block t := (sorted_of_parse h).inPlace
  have hsited : Sited (fun c u => (c, u) ∈ t.sites (.program t)) (.program t) t := fun _ hs => hs
  have hunique : ∀ {c c' u u'}, (c, u) ∈ t.sites (.program t) → (c', u') ∈ t.sites (.program t) →
      u.isUse = true → u'.isUse = true → u.useOffset = u'.useOffset → c = c' ∧ u = u' := by
    intro c c' u u' hs hs' huse huse' hoffset
    exact Prod.mk.inj (eq_of_offset_eq (Grammar.nodup_useOffsets h) hs hs' huse huse' hoffset)
  obtain ⟨ix, hbuild, hcorrect, hnotes⟩ := Index.build?_notes hplace hsited text
  refine ⟨ix, hbuild, fun options fuel τ u m hfold hreaches huses => ?_⟩
  have hprepare : options.prepare t = some t := by
    rw [Options.prepare, hfold, if_neg Bool.false_ne_true]
  obtain ⟨-, -, hrun⟩ := runWith_eq options fuel hprepare {}
  obtain ⟨φ, hplaced⟩ := Task.placed_program hplace hsited fuel
  obtain ⟨φ', hplaced'⟩ := Task.placed_of_reaches hplaced hreaches
  obtain ⟨c, hat, hsite⟩ := huses.placed hplaced'
  have huse := huses.isUse
  refine ⟨fun hu => ?_, fun houtside hresolved => ?_⟩
  · obtain ⟨c', x, hsite', hx, hfree⟩ := hcorrect.unresolved u hu
    obtain ⟨rfl, -⟩ := hunique hsite hsite' huse huse rfl
    rw [hrun]
    exact Task.stop_of_reaches hreaches (huses.fails hx (hat.locate_eq_none hfree))
  · obtain ⟨c', hsite', ho⟩ := outside_of_mem (c := .program t) houtside
    obtain ⟨rfl, -⟩ := hunique hsite hsite' huse huse rfl
    have hmem : u ∈ t.nodes := by
      rw [← map_snd_sites (.program t) t]
      exact List.mem_map_of_mem hsite
    obtain ⟨r, hr, hoffset⟩ := (hnotes u hmem huse).resolve_left hresolved
    have hmeans : ∀ r ∈ ix.references, r.offset = u.useOffset →
        ∃ x k, u.UsesName x ∧ c.binder? x = some k ∧
        ∃ s : Symbol, ix.symbol? r.symbol = some s ∧ s.name = x ∧
          s.depth + k + 1 = c.frames.length := by
      intro r hr hoffset
      obtain ⟨c', u', x, k, hsite', hx, hoffset', hk, hs⟩ := hcorrect.references r hr
      obtain ⟨rfl, rfl⟩ := hunique hsite hsite' huse hx.1 (hoffset.symm.trans hoffset')
      exact ⟨x, k, hx, hk, hs⟩
    obtain ⟨x, k, hx, hk, -⟩ := hmeans r hr hoffset
    obtain ⟨e, hchain, hlocate⟩ := hat.locate_eq_some ho hk
    refine ⟨c, x, e, hsite, hx, huses.finds hx hlocate, ⟨r, hr, hoffset⟩, fun r' hr' hoffset' => ?_⟩
    obtain ⟨x', k', hx', hk', s, hs, hname, hdepth⟩ := hmeans r' hr' hoffset'
    cases hx.2.symm.trans hx'.2
    cases hk.symm.trans hk'
    have hlinks : c.depth - s.depth = k := by
      rw [Context.depth]
      omega
    exact ⟨s, hs, hname, by rw [Context.depth]; omega, by rw [hlinks]; exact hchain⟩

/-- The program prints an operation on two variables, the first of which is found and the second is
not. -/
def failsInSum : Tree → Bool
  | t@(.node (.form .sequence)
        _ [declaration, .node (.form .print) o₁ [.node (.form (.binary op)) o₂ [x, y]]]) =>
    x.isForm .lookup && y.isForm .lookup &&
    (match (runWith 9 {} t {}).1.stop with
      | some (.condition _ u) => u.useOffset ≠ x.useOffset
      | _ => false) &&
    match exec {} 8 declaration ((Machine.ready {}).within {} "execute" t) with
    | .error _ _ => false
    | .ok _ m₁ => !m₁.returning &&
      match eval {}
          6 x ((m₁.within {} "execute" (form .print o₁ [binary op o₂ x y])).within {} "evaluate"
          (binary op o₂ x y)) with
      | .error _ _ => false
      | .ok _ m₂ =>
        match eval {} 6 y m₂ with
        | .error _ _ => true
        | .ok _ _ => false
  | _ => false

/-- A sum reads a variable that is found and one that is not. -/
theorem index_agrees_with_runs_sum :
    ∃ t ix, Grammar.parseProgram "var x = 1; print x + y;" = .ok t ∧ Index.build? t "" = some ix ∧
      (∃ τ u m, Task.Reaches {} (.exec 9 t (Machine.ready {})) τ ∧ τ.Uses u m ∧ u ∈ ix.unresolved ∧
        (runWith 9 {} t {}).1.stop = some (.condition .undefinedVariable u)) ∧
      ∃ τ u m, Task.Reaches {} (.exec 9 t (Machine.ready {})) τ ∧ τ.Uses u m ∧
        u ∈ Lint.outsideFunctions t ∧
        u ∉ ix.unresolved ∧ ∃ c x e, (c, u) ∈ t.sites (.program t) ∧ u.UsesName x ∧ τ.Finds {} e x ∧
          (∃ r ∈ ix.references, r.offset = u.useOffset) ∧
          ∀ r ∈ ix.references, r.offset = u.useOffset →
            ∃ s, ix.symbol? r.symbol = some s ∧ s.name = x ∧
            s.depth ≤ c.depth ∧ (m.store.chain m.scope)[c.depth - s.depth]? = some e := by
  have hcheck : (Grammar.parseProgram "var x = 1; print x + y;").toOption.any failsInSum =
      true := by decide +kernel
  obtain ⟨t, hparse, hcheck⟩ := Grammar.exists_ok_of_any hcheck
  simp only [failsInSum] at hcheck
  split at hcheck
  · rename_i o declaration o₁ op o₂ x y
    simp only [Bool.and_eq_true] at hcheck
    obtain ⟨⟨⟨hxform, hyform⟩, hstop⟩, hcheck⟩ := hcheck
    split at hcheck
    · cases hcheck
    rename_i u₁ m₁ hdeclare
    rw [Bool.and_eq_true] at hcheck
    obtain ⟨hreturning, hcheck⟩ := hcheck
    split at hcheck
    · cases hcheck
    rename_i v m₂ hx
    split at hcheck
    swap
    · cases hcheck
    rename_i stop m₃ hy
    have hprint : Task.Reaches {}
        (.exec 9 (form .sequence o [declaration, form .print o₁ [binary op o₂ x y]])
        (Machine.ready {}))
        (.eval 7 (binary op o₂ x y)
          (m₁.within {} "execute" (form .print o₁ [binary op o₂ x y]))) := by
      refine .head .statements
        (.head (.laterStatements ?_ hdeclare) (.head (.statement ?_) (.single (.subject rfl))))
      · rw [Machine.within_returning]
        rfl
      · simpa using hreturning
    have hreachesx := hprint.tail (.operand rfl)
    have hreachesy := hprint.tail (.right hx)
    have husesx := Task.Uses.read (n := 5)
      (m := (m₁.within {} "execute" (form .print o₁ [binary op o₂ x y])).within {}
      "evaluate" (binary op o₂ x y)) hxform
    have husesy := Task.Uses.read (n := 5) (m := m₂) hyform
    have houtside : ∀ u ∈ [x, y], u ∈ Lint.outsideFunctions
        (form .sequence o [declaration, form .print o₁ [binary op o₂ x y]]) := by
      obtain ⟨o₃, cs, rfl⟩ := Lint.eq_form_of_isForm hxform
      obtain ⟨o₄, cs', rfl⟩ := Lint.eq_form_of_isForm hyform
      simp [Lint.outsideFunctions, visitsWhere, visitsFrom, visitsOfChildren, form, binary,
        isForm, form?]
    obtain ⟨ix, hbuild, hagrees⟩ := index_agrees_with_runs hparse ""
    obtain ⟨hfails, -⟩ := hagrees {} 9 _ _ _ rfl hreachesx husesx
    obtain ⟨-, hfound⟩ := hagrees {} 9 _ _ _ rfl hreachesy husesy
    have hunresolved : y ∈ ix.unresolved := by
      by_contra hresolved
      obtain ⟨c, name, e, -, -, ⟨b, m', -, heval⟩, -⟩ := hfound (houtside y (by simp)) hresolved
      cases hy.symm.trans heval
    have hresolved : x ∉ ix.unresolved := by
      intro hmem
      rw [hfails hmem] at hstop
      simp at hstop
    exact ⟨_, ix, hparse, hbuild,
      ⟨_, _, _, hreachesy, husesy, hunresolved,
        (hagrees {} 9 _ _ _ rfl hreachesy husesy).1 hunresolved⟩, _, _, _, hreachesx, husesx,
        houtside x (by simp), hresolved,
      (hagrees {} 9 _ _ _ rfl hreachesx husesx).2 (houtside x (by simp)) hresolved⟩
  · cases hcheck

end Editor

end ClosureLang
