import ClosureLang.Proofs.Editor.Scopes
import ClosureLang.Proofs.Run.Respelled

/-! A program and a respelled one run in unison: from task to task both do the same, as long as
names in the one find what names in the other do. -/
namespace ClosureLang

open ClosureLang.Action ClosureLang.Tree

variable {ρ : Respelling} {D : ScopeId → String → Int → Prop} {options : Options}

namespace Respelling

variable {α β γ δ : Type} {A : α → β → Prop} {B : γ → δ → Prop}

/-- Two actions end alike: well with results in a relation, or for the same reason. -/
inductive Ends (ρ : Respelling) (D : ScopeId → String → Int → Prop) (A : α → β → Prop) :
    EStateM.Result Stop Machine α → EStateM.Result Stop Machine β → Prop where
  | ok {a b m m'} : A a b → m.Respelled ρ D m' → Ends ρ D A (.ok a m) (.ok b m')
  | error {s m m'} : m.Respelled ρ D m' → Ends ρ D A (.error s m) (.error (ρ.stop s) m')

/-- Two steps on stores come to the same, up to names. -/
inductive Answers (ρ : Respelling) (D : ScopeId → String → Int → Prop) (A : α → β → Prop) :
    Except Stop (α × Store) → Except Stop (β × Store) → Prop where
  | ok {a b s s'} : A a b → s.Respelled ρ D s' → Answers ρ D A (.ok (a, s)) (.ok (b, s'))
  | error {s} : Answers ρ D A (.error s) (.error (ρ.stop s))

namespace Ends

variable {x : Action α} {x' : Action β} {f : α → Action γ} {f' : β → Action δ} {m m' : Machine}

theorem bind (hx : ρ.Ends D A (x m) (x' m'))
    (hf : ∀ a a' m₁ m₁', x m = .ok a m₁ → x' m' = .ok a' m₁' → A a a' →
    m₁.Respelled ρ D m₁' → ρ.Ends D B (f a m₁) (f' a' m₁')) :
    ρ.Ends D B ((x >>= f) m) ((x' >>= f') m') := by
  simp only [Bind.bind, EStateM.bind]
  cases hxm : x m with
  | ok a m₁ =>
    rw [hxm] at hx
    cases hxm' : x' m' with
    | ok a' m₁' =>
      rw [hxm'] at hx
      cases hx with
      | ok ha hm => exact hf a a' m₁ m₁' hxm hxm' ha hm
    | error s' m₁' =>
      rw [hxm'] at hx
      cases hx
  | error s m₁ =>
    rw [hxm] at hx
    cases hxm' : x' m' with
    | ok a' m₁' =>
      rw [hxm'] at hx
      cases hx
    | error s' m₁' =>
      rw [hxm'] at hx
      cases hx with
      | error hm => exact .error hm

theorem mapEnd {r : EStateM.Result Stop Machine α} {r' : EStateM.Result Stop Machine β}
    {g g' : Machine → Machine} (h : ρ.Ends D A r r')
    (hg : ∀ m m', m.Respelled ρ D m' → (g m).Respelled ρ D (g' m')) :
    ρ.Ends D A (mapEnd g r) (Action.mapEnd g' r') := by
  cases h with
  | ok ha hm => exact .ok ha (hg _ _ hm)
  | error hm => exact .error (hg _ _ hm)

theorem traced {what : String} {node node' : Tree}
    (h : ρ.Ends D A (x (m.within options what node)) (x' (m'.within options what node'))) :
    ρ.Ends D A (traced options what node x m) (Action.traced options what node' x' m') := by
  rw [traced_eq_within, traced_eq_within]
  exact h.mapEnd fun m m' hm => ⟨hm.store, hm.scope, hm.returning, hm.result, hm.depth, hm.out⟩

theorem inScope (hm : m.Respelled ρ D m') (h : ρ.Ends D A (x m.inBlock) (x' m'.inBlock)) :
    ρ.Ends D A (inScope x m) (Action.inScope x' m') := by
  rw [inScope_eq, inScope_eq]
  exact mapEnd h fun n n' hn => ⟨hn.store, hm.scope, hn.returning, hn.result, hn.depth, hn.out⟩

theorem onStore {f : ScopeId → Store → Except Stop (α × Store)}
    {f' : ScopeId → Store → Except Stop (β × Store)} (hm : m.Respelled ρ D m')
    (h : ρ.Answers D A (f m.scope m.store) (f' m.scope m'.store)) :
    ρ.Ends D A (onStore f m) (Action.onStore f' m') := by
  simp only [Action.onStore, hm.scope]
  generalize f m.scope m.store = r at h ⊢
  generalize f' m.scope m'.store = r' at h ⊢
  cases h with
  | ok ha hs => exact .ok ha ⟨hs, rfl, hm.returning, hm.result, hm.depth, hm.out⟩
  | error => exact .error hm

/-- A call puts back what its body changes outside the store. -/
theorem enterCall {c c' : Closure} {id : ClosureId} {args : List Value} {g g' : Tree → Action Unit}
    (hm : m.Respelled ρ D m')
    (h : ρ.Ends D Eq (g c.body (m.calling options id c args))
      (g' c'.body (m'.calling options id c' args))) :
    ρ.Ends D Eq (enterCall options id c args g m)
      (ClosureLang.enterCall options id c' args g' m') := by
  obtain ⟨finish, hobserved⟩ := observed_eq_entered options id c
    (inCall (m.store.enter c args).1 (m.store.enter c args).2 (g c.body)) m
  obtain ⟨finish', hobserved'⟩ := observed_eq_entered options id c'
    (inCall (m'.store.enter c' args).1 (m'.store.enter c' args).2 (g' c'.body)) m'
  rw [enterCall_eq, enterCall_eq, hobserved, hobserved']
  refine mapEnd ?_ fun n n' hn => ⟨hn.store, hn.scope, hn.returning, hn.result, hn.depth, hn.out⟩
  have hrestore : ∀ n n' : Machine, n.Respelled ρ D n' → Machine.Respelled ρ D
      { n with
        scope := m.scope, returning := m.returning, result := m.result, depth := n.depth - 1 }
      { n' with
        scope := m'.scope, returning := m'.returning, result := m'.result,
        depth := n'.depth - 1 } :=
    fun n n' hn =>
      ⟨hn.store, hm.scope, hm.returning, hm.result, congrArg (· - 1) hn.depth, hn.out⟩
  simp only [inCall]
  unfold Machine.calling at h
  generalize g c.body _ = r at h ⊢
  generalize g' c'.body _ = r' at h ⊢
  cases h with
  | ok _ hn =>
    refine .ok ?_ (hrestore _ _ hn)
    rw [hn.returning, hn.result]
  | error hn => exact .error (hrestore _ _ hn)

end Ends

/-! The steps at nodes. -/

section Nodes

variable {s s' : Store} {e : ScopeId} {x : String} {o o' oₓ : Int} {v w : Value} {cs ts : List Tree}

theorem lookupAt_ident (o oₓ : Int) (x : String) (e : ScopeId) (s : Store) :
    (form .lookup o [ident oₓ x]).lookupAt e s =
    (s.get? e x).elim (.error (.condition .undefinedVariable (form .lookup o [ident oₓ x])))
      fun v => .ok (v, s) := by
  cases h : s.get? e x <;> simp [lookupAt, named, child, children_form, name?, ident, h]

theorem locateAt_ident (o oₓ : Int) (x : String) (e : ScopeId) (s : Store) :
    (form .varLoc o [ident oₓ x]).locateAt e s =
    (s.locate e x).elim
      (.error (.condition .undefinedVariable (form .varLoc o [ident oₓ x]))) fun i =>
      .ok ((i, x), s) := by
  cases h : s.locate e x <;> simp [locateAt, form, named, child, children, name?, ident, h]

theorem answers_lookup (hs : s.Respelled ρ D s') (hx : x ≠ ρ.new)
    (hdeclared : ∀ i d, s.locate e x = some i → ρ.DeclaresAt x d → D i x d →
      ρ.name d x = ρ.name oₓ x) :
    ρ.Answers D Eq ((form .lookup o [ident oₓ x]).lookupAt e s)
      ((ρ.tree (form .lookup o [ident oₓ x])).lookupAt e s') := by
  have hget := hs.get?_eq (ρ.spells hx oₓ) fun i hi => hs.matches_of_declared fun d =>
    hdeclared i d hi
  rw [tree_form, List.map_singleton, tree_ident, lookupAt_ident, lookupAt_ident, hget]
  cases s.get? e x with
  | none => exact .error
  | some v => exact .ok rfl hs

/-- What is located: the same scope, in which the names match. -/
structure Locates (ρ : Respelling) (D : ScopeId → String → Int → Prop)
    (p p' : ScopeId × String) : Prop where
  scope : p'.1 = p.1
  spells : ρ.Spells p.2 p'.2
  declared : ∀ d, ρ.DeclaresAt p.2 d → D p.1 p.2 d → ρ.name d p.2 = p'.2

theorem answers_locate (hs : s.Respelled ρ D s') (hx : x ≠ ρ.new)
    (hdeclared : ∀ i d, s.locate e x = some i → ρ.DeclaresAt x d → D i x d →
      ρ.name d x = ρ.name oₓ x) :
    ρ.Answers D (ρ.Locates D) ((form .varLoc o [ident oₓ x]).locateAt e s)
      ((ρ.tree (form .varLoc o [ident oₓ x])).locateAt e s') := by
  have hlocate := hs.locate_eq (ρ.spells hx oₓ) fun i hi => hs.matches_of_declared fun d =>
    hdeclared i d hi
  rw [tree_form, List.map_singleton, tree_ident, locateAt_ident, locateAt_ident, hlocate]
  cases hi : s.locate e x with
  | none => exact .error
  | some i => exact .ok ⟨rfl, ρ.spells hx oₓ, fun d => hdeclared i d hi⟩ hs

theorem answers_assign {p p' : ScopeId × String} (hs : s.Respelled ρ D s') (h : ρ.Locates D p p')
    (v : Value) : ρ.Answers D Eq (Store.assignAt p v e s) (Store.assignAt p' v e s') := by
  refine .ok rfl ?_
  rw [h.scope]
  exact hs.set h.spells (hs.matches_of_declared h.declared) v

/-- Tags stay. -/
theorem name?_tag {t : Tree} (ht : IsTag t) : (ρ.tree t).name? = t.name? := by
  have hleaf : ∀ (o : Int) (y : String), Grammar.isReserved y = true →
      (ρ.tree (ident o y)).name? = (ident o y).name? := by
    intro o y hy
    have hne : y ≠ ρ.old := by
      rintro rfl
      rw [ρ.unreserved] at hy
      cases hy
    rw [tree_ident, ρ.name_of_ne hne]
    rfl
  obtain ⟨o, y, rfl, rfl | rfl⟩ | ⟨o, rfl⟩ := ht
  · exact hleaf o "int" (by decide)
  · exact hleaf o "func" (by decide)
  · exact hleaf o genericType (by decide)

theorem declareAt_of_name {node : Tree} (hx : (node.child 0).name? = some x) :
    node.declareAt v e s = match s.define e x v ((node.child 2).name?.getD "") with
      | none => .error (.condition .variableAlreadyDefined node)
      | some d => .ok ((), match v with | .int _ => d | .closure id => d.nameClosure id x) := by
  simp only [declareAt, named, hx]
  cases s.define e x v ((node.child 2).name?.getD "") with
  | none => rfl
  | some d => cases v <;> rfl

theorem answers_declare {type : List Tree} {value : Tree} (hs : s.Respelled ρ D s')
    (hmark : ρ.DeclaresAt x oₓ) (hdeclared : D e x oₓ) (hfree : ¬ s.Binds e x)
    (htype : ∀ t ∈ type, IsType t) :
    ρ.Answers D Eq ((form .declare o (ident oₓ x :: value :: type)).declareAt v e s)
      ((ρ.tree (form .declare o (ident oₓ x :: value :: type))).declareAt v e s') := by
  have htag : ((ρ.tree (form .declare o (ident oₓ x :: value :: type))).child 2).name? =
      ((form .declare o (ident oₓ x :: value :: type)).child 2).name? := by
    rw [tree_form]
    cases type with
    | nil => rfl
    | cons tag type => exact name?_tag (.inl (htype tag List.mem_cons_self))
  have hname : ((ρ.tree (form .declare o (ident oₓ x :: value :: type))).child 0).name? =
      some (ρ.name oₓ x) := by
    rw [tree_form]
    rfl
  rw [declareAt_of_name (x := x) rfl, declareAt_of_name hname, htag]
  have hdefine := hs.define (e := e) ⟨oₓ, hmark, hdeclared, rfl⟩ hfree v
    (((form .declare o (ident oₓ x :: value :: type)).child 2).name?.getD "")
  generalize s.define e x v _ = d at hdefine ⊢
  generalize s'.define e (ρ.name oₓ x) v _ = d' at hdefine ⊢
  cases hdefine with
  | none => exact .error
  | some hd =>
    cases v with
    | int n => exact .ok rfl hd
    | closure id => exact .ok rfl (hd.nameClosure id x (ρ.name oₓ x))

theorem names_params {params : List Tree} (hparams : ∀ x ∈ params, IsIdent x) {names : List String}
    (hnames : params.mapM name? = some names) (hmarks : params.map (mark true) ⊆ ρ.program.marks) :
    ∃ names', (params.map ρ.tree).mapM name? = some names' ∧
      List.Forall₂ (ρ.Declares fun x o => ident o x ∈ params) names names' := by
  induction params generalizing names with
  | nil =>
    cases hnames
    exact ⟨[], rfl, .nil⟩
  | cons t params ih =>
    rw [List.forall_mem_cons] at hparams
    obtain ⟨⟨oₓ, x, rfl, -⟩, hparams⟩ := hparams
    simp only [List.mapM_cons, Option.bind_eq_bind, Option.bind_eq_some_iff, Option.pure_def,
      Option.some.injEq] at hnames
    obtain ⟨_, ⟨⟩, xs, hxs, rfl⟩ := hnames
    rw [List.map_cons, List.cons_subset] at hmarks
    obtain ⟨names', hnames', hdeclares⟩ := ih hparams hxs hmarks.2
    refine ⟨ρ.name oₓ x :: names', ?_,
      .cons ⟨oₓ, hmarks.1, List.mem_cons_self, rfl⟩ (hdeclares.imp ?_)⟩
    · rw [List.map_cons, tree_ident, List.mapM_cons, hnames']
      rfl
    · rintro y y' ⟨o, hmark, ho, rfl⟩
      exact ⟨o, hmark, List.mem_cons_of_mem _ ho, rfl⟩

theorem names_tags {tags : List Tree} (htags : ∀ t ∈ tags, IsTag t) :
    (tags.map ρ.tree).mapM name? = tags.mapM name? := by
  induction tags with
  | nil => rfl
  | cons t tags ih =>
    rw [List.forall_mem_cons] at htags
    rw [List.map_cons, List.mapM_cons, List.mapM_cons, name?_tag htags.1, ih htags.2]

/-- The function of a node whose parameters have distinct names. -/
theorem ofNode?_eq {fn : Tree} {names : List String} (hnames : fn.paramNames? = some names)
    (hdistinct : names.Nodup) :
    (fn.child 2 = .absent → Closure.ofNode? fn e = some (.ok
      { params := names, body := fn.child 1, scope := e, signature := none, node := fn })) ∧
    ∀ tags, (fn.child 2).isAbsent = false → (fn.child 2).typeTags? = some tags →
      Closure.ofNode? fn e = some (.ok
        { params := names, body := fn.child 1, scope := e, signature := some tags,
          node := fn }) := by
  simp only [Closure.ofNode?, hnames, Option.bind_eq_bind, Option.bind_some]
  cases fn.child 2 with
  | absent => exact ⟨fun _ => if_pos hdistinct, fun _ hpresent => absurd hpresent (by decide)⟩
  | node l o cs =>
    refine ⟨by simp, fun tags _ htags => ?_⟩
    simp only [htags, Option.map_some, Option.bind_some]
    exact if_pos hdistinct

theorem answers_closure {params sig : List Tree} {body : Tree} {names : List String}
    (hs : s.Respelled ρ D s') (hparams : ∀ x ∈ params, IsIdent x)
    (hsig : IsSignature params.length sig)
    (hnames : (form .function o (form .parameters o' params :: body :: sig)).paramNames? =
      some names) (hdistinct : names.Nodup) (hmarks : params.map (mark true) ⊆ ρ.program.marks) :
    ρ.Answers D Eq ((form .function o (form .parameters o' params :: body :: sig)).closureAt e s)
      ((ρ.tree (form .function o (form .parameters o' params :: body :: sig))).closureAt e s') := by
  obtain ⟨names', hparamNames, hdeclares⟩ := names_params (ρ := ρ) hparams hnames hmarks
  have hnames' :
      (ρ.tree (form .function o (form .parameters o' params :: body :: sig))).paramNames? =
        some names' := by
    rw [tree_form, List.map_cons, tree_form]
    exact hparamNames
  obtain ⟨hplain, hannotated⟩ := ofNode?_eq (e := e) hnames hdistinct
  have hdistinct' := nodup_of_spells (hdeclares.imp fun _ _ h => h.spells) hdistinct
  obtain ⟨hplain', hannotated'⟩ := ofNode?_eq (e := e) hnames' hdistinct'
  have hbody : (ρ.tree (form .function o (form .parameters o' params :: body :: sig))).child 1 =
      ρ.tree body := by
    rw [tree_form]
    rfl
  obtain ⟨c, c', hc, hc', hrel⟩ : ∃ c c',
      Closure.ofNode? (form .function o (form .parameters o' params :: body :: sig)) e =
        some (.ok c) ∧
      Closure.ofNode? (ρ.tree (form .function o (form .parameters o' params :: body :: sig))) e =
        some (.ok c') ∧
      c.Respelled ρ c' := by
    obtain rfl | ⟨oₛ, tags, rfl, -, htags, -⟩ := hsig
    · have habsent :
          (ρ.tree (form .function o [form .parameters o' params, body])).child 2 = .absent := by
        rw [tree_form]
        rfl
      exact ⟨_, _, hplain rfl, hplain' habsent, hdeclares, hdistinct, hbody, rfl, rfl⟩
    · have hsignature : (ρ.tree
          (form .function o [form .parameters o' params, body, form .signature oₛ tags])).child 2 =
          form .signature (ρ.place oₛ) (tags.map ρ.tree) := by
        rw [tree_form, List.map_cons, List.map_cons, List.map_singleton,
          tree_form (f := .signature)]
        rfl
      obtain ⟨texts, htexts⟩ := mapM_name?_of_leaves fun t ht => (htags t ht).leaf
      have htexts' :
          ((ρ.tree
            (form .function o [form .parameters o' params, body, form .signature oₛ tags])).child
            2).typeTags? =
            some texts := by
        rw [hsignature]
        exact (names_tags htags).trans htexts
      exact ⟨_, _, hannotated texts rfl htexts, hannotated' texts (by rw [hsignature]; rfl) htexts',
        hdeclares, hdistinct, hbody, rfl, rfl⟩
  simp only [closureAt, hc, hc', Store.newClosure, hs.size_closures]
  exact .ok rfl (hs.newClosure hrel)

theorem answers_operate {op : BinaryOp} (hs : s.Respelled ρ D s') :
    ρ.Answers D Eq ((form (.binary op) o cs).operateAt op v w e s)
      ((ρ.tree (form (.binary op) o cs)).operateAt op v w e s') := by
  unfold operateAt
  cases op.apply v w with
  | ok u => exact .ok rfl hs
  | error c => exact .error

theorem answers_callee (hs : s.Respelled ρ D s') {t : Tree} :
    ρ.Answers D (fun p p' : ClosureId × Closure => p'.1 = p.1 ∧ p.2.Respelled ρ p'.2)
      (t.calleeAt v e s) ((ρ.tree t).calleeAt v e s') := by
  cases v with
  | int n => exact .error
  | closure id =>
    have hid := hs.closures id
    simp only [calleeAt, Store.closure?]
    generalize s.closures[id]? = c at hid ⊢
    generalize s'.closures[id]? = c' at hid ⊢
    cases hid with
    | none => exact .error
    | some hc => exact .ok ⟨rfl, hc⟩ hs

end Nodes

theorem ends_evalArguments {m m' : Machine} {g : Tree → Action Value} {o o' : Int} {callee : Tree}
    {args : List Tree} (h : ρ.Ends D Eq (evalAll g args m) (evalAll g (args.map ρ.tree) m')) :
    ρ.Ends D Eq (evalArguments g (form .call o [callee, form .arguments o' args]) m)
      (evalArguments g (ρ.tree (form .call o [callee, form .arguments o' args])) m') := by
  rw [tree_form, List.map_cons, List.map_singleton, tree_form]
  exact h

/-- The number of arguments and the depth of calls are the same. -/
theorem ends_checkCall {m m' : Machine} {c c' : Closure} {t : Tree} (hm : m.Respelled ρ D m')
    (hc : c.Respelled ρ c') (args : List Value) :
    ρ.Ends D Eq (checkCall options t c args m) (checkCall options (ρ.tree t) c' args m') := by
  unfold checkCall
  rw [← hc.params.length_eq]
  split
  · exact .error hm
  · show ρ.Ends D Eq
      ((if 0 < options.maxDepth ∧ options.maxDepth ≤ m.depth then raise .stackOverflow t
      else pure () : Action Unit) m) ((if 0 < options.maxDepth ∧ options.maxDepth ≤ m'.depth then
        raise .stackOverflow (ρ.tree t) else pure () : Action Unit) m')
    rw [hm.depth]
    split
    · exact .error hm
    · exact .ok rfl hm

/-- A node with names of the program that keeps to the rules of declarations. -/
structure Tame (ρ : Respelling) (c : Context) (t : Tree) : Prop where
  marks : t.ownMarks ⊆ ρ.program.marks
  parameters : t.isForm .function = true → ∀ names, t.paramNames? = some names → names.Nodup
  declarations : t.isForm .declare = true → ∀ x, (t.child 0).name? = some x → x ∉ c.bound

theorem Tame.use {c : Context} {t : Tree} {x : String} (h : ρ.Tame c t) (hx : t.UsesName x) :
    x ≠ ρ.new := by
  have hmarks := h.marks
  rw [ownMarks_of_isUse hx.1] at hmarks
  have hfresh := ρ.fresh _ (hmarks (List.mem_singleton_self _))
  rwa [mark, hx.2] at hfresh

end Respelling

namespace Task

/-- A task that declares the name `x`, which stands at `d`, in the scope `e`: the turn of a
declaration, or that of a call of a function with such a parameter. -/
inductive Declares (options : Options) (e : ScopeId) (x : String) (d : Int) : Task → Prop where
  | declaration {n o cs m v m₁} :
      ClosureLang.eval options n ((form .declare o cs).child 1)
        (m.within options "execute" (form .declare o cs)) = .ok v m₁ →
      (form .declare o cs).child 0 = ident d x → m₁.scope = e →
      Declares options e x d (exec (n + 1) (form .declare o cs) m)
  | parameter {n o cs m v m₁ callee m₂ args m₃ m₄} :
      ClosureLang.eval options n ((form .call o cs).child 0)
        (m.within options "evaluate" (form .call o cs)) = .ok v m₁ →
      onStore ((form .call o cs).calleeAt v) m₁ = .ok callee m₂ →
      evalArguments (ClosureLang.eval options n) (form .call o cs) m₂ = .ok args m₃ →
      checkCall options (form .call o cs) callee.2 args m₃ = .ok () m₄ →
      ident d x ∈ (callee.2.node.child 0).children →
      (m₄.calling options callee.1 callee.2 args).scope = e →
      Declares options e x d (eval (n + 1) (form .call o cs) m)

/-- Where the names are declared that a run has declared in a scope. -/
def DeclaredBy (options : Options) (root : Task) (e : ScopeId) (x : String) (d : Int) : Prop :=
  ∃ τ, Reaches options root τ ∧ τ.Declares options e x d

end Task

namespace Respelling

/-- What a run must keep to: its nodes are tame, and a use of a variable is respelled as the
declaration of the variable is. -/
structure Fits (ρ : Respelling) (options : Options) (root : Task) : Prop where
  placed : ∃ φ, root.Placed ρ.Tame φ
  uses : ∀ {τ u m x e d}, Task.Reaches options root τ → τ.Uses u m → u.UsesName x →
      m.store.locate m.scope x = some e →
    ρ.DeclaresAt x d → Task.DeclaredBy options root e x d → ρ.name d x = ρ.name u.useOffset x

/-- A task ends as the task of the respelled program does. -/
def Follows (ρ : Respelling) (D : ScopeId → String → Int → Prop) (options : Options) : Task → Prop
  | .eval n t m =>
    ∀ m', m.Respelled ρ D m' → ρ.Ends D Eq (eval options n t m) (eval options n (ρ.tree t) m')
  | .exec n t m =>
    ∀ m', m.Respelled ρ D m' → ρ.Ends D Eq (exec options n t m) (exec options n (ρ.tree t) m')
  | .evalAll n ts m => ∀ m', m.Respelled ρ D m' →
      ρ.Ends D Eq (evalAll (eval options n) ts m) (evalAll (eval options n) (ts.map ρ.tree) m')
  | .execAll n ts m => ∀ m', m.Respelled ρ D m' →
      ρ.Ends D Eq (execAll (exec options n) ts m) (execAll (exec options n) (ts.map ρ.tree) m')
  | .loop n cond body m => ∀ m', m.Respelled ρ D m' →
      ρ.Ends D Eq (loop options n cond body m) (loop options n (ρ.tree cond) (ρ.tree body) m')
  | .locate _ _ => True

section Lists

variable {n : Nat} {t cond body : Tree} {ts : List Tree} {m : Machine}

theorem follows_evalAll (ih : ∀ τ, Task.Starts options (.evalAll n ts m) τ →
    ρ.Follows D options τ) : ρ.Follows D options (.evalAll n ts m) := by
  intro m' hm
  cases ts with
  | nil => exact .ok rfl hm
  | cons t ts =>
    refine .bind (ih _ .argument m' hm) fun v v' m₁ m₁' hv _ heq hm₁ => ?_
    subst heq
    refine .bind (ih _ (.laterArguments hv) m₁' hm₁) fun vs vs' m₂ m₂' _ _ heq hm₂ => ?_
    subst heq
    exact .ok rfl hm₂

theorem follows_execAll (ih : ∀ τ, Task.Starts options (.execAll n ts m) τ →
    ρ.Follows D options τ) : ρ.Follows D options (.execAll n ts m) := by
  intro m' hm
  cases ts with
  | nil => exact .ok rfl hm
  | cons t ts =>
    show ρ.Ends D Eq
      ((if m.returning then
        pure () else exec options n t >>= fun _ => execAll (exec options n) ts : Action Unit) m)
      ((if m'.returning then pure () else exec options n (ρ.tree t) >>= fun _ =>
        execAll (exec options n) (ts.map ρ.tree) : Action Unit) m')
    rw [hm.returning]
    split
    · exact .ok rfl hm
    · rename_i hreturning
      rw [Bool.not_eq_true] at hreturning
      refine .bind (ih _ (.statement hreturning) m' hm) fun _ _ m₁ m₁' ht _ _ hm₁ => ?_
      exact ih _ (.laterStatements hreturning ht) m₁' hm₁

theorem follows_loop (ih : ∀ τ, Task.Starts options (.loop (n + 1) cond body m) τ →
    ρ.Follows D options τ) : ρ.Follows D options (.loop (n + 1) cond body m) := by
  intro m' hm
  show ρ.Ends D Eq ((if m.returning then pure () else eval options n cond >>= fun v =>
      if v.truthy then inScope (exec options n body) >>= fun _ => loop options n cond body
      else pure () : Action Unit) m)
    ((if m'.returning then pure () else eval options n (ρ.tree cond) >>= fun v =>
      if v.truthy then inScope (exec options n (ρ.tree body)) >>= fun _ =>
        loop options n (ρ.tree cond) (ρ.tree body)
      else pure () : Action Unit) m')
  rw [hm.returning]
  split
  · exact .ok rfl hm
  · rename_i hreturning
    rw [Bool.not_eq_true] at hreturning
    refine .bind (ih _ (.condition hreturning) m' hm) fun v v' m₁ m₁' hv _ heq hm₁ => ?_
    subst heq
    split
    · rename_i htruthy
      refine .bind (.inScope hm₁ (ih _ (.iteration hreturning hv htruthy) m₁'.inBlock hm₁.inBlock))
        fun _ _ m₂ m₂' hbody _ _ hm₂ => ?_
      exact ih _ (.again hreturning hv htruthy hbody) m₂' hm₂
    · exact .ok rfl hm₁

end Lists

section Steps

variable {n : Nat} {t cond body : Tree} {m : Machine} {root : Task}

/-- What is tame where a task stands. -/
theorem Fits.placed_at (h : ρ.Fits options root) {τ : Task} (hτ : Task.Reaches options root τ) :
    ∃ φ, τ.Placed ρ.Tame φ := by
  obtain ⟨φ, hplaced⟩ := h.placed
  exact Task.placed_of_reaches hplaced hτ

theorem ends_locate (h : ρ.Fits options root) (hτ : Task.Reaches options root (.locate t m))
    (ht : ∃ o oₓ x, t = form .varLoc o [ident oₓ x]) {m' : Machine}
    (hm : m.Respelled ρ (Task.DeclaredBy options root) m') :
    ρ.Ends (Task.DeclaredBy options root) (ρ.Locates (Task.DeclaredBy options root))
      (locate options t m) (locate options (ρ.tree t) m') := by
  obtain ⟨o, oₓ, x, rfl⟩ := ht
  obtain ⟨φ, c, -, hsited⟩ := h.placed_at hτ
  have huse : (form .varLoc o [ident oₓ x]).UsesName x := ⟨rfl, rfl⟩
  obtain ⟨m₁, hm₁, hlocate⟩ := Task.locate_varLoc options o [ident oₓ x] m
  have htree : ρ.tree (form .varLoc o [ident oₓ x]) =
      form .varLoc (ρ.place o) [ident (ρ.place oₓ) (ρ.name oₓ x)] := by
    rw [tree_form, List.map_singleton, tree_ident]
  obtain ⟨m₁', hm₁', hlocate'⟩ :=
    Task.locate_varLoc options (ρ.place o) [ident (ρ.place oₓ) (ρ.name oₓ x)] m'
  rw [hlocate, htree, hlocate', ← htree]
  refine .onStore (hm.congr hm₁ hm₁') ?_
  rw [hm₁.scope, hm₁.store]
  have hstore := hm.congr hm₁ hm₁'
  exact answers_locate (hm₁.store ▸ hstore.store) (hsited.here.use huse)
    fun i d hi hmark hd => h.uses hτ (.target rfl) huse hi hmark hd

theorem follows_eval (h : ρ.Fits options root) (hτ : Task.Reaches options root (.eval (n + 1) t m))
    (ih : ∀ τ, Task.Starts options (.eval (n + 1) t m) τ →
      ρ.Follows (Task.DeclaredBy options root) options τ) :
    ρ.Follows (Task.DeclaredBy options root) options (.eval (n + 1) t m) := by
  obtain ⟨φ, c, -, hplace, hsited⟩ := h.placed_at hτ
  intro m' hm
  have hwithin := fun t' => hm.within options options "evaluate" "evaluate" t t'
  cases hplace with
  | @int o w =>
    rw [tree_int, int, int, Evaluation.integer.eq, Evaluation.integer.eq]
    exact .traced (.ok rfl (hwithin _))
  | @lookup o x hx =>
    obtain ⟨oₓ, x, rfl, -⟩ := hx
    have huse : (form .lookup o [ident oₓ x]).UsesName x := ⟨rfl, rfl⟩
    rw [tree_form, Evaluation.lookup.eq, Evaluation.lookup.eq, ← tree_form]
    refine .traced (.onStore (hwithin _) ?_)
    refine answers_lookup (hwithin _).store (hsited.here.use huse) fun i d hi hmark hd => ?_
    rw [Machine.within_store, Machine.within_scope] at hi
    exact h.uses hτ (.read rfl) huse hi hmark hd
  | @binary op o l r =>
    rw [binary, tree_form, Evaluation.binary.eq, Evaluation.binary.eq, ← tree_form]
    refine .traced (.bind (ih _ (.operand rfl) _ (hwithin _)) fun v v' m₁ m₁' hv _ heq hm₁ => ?_)
    subst heq
    refine .bind (ih _ (.right hv) _ hm₁) fun w w' m₂ m₂' _ _ heq hm₂ => ?_
    subst heq
    exact .onStore hm₂ (answers_operate hm₂.store)
  | @not o u =>
    rw [tree_form, Evaluation.not.eq, Evaluation.not.eq, ← tree_form]
    refine .traced (.bind (ih _ (.operand rfl) _ (hwithin _)) fun v v' m₁ m₁' _ _ heq hm₁ => ?_)
    subst heq
    exact .ok rfl hm₁
  | @call o o' callee args =>
    rw [tree_form, Evaluation.call.eq, Evaluation.call.eq, ← tree_form]
    refine .traced (.bind (ih _ (.operand rfl) _ (hwithin _)) fun v v' m₁ m₁' hv _ heq hm₁ => ?_)
    subst heq
    refine .bind (.onStore hm₁ (answers_callee hm₁.store)) fun f f' m₂ m₂' hf _ hff' hm₂ => ?_
    refine .bind (ends_evalArguments (ih _ (.arguments hv hf rfl) _ hm₂))
      fun vs vs' m₃ m₃' hvs _ heq hm₃ => ?_
    subst heq
    refine .bind (ends_checkCall hm₃ hff'.2 vs) fun _ _ m₄ m₄' hcheck _ _ hm₄ => ?_
    rw [hff'.1]
    refine .enterCall hm₄ ?_
    rw [hff'.2.body]
    refine ih _ (.body hv hf hvs hcheck) _ (hm₄.calling hff'.2 options f.1 vs fun x d hx => ?_)
    exact ⟨_, hτ, .parameter hv hf hvs hcheck hx rfl⟩
  | @function o o' params body sig hparams hbody hsig =>
    rw [tree_form, Evaluation.function.eq, Evaluation.function.eq, ← tree_form]
    refine .traced (.onStore (hwithin _) ?_)
    obtain ⟨names, hnames⟩ := mapM_name?_of_leaves fun x hx => (hparams x hx).leaf
    exact answers_closure (hwithin _).store hparams hsig hnames
      (hsited.here.parameters rfl names hnames) (hsited.body hnames List.mem_cons_self).here.marks

/-- The same for an expression that is executed: its value is dropped. -/
theorem follows_expression (ht : InPlace .expression t)
    (ih : ∀ τ, Task.Starts options (.exec (n + 1) t m) τ → ρ.Follows D options τ) :
    ρ.Follows D options (.exec (n + 1) t m) := by
  obtain ⟨l, o, cs, rfl, hfragment, hstatement⟩ : ∃ l o cs, t = node l o cs ∧
      l.kind.isFragment = false ∧
      l.kind.isStatement = false := by
    cases ht <;> exact ⟨_, _, _, rfl, rfl, rfl⟩
  have htree : ρ.tree (node l o cs) = node (l.rename (ρ.name o)) (ρ.place o) (cs.map ρ.tree) := by
    rw [tree, relabel, relabelAll_eq_map]
    rfl
  have hkind : (l.rename (ρ.name o)).kind = l.kind := by cases l <;> rfl
  intro m' hm
  rw [(Execution.expression hfragment hstatement).eq, htree,
    (Execution.expression (by rwa [hkind]) (by rwa [hkind])).eq, ← htree]
  refine .traced (.bind (ih _ (.expression hfragment hstatement) _ (hm.within ..))
    fun _ _ m₁ m₁' _ _ _ hm₁ => ?_)
  exact .ok rfl hm₁

theorem follows_declare {o oₓ : Int} {x : String} {value : Tree} {type : List Tree}
    (h : ρ.Fits options root)
    (hτ : Task.Reaches options root
      (.exec (n + 1) (form .declare o (ident oₓ x :: value :: type)) m))
    (htype : ∀ t ∈ type, IsType t)
    (ih : ∀ τ,
      Task.Starts options (.exec (n + 1) (form .declare o (ident oₓ x :: value :: type)) m) τ →
      ρ.Follows (Task.DeclaredBy options root) options τ) :
    ρ.Follows (Task.DeclaredBy options root) options
      (.exec (n + 1) (form .declare o (ident oₓ x :: value :: type)) m) := by
  obtain ⟨φ, c, role, hscoped, hplace, hsited, -⟩ := h.placed_at hτ
  intro m' hm
  rw [tree_form, Execution.declare.eq, Execution.declare.eq, ← tree_form]
  refine .traced (.bind (ih _ (.subject rfl) _ (hm.within ..)) fun v v' m₁ m₁' hv _ heq hm₁ => ?_)
  subst heq
  have hfree := hsited.here.declarations rfl x rfl
  have hmark : ρ.DeclaresAt x oₓ := hsited.here.marks (List.mem_singleton_self _)
  obtain ⟨φ', -, hm₁'⟩ :=
    Task.scoped_of_subject (fun τ _ => Task.keeps τ) hscoped hplace hsited rfl hv
  refine .onStore hm₁ (answers_declare hm₁.store hmark ⟨_, hτ, .declaration hv rfl rfl⟩
    (fun hbinds => hfree ?_) htype)
  exact hm₁'.here.bound hm₁'.typed.older hbinds

theorem follows_exec (h : ρ.Fits options root) (hτ : Task.Reaches options root (.exec (n + 1) t m))
    (ih : ∀ τ, Task.Starts options (.exec (n + 1) t m) τ →
      ρ.Follows (Task.DeclaredBy options root) options τ) :
    ρ.Follows (Task.DeclaredBy options root) options (.exec (n + 1) t m) := by
  obtain ⟨φ, c, role, -, hplace, -⟩ := h.placed_at hτ
  cases role with
  | expression => exact follows_expression hplace ih
  | block =>
    intro m' hm
    cases hplace with
    | @block o ts hts =>
      rw [tree_form, Execution.sequence.eq, Execution.sequence.eq, ← tree_form]
      exact .traced (ih _ .statements _ (hm.within ..))
  | statement =>
    cases hplace with
    | @declare o x value type hx hvalue htype hlen =>
      obtain ⟨oₓ, x, rfl, -⟩ := hx
      exact follows_declare h hτ htype ih
    | expression ht => exact follows_expression ht ih
    | @assign o o' x value hx hvalue =>
      obtain ⟨oₓ, x, rfl, -⟩ := hx
      intro m' hm
      rw [tree_form, Execution.assign.eq, Execution.assign.eq, ← tree_form]
      refine .traced
        (.bind (ih _ (.subject rfl) _ (hm.within ..)) fun v v' m₁ m₁' hv _ heq hm₁ => ?_)
      subst heq
      refine .bind (ends_locate h (hτ.tail (.target hv)) ⟨o', oₓ, x, rfl⟩ hm₁)
        fun p p' m₂ m₂' _ _ hp hm₂ => ?_
      exact .onStore hm₂ (answers_assign hm₂.store hp v)
    | @print o u hu =>
      intro m' hm
      rw [tree_form, Execution.print.eq, Execution.print.eq, ← tree_form]
      refine .traced
        (.bind (ih _ (.subject rfl) _ (hm.within ..)) fun v v' m₁ m₁' _ _ heq hm₁ => ?_)
      subst heq
      exact .ok rfl ⟨hm₁.store, hm₁.scope, hm₁.returning, hm₁.result,
        hm₁.depth, by simp only [hm₁.out]⟩
    | @ret o u hu =>
      intro m' hm
      rw [tree_form, Execution.ret.eq, Execution.ret.eq, ← tree_form]
      refine .traced ?_
      have hm₁ :=
        hm.within options options "execute" "execute" (form .ret o [u]) (ρ.tree (form .ret o [u]))
      show ρ.Ends _ Eq ((if (m.within options "execute" (form .ret o [u])).depth = 0 then
          raise .illegalReturn (form .ret o [u]) else eval options n u >>= setOut : Action Unit) _)
        ((if (m'.within options "execute" (ρ.tree (form .ret o [u]))).depth = 0 then
          raise .illegalReturn (ρ.tree (form .ret o [u]))
          else eval options n (ρ.tree u) >>= setOut : Action Unit) _)
      rw [hm₁.depth]
      split
      · exact .error hm₁
      · rename_i hdepth
        refine .bind (ih _ (.result (by simpa using hdepth)) _ hm₁)
          fun v v' m₂ m₂' _ _ heq hm₂ => ?_
        subst heq
        exact .ok rfl ⟨hm₂.store, hm₂.scope, rfl, rfl, hm₂.depth, hm₂.out⟩
    | @ifThen o cond body hcond hbody =>
      intro m' hm
      rw [tree_form, Execution.ifThen.eq, Execution.ifThen.eq, ← tree_form]
      refine .traced
        (.bind (ih _ (.subject rfl) _ (hm.within ..)) fun v v' m₁ m₁' hv _ heq hm₁ => ?_)
      subst heq
      split
      · rename_i htruthy
        exact .inScope hm₁ (ih _ (.branch hv htruthy) _ hm₁.inBlock)
      · exact .ok rfl hm₁
    | @ifElse o cond body alternative hcond hbody halternative =>
      intro m' hm
      rw [tree_form, Execution.ifElse.eq, Execution.ifElse.eq, ← tree_form]
      refine .traced
        (.bind (ih _ (.subject rfl) _ (hm.within ..)) fun v v' m₁ m₁' hv _ heq hm₁ => ?_)
      subst heq
      have hstart := ih _ (.alternative hv) _ hm₁.inBlock
      split
      · rename_i htruthy
        rw [if_pos htruthy] at hstart
        exact .inScope hm₁ hstart
      · rename_i htruthy
        rw [if_neg htruthy] at hstart
        exact .inScope hm₁ hstart
    | @whileDo o cond body hcond hbody =>
      intro m' hm
      rw [tree_form, Execution.whileDo.eq, Execution.whileDo.eq, ← tree_form]
      exact .traced (ih _ .repetition _ (hm.within ..))

/-- The run lemma: whatever a fitting run gets to, the respelled program does alike. -/
theorem follows (h : ρ.Fits options root) (τ : Task) (hτ : Task.Reaches options root τ) :
    ρ.Follows (Task.DeclaredBy options root) options τ := by
  induction τ using Task.induction options with
  | h τ ih =>
    have hstarted : ∀ τ', Task.Starts options τ τ' →
        ρ.Follows (Task.DeclaredBy options root) options τ' :=
      fun τ' hstart => ih τ' hstart (hτ.tail hstart)
    cases τ with
    | eval fuel t m =>
      cases fuel with
      | zero => exact fun _ hm => .error hm
      | succ n => exact follows_eval h hτ hstarted
    | exec fuel t m =>
      cases fuel with
      | zero => exact fun _ hm => .error hm
      | succ n => exact follows_exec h hτ hstarted
    | loop fuel cond body m =>
      cases fuel with
      | zero => exact fun _ hm => .error hm
      | succ n => exact follows_loop hstarted
    | evalAll => exact follows_evalAll hstarted
    | execAll => exact follows_execAll hstarted
    | locate => trivial

theorem respelled_ready : (Machine.ready {}).Respelled ρ D (Machine.ready {}) where
  store := {
    scopes := fun e => by
      show Option.Rel _ Store.initial.scopes[e]? Store.initial.scopes[e]?
      rcases e with _ | e
      · exact .some ⟨rfl, .nil⟩
      · exact .none
    closures := fun id => .none }
  scope := rfl
  returning := rfl
  result := rfl
  depth := rfl
  out := rfl

/-- The respelled program prints the same, and stops for the same reason at the same node, if it
does. -/
theorem runWith_tree {fuel : Nat} (hfold : options.fold = false)
    (h : ρ.Fits options (.exec fuel t (Machine.ready {}))) :
    (runWith fuel options (ρ.tree t) {}).1.out = (runWith fuel options t {}).1.out ∧
      (runWith fuel options (ρ.tree t) {}).1.stop =
        (runWith fuel options t {}).1.stop.map ρ.stop := by
  have hprepare : ∀ u, options.prepare u = some u := by
    intro u
    rw [Options.prepare, hfold, if_neg Bool.false_ne_true]
  have hends := follows h _ .refl _ respelled_ready
  simp only [runWith, hprepare]
  generalize exec options fuel t _ = r at hends ⊢
  generalize exec options fuel (ρ.tree t) _ = r' at hends ⊢
  cases hends with
  | ok _ hm => exact ⟨by simp only [hm.out], rfl⟩
  | @error s m m' hm => cases s <;> exact ⟨by simp only [stop, Stop.mapNode, hm.out], rfl⟩

end Steps

end Respelling

end ClosureLang
