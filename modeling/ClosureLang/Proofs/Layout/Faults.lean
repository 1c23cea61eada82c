import ClosureLang.Proofs.Layout.Printing
import ClosureLang.Proofs.Tree.Shapes
import ClosureLang.Proofs.Tree.Uses

/-! A valid tree without a text holds a node that cannot be printed: none that is needed is
missing. -/
namespace ClosureLang.Layout

open ClosureLang.Tree

variable {α β : Type} {style : Style} {src : String} {level : Nat} {t : Tree} {l : Label} {o : Int}
  {ts cs : List Tree}

/-- If there is no text, a node of `t` is to blame. -/
def Blames (t : Tree) (x : Except LayoutError α) : Prop :=
  ∀ e, x = .error e → ∃ u ∈ t.nodes, e = .unprintable u

namespace Blames

theorem ok (a : α) : Blames t (.ok a) := nofun

theorem bind {x : Except LayoutError α} {f : α → Except LayoutError β} (hx : Blames t x)
    (hf : ∀ a, Blames t (f a)) : Blames t (x >>= f) := by
  cases x with
  | ok a => exact hf a
  | error e => exact fun e' he => by cases he; exact hx e rfl

/-- The node itself cannot be printed. -/
theorem here :
    Blames (node l o cs) (.error (.unprintable (node l o cs)) : Except LayoutError α) := by
  rintro e ⟨⟩
  exact ⟨_, by simp [nodes_node], rfl⟩

theorem of_child {x : Except LayoutError α} (ht : t ∈ cs) (h : Blames t x) :
    Blames (node l o cs) x := by
  intro e he
  obtain ⟨u, hu, rfl⟩ := h e he
  exact ⟨u, by rw [nodes_node]; exact List.mem_cons_of_mem _ (List.mem_flatMap.mpr ⟨t, ht, hu⟩),
    rfl⟩

theorem exprs (h : ∀ c ∈ ts, ∀ least, Blames t (expr style src level least c)) :
    Blames t (exprs style src level ts) := by
  induction ts with
  | nil => exact ok []
  | cons c ts ih =>
    rw [List.forall_mem_cons] at h
    rw [exprs_cons]
    exact (h.1 0).bind fun _ => (ih h.2).bind fun _ => ok _

theorem statements (first : Bool) (h : ∀ c ∈ ts, Blames t (statement style src level c)) :
    Blames t (statements style src level first ts) := by
  induction ts generalizing first with
  | nil => exact ok ""
  | cons c ts ih =>
    rw [List.forall_mem_cons] at h
    rw [statements_cons]
    exact h.1.bind fun _ => (ih false h.2).bind fun _ => ok _

end Blames

/-- Wherever the tree stands, its own nodes are to blame. -/
structure Blamed (style : Style) (src : String) (t : Tree) : Prop where
  expr : ∀ level least, Blames t (expr style src level least t)
  block : ∀ level, Blames t (block style src level t)
  statement : ∀ level, Blames t (statement style src level t)
  exprs : ∀ level, Blames t (exprs style src level t.children)

theorem signatureText_ok {o' : Int} {params sig : List Tree} {body : Tree}
    (hparams : ∀ x ∈ params, IsTagLeaf x) (hsig : IsTagging params.length sig) :
    ∃ text, signatureText (form .function o (form .parameters o' params :: body :: sig)) =
      .ok text := by
  obtain ⟨names, tags, -, hnames, htags⟩ := exists_names_of_function o o' body hparams hsig
  simp only [signatureText, signature?, htags, hnames, Option.bind_eq_bind, Option.bind_some]
  exact ⟨_, rfl⟩

section Nodes

variable (h : Whole (node l o cs)) (hcs : ∀ c ∈ cs, Blamed style src c)
include h hcs

theorem blames_operands : Blames (node l o cs) (operands style src level l o cs) := by
  cases l with
  | integer w => cases cs <;> exact .ok _
  | ident x => cases cs <;> exact .here
  | form f =>
    have hexpr : ∀ c ∈ cs, ∀ least, Blames (node (.form f) o cs) (expr style src level least c) :=
      fun c hc least => .of_child hc ((hcs c hc).expr level least)
    cases Whole.shape h with
    | lookup => exact .ok _
    | @not t =>
      rw [operands_not]
      exact (hexpr t (by simp) _).bind fun _ => .ok _
    | @binary op lhs rhs =>
      rw [operands_binary]
      exact (hexpr lhs (by simp) _).bind fun _ => (hexpr rhs (by simp) _).bind fun _ => .ok _
    | @call callee o' args =>
      have hargs :
          Blames (node (.form .call) o [callee, form .arguments o' args])
            (exprs style src level args) :=
        .of_child (by simp) ((hcs (form .arguments o' args) (by simp)).exprs level)
      exact (hexpr callee (by simp) _).bind fun _ => hargs.bind fun _ => .ok _
    | @function o' o'' params ts sig hparams hsig =>
      obtain ⟨text, htext⟩ := signatureText_ok hparams hsig
      have hbody := (hcs (form .sequence o'' ts) (by simp)).block level
      rw [operands_function, show signatureText (.node (.form .function) o _) = .ok text from htext]
      exact (Blames.ok text).bind fun _ => (Blames.of_child (by simp) hbody).bind fun _ => .ok _
    | sequence | arguments | parameters | signature => cases cs <;> exact .here
    | _ => exact .here

theorem blames_expr (least : Nat) :
    Blames (node l o cs) (expr style src level least (node l o cs)) := by
  rw [expr_node]
  exact (blames_operands h hcs).bind fun _ => .ok _

theorem blames_block : Blames (node l o cs) (block style src level (node l o cs)) := by
  by_cases hl : l = .form .sequence
  · subst hl
    cases cs with
    | nil => exact .ok _
    | cons c cs =>
      have hstatements : Blames (node (.form .sequence) o (c :: cs)) _ :=
        .statements true fun c hc => .of_child hc ((hcs c hc).statement (level + 1))
      exact hstatements.bind fun _ => .ok _
  · have hblock : block style src level (node l o cs) = .error (.unprintable (node l o cs)) := by
      unfold block
      split
      · rename_i heq
        cases heq
        exact absurd rfl hl
      · rename_i heq
        cases heq
        exact absurd rfl hl
      · rfl
    rw [hblock]
    exact .here

theorem blames_conditional {cond body : Tree} {rest : List Tree} (heq : cs = cond :: body :: rest) :
    Blames (node l o cs) (conditional style src level cs) := by
  subst heq
  rw [conditional_cons]
  have hcond := (hcs cond (by simp)).expr level 0
  have hbody := (hcs body (by simp)).block level
  exact (Blames.of_child (by simp) hcond).bind fun _ =>
    (Blames.of_child (by simp) hbody).bind fun _ => .ok _

theorem blames_statement : Blames (node l o cs) (statement style src level (node l o cs)) := by
  cases l with
  | integer w =>
    exact (blames_operands h hcs).bind fun _ => .ok _
  | ident x => exact .here
  | form f =>
    have hexpr : ∀ c ∈ cs, Blames (node (.form f) o cs) (expr style src level 0 c) :=
      fun c hc => .of_child hc ((hcs c hc).expr level 0)
    have hblock : ∀ c ∈ cs, Blames (node (.form f) o cs) (block style src level c) :=
      fun c hc => .of_child hc ((hcs c hc).block level)
    have hexpression : Blames (node (.form f) o cs) (do
        let text ← operands style src level (.form f) o cs
        return text ++ ";") := (blames_operands h hcs).bind fun _ => .ok _
    cases Whole.shape h with
    | @declare o' x value type htype hlength =>
      have hvalue := hexpr value (by simp)
      match type, hlength, htype with
      | [], _, _ => exact hvalue.bind fun _ => .ok _
      | [tag], _, htype =>
        obtain ⟨o'', tag, rfl⟩ := htype tag List.mem_cons_self
        exact hvalue.bind fun _ => .ok _
    | @assign o' o'' x value => exact (hexpr value (by simp)).bind fun _ => .ok _
    | @print t => exact (hexpr t (by simp)).bind fun _ => .ok _
    | @ret t => exact (hexpr t (by simp)).bind fun _ => .ok _
    | ifThen => exact (blames_conditional h hcs rfl).bind fun _ => .ok _
    | whileDo => exact (blames_conditional h hcs rfl).bind fun _ => .ok _
    | @ifElse cond o' ts o'' us =>
      have halternative := hblock (form .sequence o'' us) (by simp)
      exact (blames_conditional h hcs rfl).bind fun _ => halternative.bind fun _ => .ok _
    | lookup | not | binary | call | function => exact hexpression
    | _ => exact .here

end Nodes

theorem blamed (style : Style) (src : String) (t : Tree) (h : Whole t) : Blamed style src t := by
  induction t using Tree.induction with
  | absent => cases h.present
  | node l o cs ih =>
    have hcs : ∀ c ∈ cs, Blamed style src c := fun c hc => ih c hc ((whole_node_iff.mp h).2 c hc)
    exact {
      expr := fun _ => blames_expr h hcs
      block := fun _ => blames_block h hcs
      statement := fun _ => blames_statement h hcs
      exprs := fun level => .exprs fun c hc least => .of_child hc ((hcs c hc).expr level least) }

/-- A valid tree has a text, or a node in it cannot be printed. -/
theorem blames_render (h : Whole t) : Blames t (render style src t) := by
  cases t with
  | absent => cases h.present
  | node l o cs =>
    by_cases hl : l = .form .sequence
    · subst hl
      have hstatements : Blames (node (.form .sequence) o cs) (statements style src 0 true cs) :=
        .statements true fun c hc =>
          .of_child hc ((blamed style src c ((whole_node_iff.mp h).2 c hc)).statement 0)
      exact hstatements.bind fun _ => .ok _
    · have hrender : render style src (node l o cs) = expr style src 0 0 (node l o cs) := by
        unfold render
        split
        · rename_i heq
          cases heq
          exact absurd rfl hl
        · contradiction
        · rfl
      rw [hrender]
      exact (blamed style src _ h).expr 0 0

end ClosureLang.Layout
