import ClosureLang.Editor.Index
import ClosureLang.Proofs.Tree.Shapes

/-! Every valid tree has an index. -/
namespace ClosureLang.Editor

open ClosureLang.Tree

/-- The bodies that wait are valid. -/
def Indexing.WholeBodies (st : Indexing) : Prop := ∀ w ∈ st.waiting, Whole w.1

namespace Indexer

variable {α β : Type} {src : String} {b : BlockId} {l : Label} {o : Int} {t : Tree}
  {ts cs : List Tree}

/-- No node is missing, neither now nor for the bodies that are put off. -/
def Succeeds (work : Indexer α) : Prop :=
  ∀ st : Indexing, st.WholeBodies → ∃ a st', work.run st = some (a, st') ∧ st'.WholeBodies

namespace Succeeds

theorem pure (a : α) : Succeeds (Pure.pure a : Indexer α) := fun st h => ⟨a, st, rfl, h⟩

theorem bind {work : Indexer α} {rest : α → Indexer β} (h : Succeeds work)
    (h' : ∀ a, Succeeds (rest a)) : Succeeds (work >>= rest) := by
  intro st hst
  obtain ⟨a, st₁, hrun, hst₁⟩ := h st hst
  obtain ⟨b, st₂, hrun', hst₂⟩ := h' a st₁ hst₁
  refine ⟨b, st₂, ?_, hst₂⟩
  rw [StateT.run_bind, hrun]
  exact hrun'

theorem each {work : Tree → Indexer Unit} {all : List Tree → Indexer Unit}
    (hnil : all [] = Pure.pure ()) (hcons : ∀ t ts, all (t :: ts) = (do work t; all ts))
    (h : ∀ t ∈ ts, Succeeds (work t)) : Succeeds (all ts) := by
  induction ts with
  | nil =>
    rw [hnil]
    exact pure ()
  | cons t ts ih =>
    rw [List.forall_mem_cons] at h
    rw [hcons]
    exact h.1.bind fun _ => ih h.2

end Succeeds

theorem succeeds_openBlock (src : String) (parent : BlockId) (start brace : Int) :
    Succeeds (openBlock src parent start brace) := fun _ hst => ⟨_, _, rfl, hst⟩

theorem succeeds_use {ident : Tree} (h : IsTagLeaf ident) (node : Tree) (assign : Bool) :
    Succeeds (use b ident node assign) := by
  obtain ⟨o, x, rfl⟩ := h
  exact fun st hst => ⟨_, _, rfl, hst⟩

theorem succeeds_declaration {name value : Tree} (hname : IsTagLeaf name) (hvalue : Whole value)
    (type : Tree) : Succeeds (declaration b name value type) := by
  obtain ⟨o, x, rfl⟩ := hname
  unfold declaration
  simp only [hvalue.present]
  exact fun st hst => ⟨_, _, rfl, hst⟩

theorem succeeds_function {o' : Int} {params sig : List Tree} {body : Tree}
    (hparams : ∀ x ∈ params, IsTagLeaf x) (hsig : IsTagging params.length sig)
    (hbody : Whole body) :
    Succeeds (function src b (form .function o (form .parameters o' params :: body :: sig))) := by
  obtain ⟨names, tags, -, hnames, htags⟩ := exists_names_of_function o o' body hparams hsig
  have hchild : (form .function o (form .parameters o' params :: body :: sig)).child 1 = body := rfl
  unfold function
  rw [hchild, hnames, htags]
  match body, hbody with
  | absent, hbody => exact nomatch hbody.present
  | node l o cs, hbody =>
    refine fun st hst => ⟨_, _, rfl, fun w hw => ?_⟩
    rcases List.mem_append.mp hw with hw | hw
    · exact hst w hw
    · rw [List.mem_singleton.mp hw]
      exact hbody

/-- Wherever the tree stands, it is resolved. -/
structure Resolved (src : String) (t : Tree) : Prop where
  expr : ∀ b, Succeeds (expr src b t)
  block : ∀ b, Succeeds (block src b t)
  statement : ∀ b, Succeeds (statement src b t)

section Nodes

variable (h : Whole (node l o cs)) (hcs : ∀ c ∈ cs, Resolved src c)
include h hcs

theorem succeeds_expr : Succeeds (expr src b (node l o cs)) := by
  have hexprs : Succeeds (exprs src b cs) :=
    .each (by rw [exprs]) (fun _ _ => by rw [exprs]) fun c hc => (hcs c hc).expr b
  cases l with
  | integer w =>
    rw [expr.eq_def]
    exact hexprs
  | ident x =>
    rw [expr.eq_def]
    exact hexprs
  | form f =>
    have hshape := Whole.shape h
    cases hshape with
    | @lookup o' x =>
      rw [expr.eq_def]
      exact succeeds_use ⟨o', x, rfl⟩ _ _
    | @function o' o'' params ts sig hparams hsig =>
      rw [expr.eq_def]
      exact succeeds_function hparams hsig
        ((whole_form_iff.mp h).2 (form .sequence o'' ts) (by simp))
    | _ =>
      rw [expr.eq_def]
      exact hexprs

omit h in
theorem succeeds_block : Succeeds (block src b (node l o cs)) := by
  rw [block.eq_def]
  exact Succeeds.bind (succeeds_openBlock _ _ _ _) fun inner =>
    .each (by rw [statements]) (fun _ _ => by rw [statements]) fun c hc =>
      (hcs c hc).statement inner

theorem succeeds_statement : Succeeds (statement src b (node l o cs)) := by
  cases l with
  | integer w =>
    rw [statement.eq_def]
    exact succeeds_expr h hcs
  | ident x =>
    rw [statement.eq_def]
    exact succeeds_expr h hcs
  | form f =>
    have hparts := (whole_form_iff.mp h).2
    cases Whole.shape h with
    | sequence =>
      rw [statement.eq_def]
      exact Succeeds.bind (succeeds_openBlock _ _ _ _) fun inner =>
        .each (by rw [statements]) (fun _ _ => by rw [statements]) fun c hc =>
          (hcs c hc).statement inner
    | @declare o' x value type =>
      exact ((hcs value (by simp)).expr b).bind fun _ =>
        succeeds_declaration ⟨o', x, rfl⟩ (hparts value (by simp)) _
    | @assign o' o'' x value =>
      exact ((hcs value (by simp)).expr b).bind fun _ => succeeds_use ⟨o'', x, rfl⟩ _ _
    | @print t => exact (hcs t (by simp)).expr b
    | @ret t => exact (hcs t (by simp)).expr b
    | @ifThen cond o' ts =>
      exact ((hcs cond (by simp)).expr b).bind fun _ =>
        (hcs (form .sequence o' ts) (by simp)).block b
    | @whileDo cond o' ts =>
      exact ((hcs cond (by simp)).expr b).bind fun _ =>
        (hcs (form .sequence o' ts) (by simp)).block b
    | @ifElse cond o' ts o'' us =>
      exact ((hcs cond (by simp)).expr b).bind fun _ =>
        ((hcs (form .sequence o' ts) (by simp)).block b).bind fun _ =>
          (hcs (form .sequence o'' us) (by simp)).block b
    | _ =>
      rw [statement.eq_def]
      exact succeeds_expr h hcs

end Nodes

theorem resolved (src : String) : (t : Tree) → Whole t → Resolved src t
  | absent, h => nomatch h.present
  | node l o cs, h => by
    have hcs : ∀ c ∈ cs, Resolved src c := fun c hc => resolved src c ((whole_node_iff.mp h).2 c hc)
    exact ⟨fun b => succeeds_expr h hcs, fun b => succeeds_block hcs,
      fun b => succeeds_statement h hcs⟩

theorem succeeds_statements (src : String) (b : BlockId) (h : ∀ t ∈ ts, Whole t) :
    Succeeds (statements src b ts) :=
  .each (by rw [statements]) (fun _ _ => by rw [statements]) fun t ht =>
    (resolved src t (h t ht)).statement b

/-- With no body waiting there is nothing more to do. -/
theorem run_bodies_nil {st : Indexing} (hwaiting : st.waiting = []) (src : String) (limit : Nat) :
    (bodies src (limit + 1)).run st = some ((), st) := by
  simp only [bodies, StateT.run_bind, StateT.run_get, Option.pure_def, Option.bind_eq_bind,
    Option.bind_some, hwaiting]
  rfl

theorem run_bodies_cons {st : Indexing} {body : Tree} {waiting : List (Tree × BlockId)}
    (hwaiting : st.waiting = (body, b) :: waiting) (src : String) (limit : Nat) :
    (bodies src (limit + 1)).run st =
      (statements src b body.children >>= fun _ => bodies src limit).run { st with waiting } := by
  simp only [bodies, StateT.run_bind, StateT.run_get, Option.pure_def, Option.bind_eq_bind,
    Option.bind_some, hwaiting, StateT.run_set]

/-- However many of the bodies that wait are resolved. -/
theorem succeeds_bodies (src : String) (limit : Nat) : Succeeds (bodies src limit) := by
  induction limit with
  | zero => exact .pure ()
  | succ limit ih =>
    intro st hst
    cases hwaiting : st.waiting with
    | nil => exact ⟨(), st, run_bodies_nil hwaiting src limit, hst⟩
    | cons w waiting =>
      rw [run_bodies_cons hwaiting]
      obtain ⟨hbody, hrest⟩ :=
        List.forall_mem_cons.mp (hwaiting ▸ hst : ∀ w' ∈ w :: waiting, Whole w'.1)
      have hwork := (succeeds_statements src w.2 hbody.children).bind fun _ => ih
      exact hwork { st with waiting } hrest

end Indexer

/-- Every valid tree has an index, whatever the text. -/
theorem build?_isSome (src : String) (h : Whole t) : (Index.build? t src).isSome := by
  match t, h with
  | absent, h => exact nomatch h.present
  | node l o cs, h =>
    have hwork := (Indexer.succeeds_statements src 0 (whole_node_iff.mp h).2).bind fun _ =>
      Indexer.succeeds_bodies src (node l o cs).nodes.length
    obtain ⟨a, done, hrun, -⟩ := hwork
      { index :=
          { blocks := #[{ parent := none, start := 0, stop := src.utf8ByteSize, depth := 0 }] } }
      nofun
    simp only [Index.build?, Option.bind_eq_bind]
    rw [show (_ : Indexer Unit).run _ = _ from hrun]
    rfl

end ClosureLang.Editor
