import ClosureLang.Proofs.Editor.Resolution
import ClosureLang.Proofs.Tree.Names

/-! Every symbol of an index and every use that it notes belongs to a place of its own in the
program. -/
namespace ClosureLang

/-- What an index says of a place: the name declared there, or that one is used. -/
abbrev Mark.Entry := Int × Option String

def Mark.entry (m : Mark) : Mark.Entry := (m.offset, if m.declares then some m.name else none)

namespace Editor

open ClosureLang.Tree

variable {st st' st'' : Indexing} {ix : Index} {b : BlockId} {ms ms' : List Mark} {t u : Tree}
  {ts cs : List Tree} {src : String} {offset offset' : Int} {f : Form}

namespace Index

/-- A new block inside of another one. -/
def inner (ix : Index) (b : BlockId) (start : Int) (stop : Nat) : Block :=
  { parent := some b, start, stop, depth := ((ix.blocks[b]?).map Block.depth).getD 0 + 1 }

def entries (ix : Index) : List Mark.Entry :=
  ix.symbols.toList.map (fun s => (s.offset, some s.name)) ++
    ix.references.map (fun r => (r.offset, none)) ++ ix.unresolved.map fun u => (u.useOffset, none)

theorem entries_declare (b : BlockId) (s : Symbol) :
    (ix.declare b s).entries.Perm (ix.entries ++ [(s.offset, some s.name)]) := by
  refine List.perm_iff_count.mpr fun e => ?_
  simp only [entries, declare, Array.toList_push, List.map_append, List.map_cons, List.map_nil,
    List.count_append]
  omega

theorem entries_declareAll (ix : Index) (b : BlockId) (symbols : List Symbol) :
    (symbols.foldl (fun ix s => ix.declare b s) ix).entries.Perm
      (ix.entries ++ symbols.map fun s => (s.offset, some s.name)) := by
  induction symbols generalizing ix with
  | nil => rw [List.foldl_nil, List.map_nil, List.append_nil]
  | cons s symbols ih =>
    refine (ih _).trans (((entries_declare b s).append_right _).trans ?_)
    rw [List.append_assoc, List.singleton_append, List.map_cons]

theorem entries_use (b : BlockId) (x : String) (u : Tree) (assign : Bool) :
    (ix.use b x u.useOffset u assign).entries.Perm (ix.entries ++ [(u.useOffset, none)]) := by
  refine List.perm_iff_count.mpr fun e => ?_
  unfold use
  split <;>
    simp only [entries, List.map_append, List.map_cons, List.map_nil, List.count_append] <;>
    omega

end Index

/-- What the index says, and what it will say when the bodies that wait are resolved. -/
def Indexing.entries (st : Indexing) : List Mark.Entry :=
  st.index.entries ++ st.waiting.flatMap fun w => w.1.marks.map Mark.entry

/-- The bodies that wait are blocks. -/
def Indexing.Orderly (st : Indexing) : Prop := ∀ w ∈ st.waiting, InPlace .block w.1

namespace Indexer

/-- Resolving something makes or puts off one entry for each of its marks. -/
def Accounts (ms : List Mark) (work : Indexer Unit) : Prop :=
  ∀ st st', work.run st = some ((), st') → st.Orderly →
    st'.Orderly ∧ st'.entries.Perm (st.entries ++ ms.map Mark.entry)

namespace Accounts

variable {work work' : Indexer Unit}

theorem nothing : Accounts [] (pure ()) := by
  rintro st st' ⟨⟩ hst
  exact ⟨hst, by rw [List.map_nil, List.append_nil]⟩

theorem andThen (h : Accounts ms work) (h' : Accounts ms' work') :
    Accounts (ms ++ ms') (do work; work') := by
  intro st st'' hrun hst
  simp only [StateT.run_bind, Option.bind_eq_bind, Option.bind_eq_some_iff] at hrun
  obtain ⟨⟨⟨⟩, st'⟩, hrun, hrun'⟩ := hrun
  obtain ⟨hst', hperm⟩ := h st st' hrun hst
  obtain ⟨hst'', hperm'⟩ := h' st' st'' hrun' hst'
  refine ⟨hst'', hperm'.trans ?_⟩
  rw [List.map_append, ← List.append_assoc]
  exact hperm.append_right _

theorem perm (h : Accounts ms work) (hms : ms.Perm ms') : Accounts ms' work := by
  intro st st' hrun hst
  obtain ⟨hst', hperm⟩ := h st st' hrun hst
  exact ⟨hst', hperm.trans ((hms.map _).append_left _)⟩

end Accounts

/-- Opening a block always succeeds. -/
theorem run_openBlock_eq (src : String) (b : BlockId) (start brace : Int) (st : Indexing) :
    (openBlock src b start brace).run st = some (st.index.blocks.size,
      { st with
        index := (st.index.newBlock (st.index.inner b start (closingBrace src brace))).2 }) := rfl

theorem accounts_inBlock {work : BlockId → Indexer Unit} (start brace : Int)
    (h : ∀ inner, Accounts ms (work inner)) :
    Accounts ms (do let inner ← openBlock src b start brace; work inner) := by
  intro st st' hrun hst
  rw [StateT.run_bind, run_openBlock_eq] at hrun
  exact h st.index.blocks.size { st with index := (st.index.newBlock _).2 } st' hrun hst

theorem accounts_use {assign : Bool} (u : Tree) :
    Accounts [(u.child 0).mark false] (use b (u.child 0) u assign) := by
  intro st st' hrun hst
  cases hname : (u.child 0).name? with
  | none =>
    simp only [use, hname] at hrun
    cases hrun
  | some x =>
    simp only [use, hname] at hrun
    cases hrun
    refine ⟨hst, ?_⟩
    have hperm :=
      (st.index.entries_use b x u assign).append_right
        (st.waiting.flatMap fun w => w.1.marks.map Mark.entry)
    rw [List.append_assoc] at hperm
    refine hperm.trans ?_
    rw [Indexing.entries, List.append_assoc]
    exact List.perm_append_comm.append_left _

theorem accounts_declaration {name value type : Tree} (hvalue : value.isAbsent = false) :
    Accounts [name.mark true] (declaration b name value type) := by
  intro st st' hrun hst
  cases hname : name.name? with
  | none =>
    simp only [declaration, hname] at hrun
    cases hrun
  | some x =>
    obtain ⟨s, hrun', rfl, -, hoffset⟩ := run_declaration hname hvalue type b st
    rw [hrun'] at hrun
    cases hrun
    refine ⟨hst, ?_⟩
    have hperm :=
      (st.index.entries_declare b s).append_right
        (st.waiting.flatMap fun w => w.1.marks.map Mark.entry)
    rw [List.append_assoc] at hperm
    refine hperm.trans ?_
    have hmark : (name.mark true).entry = (s.offset, some s.name) := by
      rw [Mark.entry, mark, hname, hoffset]
      rfl
    rw [Indexing.entries, List.append_assoc, List.map_singleton, hmark]
    exact List.perm_append_comm.append_left _

section Function

variable {params sig : List Tree} {body : Tree} {names tags : List String}

theorem map_entry_paramSymbols {depth : Nat} (hnames : params.mapM name? = some names) :
    (paramSymbols params names tags depth).map (fun s => (s.offset, some s.name)) =
      params.map fun x => (x.mark true).entry := by
  have hall : ∀ k, (((params.zip names).zipIdx k).map fun x => (x.1.1.offset?.getD 0, some x.1.2)) =
      params.map fun x => (x.mark true).entry := by
    induction params generalizing names with
    | nil => exact fun _ => rfl
    | cons x params ih =>
      simp only [List.mapM_cons, Option.bind_eq_bind, Option.bind_eq_some_iff, Option.pure_def,
        Option.some.injEq] at hnames
      obtain ⟨name, hname, names, hnames, rfl⟩ := hnames
      intro k
      rw [List.zip_cons_cons, List.zipIdx_cons, List.map_cons, ih hnames (k + 1), List.map_cons,
        Mark.entry, mark, hname]
      rfl
  rw [paramSymbols, List.map_map]
  exact hall 0

/-- A function opens a block for its parameters and puts its body off. -/
theorem run_function_eq (offset offset' : Int) (hparams : ∀ x ∈ params, IsIdent x)
    (hbody : InPlace .block body) (hsig : IsSignature params.length sig) (src : String)
    (b : BlockId) (st : Indexing) :
    ∃ (names tags : List String) (block : Block),
      block = st.index.inner b offset (closingBrace src (body.offset?.getD 0)) ∧
      params.mapM name? = some names ∧
      (function src b
          (form .function offset (form .parameters offset' params :: body :: sig))).run st =
        some ((),
          { index := (paramSymbols params names tags block.depth).foldl
              (fun ix s => ix.declare st.index.blocks.size s) (st.index.newBlock block).2,
            waiting := st.waiting ++ [(body, st.index.blocks.size)] }) := by
  obtain ⟨names, tags, hmap, hnames, htags⟩ := exists_names_of_function offset offset' body
    (fun x hx => (hparams x hx).leaf) hsig.tagging
  obtain ⟨brace, hbrace⟩ : ∃ brace, body.offset? = some brace := by
    cases hbody
    exact ⟨_, rfl⟩
  rw [hbrace, Option.getD_some]
  exact ⟨names, tags, _, rfl, hmap,
    run_function hbrace hnames htags (run_openBlock_eq src b offset brace st)
    (by rw [Index.getElem?_newBlock, if_pos rfl]; rfl)⟩

theorem accounts_function (hparams : ∀ x ∈ params, IsIdent x) (hbody : InPlace .block body)
    (hsig : IsSignature params.length sig) :
    Accounts (params.map (mark true) ++ body.marks)
      (function src b
        (form .function offset (form .parameters offset' params :: body :: sig))) := by
  intro st st' hrun hst
  obtain ⟨names, tags, block, -, hnames, hrun'⟩ :=
    run_function_eq offset offset' hparams hbody hsig src b st
  rw [hrun'] at hrun
  cases hrun
  refine ⟨fun w hw => ?_, ?_⟩
  · rcases List.mem_append.mp hw with hw | hw
    · exact hst w hw
    · rw [List.mem_singleton.mp hw]
      exact hbody
  · have hperm := Index.entries_declareAll (st.index.newBlock block).2 st.index.blocks.size
      (paramSymbols params names tags block.depth)
    rw [map_entry_paramSymbols hnames] at hperm
    refine (hperm.append_right _).trans ?_
    show List.Perm (st.index.entries ++ _ ++ _) _
    rw [Indexing.entries, List.flatMap_append, List.flatMap_singleton, List.map_append,
      List.map_map]
    refine List.perm_iff_count.mpr fun e => ?_
    simp only [List.count_append]
    have hcomp : (Mark.entry ∘ mark true) = fun x => (x.mark true).entry := rfl
    rw [hcomp]
    omega

end Function

/-- A tree is accounted for wherever it stands, as its role says. -/
def Accountable (src : String) : Role → Tree → Prop
  | .expression, t => ∀ b, Accounts t.marks (expr src b t)
  | .statement, t => ∀ b, Accounts t.marks (statement src b t)
  | .block, t => ∀ b, Accounts (t.children.flatMap marks) (statements src b t.children)

theorem accounts_exprs (h : ∀ t ∈ ts, Accountable src .expression t) :
    Accounts (ts.flatMap marks) (exprs src b ts) := by
  induction ts with
  | nil =>
    rw [exprs]
    exact .nothing
  | cons t ts ih =>
    rw [List.forall_mem_cons] at h
    rw [exprs, List.flatMap_cons]
    exact (h.1 b).andThen (ih h.2)

theorem accounts_statements (h : ∀ t ∈ ts, Accountable src .statement t) :
    Accounts (ts.flatMap marks) (statements src b ts) := by
  induction ts with
  | nil => exact .nothing
  | cons t ts ih =>
    rw [List.forall_mem_cons] at h
    rw [statements, List.flatMap_cons]
    exact (h.1 b).andThen (ih h.2)

theorem accounts_block (hblock : InPlace .block t) (h : Accountable src .block t) (b : BlockId) :
    Accounts t.marks (block src b t) := by
  cases hblock with
  | @block offset ts hts =>
    have hmarks : (form .sequence offset ts).marks = ts.flatMap marks := by rw [marks_form]; rfl
    rw [hmarks]
    exact accounts_inBlock offset offset h

/-- A node that names nothing is accounted for by its parts. -/
theorem accounts_parts (hown : f.ownMarks cs = []) (hlookup : f ≠ .lookup)
    (hfunction : f ≠ .function) (h : ∀ t ∈ cs, Accountable src .expression t) :
    Accountable src .expression (form f offset cs) := by
  intro b
  rw [expr_form hlookup hfunction, marks_form, hown]
  exact accounts_exprs h

/-- The step lemma: a tree is accounted for if its parts are. -/
theorem accountable (src : String) {role : Role} (h : InPlace role t) : Accountable src role t := by
  induction h with
  | int =>
    intro b
    rw [expr_int, marks_int]
    exact .nothing
  | @lookup offset x hx =>
    intro b
    rw [expr_lookup, marks_form, List.flatMap_singleton, marks_of_leaf hx.leaf, List.append_nil]
    exact accounts_use (form .lookup offset [x])
  | binary hl hr ihl ihr => exact accounts_parts rfl nofun nofun (by simpa using ⟨ihl, ihr⟩)
  | not ht ih => exact accounts_parts rfl nofun nofun (by simpa using ih)
  | call hc hargs ihc ihargs =>
    exact accounts_parts rfl nofun nofun
      (by simpa using ⟨ihc, accounts_parts rfl nofun nofun ihargs⟩)
  | @function offset offset' params body sig hparams hbody hsig ih =>
    intro b
    rw [expr_function, marks_function hparams hsig]
    exact accounts_function hparams hbody hsig
  | block hts ih => exact fun b => accounts_statements ih
  | @declare offset x value type hx hvalue htype hlen ih =>
    intro b
    have hpresent : value.isAbsent = false := by cases hvalue <;> rfl
    refine ((ih b).andThen (accounts_declaration hpresent)).perm ?_
    rw [marks_form, List.flatMap_cons, List.flatMap_cons, marks_of_leaf hx.leaf,
      marks_of_leaves fun t ht => (htype t ht).leaf, List.nil_append, List.append_nil]
    exact List.perm_append_comm
  | @assign offset offset' x value hx hvalue ih =>
    intro b
    refine ((ih b).andThen (accounts_use (form .varLoc offset' [x]))).perm ?_
    have hplace : (form .varLoc offset' [x]).marks = [x.mark false] := by
      rw [marks_form, List.flatMap_singleton, marks_of_leaf hx.leaf]
      rfl
    rw [marks_form, List.flatMap_cons, List.flatMap_singleton, hplace]
    exact List.perm_append_comm
  | print ht ih | ret ht ih =>
    intro b
    rw [marks_form, List.flatMap_singleton]
    exact ih b
  | ifThen hc hb ihc ihb | whileDo hc hb ihc ihb =>
    intro b
    rw [marks_form, List.flatMap_cons, List.flatMap_singleton]
    exact (ihc b).andThen (accounts_block hb ihb b)
  | ifElse hc hb ha ihc ihb iha =>
    intro b
    rw [marks_form, List.flatMap_cons, List.flatMap_cons, List.flatMap_singleton]
    exact (ihc b).andThen ((accounts_block hb ihb b).andThen (accounts_block ha iha b))
  | expression ht ih =>
    intro b
    rw [statement_expression ht]
    exact ih b

/-- The run lemma: resolving the bodies that wait makes the entries of their marks. -/
theorem accounts_bodies (src : String) (limit : Nat) : Accounts [] (bodies src limit) := by
  induction limit with
  | zero => exact .nothing
  | succ limit ih =>
    intro st st' hrun hst
    cases hwaiting : st.waiting with
    | nil =>
      rw [run_bodies_nil hwaiting] at hrun
      cases hrun
      exact ⟨hst, by rw [List.map_nil, List.append_nil]⟩
    | cons w waiting =>
      obtain ⟨body, b⟩ := w
      rw [run_bodies_cons hwaiting] at hrun
      obtain ⟨hbody, hrest⟩ :=
        List.forall_mem_cons.mp (hwaiting ▸ hst : ∀ w' ∈ (body, b) :: waiting, InPlace .block w'.1)
      have hmarks : body.marks = body.children.flatMap marks := by
        cases hbody
        exact marks_form _
      obtain ⟨hst', hperm⟩ :=
        ((accountable src hbody b).andThen ih) { st with waiting } st' hrun hrest
      refine ⟨hst', hperm.trans (List.perm_iff_count.mpr fun e => ?_)⟩
      simp only [Indexing.entries, hwaiting, List.flatMap_cons, hmarks, List.append_nil,
        List.map_nil, List.count_append]
      omega

end Indexer

theorem Indexer.accounts_program (h : InPlace .block t) (src : String) :
    Accounts t.marks (program src t) := by
  cases h with
  | @block offset ts hts =>
    have hmarks : (form .sequence offset ts).marks = ts.flatMap marks := marks_form _
    rw [program, children_form, hmarks, ← List.append_nil (ts.flatMap marks)]
    exact (accounts_statements fun t ht => accountable src (hts t ht)).andThen
      (accounts_bodies src _)

/-- The entries of an index are the marks of the program, each once. -/
theorem Index.build?_entries (h : InPlace .block t) (hbuild : build? t src = some ix) :
    ix.entries.Perm (t.marks.map Mark.entry) := by
  obtain ⟨st, hrun, hdone, -, -⟩ :=
    Indexer.run_program (P := fun _ _ => True) h (fun _ _ => trivial) src
  rw [build?_eq h hrun] at hbuild
  cases hbuild
  have hsorted :
      ({ st.index with references := st.index.references.mergeSort fun a b => a.offset ≤ b.offset }
      : Index).entries.Perm st.index.entries :=
    (((List.mergeSort_perm _ _).map _).append_left _).append_right _
  obtain ⟨-, hperm⟩ := Indexer.accounts_program h src _ st hrun nofun
  rw [Indexing.entries, hdone, List.flatMap_nil, List.append_nil] at hperm
  exact hsorted.trans hperm

end Editor

end ClosureLang
