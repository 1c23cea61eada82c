import ClosureLang.Proofs.Grammar.Agreement
import ClosureLang.Proofs.Tree.Similar

/-! Two texts parsed side by side. Where their tokens agree, so do the outcomes of all rules. -/
namespace ClosureLang.Grammar

open ClosureLang.Tree

/-- How two texts correspond token by token, up to a limit in the first one. -/
structure Parallel (src src' : ByteArray) where
  limit : Option Nat
  /-- Offsets at which both parses stand. -/
  At : Nat → Nat → Prop
  /-- Offsets at which both texts have a token. -/
  Here : Nat → Nat → Prop
  /-- What is compared of the names and offsets in the trees of the first text. -/
  name : Int → String → String
  place : Int → Int
  /-- And of those in the trees of the second text. -/
  name' : Int → String → String
  place' : Int → Int
  at_le {p p' : Nat} : At p p' → p ≤ src.size ∧ p' ≤ src'.size
  at_layout {p p' : Nat} : At p p' → At (layoutEnd src p) (layoutEnd src' p')
  here_of_layout {p p' : Nat} : At p p' → Here (layoutEnd src p) (layoutEnd src' p') → Here p p'
  place_here {p p' : Nat} : Here p p' → place p = place' p'
  place_zero : place 0 = place' 0
  name_reserved {x : String} : isReserved x = true → ∀ o o', name o x = x ∧ name' o' x = x
  at_literal {p p' : Nat} {s : String} : isMark s = true → At p p' →
    (litAt src s p = none → Before limit (layoutEnd src p)) →
    Here (layoutEnd src p) (layoutEnd src' p') ∧
      Option.Rel (fun a b => At a.2 b.2 ∧
          ∀ c, isMark (String.singleton c) = true →
            peek src (a.1 + s.length) c = peek src' (b.1 + s.length) c)
        (litAt src s p) (litAt src' s p')
  at_keyword {p p' : Nat} {s : String} : isReserved s = true → At p p' →
    (wordAt src s p = none → Before limit (layoutEnd src p)) →
    Here (layoutEnd src p) (layoutEnd src' p') ∧
      Option.Rel (fun a b => At a.2 b.2) (wordAt src s p) (wordAt src' s p')
  at_ident {p p' : Nat} : At p p' → (identAt src p = none → Before limit (layoutEnd src p)) →
    Here (layoutEnd src p) (layoutEnd src' p') ∧
      Option.Rel (fun a b => a.1.relabel name place = b.1.relabel name' place' ∧ At a.2 b.2)
        (identAt src p) (identAt src' p')
  at_integer {p p' : Nat} : At p p' → (integerAt src p = none → Before limit (layoutEnd src p)) →
    Here (layoutEnd src p) (layoutEnd src' p') ∧
      Option.Rel (fun a b => a.1.relabel name place = b.1.relabel name' place' ∧ At a.2 b.2)
        (integerAt src p) (integerAt src' p')

namespace Parallel

variable {src src' : ByteArray} (P : Parallel src src')

/-- Trees of both texts that look the same. -/
def Like (t t' : Tree) : Prop := t.relabel P.name P.place = t'.relabel P.name' P.place'

/-- Matches that go to the same place and give trees that look the same. -/
structure Joint (m m' : Match) : Prop where
  node : P.Like m.node m'.node
  type : m.type = m'.type
  tag : m.type = "" ∨ isReserved m.type = true
  stop : P.At m.stop m'.stop

/-- A joint match from `q` and `q'` on that is not empty. -/
structure Ahead (q q' : Nat) (m m' : Match) : Prop extends P.Joint m m' where
  lt : q < m.stop
  lt' : q' < m'.stop

/-- A token that both texts have, with the places of the tokens behind it. -/
structure Token (q q' : Nat) (a b : Nat × Nat) : Prop where
  here : P.Here a.1 b.1
  stop : P.At a.2 b.2
  lt : q < a.2
  lt' : q' < b.2

/-- What a rule comes to at corresponding offsets: if it does not go beyond the limit, there are
tokens at both offsets, and the outcomes agree. -/
abbrev Outcomes (R : Match → Match → Prop) (q q' : Nat) (o o' : Outcome) : Prop :=
  P.Here q q' ∧ Option.Rel R o o'

/-- The rules that the body of `r` at `p` may apply at `q`. -/
def Below (r : Rule) (p : Nat) (r' : Rule) (q : Nat) : Prop := p < q ∨ p = q ∧ r'.rank < r.rank

/-- Places from `p` on where a loop still has more rounds to go than the texts have bytes. -/
structure Room (p q q' limit limit' : Nat) : Prop where
  stop : P.At q q'
  le : p ≤ q
  lt : src.size < q + limit
  lt' : src'.size < q' + limit'

/-- The rules agree that the body of `r` at `p` may apply. -/
def Known (r : Rule) (p : Nat) : Prop :=
  ∀ r' q q', r' ≠ .space → P.At q q' → Below r p r' q →
    Agrees P.limit True (P.Outcomes P.Joint q q') (inside src r' q) (inside src' r' q')

variable {P} {r : Rule} {p p' q q' : Nat} {D : Prop} {t t' u u' : Tree} {ts ts' : List Tree}
  {o o' : Int}

theorem not_room_zero {limit' : Nat} : ¬ P.Room p q q' 0 limit' := by
  intro h
  have hle := (P.at_le h.stop).1
  have hlt := h.lt
  omega

theorem not_room_zero' {limit : Nat} : ¬ P.Room p q q' limit 0 := by
  intro h
  have hle := (P.at_le h.stop).2
  have hlt := h.lt'
  omega

theorem Room.next {limit limit' s s' : Nat} (h : P.Room p q q' (limit + 1) (limit' + 1))
    (hs : P.At s s') (hlt : q < s) (hlt' : q' < s') : P.Room p s s' limit limit' := by
  have hle := h.le
  have hroom := h.lt
  have hroom' := h.lt'
  exact ⟨hs, by omega, by omega, by omega⟩

/-- One more round than there are bytes is enough. -/
theorem room (h : P.At q q') (hle : p ≤ q) : P.Room p q q' (src.size + 1) (src'.size + 1) :=
  ⟨h, hle, by omega, by omega⟩

section Trees

theorem Like.offset (h : P.Like t t') :
    P.place (t.offset?.getD 0) = P.place' (t'.offset?.getD 0) := by
  have hoffset := congrArg offset? h
  rw [offset?_relabel, offset?_relabel] at hoffset
  cases ht : t.offset? with
  | none =>
    cases ht' : t'.offset? with
    | none => exact P.place_zero
    | some _ => simp [ht, ht'] at hoffset
  | some _ =>
    cases ht' : t'.offset? with
    | none => simp [ht, ht'] at hoffset
    | some _ => simpa [ht, ht'] using hoffset

theorem like_form {f : Form} (ho : P.place o = P.place' o') (h : List.Forall₂ P.Like ts ts') :
    P.Like (form f o ts) (form f o' ts') := by
  have hmap : ts.map (relabel P.name P.place) = ts'.map (relabel P.name' P.place') := by
    induction h with
    | nil => rfl
    | cons h _ ih => rw [List.map_cons, List.map_cons, ih, h]
  simp [Like, ho, hmap]

theorem like_binary {op : BinaryOp} (ho : P.place o = P.place' o') (h : P.Like t t')
    (h' : P.Like u u') :
    P.Like (binary op o t u) (binary op o' t' u') := like_form ho (.cons h (.cons h' .nil))

theorem like_int {w : Int64} (ho : P.place o = P.place' o') : P.Like (int o w) (int o' w) := by
  simp [Like, ho]

theorem like_tag {x : String} (ho : P.place o = P.place' o') (hx : isReserved x = true) :
    P.Like (ident o x) (ident o' x) := by
  simp [Like, ho, P.name_reserved hx o o']

theorem Like.children (h : P.Like t t') : List.Forall₂ P.Like t.children t'.children := by
  have hchildren := congrArg Tree.children h
  rw [children_relabel, children_relabel] at hchildren
  rw [← List.forall₂_eq_eq_eq, List.forall₂_map_left_iff, List.forall₂_map_right_iff] at hchildren
  exact hchildren

theorem Like.child (h : P.Like t t') (i : Nat) : P.Like (t.child i) (t'.child i) := by
  have hchild := congrArg (Tree.child · i) h
  rwa [child_relabel, child_relabel] at hchild

theorem forall₂_node {ms ms' : List Match} (h : List.Forall₂ P.Joint ms ms') :
    List.Forall₂ P.Like (ms.map Match.node) (ms'.map Match.node) := by
  rw [List.forall₂_map_left_iff, List.forall₂_map_right_iff]
  exact h.imp fun _ _ h => h.node

end Trees

theorem rel_imp {α β : Type} {R R' : α → β → Prop} {o : Option α} {o' : Option β}
    (h : Option.Rel R o o') (himp : ∀ a b, o = some a → o' = some b → R a b → R' a b) :
    Option.Rel R' o o' := by
  cases h with
  | some h => exact .some (himp _ _ rfl rfl h)
  | none => exact .none

instance : Inhabited Match := ⟨{ node := .absent, stop := 0 }⟩

instance : Inhabited BinaryOp := ⟨.or⟩

section Rules

theorem agrees_token {α β : Type} {E : Prop} {R : α → β → Prop} {start start' : Nat} {o : Option α}
    {o' : Option β} (h : D → (o = none → Before P.limit start) → E ∧ Option.Rel R o o') :
    Agrees P.limit D (fun o o' => E ∧ Option.Rel R o o') (tokenAt start o) (tokenAt start' o') := by
  cases o with
  | some a =>
    refine ⟨.pure _, fun d m n _ => ?_⟩
    cases o' <;> exact h d nofun
  | none =>
    refine ⟨.missing _, fun d m n hm => ?_⟩
    have hbefore : Before P.limit start := .of_le (Nat.le_max_right _ _) hm
    cases o' <;> exact h d fun _ => hbefore

theorem agrees_literal (s : String) (hs : isMark s = true) (h : D → P.At q q') :
    Agrees P.limit D (fun o o' => P.Here q q' ∧ Option.Rel (fun a b => P.Token q q' a b ∧
        ∀ c, isMark (String.singleton c) = true →
          peek src (a.1 + s.length) c = peek src' (b.1 + s.length) c) o o')
      (literal src (inside src) q s) (literal src' (inside src') q' s) := by
  refine ⟨grows_literal, fun d => ?_⟩
  obtain ⟨hle, hle'⟩ := P.at_le (h d)
  rw [literal_inside hle, literal_inside hle']
  refine (agrees_token fun d hbefore => ?_).related d
  obtain ⟨hhere, hrel⟩ := P.at_literal hs (h d) hbefore
  refine ⟨P.here_of_layout (h d) hhere, ?_⟩
  have hlength : 0 < s.length := by
    rw [← String.length_toList]
    exact List.length_pos_of_ne_nil (chars_of_isMark hs).1
  refine rel_imp hrel fun a b ha hb ⟨hstop, hpeek⟩ => ⟨⟨?_, hstop, ?_, ?_⟩, hpeek⟩
  · rwa [(litAt_some ha).2.1, (litAt_some hb).2.1]
  · exact (litAt_lt ha hle hlength).1
  · exact (litAt_lt hb hle' hlength).1

theorem agrees_keyword (s : String) (hs : isReserved s = true) (hlength : 0 < s.length)
    (h : D → P.At q q') :
    Agrees P.limit D (fun o o' => P.Here q q' ∧ Option.Rel (P.Token q q') o o')
      (keyword src (inside src) q s) (keyword src' (inside src') q' s) := by
  refine ⟨grows_keyword, fun d => ?_⟩
  obtain ⟨hle, hle'⟩ := P.at_le (h d)
  rw [keyword_inside hle, keyword_inside hle']
  refine (agrees_token fun d hbefore => ?_).related d
  obtain ⟨hhere, hrel⟩ := P.at_keyword hs (h d) hbefore
  refine ⟨P.here_of_layout (h d) hhere, rel_imp hrel fun a b ha hb hstop => ⟨?_, hstop, ?_, ?_⟩⟩
  · rwa [(wordAt_some ha).2.1, (wordAt_some hb).2.1]
  · exact (wordAt_lt ha hle hlength).1
  · exact (wordAt_lt hb hle' hlength).1

theorem rel_ofRead {a b : Option (Tree × Nat)}
    (h : Option.Rel (fun a b => P.Like a.1 b.1 ∧ P.At a.2 b.2) a b) :
    Option.Rel P.Joint (ofRead a) (ofRead b) := by
  cases h with
  | some h => exact .some ⟨h.1, rfl, .inl rfl, h.2⟩
  | none => exact .none

variable (known : P.Known r p)

include known

theorem agrees_program (h : D → P.At q q' ∧ Below r p .program q) :
    Agrees P.limit D (P.Outcomes P.Joint q q') (inside src .program q) (inside src' .program q') :=
  ⟨grows_inside, fun d => (known .program q q' (by decide) (h d).1 (h d).2).related trivial⟩

theorem agrees_apply (r' : Rule) (hr : r' ≠ .space ∧ r' ≠ .program)
    (h : D → P.At q q' ∧ Below r p r' q) :
    Agrees P.limit D (P.Outcomes (P.Ahead q q') q q') (inside src r' q) (inside src' r' q') := by
  refine ⟨grows_inside, fun d m n hm => ?_⟩
  obtain ⟨hat, hbelow⟩ := h d
  obtain ⟨hle, hle'⟩ := P.at_le hat
  obtain ⟨hhere, hrel⟩ := (known _ _ _ hr.1 hat hbelow).related trivial m n hm
  refine ⟨hhere, rel_imp hrel fun a b ha hb hab => { hab with lt := ?_, lt' := ?_ }⟩
  · rw [value_inside hle] at ha
    exact (reading_fits hle ha).2.2 hr
  · rw [value_inside hle'] at hb
    exact (reading_fits hle' hb).2.2 hr

theorem agrees_initializer (h : D → P.At q q' ∧ p ≤ q) :
    Agrees P.limit D (P.Outcomes P.Joint q q') (initializer src (inside src) q)
      (initializer src' (inside src') q') := by
  refine (agrees_literal "=" (by decide) fun d => (h d).1).orNone rfl rfl (fun _ hhere => hhere)
    fun a b => ?_
  refine (agrees_apply known .expr (by decide) fun ⟨d, _, hab, _⟩ =>
    ⟨hab.stop, .inl (Nat.lt_of_le_of_lt (h d).2 hab.lt)⟩).orNone rfl rfl (fun d _ => d.2.1)
      fun v w => ?_
  refine (agrees_literal ";" (by decide) fun d => d.2.2.stop).orNone rfl rfl (fun d _ => d.1.2.1)
    fun c e => ?_
  exact .done fun ⟨⟨⟨_, hhere, _⟩, _, hvw⟩, _, hce, _⟩ =>
    ⟨hhere, .some { hvw.toJoint with stop := hce.stop }⟩

omit known in
theorem agrees_declareRule (known : P.Known .declare p) (h : P.At p p') :
    Agrees P.limit True (P.Outcomes P.Joint p p') (declareRule src (inside src) p)
      (declareRule src' (inside src') p') := by
  refine (agrees_keyword "var" (by decide) (by decide) fun _ => h).cases ?_ fun a b => ?_
  · refine (agrees_apply known .type (by decide) fun _ => ⟨h, .inr ⟨rfl, by decide⟩⟩).orNone rfl rfl
      (fun d _ => d.2) fun t t' => ?_
    refine (agrees_apply known .ident (by decide) fun ⟨_, _, ht⟩ => ⟨ht.stop, .inl ht.lt⟩).orNone
      rfl rfl (fun d _ => d.1.2) fun x x' => ?_
    refine (agrees_initializer known fun ⟨⟨_, _, ht⟩, _, hx⟩ =>
      ⟨hx.stop, Nat.le_of_lt (Nat.lt_trans ht.lt hx.lt)⟩).orNone rfl rfl (fun d _ => d.1.1.2)
        fun v v' => ?_
    exact .done fun ⟨⟨⟨⟨_, hhere⟩, _, ht⟩, _, hx⟩, _, hv⟩ =>
      ⟨hhere,
        .some ⟨like_form ht.node.offset (.cons hx.node (.cons hv.node (.cons ht.node .nil))),
          rfl, .inl rfl, hv.stop⟩⟩
  · refine (agrees_apply known .ident (by decide) fun ⟨_, _, hab⟩ => ⟨hab.stop, .inl hab.lt⟩).orNone
      rfl rfl (fun d _ => d.2.1) fun x x' => ?_
    refine (agrees_initializer known fun ⟨⟨_, _, hab⟩, _, hx⟩ =>
      ⟨hx.stop, Nat.le_of_lt (Nat.lt_trans hab.lt hx.lt)⟩).orNone rfl rfl (fun d _ => d.1.2.1)
        fun v v' => ?_
    exact .done fun ⟨⟨⟨_, hhere, hab⟩, _, hx⟩, _, hv⟩ =>
      ⟨hhere,
        .some ⟨like_form (P.place_here hab.here) (.cons hx.node (.cons hv.node .nil)), rfl,
          .inl rfl, hv.stop⟩⟩

omit known in
theorem agrees_assignRule (known : P.Known .assign p) (h : P.At p p') :
    Agrees P.limit True (P.Outcomes P.Joint p p') (assignRule src (inside src) p)
      (assignRule src' (inside src') p') := by
  refine (agrees_apply known .ident (by decide) fun _ => ⟨h, .inr ⟨rfl, by decide⟩⟩).orNone rfl rfl
    (fun _ hhere => hhere) fun x x' => ?_
  refine (agrees_initializer known fun ⟨_, _, hx⟩ => ⟨hx.stop, Nat.le_of_lt hx.lt⟩).orNone rfl rfl
    (fun d _ => d.2.1) fun v v' => ?_
  exact .done fun ⟨⟨_, hhere, hx⟩, _, hv⟩ =>
    have hplace := like_form (f := .varLoc) hx.node.offset (.cons hx.node .nil)
    ⟨hhere,
      .some ⟨like_form hx.node.offset (.cons hplace (.cons hv.node .nil)), rfl, .inl rfl, hv.stop⟩⟩

theorem agrees_keywordExpr (s : String) (f : Form) (hs : isReserved s = true)
    (hlength : 0 < s.length) (h : P.At p p') :
    Agrees P.limit True (P.Outcomes P.Joint p p') (keywordExpr src (inside src) s f p)
      (keywordExpr src' (inside src') s f p') := by
  refine (agrees_keyword s hs hlength fun _ => h).orNone rfl rfl (fun _ hhere => hhere)
    fun a b => ?_
  refine (agrees_apply known .expr (by decide) fun ⟨_, _, hab⟩ => ⟨hab.stop, .inl hab.lt⟩).orNone
    rfl rfl (fun d _ => d.2.1) fun v v' => ?_
  refine (agrees_literal ";" (by decide) fun d => d.2.2.stop).orNone rfl rfl (fun d _ => d.1.2.1)
    fun c e => ?_
  exact .done fun ⟨⟨⟨_, hhere, hab⟩, _, hv⟩, _, hce, _⟩ =>
    ⟨hhere, .some ⟨like_form (P.place_here hab.here) (.cons hv.node .nil), rfl, .inl rfl, hce.stop⟩⟩

theorem agrees_conditional (s : String) (f : Form) (hs : isReserved s = true)
    (hlength : 0 < s.length) (h : P.At p p') :
    Agrees P.limit True (P.Outcomes P.Joint p p') (conditional src (inside src) s f p)
      (conditional src' (inside src') s f p') := by
  refine (agrees_keyword s hs hlength fun _ => h).orNone rfl rfl (fun _ hhere => hhere)
    fun a b => ?_
  refine (agrees_literal "(" (by decide) fun d => d.2.2.stop).orNone rfl rfl (fun d _ => d.2.1)
    fun c e => ?_
  refine (agrees_apply known .expr (by decide) fun ⟨⟨_, _, hab⟩, _, hce, _⟩ =>
    ⟨hce.stop, .inl (Nat.lt_trans hab.lt hce.lt)⟩).orNone rfl rfl (fun d _ => d.1.2.1)
      fun v v' => ?_
  refine (agrees_literal ")" (by decide) fun d => d.2.2.stop).orNone rfl rfl (fun d _ => d.1.1.2.1)
    fun i j => ?_
  refine (agrees_apply known .block (by decide)
      fun ⟨⟨⟨⟨_, _, hab⟩, _, hce, _⟩, _, hv⟩, _, hij, _⟩ =>
    ⟨hij.stop, .inl (Nat.lt_trans hab.lt (Nat.lt_trans hce.lt (Nat.lt_trans hv.lt hij.lt)))⟩).orNone
      rfl rfl
    (fun d _ => d.1.1.1.2.1) fun u u' => ?_
  exact .done fun ⟨⟨⟨⟨⟨_, hhere, hab⟩, _⟩, _, hv⟩, _⟩, _, hu⟩ =>
    ⟨hhere,
      .some ⟨like_form (P.place_here hab.here) (.cons hv.node (.cons hu.node .nil)), rfl,
        .inl rfl, hu.stop⟩⟩

omit known in
theorem agrees_ifElseRule (known : P.Known .ifElse p) (h : P.At p p') :
    Agrees P.limit True (P.Outcomes P.Joint p p') (ifElseRule src (inside src) p)
      (ifElseRule src' (inside src') p') := by
  refine (agrees_apply known .ifThen (by decide) fun _ => ⟨h, .inr ⟨rfl, by decide⟩⟩).orNone rfl rfl
    (fun _ hhere => hhere) fun v v' => ?_
  refine (agrees_keyword "else" (by decide) (by decide) fun d => d.2.2.stop).orNone
    rfl rfl (fun d _ => d.2.1) fun a b => ?_
  refine (agrees_apply known .block (by decide) fun ⟨⟨_, _, hv⟩, _, hab⟩ =>
    ⟨hab.stop, .inl (Nat.lt_trans hv.lt hab.lt)⟩).orNone rfl rfl (fun d _ => d.1.2.1) fun u u' => ?_
  exact .done fun ⟨⟨⟨_, hhere, hv⟩, _⟩, _, hu⟩ =>
    ⟨hhere,
      .some
        ⟨like_form hv.node.offset
          (.cons (hv.node.child 0) (.cons (hv.node.child 1) (.cons hu.node .nil))),
      rfl, .inl rfl, hu.stop⟩⟩

omit known in
theorem agrees_exprStatementRule (known : P.Known .exprStatement p) (h : P.At p p') :
    Agrees P.limit True (P.Outcomes P.Joint p p') (exprStatementRule src (inside src) p)
      (exprStatementRule src' (inside src') p') := by
  refine (agrees_apply known .expr (by decide) fun _ => ⟨h, .inr ⟨rfl, by decide⟩⟩).orNone rfl rfl
    (fun _ hhere => hhere) fun v v' => ?_
  refine (agrees_literal ";" (by decide) fun d => d.2.2.stop).orNone rfl rfl (fun d _ => d.2.1)
    fun a b => ?_
  exact .done fun ⟨⟨_, hhere, hv⟩, _, hab, _⟩ => ⟨hhere, .some ⟨hv.node, rfl, .inl rfl, hab.stop⟩⟩

theorem agrees_blockRule (h : P.At p p') :
    Agrees P.limit True (P.Outcomes P.Joint p p') (blockRule src (inside src) p)
      (blockRule src' (inside src') p') := by
  refine (agrees_literal "\x7b" (by decide) fun _ => h).orNone rfl rfl (fun _ hhere => hhere)
    fun a b => ?_
  refine (agrees_program known fun ⟨_, _, hab, _⟩ => ⟨hab.stop, .inl hab.lt⟩).orNone
    rfl rfl (fun d _ => d.2.1) fun v v' => ?_
  refine (agrees_literal "\x7d" (by decide) fun d => d.2.2.stop).orNone rfl rfl (fun d _ => d.1.2.1)
    fun c e => ?_
  exact .done fun ⟨⟨⟨_, hhere, hab, _⟩, _, hv⟩, _, hce, _⟩ =>
    ⟨hhere, .some ⟨like_form (P.place_here hab.here) hv.node.children, rfl, .inl rfl, hce.stop⟩⟩

omit known in
theorem grows_statements (limit q : Nat) : Grows (statements (inside src) limit q) := by
  induction limit generalizing q with
  | zero => exact .pure _
  | succ limit ih =>
    refine grows_inside.bind fun o => ?_
    cases o with
    | none => exact .pure _
    | some m => exact (ih _).bind fun _ => .pure _

omit known in
/-- Statements with more room than the texts have. -/
theorem agrees_statements (known : P.Known .program p) {limit limit' : Nat}
    (h : D → P.Room p q q' limit limit') :
    Agrees P.limit D (fun a b => P.Here q q' ∧ List.Forall₂ P.Like a.1 b.1 ∧ P.At a.2 b.2)
      (statements (inside src) limit q) (statements (inside src') limit' q') := by
  induction limit generalizing D limit' q q' with
  | zero =>
    exact .vacuous (.pure _) fun d => not_room_zero (h d)
  | succ limit ih =>
    cases limit' with
    | zero =>
      exact .vacuous (grows_statements _ _) fun d => not_room_zero' (h d)
    | succ limit' =>
      refine (agrees_apply known .statement (by decide) fun d => ⟨(h d).stop, ?_⟩).cases
        (.done fun ⟨d, hhere⟩ => ⟨hhere, .nil, (h d).stop⟩) fun v v' => ?_
      · obtain hlt | heq := Nat.lt_or_eq_of_le (h d).le
        · exact .inl hlt
        · exact .inr ⟨heq, by decide⟩
      · refine (ih fun ⟨d, _, hv⟩ => (h d).next hv.stop hv.lt hv.lt').bind fun a b => ?_
        exact .done fun ⟨⟨_, hhere, hv⟩, _, hnodes, hat⟩ => ⟨hhere, .cons hv.node hnodes, hat⟩

omit known in
theorem agrees_programRule (known : P.Known .program p) (h : P.At p p') :
    Agrees P.limit True (P.Outcomes P.Joint p p') (programRule src (inside src) p)
      (programRule src' (inside src') p') := by
  obtain ⟨hle, hle'⟩ := P.at_le h
  unfold programRule
  rw [skip_inside hle, skip_inside hle', pure_bind, pure_bind]
  refine (agrees_statements known fun _ => room (P.at_layout h) (le_layoutEnd src p)).bind
    fun a b => ?_
  exact .done fun ⟨_, hhere, hnodes, hat⟩ =>
    have hplace := P.here_of_layout h hhere
    ⟨hplace, .some ⟨like_form (P.place_here hplace) hnodes, rfl, .inl rfl, hat⟩⟩

/-- An operator with its operand. -/
theorem agrees_operation (operand : Rule) (hoperand : operand ≠ .space ∧ operand ≠ .program)
    (ops : List BinaryOp) (h : D → P.At q q' ∧ p ≤ q) :
    Agrees P.limit D (fun o o' => True ∧ Option.Rel (fun a b =>
        a.1 = b.1 ∧ P.Here a.2.1 b.2.1 ∧ P.Ahead q q' a.2.2 b.2.2) o o')
      (operation src (inside src) operand q ops) (operation src' (inside src') operand q' ops) := by
  induction ops with
  | nil => exact .done fun _ => ⟨trivial, .none⟩
  | cons op ops ih =>
    have hrest {E : Prop} (hE : E → D) := ih.mono hE fun _ _ _ hrel => hrel
    refine (agrees_literal op.symbol (isMark_symbol op) fun d => (h d).1).cases (hrest And.left)
      fun a b => ?_
    refine (agrees_apply known operand hoperand fun ⟨d, _, hab, _⟩ =>
      ⟨hab.stop, .inl (Nat.lt_of_le_of_lt (h d).2 hab.lt)⟩).cases (hrest fun d => d.1.1)
        fun v v' => ?_
    exact .done fun ⟨⟨_, _, hab, _⟩, _, hv⟩ => ⟨trivial, .some ⟨rfl, hab.here,
        { hv with lt := Nat.lt_trans hab.lt hv.lt, lt' := Nat.lt_trans hab.lt' hv.lt' }⟩⟩

theorem grows_operations (operand : Rule) (hoperand : operand ≠ .space ∧ operand ≠ .program)
    (ops : List BinaryOp) (limit : Nat) (t : Tree) (q : Nat) :
    Grows (operations src (inside src) operand ops limit t q) := by
  induction limit generalizing t q with
  | zero => exact .pure _
  | succ limit ih =>
    have hoperation : Agrees P.limit False _ (operation src (inside src) operand q ops)
        (operation src' (inside src') operand q ops) :=
          agrees_operation known operand hoperand ops nofun
    refine hoperation.grows.bind fun o => ?_
    cases o with
    | none => exact .pure _
    | some a => exact ih _ _

/-- A chain of operations with more room than the texts have. -/
theorem agrees_operations (operand : Rule) (hoperand : operand ≠ .space ∧ operand ≠ .program)
    (ops : List BinaryOp) {limit limit' : Nat} (ht : D → P.Like t t')
    (h : D → P.Room p q q' limit limit') :
    Agrees P.limit D P.Joint (operations src (inside src) operand ops limit t q)
      (operations src' (inside src') operand ops limit' t' q') := by
  induction limit generalizing D limit' t t' q q' with
  | zero =>
    exact .vacuous (.pure _) fun d => not_room_zero (h d)
  | succ limit ih =>
    cases limit' with
    | zero =>
      exact .vacuous (grows_operations known operand hoperand ops _ _ _) fun d =>
        not_room_zero' (h d)
    | succ limit' =>
      refine (agrees_operation known operand hoperand ops fun d => ⟨(h d).stop, (h d).le⟩).cases
        (.done fun ⟨d, _⟩ => ⟨ht d, rfl, .inl rfl, (h d).stop⟩) fun a b => ?_
      obtain ⟨op, start, v⟩ := a
      obtain ⟨op', start', v'⟩ := b
      refine ih ?_ fun ⟨d, _, _, _, hv⟩ => (h d).next hv.stop hv.lt hv.lt'
      rintro ⟨d, -, rfl, hhere, hv⟩
      exact like_binary (P.place_here hhere) (ht d) hv.node

theorem agrees_leftAssoc (operand : Rule) (hoperand : operand ≠ .space ∧ operand ≠ .program)
    (hrank : operand.rank < r.rank) (ops : List BinaryOp) (h : P.At p p') :
    Agrees P.limit True (P.Outcomes P.Joint p p') (leftAssoc src (inside src) operand ops p)
      (leftAssoc src' (inside src') operand ops p') := by
  refine (agrees_apply known operand hoperand fun _ => ⟨h, .inr ⟨rfl, hrank⟩⟩).orNone rfl rfl
    (fun _ hhere => hhere) fun v v' => ?_
  refine (agrees_operations known operand hoperand ops (fun d => d.2.2.node)
    fun ⟨_, _, hv⟩ => room hv.stop (Nat.le_of_lt hv.lt)).bind fun a b => ?_
  exact .done fun ⟨⟨_, hhere, _⟩, hab⟩ => ⟨hhere, .some hab⟩

/-- Where another rule is tried at the same place. -/
theorem agrees_instead (r' : Rule) (hr : r' ≠ .space) (hrank : r'.rank < r.rank) (h : P.At p p') :
    Agrees P.limit D (P.Outcomes P.Joint p p') (inside src r' p) (inside src' r' p') :=
  ⟨grows_inside, fun _ => (known r' p p' hr h (.inr ⟨rfl, hrank⟩)).related trivial⟩

omit known in
theorem agrees_notRule (known : P.Known .not p) (h : P.At p p') :
    Agrees P.limit True (P.Outcomes P.Joint p p') (notRule src (inside src) p)
      (notRule src' (inside src') p') := by
  have hcompare {D : Prop} := agrees_instead (D := D) known .compare (by decide) (by decide) h
  refine (agrees_literal "!" (by decide) fun _ => h).cases hcompare fun a b => ?_
  refine .ite
    (fun ⟨_, _, _, hpeek⟩ => iff_of_eq (congrArg (· = true) (hpeek '=' (by decide)))) hcompare ?_
  refine (agrees_apply known .not (by decide) fun ⟨_, _, hab, _⟩ => ⟨hab.stop, .inl hab.lt⟩).cases
    hcompare fun v v' => ?_
  exact .done fun ⟨⟨_, hhere, hab, _⟩, _, hv⟩ =>
    ⟨hhere,
      .some ⟨like_form (P.place_here hab.here) (.cons hv.node .nil), hv.type, hv.tag, hv.stop⟩⟩

omit known in
theorem agrees_unaryRule (known : P.Known .unary p) (h : P.At p p') :
    Agrees P.limit True (P.Outcomes P.Joint p p') (unaryRule src (inside src) p)
      (unaryRule src' (inside src') p') := by
  have hcall {D : Prop} := agrees_instead (D := D) known .call (by decide) (by decide) h
  refine (agrees_literal "-" (by decide) fun _ => h).cases hcall fun a b => ?_
  refine .ite
    (fun ⟨_, _, _, hpeek⟩ => iff_of_eq (congrArg (· = true) (hpeek '>' (by decide)))) hcall ?_
  refine (agrees_apply known .unary (by decide) fun ⟨_, _, hab, _⟩ => ⟨hab.stop, .inl hab.lt⟩).cases
    hcall fun v v' => ?_
  exact .done fun ⟨⟨_, hhere, hab, _⟩, _, hv⟩ =>
    have hstart := P.place_here hab.here
    ⟨hhere, .some ⟨like_binary hstart (like_int hstart) hv.node, hv.type, hv.tag, hv.stop⟩⟩

omit known in
theorem agrees_compareRule (known : P.Known .compare p) (h : P.At p p') :
    Agrees P.limit True (P.Outcomes P.Joint p p') (compareRule src (inside src) p)
      (compareRule src' (inside src') p') := by
  refine (agrees_apply known .add (by decide) fun _ => ⟨h, .inr ⟨rfl, by decide⟩⟩).orNone rfl rfl
    (fun _ hhere => hhere) fun v v' => ?_
  refine (agrees_operation known .add (by decide) comparisons
    fun ⟨_, _, hv⟩ => ⟨hv.stop, Nat.le_of_lt hv.lt⟩).cases
    (.done fun ⟨⟨_, hhere, hv⟩, _⟩ => ⟨hhere, .some hv.toJoint⟩) fun a b => ?_
  obtain ⟨op, start, w⟩ := a
  obtain ⟨op', start', w'⟩ := b
  refine .done ?_
  rintro ⟨⟨-, hhere, hv⟩, -, rfl, hstart, hw⟩
  exact ⟨hhere, .some ⟨like_binary (P.place_here hstart) hv.node hw.node, rfl, .inl rfl, hw.stop⟩⟩

omit known in
theorem grows_commaSeparated (item : Rule) (limit q : Nat) :
    Grows (commaSeparated src (inside src) item limit q) := by
  induction limit generalizing q with
  | zero => exact .pure _
  | succ limit ih =>
    refine grows_literal.bind fun o => ?_
    cases o with
    | none => exact .pure _
    | some a =>
      refine grows_inside.bind fun o => ?_
      cases o with
      | none => exact .pure _
      | some m =>
        refine (ih _).bind fun o => ?_
        cases o <;> exact .pure _

/-- Items behind commas, with more room than the texts have. -/
theorem agrees_commaSeparated (item : Rule) (hitem : item ≠ .space ∧ item ≠ .program)
    {limit limit' : Nat} (h : D → P.Room p q q' limit limit') :
    Agrees P.limit D (fun o o' => True ∧ Option.Rel (fun a b =>
        List.Forall₂ P.Joint a.1 b.1 ∧ P.At a.2 b.2 ∧ q ≤ a.2 ∧ q' ≤ b.2) o o')
      (commaSeparated src (inside src) item limit q)
      (commaSeparated src' (inside src') item limit' q') := by
  induction limit generalizing D limit' q q' with
  | zero =>
    exact .vacuous (.pure _) fun d => not_room_zero (h d)
  | succ limit ih =>
    cases limit' with
    | zero =>
      exact .vacuous (grows_commaSeparated item _ _) fun d => not_room_zero' (h d)
    | succ limit' =>
      refine (agrees_literal "," (by decide) fun d => (h d).stop).cases
        (.done fun ⟨d, _⟩ => ⟨trivial, .some ⟨.nil, (h d).stop, Nat.le_refl _, Nat.le_refl _⟩⟩)
        fun a b => ?_
      refine (agrees_apply known item hitem fun ⟨d, _, hab, _⟩ =>
        ⟨hab.stop, .inl (Nat.lt_of_le_of_lt (h d).le hab.lt)⟩).orNone rfl rfl (fun _ _ => trivial)
          fun v v' => ?_
      refine (ih fun ⟨⟨d, _, hab, _⟩, _, hv⟩ => (h d).next hv.stop (Nat.lt_trans hab.lt hv.lt)
        (Nat.lt_trans hab.lt' hv.lt')).orNone rfl rfl (fun _ _ => trivial) fun c e => .done ?_
      rintro ⟨⟨⟨d, -, hab, -⟩, -, hv⟩, -, hitems, hat, hle, hle'⟩
      have hlt := Nat.lt_trans hab.lt hv.lt
      have hlt' := Nat.lt_trans hab.lt' hv.lt'
      exact ⟨trivial, .some ⟨.cons hv.toJoint hitems, hat, by omega, by omega⟩⟩

/-- A list in parentheses: where it starts, its items, and where it ends. -/
structure Items (P : Parallel src src') (q q' : Nat) (a b : Nat × List Match × Nat) : Prop where
  here : P.Here a.1 b.1
  items : List.Forall₂ P.Joint a.2.1 b.2.1
  stop : P.At a.2.2 b.2.2
  lt : q < a.2.2
  lt' : q' < b.2.2

theorem agrees_parenthesized (item : Rule) (hitem : item ≠ .space ∧ item ≠ .program)
    (h : D → P.At q q' ∧ p ≤ q) :
    Agrees P.limit D (fun o o' => P.Here q q' ∧ Option.Rel (Items P q q') o o')
      (parenthesized src (inside src) item q) (parenthesized src' (inside src') item q') := by
  refine (agrees_literal "(" (by decide) fun d => (h d).1).orNone rfl rfl (fun _ hhere => hhere)
    fun a b => ?_
  refine (agrees_apply known item hitem fun ⟨d, _, hab, _⟩ =>
    ⟨hab.stop, .inl (Nat.lt_of_le_of_lt (h d).2 hab.lt)⟩).cases ?_ fun v v' => ?_
  · refine (agrees_literal ")" (by decide) fun d => d.1.2.2.1.stop).orNone
      rfl rfl (fun d _ => d.1.2.1) fun c e => ?_
    exact .done fun ⟨⟨⟨_, hhere, hab, _⟩, _⟩, _, hce, _⟩ =>
      ⟨hhere,
        .some ⟨hab.here, .nil, hce.stop, Nat.lt_trans hab.lt hce.lt, Nat.lt_trans hab.lt' hce.lt'⟩⟩
  · refine (agrees_commaSeparated known item hitem fun ⟨⟨d, _, hab, _⟩, _, hv⟩ =>
      room hv.stop (Nat.le_trans (h d).2 (Nat.le_of_lt (Nat.lt_trans hab.lt hv.lt)))).orNone rfl rfl
      (fun d _ => d.1.2.1) fun c e => ?_
    refine (agrees_literal ")" (by decide) fun d => d.2.2.2.1).orNone rfl rfl (fun d _ => d.1.1.2.1)
      fun i j => .done ?_
    rintro ⟨⟨⟨⟨-, hhere, hab, -⟩, -, hv⟩, -, hitems, -, hle, hle'⟩, -, hij, -⟩
    have hlt := Nat.lt_trans hab.lt hv.lt
    have hlt' := Nat.lt_trans hab.lt' hv.lt'
    exact ⟨hhere, .some ⟨hab.here, .cons hv.toJoint hitems, hij.stop,
      Nat.lt_trans hlt (Nat.lt_of_le_of_lt hle hij.lt),
      Nat.lt_trans hlt' (Nat.lt_of_le_of_lt hle' hij.lt')⟩⟩

theorem grows_calls (limit : Nat) (t : Tree) (q : Nat) :
    Grows (calls src (inside src) limit t q) := by
  induction limit generalizing t q with
  | zero => exact .pure _
  | succ limit ih =>
    have hitems : Agrees P.limit False _ (parenthesized src (inside src) .expr q)
        (parenthesized src' (inside src') .expr q) :=
          agrees_parenthesized known .expr (by decide) nofun
    refine hitems.grows.bind fun o => ?_
    cases o with
    | none => exact .pure _
    | some a => exact ih _ _

/-- A chain of calls with more room than the texts have. -/
theorem agrees_calls {limit limit' : Nat} (ht : D → P.Like t t')
    (h : D → P.Room p q q' limit limit') :
    Agrees P.limit D P.Joint (calls src (inside src) limit t q)
      (calls src' (inside src') limit' t' q') := by
  induction limit generalizing D limit' t t' q q' with
  | zero =>
    exact .vacuous (.pure _) fun d => not_room_zero (h d)
  | succ limit ih =>
    cases limit' with
    | zero =>
      exact .vacuous (grows_calls known _ _ _) fun d => not_room_zero' (h d)
    | succ limit' =>
      refine (agrees_parenthesized known .expr (by decide) fun d => ⟨(h d).stop, (h d).le⟩).cases
        (.done fun ⟨d, _⟩ => ⟨ht d, rfl, .inl rfl, (h d).stop⟩) fun a b => ?_
      obtain ⟨start, args, next⟩ := a
      obtain ⟨start', args', next'⟩ := b
      refine ih ?_ fun ⟨d, _, hab⟩ => (h d).next hab.stop hab.lt hab.lt'
      rintro ⟨d, -, hab⟩
      have hstart := P.place_here hab.here
      have harguments := like_form (f := .arguments) hstart (forall₂_node hab.items)
      exact like_form hstart (.cons (ht d) (.cons harguments .nil))

omit known in
theorem agrees_callRule (known : P.Known .call p) (h : P.At p p') :
    Agrees P.limit True (P.Outcomes P.Joint p p') (callRule src (inside src) p)
      (callRule src' (inside src') p') := by
  refine (agrees_apply known .primary (by decide) fun _ => ⟨h, .inr ⟨rfl, by decide⟩⟩).orNone
    rfl rfl (fun _ hhere => hhere) fun v v' => ?_
  refine (agrees_calls known (fun d => d.2.2.node)
    fun ⟨_, _, hv⟩ => room hv.stop (Nat.le_of_lt hv.lt)).bind fun a b => ?_
  exact .done fun ⟨⟨_, hhere, _⟩, hab⟩ => ⟨hhere, .some hab⟩

/-- The first of some rules. The first one tells whether there are tokens. -/
theorem agrees_firstOf (rs : List Rule) (hrs : ∀ r' ∈ rs, r' ≠ .space ∧ r'.rank < r.rank)
    (h : P.At p p') :
    Agrees P.limit True (fun o o' => (rs ≠ [] → P.Here p p') ∧ Option.Rel P.Joint o o')
      (firstOf (inside src) p rs) (firstOf (inside src') p' rs) := by
  induction rs with
  | nil => exact .done fun _ => ⟨nofun, .none⟩
  | cons r' rs ih =>
    obtain ⟨hr, hrank⟩ := hrs r' List.mem_cons_self
    refine (agrees_instead known r' hr hrank h).cases ?_ fun v v' => ?_
    · exact (ih fun r₁ hr₁ => hrs r₁ (List.mem_cons_of_mem _ hr₁)).mono (fun _ => trivial)
        fun _ _ d hrel => ⟨fun _ => d.2, hrel.2⟩
    · exact .done fun ⟨_, hhere, hv⟩ => ⟨fun _ => hhere, .some hv⟩

omit known in
theorem Like.kind (h : P.Like t t') : t.kind? = t'.kind? := by
  have hkind := congrArg kind? h
  rwa [kind?_relabel, kind?_relabel] at hkind

/-- An identifier in an expression is looked up. -/
def looked (m : Match) : Match :=
  if m.node.kind? = some .ident then
    { node := .form .lookup (m.node.offset?.getD 0) [m.node], stop := m.stop }
  else m

omit known in
theorem joint_looked {m m' : Match} (h : P.Joint m m') : P.Joint (looked m) (looked m') := by
  unfold looked
  rw [← h.node.kind]
  split
  · exact ⟨like_form h.node.offset (.cons h.node .nil), rfl, .inl rfl, h.stop⟩
  · exact h

omit known in
theorem primaryRule_eq (p : Nat) :
    primaryRule (inside src) p = (do
      let some m ← firstOf (inside src) p [.paren, .function, .ident, .integer] | return none
      return some (looked m)) := by
  unfold primaryRule
  congr 1
  funext o
  cases o with
  | none => rfl
  | some m =>
    obtain ⟨t, _, _⟩ := m
    rcases t with _ | ⟨_ | _ | _, _, _⟩ <;> rfl

omit known in
theorem agrees_primaryRule (known : P.Known .primary p) (h : P.At p p') :
    Agrees P.limit True (P.Outcomes P.Joint p p') (primaryRule (inside src) p)
      (primaryRule (inside src') p') := by
  rw [primaryRule_eq, primaryRule_eq]
  refine (agrees_firstOf known [.paren, .function, .ident, .integer] (by decide) h).orNone rfl rfl
    (fun _ hhere => hhere nofun) fun v v' => ?_
  exact .done fun ⟨_, hhere, hv⟩ => ⟨hhere nofun, .some (joint_looked hv)⟩

theorem agrees_parenRule (h : P.At p p') :
    Agrees P.limit True (P.Outcomes P.Joint p p') (parenRule src (inside src) p)
      (parenRule src' (inside src') p') := by
  refine (agrees_literal "(" (by decide) fun _ => h).orNone rfl rfl (fun _ hhere => hhere)
    fun a b => ?_
  refine (agrees_apply known .expr (by decide) fun ⟨_, _, hab, _⟩ => ⟨hab.stop, .inl hab.lt⟩).orNone
    rfl rfl (fun d _ => d.2.1) fun v v' => ?_
  refine (agrees_literal ")" (by decide) fun d => d.2.2.stop).orNone rfl rfl (fun d _ => d.1.2.1)
    fun c e => ?_
  exact .done fun ⟨⟨⟨_, hhere, _⟩, _, hv⟩, _, hce, _⟩ =>
    ⟨hhere, .some ⟨hv.node, rfl, .inl rfl, hce.stop⟩⟩

theorem agrees_returnType (h : D → P.At q q' ∧ p ≤ q) :
    Agrees P.limit D (fun o o' => True ∧ Option.Rel (fun a b =>
        Option.Rel P.Like a.1 b.1 ∧ P.At a.2 b.2 ∧ q ≤ a.2) o o')
      (returnType src (inside src) q) (returnType src' (inside src') q') := by
  refine (agrees_literal "->" (by decide) fun d => (h d).1).cases
    (.done fun ⟨d, _⟩ => ⟨trivial, .some ⟨.none, (h d).1, Nat.le_refl _⟩⟩) fun a b => ?_
  refine (agrees_apply known .type (by decide) fun ⟨d, _, hab, _⟩ =>
    ⟨hab.stop, .inl (Nat.lt_of_le_of_lt (h d).2 hab.lt)⟩).orNone rfl rfl (fun _ _ => trivial)
      fun t t' => ?_
  exact .done fun ⟨⟨_, _, hab, _⟩, _, ht⟩ =>
    ⟨trivial, .some ⟨.some ht.node, ht.stop, Nat.le_of_lt (Nat.lt_trans hab.lt ht.lt)⟩⟩

omit known in
theorem like_paramTag {m m' : Match} (h : P.Joint m m') : P.Like (paramTag m) (paramTag m') := by
  unfold paramTag
  rw [← h.type]
  refine like_tag h.node.offset ?_
  split
  · decide
  · exact h.tag.resolve_left ‹_›

omit known in
theorem any_annotated {ms ms' : List Match} (h : List.Forall₂ P.Joint ms ms') :
    ms.any (·.type ≠ "") = ms'.any (·.type ≠ "") := by
  induction h with
  | nil => rfl
  | cons h _ ih => rw [List.any_cons, List.any_cons, ih, h.type]

omit known in
/-- The signature of a function, if it has one. -/
theorem like_signature {ms ms' : List Match} {result result' : Option Tree}
    (ho : P.place o = P.place' o') (h : List.Forall₂ P.Joint ms ms')
    (hresult : Option.Rel P.Like result result') :
    List.Forall₂ P.Like
      (if result.isSome || ms.any (·.type ≠ "") then
        [form .signature o (ms.map paramTag ++ [result.getD (.ident o genericType)])] else [])
      (if result'.isSome || ms'.any (·.type ≠ "") then
        [form .signature o' (ms'.map paramTag ++ [result'.getD (.ident o' genericType)])]
      else []) := by
  have htags : List.Forall₂ P.Like (ms.map paramTag) (ms'.map paramTag) := by
    rw [List.forall₂_map_left_iff, List.forall₂_map_right_iff]
    exact h.imp fun _ _ => like_paramTag
  have hlast :
      P.Like (result.getD (.ident o genericType)) (result'.getD (.ident o' genericType)) := by
    cases hresult with
    | some ht => exact ht
    | none => exact like_tag ho (by decide)
  have hsome : result.isSome = result'.isSome := by cases hresult <;> rfl
  rw [← any_annotated h, ← hsome]
  split
  · exact .cons (like_form ho (List.rel_append htags (.cons hlast .nil))) .nil
  · exact .nil

theorem agrees_functionRule (h : P.At p p') :
    Agrees P.limit True (P.Outcomes P.Joint p p') (functionRule src (inside src) p)
      (functionRule src' (inside src') p') := by
  refine (agrees_keyword "func" (by decide) (by decide) fun _ => h).orNone
    rfl rfl (fun _ hhere => hhere) fun a b => ?_
  refine (agrees_parenthesized known .param (by decide)
    fun ⟨_, _, hab⟩ => ⟨hab.stop, Nat.le_of_lt hab.lt⟩).orNone
    rfl rfl (fun d _ => d.2.1) fun c e => ?_
  obtain ⟨_, params, stop⟩ := c
  obtain ⟨_, params', stop'⟩ := e
  refine (agrees_returnType known fun ⟨⟨_, _, hab⟩, _, hce⟩ =>
    ⟨hce.stop, Nat.le_of_lt (Nat.lt_trans hab.lt hce.lt)⟩).orNone rfl rfl (fun d _ => d.1.2.1)
      fun i j => ?_
  obtain ⟨result, next⟩ := i
  obtain ⟨result', next'⟩ := j
  refine (agrees_apply known .block (by decide) fun ⟨⟨⟨_, _, hab⟩, _, hce⟩, _, _, hat, hle⟩ =>
    ⟨hat, .inl (Nat.lt_of_lt_of_le (Nat.lt_trans hab.lt hce.lt) hle)⟩).orNone
      rfl rfl (fun d _ => d.1.1.2.1)
    fun u u' => .done ?_
  rintro ⟨⟨⟨⟨-, hhere, hab⟩, -, hce⟩, -, hresult, -, -⟩, -, hu⟩
  have hstart := P.place_here hab.here
  have hparameters := like_form (f := .parameters) hstart (forall₂_node hce.items)
  exact ⟨hhere,
    .some
      ⟨like_form hstart
        (.cons hparameters (.cons hu.node (like_signature hstart hce.items hresult))),
    rfl, .inl rfl, hu.stop⟩⟩

omit known in
theorem agrees_paramRule (known : P.Known .param p) (h : P.At p p') :
    Agrees P.limit True (P.Outcomes P.Joint p p') (paramRule (inside src) p)
      (paramRule (inside src') p') := by
  have hident {D : Prop} := agrees_instead (D := D) known .ident (by decide) (by decide) h
  refine (agrees_apply known .type (by decide) fun _ => ⟨h, .inr ⟨rfl, by decide⟩⟩).cases hident
    fun t t' => ?_
  refine (agrees_apply known .ident (by decide) fun ⟨_, _, ht⟩ => ⟨ht.stop, .inl ht.lt⟩).cases
    hident fun x x' => ?_
  exact .done fun ⟨⟨_, hhere, ht⟩, _, hx⟩ => ⟨hhere, .some ⟨hx.node, ht.type, ht.tag, hx.stop⟩⟩

omit known in
theorem agrees_typeRule (h : P.At p p') :
    Agrees P.limit True (P.Outcomes P.Joint p p') (typeRule src (inside src) p)
      (typeRule src' (inside src') p') := by
  refine (agrees_keyword "int" (by decide) (by decide) fun _ => h).cases ?_ fun a b => ?_
  · refine (agrees_keyword "func" (by decide) (by decide) fun _ => h).cases ?_ fun a b => ?_
    · exact .done fun d => ⟨d.2, .none⟩
    · exact .done fun ⟨_, hhere, hab⟩ =>
        ⟨hhere, .some ⟨like_tag (P.place_here hab.here) (by decide), rfl, .inr rfl, hab.stop⟩⟩
  · exact .done fun ⟨_, hhere, hab⟩ =>
      ⟨hhere, .some ⟨like_tag (P.place_here hab.here) (by decide), rfl, .inr rfl, hab.stop⟩⟩

omit known in
theorem agrees_identRule (h : P.At p p') :
    Agrees P.limit True (P.Outcomes P.Joint p p') (identRule src (inside src) p)
      (identRule src' (inside src') p') := by
  obtain ⟨hle, hle'⟩ := P.at_le h
  rw [identRule_inside hle, identRule_inside hle']
  refine agrees_token fun _ hbefore => ?_
  obtain ⟨hhere, hrel⟩ := P.at_ident h fun hnone => hbefore (by rw [hnone]; rfl)
  exact ⟨P.here_of_layout h hhere, rel_ofRead hrel⟩

omit known in
theorem agrees_integerRule (h : P.At p p') :
    Agrees P.limit True (P.Outcomes P.Joint p p') (integerRule src (inside src) p)
      (integerRule src' (inside src') p') := by
  obtain ⟨hle, hle'⟩ := P.at_le h
  rw [integerRule_inside hle, integerRule_inside hle']
  refine agrees_token fun _ hbefore => ?_
  obtain ⟨hhere, hrel⟩ := P.at_integer h fun hnone => hbefore (by rw [hnone]; rfl)
  exact ⟨P.here_of_layout h hhere, rel_ofRead hrel⟩

/-- The step lemma: the body of a rule comes to the same in both texts if the rules that it applies
do. -/
theorem agrees_body (hr : r ≠ .space) (h : P.At p p') :
    Agrees P.limit True (P.Outcomes P.Joint p p') (body src (inside src) r p)
      (body src' (inside src') r p') := by
  cases r with
  | space => exact absurd rfl hr
  | program => exact agrees_programRule known h
  | statement =>
    exact (agrees_firstOf known _ (by decide) h).mono id fun _ _ _ hrel => ⟨hrel.1 nofun, hrel.2⟩
  | declare => exact agrees_declareRule known h
  | assign => exact agrees_assignRule known h
  | print => exact agrees_keywordExpr known "print" .print (by decide) (by decide) h
  | ifElse => exact agrees_ifElseRule known h
  | ifThen => exact agrees_conditional known "if" .ifThen (by decide) (by decide) h
  | whileDo => exact agrees_conditional known "while" .whileDo (by decide) (by decide) h
  | ret => exact agrees_keywordExpr known "ret" .ret (by decide) (by decide) h
  | exprStatement => exact agrees_exprStatementRule known h
  | block => exact agrees_blockRule known h
  | expr => exact agrees_leftAssoc known .and (by decide) (by decide) _ h
  | and => exact agrees_leftAssoc known .not (by decide) (by decide) _ h
  | not => exact agrees_notRule known h
  | compare => exact agrees_compareRule known h
  | add => exact agrees_leftAssoc known .mul (by decide) (by decide) _ h
  | mul => exact agrees_leftAssoc known .unary (by decide) (by decide) _ h
  | unary => exact agrees_unaryRule known h
  | call => exact agrees_callRule known h
  | primary => exact agrees_primaryRule known h
  | paren => exact agrees_parenRule known h
  | function => exact agrees_functionRule known h
  | param => exact agrees_paramRule known h
  | type => exact agrees_typeRule h
  | ident => exact agrees_identRule h
  | integer => exact agrees_integerRule h

end Rules

/-- The run lemma: every rule comes to the same in both texts. -/
theorem agrees_plain (hr : r ≠ .space) (h : P.At p p') :
    Agrees P.limit True (P.Outcomes P.Joint p p') (inside src r p) (inside src' r p') := by
  induction hneed : r.need src p using Nat.strongRecOn generalizing r p p' with
  | ind n ih =>
    subst hneed
    obtain ⟨hle, hle'⟩ := P.at_le h
    rw [inside_eq hle, inside_eq hle', plain_eq_inside r hle, plain_eq_inside r hle']
    refine agrees_body (fun r' q q' hr' hq hbelow => ih _ ?_ hr' hq rfl) hr h
    obtain hlt | ⟨rfl, hrank⟩ := hbelow
    · exact need_lt_of_lt hlt (P.at_le hq).1
    · exact need_lt_of_rank (Nat.le_refl _) hrank

/-- What a rule comes to in both texts, if it does not go beyond the limit in the first one. -/
theorem joint_reading (hr : r ≠ .space) (h : P.At p p') (hfar : Before P.limit (far src r p)) :
    Option.Rel P.Joint (reading src r p) (reading src' r p') := by
  obtain ⟨hle, hle'⟩ := P.at_le h
  rw [← value_inside hle (.empty 0), ← value_inside hle' (.empty 0)]
  refine ((agrees_plain hr h).related trivial _ _ ?_).2
  rwa [inside_eq hle]

end Parallel

end ClosureLang.Grammar
