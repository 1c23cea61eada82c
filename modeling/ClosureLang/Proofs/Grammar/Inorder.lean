import Mathlib.Data.List.Perm.Basic
import ClosureLang.Proofs.Grammar.Passage
import ClosureLang.Proofs.Tree.Uses

/-! What the nodes of a tree hold, in the order of the text that the tree was read from: an operator
stands behind its left operand, and everything else in front of what belongs to it. -/
namespace ClosureLang

variable {α : Type}

namespace Tree

variable {own : Tree → List α} {l : Label} {o : Int} {cs : List Tree} {f : Form} {t a b : Tree}

/-- The first part of an operation stands in front of it. -/
def around (operation : Bool) (mid : List α) (parts : List (List α)) : List α :=
  if operation then (parts.take 1).flatten ++ mid ++ (parts.drop 1).flatten
  else mid ++ parts.flatten

def isOperation (t : Tree) : Bool :=
  match t with
  | node (.form (.binary _)) _ _ => true
  | _ => false

mutual

/-- What the nodes hold, in the order of the text. -/
def inorder (own : Tree → List α) : Tree → List α
  | absent => []
  | node l o cs => around (node l o cs).isOperation (own (node l o cs)) (inorders own cs)

def inorders (own : Tree → List α) : List Tree → List (List α)
  | [] => []
  | c :: cs => inorder own c :: inorders own cs

end

theorem inorders_eq (own : Tree → List α) (cs : List Tree) :
    inorders own cs = cs.map (inorder own) := by
  induction cs with
  | nil => rfl
  | cons c cs ih => rw [inorders, ih, List.map_cons]

theorem inorder_node (h : (node l o cs).isOperation = false) :
    inorder own (node l o cs) = own (node l o cs) ++ cs.flatMap (inorder own) := by
  rw [inorder, inorders_eq, h, List.flatMap_def]
  rfl

theorem inorder_binary (op : BinaryOp) :
    inorder own (binary op o a b) = inorder own a ++ own (binary op o a b) ++ inorder own b := by
  simp [binary, form, inorder, inorders_eq, around, isOperation]

/-- Up to their order, the entries are those of the nodes. -/
theorem inorder_perm (own : Tree → List α) (t : Tree) :
    (inorder own t).Perm (t.nodes.flatMap own) := by
  induction t using Tree.induction with
  | absent => exact .nil
  | node l o cs ih =>
    have hparts : ((inorders own cs).flatten).Perm ((cs.flatMap nodes).flatMap own) := by
      rw [inorders_eq, ← List.flatMap_def, List.flatMap_assoc]
      exact .flatMap_left _ ih
    rw [nodes_node, List.flatMap_cons, inorder, around]
    split
    · refine .trans ?_ (hparts.append_left _)
      have hsplit : (inorders own cs).flatten =
          ((inorders own cs).take 1).flatten ++ ((inorders own cs).drop 1).flatten := by
        rw [← List.flatten_append, List.take_append_drop]
      rw [hsplit, ← List.append_assoc]
      exact List.perm_append_comm.append_right _
    · exact hparts.append_left _

/-- Where operations hold nothing, the order of the text is that of the nodes. -/
theorem inorder_eq (hown : ∀ t : Tree, t.isOperation = true → own t = []) (t : Tree) :
    inorder own t = t.nodes.flatMap own := by
  induction t using Tree.induction with
  | absent => rfl
  | node l o cs ih =>
    have hparts : (inorders own cs).flatten = (cs.flatMap nodes).flatMap own := by
      rw [inorders_eq, ← List.flatMap_def, List.flatMap_assoc]
      exact List.flatMap_congr ih
    rw [nodes_node, List.flatMap_cons, ← hparts, inorder, around]
    split
    · rw [hown _ ‹_›, List.append_nil, ← List.flatten_append, List.take_append_drop,
        List.nil_append]
    · rfl

end Tree

namespace Grammar

open ClosureLang.Tree

section Tokens

variable {src : ByteArray} {p q : Nat} {t : Tree}

theorem le_of_litAt {s : String} {o : Nat} (h : litAt src s p = some (o, q)) : p ≤ q := by
  obtain ⟨-, ho, hq⟩ := litAt_some h
  have hstart := le_layoutEnd src p
  have hstop := le_layoutEnd src (o + s.length)
  omega

theorem leaf_of_identAt (h : identAt src p = some (t, q)) : ∃ o x, t = ident o x := by
  simp only [identAt, Option.ite_none_right_eq_some, Option.map_eq_some_iff, Prod.mk.injEq] at h
  obtain ⟨-, _, -, rfl, -⟩ := h
  exact ⟨_, _, rfl⟩

theorem leaf_of_typeAt (h : typeAt src p = some (t, q)) : ∃ o x, t = ident o x := by
  simp only [typeAt, Option.or_eq_some_iff, Option.map_eq_some_iff, Prod.mk.injEq] at h
  obtain ⟨_, -, rfl, -⟩ | ⟨-, _, -, rfl, -⟩ := h <;> exact ⟨_, _, rfl⟩

end Tokens

/-- A relation between a list and the two ends of the text that it stands in. Operators and blocks
are all that holds anything. -/
structure Listing (src : ByteArray) (own : Tree → List α) where
  Spans : Nat → List α → Nat → Prop
  nil {p q : Nat} : p ≤ q → Spans p [] q
  append {p q r : Nat} {l l' : List α} : Spans p l r → Spans r l' q → Spans p (l ++ l') q
  operator {p q o : Nat} (op : BinaryOp) (a b : Tree) :
    litAt src op.symbol p = some (o, q) → Spans p (own (.binary op o a b)) q
  block {p q r s o c : Nat} {ts : List Tree} {l : List α} :
    litAt src "\x7b" p = some (o, r) → read src .program r = some (.form .sequence r ts, s) →
    Spans r l s →
    litAt src "\x7d" s = some (c, q) → Spans p (own (.form .sequence o ts) ++ l) q
  silent (t : Tree) : t.isOperation = false → t.isForm .sequence = false → own t = []

/-- The end of a phrase is not before its start. -/
def advancing (src : ByteArray) : Passage src where
  Goes p q := p ≤ q
  refl := Nat.le_refl _
  trans := Nat.le_trans
  layout := le_layoutEnd src _
  flat _ _ := Nat.le_succ _
  bracketed _ _ h _ := Nat.le_trans (Nat.le_succ _) (Nat.le_succ_of_le h)

def Item.lists (f : Tree → List α) : Item → List α
  | .argument t => f t
  | .parameter _ _ => []

/-- What a phrase adds to what its trees list. The sequence of a program is listed by the block
around it. -/
def Phrase.Lists (f : Tree → List α) : Phrase → List α → Prop
  | .one .program t, l => l = t.children.flatMap f
  | .one _ t, l | .value t, l | .said _ _ t, l => l = f t
  | .statements ts, l => l = ts.flatMap f
  | .guarded _ _ cond body, l => l = f cond ++ f body
  | .chain _ lhs t, l | .calls lhs t, l => f t = f lhs ++ l
  | .item x, l => l = x.lists f
  | .items xs, l | .moreItems xs, l => l = xs.flatMap (Item.lists f)

theorem Phrase.lists_one {n : Nonterminal} (hn : n ≠ .program) {f : Tree → List α} {l : List α}
    {t : Tree} : (Phrase.one n t).Lists f l ↔ l = f t := by
  cases n <;> first | rfl | exact absurd rfl hn

namespace Listing

variable {src : ByteArray} {own : Tree → List α} (L : Listing src own) {f : Form} {o : Int}
  {cs : List Tree}

include L

theorem inorder_form (hoperation : (form f o cs).isOperation = false) (hsequence : f ≠ .sequence) :
    inorder own (form f o cs) = cs.flatMap (inorder own) := by
  rw [form, inorder_node hoperation, ← form, L.silent _ hoperation, List.nil_append]
  exact decide_eq_false fun h => hsequence (Option.some.inj h)

theorem inorder_leaf {t : Tree} (h : ∃ o x, t = Tree.ident o x) : inorder own t = [] := by
  obtain ⟨o, x, rfl⟩ := h
  rw [Tree.ident, inorder_node rfl, L.silent _ rfl rfl]
  rfl

theorem inorder_int (o : Int) (w : Int64) : inorder own (int o w) = [] := by
  rw [int, inorder_node rfl, L.silent _ rfl rfl]
  rfl

variable {p q : Nat} {t : Tree}

theorem inorder_integerAt (h : integerAt src p = some (t, q)) : inorder own t = [] := by
  simp only [integerAt, Option.map_eq_some_iff, Prod.mk.injEq] at h
  obtain ⟨_, -, rfl, -⟩ := h
  exact L.inorder_int _ _

/-- In a function only the body holds anything. -/
theorem inorder_functionTree {start : Nat} {params : List (Option Tree × Tree)}
    {result : Option Tree} {body : Tree} (hparams : ∀ m ∈ params, IsIdent m.2)
    (hresult : ∀ t, result = some t → ∃ o x, t = Tree.ident o x) :
    inorder own (Pattern.functionTree start params result body) = inorder own body := by
  have hleaves (ts : List Tree) (hts : ∀ t ∈ ts, ∃ o x, t = Tree.ident o x) :
      ts.flatMap (inorder own) = [] :=
    List.flatMap_eq_nil_iff.mpr fun t ht => L.inorder_leaf (hts t ht)
  have hnames : inorder own (form .parameters start (params.map Prod.snd)) = [] := by
    rw [L.inorder_form rfl (by decide)]
    refine hleaves _ fun t ht => ?_
    obtain ⟨m, hm, rfl⟩ := List.mem_map.mp ht
    exact (hparams m hm).leaf
  have htags : inorder own (form .signature start
      (params.map Pattern.tag ++ [result.getD (.ident start genericType)])) = [] := by
    rw [L.inorder_form rfl (by decide)]
    refine hleaves _ fun t ht => ?_
    rcases List.mem_append.mp ht with ht | ht
    · obtain ⟨m, -, rfl⟩ := List.mem_map.mp ht
      exact ⟨_, _, rfl⟩
    · rw [List.mem_singleton.mp ht]
      cases result with
      | none => exact ⟨_, _, rfl⟩
      | some t => exact hresult t rfl
  unfold Pattern.functionTree
  split <;> simp [L.inorder_form (f := .function) rfl (by decide), hnames, htags]

section Steps

variable {s : String} {i j k r u : Nat} {l l' : List α}

theorem layout : L.Spans p [] (layoutEnd src p) := L.nil (le_layoutEnd src p)

theorem lit (h : litAt src s p = some (i, q)) : L.Spans p [] q := L.nil (le_of_litAt h)

theorem word (hs : isReserved s = true) (h : wordAt src s p = some (i, q)) : L.Spans p [] q :=
  L.nil (Passage.goes_wordAt (P := advancing src) hs h)

theorem ident (h : identAt src p = some (t, q)) : L.Spans p [] q :=
  L.nil (Passage.goes_identAt (P := advancing src) h)

theorem type (h : typeAt src p = some (t, q)) : L.Spans p [] q :=
  L.nil (Passage.goes_typeAt (P := advancing src) h)

/-- Something behind what holds nothing. -/
theorem behind (h : L.Spans p [] r) (h' : L.Spans r l q) : L.Spans p l q := L.append h h'

/-- Something in front of what holds nothing. -/
theorem before (h : L.Spans p l r) (h' : L.Spans r [] q) : L.Spans p l q := by
  have hspans := L.append h h'
  rwa [List.append_nil] at hspans

theorem parens (hopen : litAt src "(" p = some (i, r)) (h : L.Spans r l u)
    (hclose : litAt src ")" u = some (j, q)) : L.Spans p l q :=
  L.behind (L.lit hopen) (L.before h (L.lit hclose))

end Steps

/-- What the trees of a phrase hold stands between its ends, in the order of the text. -/
theorem spans_of_derives {φ : Phrase} (h : Derives src φ p q) :
    ∃ l, φ.Lists (inorder own) l ∧ L.Spans p l q := by
  induction h with
  | program _ ih =>
    obtain ⟨l, hl, h⟩ := ih
    exact ⟨l, hl, L.behind L.layout (L.before h L.layout)⟩
  | noStatements | noItems | itemsEnd => exact ⟨[], rfl, L.nil (Nat.le_refl _)⟩
  | chainEnd | callsEnd => exact ⟨[], (List.append_nil _).symm, L.nil (Nat.le_refl _)⟩
  | statements _ _ ih ih' =>
    obtain ⟨l, rfl, h⟩ := ih
    obtain ⟨l', rfl, h'⟩ := ih'
    exact ⟨_, rfl, L.append h h'⟩
  | @kind n m t p q hm _ ih =>
    obtain ⟨l, hl, h⟩ := ih
    have hne : n ≠ .program ∧ m ≠ .program := by
      constructor <;> rintro rfl
      · cases hm
      · cases n <;> simp [Nonterminal.kinds] at hm
    exact ⟨l, (Phrase.lists_one hne.1).mpr ((Phrase.lists_one hne.2).mp hl), h⟩
  | declare hword hident _ ih =>
    obtain ⟨l, rfl, h⟩ := ih
    refine ⟨_, ?_, L.behind (L.word rfl hword) (L.behind (L.ident hident) h)⟩
    simp [Phrase.Lists, L.inorder_form (f := .declare) rfl (by decide),
      L.inorder_leaf (leaf_of_identAt hident)]
  | declareTyped htype hident _ ih =>
    obtain ⟨l, rfl, h⟩ := ih
    refine ⟨_, ?_, L.behind (L.type htype) (L.behind (L.ident hident) h)⟩
    simp [Phrase.Lists, L.inorder_form (f := .declare) rfl (by decide),
      L.inorder_leaf (leaf_of_identAt hident), L.inorder_leaf (leaf_of_typeAt htype)]
  | assign hident _ ih =>
    obtain ⟨l, rfl, h⟩ := ih
    refine ⟨_, ?_, L.behind (L.ident hident) h⟩
    simp [Phrase.Lists, L.inorder_form (f := .assign) rfl (by decide),
      L.inorder_form (f := .varLoc) rfl (by decide), L.inorder_leaf (leaf_of_identAt hident)]
  | value hequals _ hend ih =>
    obtain ⟨l, rfl, h⟩ := ih
    exact ⟨_, rfl, L.behind (L.lit hequals) (L.before h (L.lit hend))⟩
  | said hword hreserved _ hend ih =>
    obtain ⟨l, rfl, h⟩ := ih
    exact ⟨_, rfl, L.behind (L.word hreserved hword) (L.before h (L.lit hend))⟩
  | print _ ih =>
    obtain ⟨l, rfl, h⟩ := ih
    exact ⟨_, by simp [Phrase.Lists, L.inorder_form (f := .print) rfl (by decide)], h⟩
  | ret _ ih =>
    obtain ⟨l, rfl, h⟩ := ih
    exact ⟨_, by simp [Phrase.Lists, L.inorder_form (f := .ret) rfl (by decide)], h⟩
  | guarded hword hreserved hopen _ hclose _ ih ih' =>
    obtain ⟨l, rfl, h⟩ := ih
    obtain ⟨l', rfl, h'⟩ := ih'
    exact ⟨_, rfl, L.behind (L.word hreserved hword) (L.append (L.parens hopen h hclose) h')⟩
  | ifThen _ ih =>
    obtain ⟨l, rfl, h⟩ := ih
    exact ⟨_, by simp [Phrase.Lists, L.inorder_form (f := .ifThen) rfl (by decide)], h⟩
  | ifElse _ hword _ ih ih' =>
    obtain ⟨l, rfl, h⟩ := ih
    obtain ⟨l', rfl, h'⟩ := ih'
    exact ⟨_, by simp [Phrase.Lists, L.inorder_form (f := .ifElse) rfl (by decide)],
      L.append h (L.behind (L.word rfl hword) h')⟩
  | whileDo _ ih =>
    obtain ⟨l, rfl, h⟩ := ih
    exact ⟨_, by simp [Phrase.Lists, L.inorder_form (f := .whileDo) rfl (by decide)], h⟩
  | exprStatement _ hend ih =>
    obtain ⟨l, rfl, h⟩ := ih
    exact ⟨_, rfl, L.before h (L.lit hend)⟩
  | block hopen hread _ hclose ih =>
    obtain ⟨l, rfl, h⟩ := ih
    exact ⟨_, (inorder_node (l := .form .sequence) rfl).symm, L.block hopen hread h hclose⟩
  | @leftAssoc n m ops a t p q r hn _ _ ih ih' =>
    obtain ⟨l, hl, h⟩ := ih
    obtain ⟨l', hl', h'⟩ := ih'
    have hne : n ≠ .program ∧ m ≠ .program := by
      cases n <;> simp [Nonterminal.chained] at hn <;> simp [← hn.1]
    rw [(Phrase.lists_one hne.2).mp hl] at h
    exact ⟨_, (Phrase.lists_one hne.1).mpr hl'.symm, L.append h h'⟩
  | @chain n m ops op a b t o p q r s hn _ hop _ _ ih ih' =>
    obtain ⟨l, hl, h⟩ := ih
    obtain ⟨l', hl', h'⟩ := ih'
    have hne : m ≠ .program := by
      cases n <;> simp [Nonterminal.chained] at hn <;> simp [← hn.1]
    rw [(Phrase.lists_one hne).mp hl] at h
    refine ⟨_, ?_, L.append (L.operator op a b hop) (L.append h h')⟩
    simp only [Phrase.Lists] at hl' ⊢
    rw [hl', inorder_binary]
    simp only [List.append_assoc]
  | compare _ _ hop _ ih ih' =>
    obtain ⟨l, rfl, h⟩ := ih
    obtain ⟨l', rfl, h'⟩ := ih'
    exact ⟨_, (inorder_binary _).symm, L.append (L.append h (L.operator _ _ _ hop)) h'⟩
  | not hsign _ ih =>
    obtain ⟨l, rfl, h⟩ := ih
    exact ⟨_, by simp [Phrase.Lists, L.inorder_form (f := .not) rfl (by decide)],
      L.behind (L.lit hsign) h⟩
  | @minus t o p q r hsign _ ih =>
    obtain ⟨l, rfl, h⟩ := ih
    exact ⟨_, by simp [Phrase.Lists, inorder_binary, L.inorder_int],
      L.append (L.operator .sub (int o 0) t hsign) h⟩
  | call _ _ ih ih' =>
    obtain ⟨l, rfl, h⟩ := ih
    obtain ⟨l', hl', h'⟩ := ih'
    exact ⟨_, hl'.symm, L.append h h'⟩
  | @calls f t ts o i p q r s u hopen _ hclose _ ih ih' =>
    obtain ⟨l, rfl, h⟩ := ih
    obtain ⟨l', hl', h'⟩ := ih'
    refine ⟨_, ?_, L.append (L.parens hopen h hclose) h'⟩
    simp only [Phrase.Lists] at hl' ⊢
    rw [hl', L.inorder_form (f := .call) rfl (by decide)]
    simp [L.inorder_form (f := .arguments) rfl (by decide), List.flatMap_map, Item.lists]
  | paren hopen _ hclose ih =>
    obtain ⟨l, rfl, h⟩ := ih
    exact ⟨_, rfl, L.parens hopen h hclose⟩
  | lookup hident =>
    refine ⟨[], ?_, L.ident hident⟩
    simp [Phrase.Lists, L.inorder_form (f := .lookup) rfl (by decide),
      L.inorder_leaf (leaf_of_identAt hident)]
  | integer hint =>
    refine ⟨[], (L.inorder_integerAt hint).symm,
      L.nil (Passage.goes_integerAt (P := advancing src) hint)⟩
  | @function params result body o i j p q r s u v w hparams hword hopen hitems hclose
        hresult _ ih ih' =>
    obtain ⟨l, rfl, h⟩ := ih
    obtain ⟨l', rfl, h'⟩ := ih'
    have hnone :
        (params.map fun m => Item.parameter m.1 m.2).flatMap (Item.lists (inorder own)) = [] := by
      simp [List.flatMap_map, Item.lists]
    rw [hnone] at h
    have harrow : L.Spans v [] w ∧ ∀ t, result = some t → ∃ o x, t = Tree.ident o x := by
      rcases hresult with ⟨rfl, rfl⟩ | ⟨k, l, t, rfl, harrow, htype⟩
      · exact ⟨L.nil (Nat.le_refl _), nofun⟩
      · refine ⟨L.behind (L.lit harrow) (L.type htype), fun t' ht => ?_⟩
        exact Option.some.inj ht ▸ leaf_of_typeAt htype
    exact ⟨_, (L.inorder_functionTree hparams harrow.2).symm,
      L.behind (L.word rfl hword) (L.behind (L.parens hopen h hclose) (L.behind harrow.1 h'))⟩
  | argument _ ih =>
    obtain ⟨l, rfl, h⟩ := ih
    exact ⟨_, rfl, h⟩
  | parameter hident => exact ⟨[], rfl, L.ident hident⟩
  | typedParameter htype hident => exact ⟨[], rfl, L.behind (L.type htype) (L.ident hident)⟩
  | items _ _ ih ih' =>
    obtain ⟨l, rfl, h⟩ := ih
    obtain ⟨l', rfl, h'⟩ := ih'
    exact ⟨_, rfl, L.append h h'⟩
  | moreItems hcomma _ _ ih ih' =>
    obtain ⟨l, rfl, h⟩ := ih
    obtain ⟨l', rfl, h'⟩ := ih'
    exact ⟨_, rfl, L.behind (L.lit hcomma) (L.append h h')⟩

end Listing

section Operators

/-- The place of an operator. -/
def operatorOf : Tree → List Int
  | node (.form (.binary _)) o _ => [o]
  | _ => []

/-- Operators stand one behind the other. -/
def operators (src : ByteArray) : Listing src operatorOf where
  Spans p l q := p ≤ q ∧ (∀ o ∈ l, (p : Int) ≤ o ∧ o < q) ∧ l.Pairwise (· < ·)
  nil h := ⟨h, nofun, .nil⟩
  append := by
    rintro p q r l l' ⟨hpr, hl, hlt⟩ ⟨hrq, hl', hlt'⟩
    refine ⟨Nat.le_trans hpr hrq, fun o ho => ?_,
      List.pairwise_append.mpr ⟨hlt, hlt', fun o ho o' ho' => ?_⟩⟩
    · rcases List.mem_append.mp ho with ho | ho
      · have hbounds := hl o ho
        omega
      · have hbounds := hl' o ho
        omega
    · have hbefore := hl o ho
      have hbehind := hl' o' ho'
      omega
  operator := by
    intro p q o op a b h
    obtain ⟨-, rfl, rfl⟩ := litAt_some h
    have hstart := le_layoutEnd src p
    have hstop := le_layoutEnd src (layoutEnd src p + op.symbol.length)
    have hlength : 0 < op.symbol.length := by cases op <;> decide
    refine ⟨by omega, fun i hi => ?_, List.pairwise_singleton _ _⟩
    obtain rfl := List.mem_singleton.mp hi
    omega
  block := by
    rintro p q r s o c ts l hopen - ⟨hrs, hl, hlt⟩ hclose
    have hstart := le_of_litAt hopen
    have hstop := le_of_litAt hclose
    refine ⟨by omega, fun i hi => ?_, hlt⟩
    have hbounds := hl i hi
    omega
  silent t hoperation _ := by
    unfold operatorOf
    split
    · cases hoperation
    · rfl

/-- No two operators of a program stand at one place. -/
theorem nodup_operators {src : String} {t : Tree} (h : parseProgram src = .ok t) :
    (t.nodes.flatMap operatorOf).Nodup := by
  have hderives := derives_of_parseProgram h
  obtain ⟨l, hl, -, -, hlt⟩ := (operators src.toUTF8).spans_of_derives hderives
  generalize src.utf8ByteSize = q at hderives
  cases hderives with
  | @program ts =>
    have hroot : inorder operatorOf (form .sequence (0 : Nat) ts) = l :=
      (inorder_node (l := .form .sequence) rfl).trans hl.symm
    rw [← (inorder_perm operatorOf _).nodup_iff, hroot]
    exact hlt.imp fun h => Int.ne_of_lt h
  | kind hm => cases hm
  | leftAssoc hn => cases hn

end Operators

end Grammar

end ClosureLang
