import Mathlib.Data.List.Forall2
import ClosureLang.Tree.Canonical
import ClosureLang.Tree.Equality

/-! Trees that are equal up to offsets, by their shape, and trees with other names at the same
shape. -/
namespace ClosureLang.Tree

variable {o o' : Int}

@[simp] theorem similar_int {w : Int64} : similar (int o w) (int o' w) = true := by
  simp [similar, agree, int]

@[simp] theorem similar_ident {x : String} : similar (ident o x) (ident o' x) = true := by
  simp [similar, agree, ident]

@[simp] theorem similar_form {f : Form} {ts us : List Tree} :
    similar (form f o ts) (form f o' us) = agreeAll false ts us := by
  simp [similar, agree, form]

@[simp] theorem agreeAll_nil : agreeAll false [] [] = true := by rw [agreeAll]

@[simp] theorem agreeAll_cons {t u : Tree} {ts us : List Tree} :
    agreeAll false (t :: ts) (u :: us) = (similar t u && agreeAll false ts us) := by
  rw [agreeAll, similar]

mutual

theorem agree_self (offsets : Bool) : (t : Tree) → agree offsets t t = true
  | absent => by rw [agree]
  | node (.integer _) _ _ => by simp [agree]
  | node (.ident _) _ _ => by simp [agree]
  | node (.form _) _ cs => by simp [agree, agreeAll_self offsets cs]

theorem agreeAll_self (offsets : Bool) : (ts : List Tree) → agreeAll offsets ts ts = true
  | [] => by rw [agreeAll]
  | t :: ts => by rw [agreeAll, agree_self offsets t, agreeAll_self offsets ts, Bool.and_self]

end

theorem agreeAll_of_similar {ts us : List Tree}
    (h : List.Forall₂ (fun t u => similar t u = true) ts us) : agreeAll false ts us = true := by
  induction h with
  | nil => exact agreeAll_nil
  | cons h _ ih => rw [agreeAll_cons, h, ih]; rfl

mutual

/-- A tree without what similarity does not see: offsets, and children of leaves. -/
def strip : Tree → Tree
  | absent => absent
  | node (.form f) _ cs => form f 0 (stripAll cs)
  | node l _ _ => node l 0 []

def stripAll : List Tree → List Tree
  | [] => []
  | c :: cs => strip c :: stripAll cs

end

mutual

theorem similar_iff_strip : (t u : Tree) → (similar t u = true ↔ strip t = strip u)
  | absent, absent => by simp [similar, agree, strip]
  | absent, node l _ _ => by cases l <;> simp [similar, agree, strip, form]
  | node l _ _, absent => by cases l <;> simp [similar, agree, strip, form]
  | node l o cs, node l' o' ds => by
    cases l with
    | integer w => cases l' <;> simp [similar, agree, strip, form]
    | ident x => cases l' <;> simp [similar, agree, strip, form]
    | form f =>
      cases l' with
      | form g =>
        have hchildren := agreeAll_iff_strip cs ds
        simp [similar, agree, strip, form, hchildren]
      | _ => simp [similar, agree, strip, form]

theorem agreeAll_iff_strip : (ts us : List Tree) →
    (agreeAll false ts us = true ↔ stripAll ts = stripAll us)
  | [], [] => by simp [stripAll]
  | [], _ :: _ => by simp [agreeAll, stripAll]
  | _ :: _, [] => by simp [agreeAll, stripAll]
  | t :: ts, u :: us => by
    simp only [agreeAll_cons, Bool.and_eq_true, stripAll, List.cons.injEq,
      similar_iff_strip t u, agreeAll_iff_strip ts us]

end

mutual

@[simp] theorem chars_strip : (t : Tree) → t.strip.chars = t.chars
  | absent => rfl
  | node l o cs => by
    cases l with
    | form f => simp [strip, form, chars, charsOfChildren_stripAll cs]
    | _ => rfl

theorem charsOfChildren_stripAll : (ts : List Tree) →
    charsOfChildren (stripAll ts) = charsOfChildren ts
  | [] => rfl
  | t :: ts => by simp only [stripAll, charsOfChildren, chars_strip t, charsOfChildren_stripAll ts]

end

@[simp] theorem kind?_strip (t : Tree) : t.strip.kind? = t.kind? := by
  cases t with
  | absent => rfl
  | node l o cs => cases l <;> rfl

theorem stripAll_eq_map : (ts : List Tree) → stripAll ts = ts.map strip
  | [] => rfl
  | t :: ts => by rw [stripAll, stripAll_eq_map ts, List.map_cons]

end ClosureLang.Tree

namespace ClosureLang

/-- The label with another name, if it is a name. -/
def Label.rename (name : String → String) : Label → Label
  | .ident x => .ident (name x)
  | l => l

namespace Tree

variable {name : Int → String → String} {place : Int → Int} {o : Int} {x : String} {w : Int64}
  {f : Form} {ts : List Tree} {t u : Tree}

mutual

/-- The tree with the name `name o x` for `x` at the offset `o`, and its nodes at the offsets that
`place` says. -/
def relabel (name : Int → String → String) (place : Int → Int) : Tree → Tree
  | absent => absent
  | node l o cs => node (l.rename (name o)) (place o) (relabelAll name place cs)

def relabelAll (name : Int → String → String) (place : Int → Int) : List Tree → List Tree
  | [] => []
  | c :: cs => relabel name place c :: relabelAll name place cs

end

theorem relabelAll_eq_map (ts : List Tree) :
    relabelAll name place ts = ts.map (relabel name place) := by
  induction ts with
  | nil => rfl
  | cons t ts ih => rw [relabelAll, ih, List.map_cons]

@[simp] theorem relabel_ident : relabel name place (ident o x) = ident (place o) (name o x) := rfl

@[simp] theorem relabel_int : relabel name place (int o w) = int (place o) w := rfl

@[simp] theorem relabel_form :
    relabel name place (form f o ts) = form f (place o) (ts.map (relabel name place)) := by
  rw [form, relabel, relabelAll_eq_map]
  rfl

@[simp] theorem children_relabel (t : Tree) :
    (relabel name place t).children = t.children.map (relabel name place) := by
  cases t with
  | absent => rfl
  | node l o cs => exact relabelAll_eq_map cs

@[simp] theorem offset?_relabel (t : Tree) :
    (relabel name place t).offset? = t.offset?.map place := by
  cases t <;> rfl

@[simp] theorem child_relabel (t : Tree) (i : Nat) :
    (relabel name place t).child i = relabel name place (t.child i) := by
  simp only [child, children_relabel, List.getElem?_map]
  cases t.children[i]? <;> rfl

@[simp] theorem kind?_relabel (t : Tree) : (relabel name place t).kind? = t.kind? := by
  cases t with
  | absent => rfl
  | node l o cs => cases l <;> rfl

mutual

theorem relabel_id : (t : Tree) → relabel (fun _ x => x) (fun o => o) t = t
  | absent => rfl
  | node l o cs => by cases l <;> simp only [relabel, Label.rename, relabelAll_id cs]

theorem relabelAll_id : (ts : List Tree) → relabelAll (fun _ x => x) (fun o => o) ts = ts
  | [] => rfl
  | t :: ts => by rw [relabelAll, relabel_id t, relabelAll_id ts]

end

mutual

/-- Similarity does not see the offsets. -/
theorem strip_relabel (place' : Int → Int) :
    (t : Tree) → strip (relabel name place t) = strip (relabel name place' t)
  | absent => rfl
  | node l o cs => by
    cases l <;> simp only [relabel, Label.rename, strip, stripAll_relabelAll place' cs]

theorem stripAll_relabelAll (place' : Int → Int) :
    (ts : List Tree) → stripAll (relabelAll name place ts) = stripAll (relabelAll name place' ts)
  | [] => rfl
  | t :: ts => by
    simp only [relabelAll, stripAll, strip_relabel place' t, stripAll_relabelAll place' ts]

end

end Tree

end ClosureLang
