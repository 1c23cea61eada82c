import ClosureLang.Grammar.Lexis
import ClosureLang.Tree.Basic

/-! Trees of programs: which kinds of nodes may stand in the place of a statement, an expression or
a block. -/
namespace ClosureLang

/-- An identifier that is no reserved word. -/
def Grammar.IsName (x : String) : Prop :=
  isReserved x = false ∧ ∃ b bs, isIdentStart b = true ∧ (∀ c ∈ bs, isIdentByte c = true) ∧
    x = String.ofList ((b :: bs).map fun b => Char.ofNat b.toNat)

namespace Tree

open Grammar

/-- The places that a tree can stand in. -/
inductive Role where
  | statement | expression | block
deriving DecidableEq

def IsIdent (t : Tree) : Prop := ∃ offset x, t = ident offset x ∧ IsName x

/-- A type that can be written down. -/
def IsType (t : Tree) : Prop := ∃ offset x, t = ident offset x ∧ (x = "int" ∨ x = "func")

def IsTag (t : Tree) : Prop := IsType t ∨ ∃ offset, t = ident offset genericType

theorem IsIdent.leaf {t : Tree} (h : IsIdent t) : ∃ offset x, t = ident offset x := by
  obtain ⟨offset, x, rfl, -⟩ := h
  exact ⟨offset, x, rfl⟩

theorem IsType.leaf {t : Tree} (h : IsType t) : ∃ offset x, t = ident offset x := by
  obtain ⟨offset, x, rfl, -⟩ := h
  exact ⟨offset, x, rfl⟩

theorem IsTag.leaf {t : Tree} (h : IsTag t) : ∃ offset x, t = ident offset x := by
  obtain h | ⟨offset, rfl⟩ := h
  · exact h.leaf
  · exact ⟨offset, genericType, rfl⟩

/-- The signature of a function with `n` parameters, if it has one, annotates at least one
position. -/
def IsSignature (n : Nat) (sig : List Tree) : Prop :=
  sig = [] ∨ ∃ offset tags, sig = [form .signature offset tags] ∧ tags.length = n + 1 ∧
    (∀ t ∈ tags, IsTag t) ∧ ∃ t ∈ tags, IsType t

/-- Trees in which every node stands in a place for its kind. The literals in them satisfy `P`. -/
inductive WellSorted (P : Int64 → Prop) : Role → Tree → Prop where
  | int {offset w} : P w → WellSorted P .expression (int offset w)
  | lookup {offset x} : IsIdent x → WellSorted P .expression (form .lookup offset [x])
  | binary {op offset lhs rhs} : WellSorted P .expression lhs → WellSorted P .expression rhs →
      WellSorted P .expression (binary op offset lhs rhs)
  | not {offset t} : WellSorted P .expression t → WellSorted P .expression (form .not offset [t])
  | call {offset offset' callee args} : WellSorted P .expression callee →
      (∀ t ∈ args, WellSorted P .expression t) →
      WellSorted P .expression (form .call offset [callee, form .arguments offset' args])
  | function {offset offset' params body sig} : (∀ x ∈ params, IsIdent x) →
      WellSorted P .block body → IsSignature params.length sig →
      WellSorted P .expression
        (form .function offset (form .parameters offset' params :: body :: sig))
  | block {offset ts} : (∀ t ∈ ts, WellSorted P .statement t) →
      WellSorted P .block (form .sequence offset ts)
  | declare {offset x value type} : IsIdent x → WellSorted P .expression value →
      (∀ t ∈ type, IsType t) → type.length ≤ 1 →
      WellSorted P .statement (form .declare offset (x :: value :: type))
  | assign {offset offset' x value} : IsIdent x → WellSorted P .expression value →
      WellSorted P .statement (form .assign offset [form .varLoc offset' [x], value])
  | print {offset t} : WellSorted P .expression t → WellSorted P .statement (form .print offset [t])
  | ret {offset t} : WellSorted P .expression t → WellSorted P .statement (form .ret offset [t])
  | ifThen {offset cond body} : WellSorted P .expression cond → WellSorted P .block body →
      WellSorted P .statement (form .ifThen offset [cond, body])
  | ifElse {offset cond body alternative} : WellSorted P .expression cond →
      WellSorted P .block body → WellSorted P .block alternative →
      WellSorted P .statement (form .ifElse offset [cond, body, alternative])
  | whileDo {offset cond body} : WellSorted P .expression cond → WellSorted P .block body →
      WellSorted P .statement (form .whileDo offset [cond, body])
  | expression {t} : WellSorted P .expression t → WellSorted P .statement t

/-- A tree in which every node stands in a place for its kind, whatever the literals. -/
abbrev InPlace (role : Role) (t : Tree) : Prop := WellSorted (fun _ => True) role t

theorem WellSorted.inPlace {P : Int64 → Prop} {role : Role} {t : Tree} (h : WellSorted P role t) :
    InPlace role t := by
  induction h with
  | int => exact .int trivial
  | lookup hx => exact .lookup hx
  | binary _ _ ihl ihr => exact .binary ihl ihr
  | not _ ih => exact .not ih
  | call _ _ ihc ihargs => exact .call ihc ihargs
  | function hparams _ hsig ih => exact .function hparams ih hsig
  | block _ ih => exact .block ih
  | declare hx _ htype hlen ih => exact .declare hx ih htype hlen
  | assign hx _ ih => exact .assign hx ih
  | print _ ih => exact .print ih
  | ret _ ih => exact .ret ih
  | ifThen _ _ ihc ihb => exact .ifThen ihc ihb
  | ifElse _ _ _ ihc ihb iha => exact .ifElse ihc ihb iha
  | whileDo _ _ ihc ihb => exact .whileDo ihc ihb
  | expression _ ih => exact .expression ih

end Tree

end ClosureLang
