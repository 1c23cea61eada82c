import ClosureLang.Text.Blank
import ClosureLang.Text.Decimal
import ClosureLang.Tree.Walk

/-! The shapes that nodes of each kind must have. -/
namespace ClosureLang.Tree

/-- Why a node has the wrong shape. -/
inductive Defect where
  | missingChild (index : Nat)
  | childCount (count : Nat)
  | childKind (index : Nat) (expected : Kind)
  | leafWithChildren
  | signatureLength
  | unknownKind (code : Nat)
deriving DecidableEq

def Defect.message : Defect → String
  | missingChild i => "child " ++ Decimal.natText i ++ " is missing"
  | childCount n => "unexpected number of children: " ++ Decimal.natText n
  | childKind i kind => "child " ++ Decimal.natText i ++ " is not [" ++ kind.tag ++ "]"
  | leafWithChildren => "leaf has children"
  | signatureLength => "signature does not cover every parameter and the return type"
  | unknownKind code => "unknown node kind " ++ Decimal.natText code

/-- A node of the wrong shape. -/
structure Misshapen where
  node : Tree
  kind : Kind
  defect : Defect

def Misshapen.message (m : Misshapen) : String :=
  "invalid " ++ m.kind.tag ++ " node: " ++ m.defect.message

/-- The index of the first absent tree. -/
def firstAbsent (cs : List Tree) : Option Nat := cs.findIdx? isAbsent

def checkArity (allowed : List Nat) (cs : List Tree) : Option Defect :=
  if cs.length ∈ allowed then none else some (.childCount cs.length)

def checkKind (kind : Kind) (i : Nat) (cs : List Tree) : Option Defect :=
  if (cs[i]?).bind kind? = some kind then none else some (.childKind i kind)

/-- Every child is an identifier; the first that is not gets reported. -/
def checkIdents (cs : List Tree) : Option Defect :=
  (cs.findIdx? fun c => c.kind? ≠ some .ident).map fun i => .childKind i .ident

def checkFunction (cs : List Tree) : Option Defect :=
  checkArity [2, 3] cs <|> checkKind (.form .parameters) 0 cs <|> checkKind (.form .sequence)
    1 cs <|> match cs with
    | [params, _, sig] =>
      checkKind (.form .signature) 2 cs <|>
        if sig.children.length = params.children.length + 1 then none else some .signatureLength
    | _ => none

/-- What is wrong with a compound node whose children are all present. -/
def checkForm (f : Form) (cs : List Tree) : Option Defect :=
  match f with
  | .binary _ => checkArity [2] cs
  | .sequence | .arguments => none
  | .parameters | .signature => checkIdents cs
  | .declare =>
    checkArity [2, 3] cs <|> checkKind .ident 0 cs <|>
      if cs.length = 3 then checkKind .ident 2 cs else none
  | .assign => checkArity [2] cs <|> checkKind (.form .varLoc) 0 cs
  | .print | .ret | .not => checkArity [1] cs
  | .ifThen | .whileDo => checkArity [2] cs <|> checkKind (.form .sequence) 1 cs
  | .ifElse =>
    checkArity [3] cs <|> checkKind (.form .sequence) 1 cs <|> checkKind (.form .sequence) 2 cs
  | .function => checkFunction cs
  | .call => checkArity [2] cs <|> checkKind (.form .arguments) 1 cs
  | .lookup | .varLoc => checkArity [1] cs <|> checkKind .ident 0 cs
  | .invalid | .unknown _ => some (.unknownKind (Kind.form f).code)

def checkNode (label : Label) (cs : List Tree) : Option Defect :=
  match firstAbsent cs with
  | some i => some (.missingChild i)
  | none =>
    match label with
    | .integer _ | .ident _ => if cs.isEmpty then none else some .leafWithChildren
    | .form f => checkForm f cs

def misshapen? : Tree → Option Misshapen
  | absent => none
  | node label offset cs => (checkNode label cs).map fun d => ⟨node label offset cs, label.kind, d⟩

/-- The first misshapen node in preorder, if there is one. -/
def validate (t : Tree) : Option Misshapen := t.nodes.findSome? misshapen?

end ClosureLang.Tree
