import ClosureLang.Tree.Walk

/-! Constant folding. Sums and differences of literals are gathered at the end of their chain;
products and quotients of two literals are computed. New nodes have offset zero. -/
namespace ClosureLang.Fold

open ClosureLang.Tree

/-- A term of a chain of sums and differences. -/
structure Term where
  node : Tree
  negative : Bool

def isChain (t : Tree) : Bool :=
  match t with
  | .node (.form (.binary op)) _ _ => op.isAdditive
  | _ => false

/-- The signed terms of a chain from left to right. The answer is `none` if an operand is
absent. -/
def terms (negative : Bool) : Tree → Option (List Term)
  | .absent => none
  | .node (.form (.binary .add)) _ (lhs :: rhs :: _) => do
    return (← terms negative lhs) ++ (← terms negative rhs)
  | .node (.form (.binary .sub)) _ (lhs :: rhs :: _) => do
    return (← terms negative lhs) ++ (← terms (!negative) rhs)
  | .node (.form (.binary .add)) _ _ => none
  | .node (.form (.binary .sub)) _ _ => none
  | t => some [⟨t, negative⟩]

/-- The sum of the literal terms, with wrap-around. -/
def constant (ts : List Term) : Int64 :=
  ts.foldl (fun sum t =>
    match t.node.value? with
    | some value => if t.negative then sum - value else sum + value
    | none => sum) 0

/-- The other terms, followed by the sum of the literals unless it is zero. -/
def gathered (ts : List Term) : List Term :=
  let rest := ts.filter fun t => t.node.value?.isNone
  let sum := constant ts
  if 0 < sum then rest ++ [⟨int 0 sum, false⟩]
  else if sum < 0 then rest ++ [⟨int 0 (-sum), true⟩]
  else rest

/-- Moves the first positive term to the front. -/
def positiveFirst (ts : List Term) : List Term :=
  match ts.find? (!·.negative) with
  | none => ts
  | some t =>
    t :: (ts.takeWhile (·.negative) ++ (ts.dropWhile (·.negative)).drop 1)

def attach (chain : Tree) (t : Term) : Tree :=
  .binary (if t.negative then .sub else .add) 0 chain t.node

/-- The chain of the given terms; a negative first term is subtracted from zero. -/
def chain : List Term → Tree
  | [] => int 0 0
  | t :: ts => if t.negative then (t :: ts).foldl attach (int 0 0) else ts.foldl attach t.node

def foldChain (t : Tree) : Option Tree := do
  return chain (positiveFirst (gathered (← terms false t)))

def foldChainChild (t : Tree) : Option Tree := if isChain t then foldChain t else some t

/-- Computes a product or quotient of two literals. Division by zero is left alone. -/
def foldProduct (t : Tree) : Tree :=
  match t with
  | .node (.form (.binary op)) _ cs =>
    match op, (cs[0]?).bind value?, (cs[1]?).bind value? with
    | .mul, some m, some n => int 0 (m * n)
    | .div, some m, some n => if n = 0 then t else int 0 (m / n)
    | _, _, _ => t
  | _ => t

mutual

/-- Folds everything below the chain that a tree may be part of. -/
def foldInner : Tree → Option Tree
  | .absent => some .absent
  | .node label offset cs => do
    let cs ← foldInnerAll cs
    if isChain (.node label offset cs) then return .node label offset cs
    else return foldProduct (.node label offset (← cs.mapM foldChainChild))

def foldInnerAll : List Tree → Option (List Tree)
  | [] => some []
  | c :: cs => do
    return (← foldInner c) :: (← foldInnerAll cs)

end

/-- The folded tree. The answer is `none` if an operand of a sum or difference is absent. -/
def fold (t : Tree) : Option Tree := do foldChainChild (← foldInner t)

end ClosureLang.Fold
