import ClosureLang.Proofs.Editor.Extents
import ClosureLang.Proofs.Grammar.Derivations

/-! Where the names and the blocks of a program stand in its text: each part behind the one in front
of it, and what belongs to a block between its braces. -/
namespace ClosureLang

open ClosureLang.Tree

namespace Editor

variable {content : String} {p p' q q' r : Nat} {t u : Tree} {ts us : List Tree}

mutual

/-- The names that a tree uses or declares and the blocks in it stand between two offsets, in the
order of the text. Types and parameters are left out. -/
def Laid (content : String) : Tree → Nat → Nat → Prop
  | .absent, p, q => p ≤ q
  | .node l o cs, p, q =>
    match l, cs with
    | .form .lookup, x :: _ | .form .varLoc, x :: _ =>
      ∃ i : Nat, x.offset?.getD 0 = i ∧ p ≤ i ∧ i < q
    | .form .declare, x :: value :: _ =>
      ∃ i : Nat, x.offset?.getD 0 = i ∧ p ≤ i ∧ Laid content value (i + 1) q
    | .form .function, _ :: body :: _ => ∃ i : Nat, o = i ∧ p ≤ i ∧ Laid content body (i + 1) q
    | .form .sequence, cs =>
      ∃ i : Nat, o = i ∧ p ≤ i ∧ LaidAll content cs (i + 1) (closingBrace content o) ∧
        closingBrace content o < q
    | _, cs => LaidAll content cs p q

/-- The trees of a list are laid out one behind the other. -/
def LaidAll (content : String) : List Tree → Nat → Nat → Prop
  | [], p, q => p ≤ q
  | t :: ts, p, q => ∃ r, Laid content t p r ∧ LaidAll content ts r q

end

section Equations

variable {o : Int} {x value body : Tree} {cs rest : List Tree} {f : Form}

theorem laid_use (hf : f = .lookup ∨ f = .varLoc) : Laid content (form f o (x :: rest)) p q ↔
    ∃ i : Nat, x.offset?.getD 0 = i ∧ p ≤ i ∧ i < q := by
  obtain rfl | rfl := hf <;> exact Iff.rfl

theorem laid_declare : Laid content (form .declare o (x :: value :: rest)) p q ↔
    ∃ i : Nat, x.offset?.getD 0 = i ∧ p ≤ i ∧ Laid content value (i + 1) q := .rfl

theorem laid_function : Laid content (form .function o (x :: body :: rest)) p q ↔
    ∃ i : Nat, o = i ∧ p ≤ i ∧ Laid content body (i + 1) q := .rfl

theorem laid_block : Laid content (form .sequence o ts) p q ↔
    ∃ i : Nat, o = i ∧ p ≤ i ∧ LaidAll content ts (i + 1) (closingBrace content o) ∧
      closingBrace content o < q := .rfl

/-- A node that is no name and no block is laid out as its parts are. -/
theorem laid_parts (hf : f ∉ [.lookup, .varLoc, .declare, .function, .sequence]) :
    Laid content (form f o cs) p q ↔ LaidAll content cs p q := by
  cases f <;> first | exact absurd (by decide) hf | exact Iff.rfl

theorem laid_int {w : Int64} : Laid content (int o w) p q ↔ p ≤ q := .rfl

theorem laidAll_cons :
    LaidAll content (t :: ts) p q ↔ ∃ r, Laid content t p r ∧ LaidAll content ts r q := .rfl

theorem laidAll_nil : LaidAll content [] p q ↔ p ≤ q := .rfl

end Equations

section Offsets

theorem laidAll_widen (ht : ∀ t ∈ ts, ∀ {p p' q q'}, Laid content t p q → p' ≤ p → q ≤ q' →
    Laid content t p' q') (h : LaidAll content ts p q) (hp : p' ≤ p) (hq : q ≤ q') :
    LaidAll content ts p' q' := by
  induction ts generalizing p p' with
  | nil => exact laidAll_nil.mpr (Nat.le_trans hp (Nat.le_trans (laidAll_nil.mp h) hq))
  | cons t ts ih =>
    rw [List.forall_mem_cons] at ht
    obtain ⟨r, hfirst, hrest⟩ := laidAll_cons.mp h
    exact laidAll_cons.mpr ⟨r, ht.1 hfirst hp (Nat.le_refl _), ih ht.2 hrest (Nat.le_refl _)⟩

/-- What stands between two offsets stands between wider ones. -/
theorem Laid.widen (h : Laid content t p q) (hp : p' ≤ p) (hq : q ≤ q') :
    Laid content t p' q' := by
  induction t using Tree.induction generalizing p p' q q' with
  | absent =>
    simp only [Laid] at h ⊢
    omega
  | node l o cs ih =>
    unfold Laid at h ⊢
    split at h
    · obtain ⟨i, hi, hpi, hiq⟩ := h
      exact ⟨i, hi, by omega, by omega⟩
    · obtain ⟨i, hi, hpi, hiq⟩ := h
      exact ⟨i, hi, by omega, by omega⟩
    · obtain ⟨i, hi, hpi, h⟩ := h
      exact ⟨i, hi, by omega, ih _ (by simp) h (Nat.le_refl _) hq⟩
    · obtain ⟨i, hi, hpi, h⟩ := h
      exact ⟨i, hi, by omega, ih _ (by simp) h (Nat.le_refl _) hq⟩
    · obtain ⟨i, hi, hpi, h, hclose⟩ := h
      exact ⟨i, hi, by omega, h, by omega⟩
    · exact laidAll_widen ih h hp hq

theorem LaidAll.widen (h : LaidAll content ts p q) (hp : p' ≤ p) (hq : q ≤ q') :
    LaidAll content ts p' q' :=
  laidAll_widen (fun _ _ => Laid.widen) h hp hq

theorem laidAll_le (ht : ∀ t ∈ ts, ∀ {p q}, Laid content t p q → p ≤ q)
    (h : LaidAll content ts p q) : p ≤ q := by
  induction ts generalizing p with
  | nil => exact laidAll_nil.mp h
  | cons t ts ih =>
    rw [List.forall_mem_cons] at ht
    obtain ⟨r, hfirst, hrest⟩ := laidAll_cons.mp h
    exact Nat.le_trans (ht.1 hfirst) (ih ht.2 hrest)

theorem Laid.le (h : Laid content t p q) : p ≤ q := by
  induction t using Tree.induction generalizing p q with
  | absent => simpa only [Laid] using h
  | node l o cs ih =>
    unfold Laid at h
    split at h
    · obtain ⟨i, -, hpi, hiq⟩ := h
      omega
    · obtain ⟨i, -, hpi, hiq⟩ := h
      omega
    · obtain ⟨i, -, hpi, h⟩ := h
      have hle := ih _ (by simp) h
      omega
    · obtain ⟨i, -, hpi, h⟩ := h
      have hle := ih _ (by simp) h
      omega
    · obtain ⟨i, -, hpi, h, hclose⟩ := h
      have hle := laidAll_le ih h
      omega
    · exact laidAll_le ih h

theorem LaidAll.le (h : LaidAll content ts p q) : p ≤ q := laidAll_le (fun _ _ => Laid.le) h

theorem LaidAll.append (h : LaidAll content ts p r) (h' : LaidAll content us r q) :
    LaidAll content (ts ++ us) p q := by
  induction ts generalizing p with
  | nil => exact h'.widen (laidAll_nil.mp h) (Nat.le_refl _)
  | cons t ts ih =>
    obtain ⟨s, hfirst, hrest⟩ := laidAll_cons.mp h
    exact laidAll_cons.mpr ⟨s, hfirst, ih hrest⟩

theorem Laid.alone (h : Laid content t p q) : LaidAll content [t] p q :=
  laidAll_cons.mpr ⟨q, h, laidAll_nil.mpr (Nat.le_refl _)⟩

theorem Laid.andThen (h : Laid content t p r) (h' : Laid content u r q) :
    LaidAll content [t, u] p q :=
  laidAll_cons.mpr ⟨r, h, h'.alone⟩

end Offsets

end Editor

namespace Grammar

open Editor

variable {content : String} {src : ByteArray} {p q r s o c : Nat} {x t : Tree} {ts : List Tree}

/-- An identifier stands between the ends of its match. -/
theorem offset_of_identAt (h : identAt src p = some (x, q)) :
    ∃ i : Nat, x.offset?.getD 0 = i ∧ p ≤ i ∧ i < q := by
  simp only [identAt, Option.ite_none_right_eq_some, Option.map_eq_some_iff, Prod.mk.injEq] at h
  obtain ⟨hany, y, -, rfl, rfl⟩ := h
  obtain ⟨b, hb, hstart⟩ := exists_of_any hany
  refine ⟨layoutEnd src p, rfl, le_layoutEnd src p, ?_⟩
  have hrun : layoutEnd src p < runEnd isIdentByte src (layoutEnd src p) := by
    rw [runEnd_of_any (by simp [hb, isIdentByte_of_isIdentStart b hstart])]
    exact Nat.le_add_right _ _
  exact Nat.lt_of_lt_of_le hrun (le_layoutEnd src _)

theorem le_of_wordAt {w : String} (h : wordAt src w p = some (o, q)) : p ≤ o ∧ o ≤ q := by
  obtain ⟨-, rfl, rfl⟩ := wordAt_some h
  exact ⟨le_layoutEnd src p, Nat.le_trans (Nat.le_add_right _ _) (le_layoutEnd src _)⟩

/-- Of the items of a list, only arguments are trees with names and blocks that count. -/
def Item.trees : Item → List Tree
  | .argument t => [t]
  | .parameter _ _ => []

/-- What the trees of a phrase say about the text between its ends. Behind an operand stands what is
added to it. -/
def Phrase.Laid (content : String) : Phrase → Nat → Nat → Prop
  | .one .program t, p, q => LaidAll content t.children p q
  | .one _ t, p, q | .value t, p, q | .said _ _ t, p, q => Editor.Laid content t p q
  | .statements ts, p, q => LaidAll content ts p q
  | .guarded _ _ cond body, p, q => LaidAll content [cond, body] p q
  | .chain _ lhs t, p, q | .calls lhs t, p, q =>
    ∀ p', Editor.Laid content lhs p' p → Editor.Laid content t p' q
  | .item x, p, q => LaidAll content x.trees p q
  | .items xs, p, q | .moreItems xs, p, q => LaidAll content (xs.flatMap Item.trees) p q

theorem Phrase.laid_one {n : Nonterminal} (hn : n ≠ .program) :
    Phrase.Laid content (.one n t) p q ↔ Editor.Laid content t p q := by
  cases n <;> first | rfl | exact absurd rfl hn

theorem Phrase.laid_parts {n : Nonterminal} {f : Form} {o : Int} (hn : n ≠ .program)
    (hf : f ∉ [.lookup, .varLoc, .declare, .function, .sequence]) (h : LaidAll content ts p q) :
    Phrase.Laid content (.one n (.form f o ts)) p q :=
  (Phrase.laid_one hn).mpr ((Editor.laid_parts hf).mpr h)

/-- What is read stands where its text does. -/
theorem laid_of_derives {φ : Phrase} (h : Derives content.toUTF8 φ p q) : φ.Laid content p q := by
  induction h with
  | program _ ih => exact LaidAll.widen ih (le_layoutEnd ..) (le_layoutEnd ..)
  | noStatements | noItems | itemsEnd =>
    show LaidAll content [] _ _
    exact laidAll_nil.mpr (Nat.le_refl _)
  | chainEnd | callsEnd => exact fun _ h => h
  | statements _ _ ih ih' => exact laidAll_cons.mpr ⟨_, (Phrase.laid_one (by decide)).mp ih, ih'⟩
  | @kind n m t p q hm _ ih =>
    have hne : n ≠ .program ∧ m ≠ .program := by
      constructor <;> rintro rfl
      · cases hm
      · cases n <;> simp [Nonterminal.kinds] at hm
    exact (Phrase.laid_one hne.1).mpr ((Phrase.laid_one hne.2).mp ih)
  | declare hword hident _ ih =>
    obtain ⟨i, hi, hle, hlt⟩ := offset_of_identAt hident
    have hstart := le_of_wordAt hword
    have hvalue := Laid.widen ih hlt (Nat.le_refl _)
    exact (Phrase.laid_one (by decide)).mpr (laid_declare.mpr ⟨i, hi, by omega, hvalue⟩)
  | declareTyped htype hident _ ih =>
    obtain ⟨i, hi, hle, hlt⟩ := offset_of_identAt hident
    have hstart := Passage.goes_typeAt (P := advancing content.toUTF8) htype
    have hvalue := Laid.widen ih hlt (Nat.le_refl _)
    exact (Phrase.laid_one (by decide)).mpr
      (laid_declare.mpr ⟨i, hi, Nat.le_trans hstart hle, hvalue⟩)
  | assign hident _ ih =>
    refine Phrase.laid_parts (by decide) (by decide) (Laid.andThen ?_ ih)
    exact (laid_use (.inr rfl)).mpr (offset_of_identAt hident)
  | value hequals _ hend ih => exact Laid.widen ih (le_of_litAt hequals) (le_of_litAt hend)
  | said hword _ _ hend ih =>
    have hstart := le_of_wordAt hword
    exact Laid.widen ih (by omega) (le_of_litAt hend)
  | print _ ih | ret _ ih => exact Phrase.laid_parts (by decide) (by decide) (Laid.alone ih)
  | guarded hword _ hopen _ hclose _ ih ih' =>
    have hword := le_of_wordAt hword
    have hstart := le_of_litAt hopen
    exact (Laid.widen ih (by omega) (le_of_litAt hclose)).andThen ih'
  | ifThen _ ih | whileDo _ ih => exact Phrase.laid_parts (by decide) (by decide) ih
  | ifElse _ hword _ ih ih' =>
    have hstart := le_of_wordAt hword
    have halternative := Laid.widen ih' (Nat.le_trans hstart.1 hstart.2) (Nat.le_refl _)
    have hparts : LaidAll content [_, _] _ _ := ih
    exact Phrase.laid_parts (by decide) (by decide) (hparts.append halternative.alone)
  | exprStatement _ hend ih => exact Laid.widen ih (Nat.le_refl _) (le_of_litAt hend)
  | @block ts o c p q r s hopen hread _ hclose ih =>
    have hfound := searchFrom_block hopen hread hclose
    obtain ⟨hbyte, ho, hr⟩ := byte_of_litAt rfl hopen
    obtain ⟨-, hc, hq⟩ := byte_of_litAt rfl hclose
    have hclosing : closingBrace content o = c := by
      rw [closingBrace_eq hbyte, hfound, Option.getD_some]
    have hbefore := le_layoutEnd content.toUTF8 p
    have hinner := le_layoutEnd content.toUTF8 (o + 1)
    have hend := le_layoutEnd content.toUTF8 s
    have hbehind := le_layoutEnd content.toUTF8 (c + 1)
    refine laid_block.mpr ⟨o, rfl, by omega, ?_, by omega⟩
    rw [hclosing]
    exact LaidAll.widen ih (by omega) (by omega)
  | @leftAssoc n m ops a t p q r hn _ _ ih ih' =>
    have hne : n ≠ .program ∧ m ≠ .program := by
      cases n <;> simp [Nonterminal.chained] at hn <;> simp [← hn.1]
    exact (Phrase.laid_one hne.1).mpr (ih' _ ((Phrase.laid_one hne.2).mp ih))
  | @chain n m ops op a b t o p q r s hn _ hop _ _ ih ih' =>
    have hne : m ≠ .program := by
      cases n <;> simp [Nonterminal.chained] at hn <;> simp [← hn.1]
    have hoperand := ((Phrase.laid_one hne).mp ih).widen (le_of_litAt hop) (Nat.le_refl _)
    exact fun p' hlhs =>
      ih' p' ((laid_parts (f := .binary op) (by simp)).mpr (hlhs.andThen hoperand))
  | @compare op a b o p q r s _ _ hop _ ih ih' =>
    have hoperand := Laid.widen ih' (le_of_litAt hop) (Nat.le_refl _)
    exact Phrase.laid_parts (by decide) (by simp) (Laid.andThen ih hoperand)
  | not hsign _ ih =>
    exact Phrase.laid_parts (by decide) (by decide)
      (Laid.widen ih (le_of_litAt hsign) (Nat.le_refl _)).alone
  | minus hsign _ ih =>
    exact Phrase.laid_parts (by decide) (by simp) ((laid_int.mpr (le_of_litAt hsign)).andThen ih)
  | call _ _ ih ih' => exact ih' _ ih
  | @calls f t ts o i p q r s u hopen _ hclose _ ih ih' =>
    have hargs : LaidAll content ts r s := by
      simpa [Phrase.Laid, List.flatMap_map, Item.trees] using ih
    have hlist : Laid content (.form .arguments o ts) p u :=
      (laid_parts (by decide)).mpr (hargs.widen (le_of_litAt hopen) (le_of_litAt hclose))
    exact fun p' hcallee => ih' p' ((laid_parts (by decide)).mpr (hcallee.andThen hlist))
  | paren hopen _ hclose ih => exact Laid.widen ih (le_of_litAt hopen) (le_of_litAt hclose)
  | lookup hident =>
    exact (Phrase.laid_one (by decide)).mpr ((laid_use (.inl rfl)).mpr (offset_of_identAt hident))
  | integer hint =>
    have hle := Passage.goes_integerAt (P := advancing content.toUTF8) hint
    simp only [integerAt, Option.map_eq_some_iff, Prod.mk.injEq] at hint
    obtain ⟨_, -, rfl, -⟩ := hint
    exact (Phrase.laid_one (by decide)).mpr (laid_int.mpr hle)
  | @function params result body o i j p q r s u v w _ hword hopen _ hclose hresult _ ih ih' =>
    obtain ⟨-, rfl, hr⟩ := wordAt_some hword
    have hbehind := le_layoutEnd content.toUTF8 (layoutEnd content.toUTF8 p + "func".length)
    have hparens := le_of_litAt hopen
    have hparens' := le_of_litAt hclose
    have hnone : (params.map fun m => Item.parameter m.1 m.2).flatMap Item.trees = [] := by
      simp [List.flatMap_map, Item.trees]
    have hlist : LaidAll content [] s u :=
      hnone ▸ (show LaidAll content (List.flatMap _ _) s u from ih)
    have hlist := laidAll_nil.mp hlist
    have harrow : v ≤ w := by
      obtain ⟨-, rfl⟩ | ⟨k, l, t, -, harrow, htype⟩ := hresult
      · exact Nat.le_refl _
      · exact Nat.le_trans (le_of_litAt harrow)
          (Passage.goes_typeAt (P := advancing content.toUTF8) htype)
    have hlength : "func".length = 4 := rfl
    have hbody : Editor.Laid content body (layoutEnd content.toUTF8 p + 1) q :=
      Laid.widen ih' (by omega) (Nat.le_refl _)
    exact (Phrase.laid_one (by decide)).mpr (laid_function.mpr ⟨_, rfl, le_layoutEnd _ _, hbody⟩)
  | argument _ ih => exact Laid.alone ih
  | @parameter x p q hident =>
    obtain ⟨i, -, hle, hlt⟩ := offset_of_identAt hident
    show LaidAll content [] p q
    exact laidAll_nil.mpr (by omega)
  | @typedParameter u x p q r htype hident =>
    obtain ⟨i, -, hle, hlt⟩ := offset_of_identAt hident
    have hstart := Passage.goes_typeAt (P := advancing content.toUTF8) htype
    show LaidAll content [] p q
    exact laidAll_nil.mpr (Nat.le_trans hstart (by omega))
  | items _ _ ih ih' => exact LaidAll.append ih ih'
  | moreItems hcomma _ _ ih ih' =>
    exact (LaidAll.append ih ih').widen (le_of_litAt hcomma) (Nat.le_refl _)

/-- The statements of a program are laid out in its text. -/
theorem laid_of_parse (h : parseProgram content = .ok t) :
    LaidAll content t.children 0 content.utf8ByteSize :=
  laid_of_derives (derives_of_parseProgram h)

end Grammar

end ClosureLang
