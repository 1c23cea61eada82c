import ClosureLang.Proofs.Layout.Alternatives
import ClosureLang.Proofs.Layout.Dues

/-! Where the leftmost node of a statement stands: behind the blanks and the opening parentheses in
front of the statement, and at the first byte that is neither. -/
namespace ClosureLang.Layout

open Grammar ClosureLang.Tree

section Offsets

variable {t : Tree} {ts cs : List Tree} {g : Form} {o m m' : Int}

/-- No node of the tree stands in front of `m`. -/
def From (m : Int) (t : Tree) : Prop := ∀ i ∈ t.offsets, m ≤ i

theorem From.mono (h : From m t) (hm : m' ≤ m) : From m' t := fun i hi => Int.le_trans hm (h i hi)

theorem offsets_node {l : Label} : (node l o cs).offsets = o :: cs.flatMap offsets := by
  have hchildren : (cs.flatMap nodes).filterMap offset? = cs.flatMap offsets := by
    rw [List.filterMap_flatMap]
    rfl
  rw [offsets, nodes_node, List.filterMap_cons, ← hchildren]
  rfl

@[simp] theorem from_int {w : Int64} : From m (int o w) ↔ m ≤ o := by simp [From, int, offsets_node]

@[simp] theorem from_ident {s : String} : From m (ident o s) ↔ m ≤ o := by
  simp [From, ident, offsets_node]

@[simp] theorem from_form : From m (form g o ts) ↔ m ≤ o ∧ ∀ t ∈ ts, From m t := by
  simp only [From, form, offsets_node, List.forall_mem_cons, List.forall_mem_flatMap]

theorem mem_offsets_form {i : Int} :
    i ∈ (form g o ts).offsets ↔ i = o ∨ ∃ t ∈ ts, i ∈ t.offsets := by
  simp [form, offsets_node]

/-- The leftmost offset is one of the tree with none in front of it. -/
theorem leftmost_eq (hm : m ∈ t.offsets) (hfrom : From m t) :
    leftmost (t.offset?.getD 0) t = m := by
  have hfold : ∀ (l : List Int) (a : Int), (∀ i ∈ l, m ≤ i) → m ≤ a → m ∈ a :: l →
      l.foldl min a = m := by
    intro l
    induction l with
    | nil =>
      intro a _ _ hmem
      exact (List.mem_singleton.mp hmem).symm
    | cons i l ih =>
      intro a hl ha hmem
      rw [List.forall_mem_cons] at hl
      refine ih _ hl.2 (by omega) ?_
      rcases List.mem_cons.mp hmem with rfl | hmem
      · rw [Int.min_eq_left hl.1]
        exact List.mem_cons_self
      · rcases List.mem_cons.mp hmem with rfl | hmem
        · rw [Int.min_eq_right ha]
          exact List.mem_cons_self
        · exact List.mem_cons_of_mem _ hmem
  cases t with
  | absent => cases hm
  | node l o cs =>
    refine hfold _ o hfrom (hfrom o ?_) (List.mem_cons_of_mem _ hm)
    rw [offsets_node]
    exact List.mem_cons_self

end Offsets

section Openings

variable {src : ByteArray} {p q r m o : Nat} {b : UInt8} {s : String} {t : Tree}

/-- A blank or an opening parenthesis. -/
def isSkipped (b : UInt8) : Bool := isBlankByte b || b = 0x28

/-- Behind blanks and opening parentheses from `p` on, the first byte that is neither stands at
`m`. -/
structure Opening (src : ByteArray) (p m : Nat) : Prop where
  le : p ≤ m
  skipped : ∀ i, p ≤ i → i < m → (src[i]?).any isSkipped = true
  stop : ∃ b, src[m]? = some b ∧ isSkipped b = false

/-- There is at most one such byte. -/
theorem Opening.unique (h : Opening src p m) (h' : Opening src p o) : m = o := by
  have hle {m o : Nat} (h : Opening src p m) (h' : Opening src p o) : m ≤ o := by
    by_contra hlt
    obtain ⟨b, hb, hstop⟩ := h'.stop
    have hskipped := h.skipped o h'.le (by omega)
    rw [hb, Option.any_some, hstop] at hskipped
    cases hskipped
  exact Nat.le_antisymm (hle h h') (hle h' h)

theorem Opening.trans (h : ∀ i, p ≤ i → i < r → (src[i]?).any isSkipped = true) (hpr : p ≤ r)
    (h' : Opening src r m) : Opening src p m := by
  refine ⟨Nat.le_trans hpr h'.le, fun i hi him => ?_, h'.stop⟩
  by_cases hir : i < r
  · exact h i hi hir
  · exact h'.skipped i (by omega) him

theorem isSkipped_of_isIdentByte (h : isIdentByte b = true) : isSkipped b = false := by
  have hparen : b ≠ 0x28 := by
    rintro rfl
    cases h
  simp [isSkipped, (ident_byte h).1, hparen]

theorem bounds_of_litAt (h : litAt src s p = some (o, q)) : p ≤ o ∧ o ≤ q := by
  obtain ⟨-, rfl, rfl⟩ := litAt_some h
  exact ⟨le_layoutEnd src p, Nat.le_trans (Nat.le_add_right _ _) (le_layoutEnd src _)⟩

variable (hclean : Clean src)

include hclean

/-- The layout of a text without comments is made of blanks. -/
theorem blank_of_layout {i : Nat} (hi : p ≤ i) (hlt : i < layoutEnd src p) :
    (src[i]?).any isSkipped = true := by
  have hlength : ∀ limit p, p ≤ i → i < p + layoutLength src false limit p →
      (src[i]?).any isSkipped = true := by
    intro limit
    induction limit with
    | zero => exact fun p hp hlt => absurd hlt (by simp [layoutLength]; omega)
    | succ limit ih =>
      intro p hp hlt
      rw [layoutLength] at hlt
      cases hb : src[p]? with
      | none => simp only [hb] at hlt; omega
      | some b =>
        have hhash : b ≠ Grammar.hash := fun h => hclean p (h ▸ hb)
        simp only [hb, Bool.false_eq_true, if_false, if_neg hhash] at hlt
        split at hlt
        · rename_i hblank
          by_cases hip : i = p
          · subst hip
            simp [hb, isSkipped, hblank]
          · exact ih (p + 1) (by omega) (by omega)
        · omega
  exact hlength _ p hi hlt

/-- A token that does not start with a parenthesis. -/
theorem opening_layoutEnd (h : src[layoutEnd src p]? = some b) (hb : isSkipped b = false) :
    Opening src p (layoutEnd src p) :=
  ⟨le_layoutEnd src p, fun _ hi hlt => blank_of_layout hclean hi hlt, b, h, hb⟩

theorem opening_litAt {c : Char} {cs : List Char} (hs : s.toList = c :: cs)
    (hc : isSkipped (byteOf c) = false) (h : litAt src s p = some (o, q)) :
    Opening src p o ∧ o ≤ q := by
  obtain ⟨hh, rfl, rfl⟩ := litAt_some h
  rw [hs] at hh
  exact ⟨opening_layoutEnd hclean (holds_head hh) hc,
    Nat.le_trans (Nat.le_add_right _ _) (le_layoutEnd src _)⟩

theorem opening_wordAt (hs : isReserved s = true) (h : wordAt src s p = some (o, q)) :
    Opening src p o ∧ o ≤ q := by
  obtain ⟨b, hb, hstart⟩ := byte_of_wordAt h hs
  obtain ⟨-, rfl, rfl⟩ := wordAt_some h
  have hident := isIdentByte_of_isIdentStart b hstart
  exact ⟨opening_layoutEnd hclean hb (isSkipped_of_isIdentByte hident),
    Nat.le_trans (Nat.le_add_right _ _) (le_layoutEnd src _)⟩

theorem opening_identAt (h : identAt src p = some (t, q)) :
    ∃ (o : Nat) (x : String), t = ident o x ∧ Opening src p o ∧ o ≤ q := by
  simp only [identAt, Option.ite_none_right_eq_some, Option.map_eq_some_iff, Prod.mk.injEq] at h
  obtain ⟨hany, x, -, rfl, rfl⟩ := h
  obtain ⟨b, hb, hstart⟩ := exists_of_any hany
  have hident := isIdentByte_of_isIdentStart b hstart
  exact ⟨_, _, rfl, opening_layoutEnd hclean hb (isSkipped_of_isIdentByte hident),
    Nat.le_trans (Nat.le_add_right _ _) (le_layoutEnd src _)⟩

theorem opening_integerAt (h : integerAt src p = some (t, q)) :
    ∃ (o : Nat) (w : Int64), t = .int o w ∧ Opening src p o ∧ o ≤ q := by
  simp only [integerAt, word?_asciiText, Option.map_eq_some_iff, Option.ite_none_right_eq_some,
    Prod.mk.injEq] at h
  obtain ⟨w, ⟨hany, -⟩, rfl, rfl⟩ := h
  obtain ⟨b, hb, hdigit⟩ := exists_of_any hany
  have hident : isIdentByte b = true := by simp [isIdentByte, hdigit]
  exact ⟨_, w, rfl, opening_layoutEnd hclean hb (isSkipped_of_isIdentByte hident),
    Nat.le_trans (Nat.le_add_right _ _) (le_layoutEnd src _)⟩

theorem opening_typeAt (h : typeAt src p = some (t, q)) :
    ∃ (o : Nat) (x : String), t = ident o x ∧ Opening src p o ∧ o ≤ q := by
  simp only [typeAt, Option.or_eq_some_iff, Option.map_eq_some_iff, Prod.mk.injEq] at h
  obtain ⟨m, h, rfl, rfl⟩ | ⟨-, m, h, rfl, rfl⟩ :=
    h <;> exact ⟨_, _, rfl, opening_wordAt hclean rfl h⟩

/-- In front of an expression in parentheses stands one more of them. -/
theorem opening_parens (hopen : litAt src "(" p = some (o, r)) (h : Opening src r m) :
    Opening src p m := by
  obtain ⟨hh, rfl, rfl⟩ := litAt_some hopen
  have hbefore := le_layoutEnd src p
  have hbehind := le_layoutEnd src (layoutEnd src p + "(".length)
  refine Opening.trans (fun i hi hlt => ?_) (by omega) h
  by_cases hblank : i < layoutEnd src p
  · exact blank_of_layout hclean hi hblank
  · by_cases hparen : i = layoutEnd src p
    · rw [hparen, holds_head hh]
      rfl
    · exact blank_of_layout hclean (p := layoutEnd src p + "(".length)
        (by change _ + 1 ≤ i; omega) hlt

end Openings

section Phrases

variable {src : ByteArray} {p q r m o : Nat} {t : Tree} {ts : List Tree} {g : Form}
  {n : Nonterminal}

/-- The leftmost node of the tree stands behind the blanks and opening parentheses from `p` on. -/
def Leads (src : ByteArray) (p q : Nat) (t : Tree) : Prop :=
  ∃ m : Nat, Opening src p m ∧ m ≤ q ∧ (m : Int) ∈ t.offsets ∧ From m t

theorem Leads.from (h : Leads src p q t) : From p t := by
  obtain ⟨m, hm, -, -, hfrom⟩ := h
  exact hfrom.mono (Int.ofNat_le.mpr hm.le)

theorem Leads.widen (h : Leads src p r t) (hle : r ≤ q) : Leads src p q t := by
  obtain ⟨m, hm, hmr, hmem, hfrom⟩ := h
  exact ⟨m, hm, Nat.le_trans hmr hle, hmem, hfrom⟩

/-- A node that stands at its first token. -/
theorem leads_form (h : Opening src p o ∧ o ≤ q) (hts : ∀ t ∈ ts, From o t) :
    Leads src p q (form g o ts) :=
  ⟨o, h.1, h.2, mem_offsets_form.mpr (.inl rfl), from_form.mpr ⟨Int.le_refl _, hts⟩⟩

/-- The trees of an item of a list. A parameter stands where its name does. -/
def itemTrees : Item → List Tree
  | .argument t => [t]
  | .parameter _ x => [x]

/-- What the nodes of a phrase say about where it starts. Operations and calls stand behind their
first operand. -/
def Stands (src : ByteArray) : Phrase → Nat → Nat → Prop
  | .one .program t, p, _ => ∀ c ∈ t.children, From p c
  | .one _ t, p, q => Leads src p q t
  | .value t, p, _ => From p t
  | .said _ o t, p, q => (Opening src p o ∧ o ≤ q) ∧ From o t
  | .statements ts, p, _ => ∀ t ∈ ts, From p t
  | .guarded _ o cond body, p, q => (Opening src p o ∧ o ≤ q) ∧ From o cond ∧ From o body
  | .chain _ a t, p, _ | .calls a t, p, _ =>
    (∀ i ∈ a.offsets, i ∈ t.offsets) ∧ ∀ m : Int, m ≤ p → From m a → From m t
  | .item x, p, _ => ∀ t ∈ itemTrees x, From p t
  | .items xs, p, _ | .moreItems xs, p, _ => ∀ x ∈ xs, ∀ t ∈ itemTrees x, From p t

theorem stands_one (hn : n ≠ .program) : Stands src (.one n t) p q ↔ Leads src p q t := by
  cases n <;> first | rfl | exact absurd rfl hn

/-- An operand with what is added to it. -/
theorem Leads.extend {a : Tree} (h : Leads src p r a) (hle : r ≤ q)
    (hmem : ∀ i ∈ a.offsets, i ∈ t.offsets) (hfrom : ∀ m : Int, m ≤ r → From m a → From m t) :
    Leads src p q t := by
  obtain ⟨m, hm, hmr, hin, ha⟩ := h
  exact ⟨m, hm, Nat.le_trans hmr hle, hmem m hin, hfrom m (Int.ofNat_le.mpr hmr) ha⟩

theorem leads_functionTree {params : List (Option Tree × Tree)} {result : Option Tree} {body : Tree}
    (ho : Opening src p o ∧ o ≤ q) (hparams : ∀ m ∈ params, IsIdent m.2 ∧ From o m.2)
    (hresult : ∀ t, result = some t → From o t) (hbody : From o body) :
    Leads src p q (Pattern.functionTree o params result body) := by
  have hnames : ∀ t ∈ params.map Prod.snd, From o t := by
    intro t ht
    obtain ⟨m, hm, rfl⟩ := List.mem_map.mp ht
    exact (hparams m hm).2
  have htags : ∀ t ∈ params.map Pattern.tag ++ [result.getD (.ident o genericType)], From o t := by
    intro t ht
    rcases List.mem_append.mp ht with ht | ht
    · obtain ⟨m, hm, rfl⟩ := List.mem_map.mp ht
      obtain ⟨⟨i, x, hx, -⟩, hfrom⟩ := hparams m hm
      rw [hx, from_ident] at hfrom
      rw [Pattern.tag, hx, from_ident]
      exact hfrom
    · rw [List.mem_singleton.mp ht]
      cases result with
      | none => exact from_ident.mpr (Int.le_refl _)
      | some t => exact hresult t rfl
  refine leads_form ho (List.forall_mem_cons.mpr ⟨from_form.mpr ⟨Int.le_refl _, hnames⟩,
    List.forall_mem_cons.mpr ⟨hbody, fun t ht => ?_⟩⟩)
  split at ht
  · obtain rfl := List.mem_singleton.mp ht
    exact from_form.mpr ⟨Int.le_refl _, htags⟩
  · cases ht

/-- Where a phrase starts, and where what belongs to it stands. -/
theorem stands_of_derives (hclean : Clean src) {φ : Phrase} (h : Derives src φ p q) :
    Stands src φ p q := by
  have hle {φ : Phrase} {p q : Nat} (h : Derives src φ p q) : p ≤ q :=
    Passage.goes_of_derives (P := advancing src) h
  induction h with
  | @program ts p q _ ih => exact fun t ht => (ih t ht).mono (Int.ofNat_le.mpr (le_layoutEnd src p))
  | noStatements | noItems | itemsEnd => exact List.forall_mem_nil _
  | chainEnd | callsEnd => exact ⟨fun _ hi => hi, fun _ _ ha => ha⟩
  | statements h _ ih ih' =>
    have hstart := Int.ofNat_le.mpr (hle h)
    exact List.forall_mem_cons.mpr ⟨Leads.from ih, fun t ht => (ih' t ht).mono hstart⟩
  | @kind n m t p q hm _ ih =>
    have hne : n ≠ .program ∧ m ≠ .program := by
      constructor <;> rintro rfl
      · cases hm
      · cases n <;> simp [Nonterminal.kinds] at hm
    exact (stands_one hne.1).mpr ((stands_one hne.2).mp ih)
  | declare hword hident hvalue ih =>
    have ho := opening_wordAt hclean rfl hword
    obtain ⟨i, x, rfl, hi, his⟩ := opening_identAt hclean hident
    have hi := hi.le
    have hend := hle hvalue
    refine leads_form ⟨ho.1, by omega⟩ ?_
    simp only [List.forall_mem_cons, from_ident]
    exact ⟨by omega, From.mono ih (by omega), List.forall_mem_nil _⟩
  | declareTyped htype hident hvalue ih =>
    obtain ⟨o, y, rfl, ho⟩ := opening_typeAt hclean htype
    obtain ⟨i, x, rfl, hi, his⟩ := opening_identAt hclean hident
    have hi := hi.le
    have hend := hle hvalue
    refine leads_form (o := o) ⟨ho.1, by omega⟩ ?_
    simp only [List.forall_mem_cons, from_ident]
    exact ⟨by omega, From.mono ih (by omega), Int.le_refl _, List.forall_mem_nil _⟩
  | assign hident hvalue ih =>
    obtain ⟨i, x, rfl, hi, his⟩ := opening_identAt hclean hident
    have hend := hle hvalue
    refine leads_form (o := i) ⟨hi, by omega⟩
      (List.forall_mem_cons.mpr ⟨?_, List.forall_mem_singleton.mpr ?_⟩)
    · exact from_form.mpr ⟨Int.le_refl _,
        List.forall_mem_singleton.mpr (from_ident.mpr (Int.le_refl _))⟩
    · exact From.mono ih (by omega)
  | value hequals _ _ ih => exact (Leads.from ih).mono (Int.ofNat_le.mpr (le_of_litAt hequals))
  | said hword hreserved h hend ih =>
    have ho := opening_wordAt hclean hreserved hword
    have hle := hle h
    have hend := le_of_litAt hend
    exact ⟨⟨ho.1, by omega⟩, (Leads.from ih).mono (by omega)⟩
  | print _ ih | ret _ ih => exact leads_form ih.1 (List.forall_mem_singleton.mpr ih.2)
  | guarded hword hreserved hopen h hclose h' ih ih' =>
    have ho := opening_wordAt hclean hreserved hword
    have hopen := le_of_litAt hopen
    have hclose := le_of_litAt hclose
    have hle := And.intro (hle h) (hle h')
    exact ⟨⟨ho.1, by omega⟩, (Leads.from ih).mono (by omega), (Leads.from ih').mono (by omega)⟩
  | ifThen _ ih | whileDo _ ih =>
    exact leads_form ih.1 (List.forall_mem_cons.mpr ⟨ih.2.1, List.forall_mem_singleton.mpr ih.2.2⟩)
  | ifElse _ hword h ih ih' =>
    have helse := opening_wordAt hclean rfl hword
    have hstart := helse.1.le
    have hle := hle h
    obtain ⟨⟨ho, hor⟩, hcond, hbody⟩ := ih
    refine leads_form ⟨ho, by omega⟩ ?_
    simp only [List.forall_mem_cons]
    exact ⟨hcond, hbody, (Leads.from ih').mono (by omega), List.forall_mem_nil _⟩
  | exprStatement _ hend ih => exact Leads.widen ih (le_of_litAt hend)
  | block hopen _ h hclose ih =>
    have ho := opening_litAt hclean rfl rfl hopen
    have hle := hle h
    have hclose := le_of_litAt hclose
    exact leads_form ⟨ho.1, by omega⟩ fun t ht => (ih t ht).mono (by omega)
  | @leftAssoc n m ops a t p q r hn _ h ih ih' =>
    have hne : n ≠ .program ∧ m ≠ .program := by
      cases n <;> simp [Nonterminal.chained] at hn <;> simp [← hn.1]
    exact (stands_one hne.1).mpr (((stands_one hne.2).mp ih).extend (hle h) ih'.1 ih'.2)
  | @chain n m ops op a b t o p q r s hn hop hsign h _ ih ih' =>
    have hne : m ≠ .program := by
      cases n <;> simp [Nonterminal.chained] at hn <;> simp [← hn.1]
    have hb := ((stands_one hne).mp ih).from
    have ho := bounds_of_litAt hsign
    have hrs := hle h
    refine ⟨fun i hi => ih'.1 i (mem_offsets_form.mpr (.inr ⟨a, List.mem_cons_self, hi⟩)),
      fun m hm ha => ?_⟩
    refine ih'.2 m (by omega) (from_form.mpr ⟨by omega, ?_⟩)
    exact List.forall_mem_cons.mpr ⟨ha, List.forall_mem_singleton.mpr (hb.mono (by omega))⟩
  | @compare op a b o p q r s hop h hsign h' ih ih' =>
    have ho := bounds_of_litAt hsign
    have hsq := hle h'
    refine Leads.extend ih (by omega)
      (fun i hi => mem_offsets_form.mpr (.inr ⟨a, List.mem_cons_self, hi⟩)) ?_
    intro m hm ha
    refine from_form.mpr ⟨by omega, List.forall_mem_cons.mpr ⟨ha, List.forall_mem_singleton.mpr ?_⟩⟩
    exact (Leads.from ih').mono (by omega)
  | not hsign h ih =>
    have ho := opening_litAt hclean rfl rfl hsign
    have hrq := hle h
    exact leads_form ⟨ho.1, by omega⟩
      (List.forall_mem_singleton.mpr ((Leads.from ih).mono (by omega)))
  | minus hsign h ih =>
    have ho := opening_litAt hclean rfl rfl hsign
    have hrq := hle h
    refine leads_form ⟨ho.1, by omega⟩ (List.forall_mem_cons.mpr ⟨from_int.mpr (Int.le_refl _), ?_⟩)
    exact List.forall_mem_singleton.mpr ((Leads.from ih).mono (by omega))
  | call _ h ih ih' => exact Leads.extend ih (hle h) ih'.1 ih'.2
  | @calls f t ts o i p q r s u hopen _ hclose _ ih ih' =>
    have ho := bounds_of_litAt hopen
    have hargs : ∀ t ∈ ts, From r t :=
      fun t ht => ih (.argument t) (List.mem_map_of_mem ht) t List.mem_cons_self
    have hru := hle ‹Derives src (.items (ts.map .argument)) r s›
    have hsu := le_of_litAt hclose
    refine ⟨fun i hi => ih'.1 i (mem_offsets_form.mpr (.inr ⟨f, List.mem_cons_self, hi⟩)),
      fun m hm hf => ?_⟩
    refine ih'.2 m (by omega) (from_form.mpr ⟨by omega, List.forall_mem_cons.mpr ⟨hf, ?_⟩⟩)
    exact List.forall_mem_singleton.mpr
      (from_form.mpr ⟨by omega, fun t ht => (hargs t ht).mono (by omega)⟩)
  | paren hopen _ hclose ih =>
    obtain ⟨m, hm, hms, hmem, hfrom⟩ := ih
    have hsq := le_of_litAt hclose
    exact ⟨m, opening_parens hclean hopen hm, by omega, hmem, hfrom⟩
  | lookup hident =>
    obtain ⟨i, x, rfl, hi⟩ := opening_identAt hclean hident
    exact leads_form (o := i) hi (List.forall_mem_singleton.mpr (from_ident.mpr (Int.le_refl _)))
  | integer hint =>
    obtain ⟨o, w, rfl, ho, hoq⟩ := opening_integerAt hclean hint
    exact ⟨o, ho, hoq, by simp [int, offsets_node], from_int.mpr (Int.le_refl _)⟩
  | @function params result body o i j p q r s u v w hparams hword hopen h hclose hresult
        h' ih ih' =>
    have ho := opening_wordAt hclean rfl hword
    have hopen := le_of_litAt hopen
    have hclose := le_of_litAt hclose
    have hsu := hle h
    have hwq := hle h'
    have harrow : v ≤ w ∧ ∀ t, result = some t → From o t := by
      rcases hresult with ⟨rfl, rfl⟩ | ⟨k, l, t, rfl, harrow, htype⟩
      · exact ⟨Nat.le_refl _, fun t ht => by cases ht⟩
      · obtain ⟨i, x, rfl, hi, hiw⟩ := opening_typeAt hclean htype
        have harrow := le_of_litAt harrow
        have hi := hi.le
        refine ⟨by omega, fun t' ht => ?_⟩
        rw [← Option.some.inj ht, from_ident]
        omega
    refine leads_functionTree ⟨ho.1, by omega⟩ (fun m hm => ⟨hparams m hm, ?_⟩) harrow.2
      ((Leads.from ih').mono (by omega))
    exact (ih _ (List.mem_map_of_mem hm) _ List.mem_cons_self).mono (by omega)
  | argument _ ih => exact List.forall_mem_singleton.mpr (Leads.from ih)
  | parameter hident =>
    obtain ⟨i, x, rfl, hi, -⟩ := opening_identAt hclean hident
    exact List.forall_mem_singleton.mpr (from_ident.mpr (Int.ofNat_le.mpr hi.le))
  | typedParameter htype hident =>
    obtain ⟨j, y, rfl, hj, hjr⟩ := opening_typeAt hclean htype
    obtain ⟨i, x, rfl, hi, -⟩ := opening_identAt hclean hident
    have hj := hj.le
    have hi := hi.le
    exact List.forall_mem_singleton.mpr (from_ident.mpr (by omega))
  | items h _ ih ih' =>
    have hpr := hle h
    exact List.forall_mem_cons.mpr ⟨ih, fun x hx t ht => (ih' x hx t ht).mono (by omega)⟩
  | moreItems hcomma h _ ih ih' =>
    have hpr := le_of_litAt hcomma
    have hrs := hle h
    refine List.forall_mem_cons.mpr ⟨fun t ht => (ih t ht).mono (by omega), fun x hx t ht => ?_⟩
    exact (ih' x hx t ht).mono (by omega)

/-- The leftmost node of a statement. -/
theorem leftmost_of_read (hclean : Clean src) (hp : p ≤ src.size)
    (h : read src .statement p = some (t, q)) :
    ∃ m : Nat, Opening src p m ∧ leftmost (t.offset?.getD 0) t = m := by
  obtain ⟨m, hm, -, hmem, hfrom⟩ : Leads src p q t :=
    stands_of_derives hclean (derives_of_read hp h)
  exact ⟨m, hm, leftmost_eq hmem hfrom⟩

end Phrases

end ClosureLang.Layout
