import ClosureLang.Layout
import ClosureLang.Proofs.Grammar.Ahead
import ClosureLang.Proofs.Grammar.Inorder
import ClosureLang.Proofs.Tree.Similar

/-! How many parentheses a text needs for its tree. A leading minus is a subtraction from zero
without the zero and without parentheses around it, so parentheses are counted less the numbers. -/
namespace ClosureLang.Layout

open Grammar ClosureLang.Tree

section Trees

variable {t a b f body : Tree} {ts : List Tree} {k k' : Nat} {o o' : Int} {w : Int64} {g : Form}

/-- The strength that a node asks of one of its parts. -/
def asked : Form → Nat → Nat
  | .binary op, 0 => (operandStrengths op).1
  | .binary op, 1 => (operandStrengths op).2
  | .not, 0 => notStrength
  | .call, 0 => primaryStrength
  | _, _ => 0

/-- The parentheses of calls, parameters and conditions. -/
def ownParens : Form → Int
  | .call | .function | .ifThen | .ifElse | .whileDo => 1
  | _ => 0

mutual

/-- The parentheses that a tree needs where the strength `least` is asked, less the numbers in
it. -/
def due (least : Nat) : Tree → Int
  | .absent => 0
  | .node (.form g) o cs =>
    (if strength (.node (.form g) o cs) < least then 1 else 0) + ownParens g + dues g 0 cs
  | .node (.integer w) o cs => (if strength (.node (.integer w) o cs) < least then 1 else 0) - 1
  | .node (.ident _) _ _ => 0

def dues (g : Form) (i : Nat) : List Tree → Int
  | [] => 0
  | c :: cs => due (asked g i) c + dues g (i + 1) cs

end

theorem strength_strip (t : Tree) : strength t.strip = strength t := by
  cases t with
  | absent => rfl
  | node l o cs =>
    cases l with
    | form g => cases g <;> rfl
    | _ => rfl

mutual

theorem due_strip (k : Nat) : (t : Tree) → due k t.strip = due k t
  | .absent => rfl
  | .node (.form g) o cs => by
    have hstrength := strength_strip (.node (.form g) o cs)
    rw [strip, form] at hstrength ⊢
    rw [due, due, hstrength, dues_strip g 0 cs]
  | .node (.integer w) o cs => rfl
  | .node (.ident x) o cs => rfl

theorem dues_strip (g : Form) (i : Nat) : (cs : List Tree) → dues g i (stripAll cs) = dues g i cs
  | [] => rfl
  | c :: cs => by rw [stripAll, dues, dues, due_strip (asked g i) c, dues_strip g (i + 1) cs]

end

/-- Offsets do not matter. -/
theorem due_of_similar (h : similar a b = true) (k : Nat) : due k a = due k b := by
  rw [← due_strip k a, (similar_iff_strip a b).mp h, due_strip]

theorem due_mono (h : k ≤ k') (t : Tree) : due k t ≤ due k' t := by
  cases t with
  | absent => exact Int.le_refl _
  | node l o cs =>
    cases l <;> simp only [due]
    · split <;> split <;> omega
    · exact Int.le_refl _
    · split <;> split <;> omega

/-- One pair of parentheses makes up for any strength. -/
theorem due_le (k k' : Nat) (t : Tree) : due k t ≤ due k' t + 1 := by
  cases t with
  | absent => exact Int.le_add_of_nonneg_right (by decide)
  | node l o cs =>
    cases l <;> simp only [due]
    · split <;> split <;> omega
    · exact Int.le_add_of_nonneg_right (by decide)
    · split <;> split <;> omega

theorem due_int (hw : 0 ≤ w) (hk : k ≤ 7) : due k (.int o w) = -1 := by
  have hstrength : strength (.int o w) = 7 := by
    rw [int, strength, if_neg (Int64.not_lt.mpr hw)]
    rfl
  rw [int] at hstrength ⊢
  rw [due, hstrength, if_neg (by omega)]
  rfl

theorem due_leaf (h : ∃ o x, t = ident o x) : due k t = 0 := by
  obtain ⟨o, x, rfl⟩ := h
  rfl

theorem due_binary (op : BinaryOp) : due k (binary op o a b) =
    (if opStrength op < k then 1 else 0) + due (operandStrengths op).1 a +
      due (operandStrengths op).2 b := by
  simp [binary, form, due, dues, asked, ownParens, strength]
  omega

theorem due_not (hk : k ≤ notStrength) : due k (form .not o [t]) = due notStrength t := by
  simp [form, due, dues, asked, ownParens, strength]
  omega

/-- What trees need together where nothing is asked of them. -/
def dueAll : List Tree → Int
  | [] => 0
  | t :: ts => due 0 t + dueAll ts

theorem dueAll_singleton : dueAll [t] = due 0 t := Int.add_zero _

theorem dues_eq (hg : ∀ i, asked g i = 0) (i : Nat) (ts : List Tree) : dues g i ts = dueAll ts := by
  induction ts generalizing i with
  | nil => rfl
  | cons t ts ih => rw [dues, hg, ih, dueAll]

theorem due_form (hbinary : g.isBinary = false) (hnot : g ≠ .not) (hk : k ≤ 7) :
    due k (form g o ts) = ownParens g + dues g 0 ts := by
  have hstrength : strength (form g o ts) = 7 := by
    cases g with
    | binary op => cases hbinary
    | not => exact absurd rfl hnot
    | _ => rfl
  rw [form] at hstrength ⊢
  rw [due, hstrength, if_neg (by omega), Int.zero_add]

/-- The parts of most nodes may be as loose as they are. -/
theorem due_parts (hg : ∀ i, asked g i = 0) (hk : k ≤ 7) :
    due k (form g o ts) = ownParens g + dueAll ts := by
  rw [due_form ?_ ?_ hk, dues_eq hg]
  · cases g with
    | binary op => cases op <;> cases hg 0
    | _ => rfl
  · rintro rfl
    cases hg 0

theorem due_call (hk : k ≤ 7) : due k (form .call o [f, form .arguments o' ts]) =
    1 + due primaryStrength f + dueAll ts := by
  have hargs : due 0 (form .arguments o' ts) = dueAll ts :=
    (due_parts (fun _ => rfl) (Nat.zero_le 7)).trans (Int.zero_add _)
  rw [due_form rfl (by decide) hk, dues, dues, dues]
  simp only [ownParens, asked, hargs]
  omega

theorem dueAll_eq_zero (h : ∀ t ∈ ts, due 0 t = 0) : dueAll ts = 0 := by
  induction ts with
  | nil => rfl
  | cons t ts ih =>
    rw [dueAll, h t List.mem_cons_self, ih fun u hu => h u (List.mem_cons_of_mem t hu),
      Int.add_zero]

theorem due_leaves (h : ∀ t ∈ ts, ∃ o x, t = ident o x) : dueAll ts = 0 :=
  dueAll_eq_zero fun t ht => due_leaf (h t ht)

/-- In a function only the body needs anything but the parentheses of the parameters. -/
theorem due_function {params sig : List Tree} (hparams : ∀ t ∈ params, ∃ o x, t = ident o x)
    (hsig : ∀ t ∈ sig, ∃ o tags, t = form .signature o tags ∧ ∀ u ∈ tags, ∃ o x, u = ident o x)
    (hk : k ≤ 7) :
    due k (form .function o (form .parameters o' params :: body :: sig)) = 1 + due 0 body := by
  have htags : dueAll sig = 0 := by
    refine dueAll_eq_zero fun t ht => ?_
    obtain ⟨o, tags, rfl, htags⟩ := hsig t ht
    rw [due_parts (fun _ => rfl) (Nat.zero_le 7), due_leaves htags]
    rfl
  rw [due_parts (fun _ => rfl) hk, dueAll, dueAll, due_parts (fun _ => rfl) (Nat.zero_le 7),
    due_leaves hparams, htags]
  simp only [ownParens]
  omega

theorem due_functionTree {start : Nat} {params : List (Option Tree × Tree)} {result : Option Tree}
    (hparams : ∀ m ∈ params, IsIdent m.2) (hresult : ∀ t, result = some t → ∃ o x, t = ident o x)
    (hk : k ≤ 7) :
    due k (Pattern.functionTree start params result body) = 1 + due 0 body := by
  refine due_function (fun t ht => ?_) (fun t ht => ?_) hk
  · obtain ⟨m, hm, rfl⟩ := List.mem_map.mp ht
    exact (hparams m hm).leaf
  · split at ht
    · obtain rfl := List.mem_singleton.mp ht
      refine ⟨_, _, rfl, fun u hu => ?_⟩
      rcases List.mem_append.mp hu with hu | hu
      · obtain ⟨m, -, rfl⟩ := List.mem_map.mp hu
        exact ⟨_, _, rfl⟩
      · obtain rfl := List.mem_singleton.mp hu
        cases result with
        | none => exact ⟨_, _, rfl⟩
        | some t => exact hresult t rfl
    · cases ht

end Trees

section Tallies

/-- One for an opening parenthesis, minus one for the first digit of a number. -/
def worth (inWord : Bool) (b : UInt8) : Int :=
  if b = 0x28 then 1 else if isDigitByte b && !inWord then -1 else 0

/-- How many parentheses a text opens, less the numbers in it, behind a word or not. -/
def tally : Bool → List UInt8 → Int
  | _, [] => 0
  | inWord, b :: bs => worth inWord b + tally (isIdentByte b) bs

/-- Whether the text ends in a word. -/
def inWord : Bool → List UInt8 → Bool
  | w, [] => w
  | _, b :: bs => inWord (isIdentByte b) bs

theorem tally_append {w : Bool} {bs cs : List UInt8} :
    tally w (bs ++ cs) = tally w bs + tally (inWord w bs) cs := by
  induction bs generalizing w with
  | nil => simp [tally, inWord]
  | cons b bs ih =>
    rw [List.cons_append, tally, tally, inWord, ih]
    omega

theorem inWord_append {w : Bool} {bs cs : List UInt8} :
    inWord w (bs ++ cs) = inWord (inWord w bs) cs := by
  induction bs generalizing w with
  | nil => rfl
  | cons b bs ih => exact ih

variable {src : ByteArray} {p q : Nat} {b : UInt8}

/-- The tally of the text in front of an offset. -/
def tallyTo (src : ByteArray) (p : Nat) : Int := tally false (src.data.toList.take p)

def inWordAt (src : ByteArray) (p : Nat) : Bool := inWord false (src.data.toList.take p)

theorem tallyTo_succ (h : src[p]? = some b) :
    tallyTo src (p + 1) = tallyTo src p + worth (inWordAt src p) b := by
  rw [tallyTo, take_succ h, tally_append, tally, tally, Int.add_zero]
  rfl

theorem inWordAt_succ (h : src[p]? = some b) : inWordAt src (p + 1) = isIdentByte b := by
  rw [inWordAt, take_succ h, inWord_append]
  rfl

theorem worth_nonneg {w : Bool} (h : isDigitByte b = false ∨ w = true) : 0 ≤ worth w b := by
  unfold worth
  rcases h with h | h <;> simp only [h, Bool.false_and, Bool.not_true, Bool.and_false] <;>
    split <;> decide

theorem worth_ge {w : Bool} : -1 ≤ worth w b := by
  unfold worth
  split <;> (try split) <;> decide

/-- What stands in the way of a tally that only grows is a digit at the start of a number. -/
theorem tallyTo_le (h : src[p]? = some b) (hb : isDigitByte b = false ∨ inWordAt src p = true) :
    tallyTo src p ≤ tallyTo src (p + 1) := by
  have hworth := worth_nonneg hb
  rw [tallyTo_succ h]
  omega

theorem tallyTo_open (h : src[p]? = some 0x28) : tallyTo src (p + 1) = tallyTo src p + 1 :=
  tallyTo_succ h

/-- A text without digits. -/
def isDigitless (s : String) : Bool := s.toList.all fun c => !isDigitByte (byteOf c)

theorem tallyTo_holds {cs : List Char} (hcs : cs.all (fun c => !isDigitByte (byteOf c)) = true)
    (h : holds src p cs = true) : tallyTo src p ≤ tallyTo src (p + cs.length) := by
  induction cs generalizing p with
  | nil => exact Int.le_refl _
  | cons c cs ih =>
    simp only [List.all_cons, Bool.and_eq_true, Bool.not_eq_true'] at hcs
    simp only [holds, Bool.and_eq_true, decide_eq_true_eq] at h
    rw [List.length_cons, show p + (cs.length + 1) = p + 1 + cs.length by omega]
    exact Int.le_trans (tallyTo_le h.1 (.inl hcs.1)) (ih hcs.2 h.2)

/-- A run of the bytes of words, in a word or with no digit in front. -/
theorem tallyTo_runLength {c : UInt8 → Bool} (hc : ∀ b, c b = true → isIdentByte b = true)
    (limit : Nat) (h : inWordAt src p = true ∨ (src[p]?).any isDigitByte = false) :
    tallyTo src p ≤ tallyTo src (p + runLength c src limit p) := by
  induction limit generalizing p with
  | zero => exact Int.le_refl _
  | succ limit ih =>
    rw [runLength]
    split
    · rename_i hany
      obtain ⟨b, hb, hcb⟩ := exists_of_any hany
      have hnext : inWordAt src (p + 1) = true := (inWordAt_succ hb).trans (hc b hcb)
      rw [Nat.add_comm _ 1, ← Nat.add_assoc]
      refine Int.le_trans (tallyTo_le hb ?_) (ih (.inl hnext))
      rw [hb] at h
      exact h.symm
    · exact Int.le_refl _

/-- A run of digits is one number. -/
theorem tallyTo_digits (limit : Nat) :
    tallyTo src p ≤ tallyTo src (p + runLength isDigitByte src limit p) + 1 := by
  cases limit with
  | zero => exact Int.le_add_of_nonneg_right (by decide)
  | succ limit =>
    rw [runLength]
    split
    · rename_i hany
      obtain ⟨b, hb, hdigit⟩ := exists_of_any hany
      have hword : ∀ b, isDigitByte b = true → isIdentByte b = true :=
        fun b hb => by simp [isIdentByte, hb]
      have hrun := tallyTo_runLength hword limit (.inl ((inWordAt_succ hb).trans (hword b hdigit)))
      have hfirst := worth_ge (w := inWordAt src p) (b := b)
      rw [tallyTo_succ hb] at hrun
      rw [Nat.add_comm _ 1, ← Nat.add_assoc]
      omega
    · exact Int.le_add_of_nonneg_right (by decide)

/-- A text without comments. -/
def Clean (src : ByteArray) : Prop := ∀ p : Nat, src[p]? ≠ some Grammar.hash

theorem clean_of_plain {s : String} (h : isPlainText s = true) : Clean s.toUTF8 := by
  intro p hp
  rw [getElem?_eq, bytes_of_plain h] at hp
  obtain ⟨c, hc, hhash⟩ := List.mem_map.mp (List.mem_of_getElem? hp)
  have hplain := List.all_eq_true.mp h c hc
  rw [← ascii_of_isPlain hplain, hhash] at hplain
  cases hplain

variable (hclean : Clean src)

include hclean

theorem tallyTo_layout : tallyTo src p ≤ tallyTo src (layoutEnd src p) := by
  have hlength : ∀ limit p, tallyTo src p ≤ tallyTo src (p + layoutLength src false limit p) := by
    intro limit
    induction limit with
    | zero => exact fun p => Int.le_refl _
    | succ limit ih =>
      intro p
      rw [layoutLength]
      cases hb : src[p]? with
      | none => exact Int.le_refl _
      | some b =>
        have hhash : b ≠ Grammar.hash := fun h => hclean p (h ▸ hb)
        simp only [Bool.false_eq_true, if_false, if_neg hhash]
        split
        · rename_i hblank
          have hdigit : isDigitByte b = false := by
            simp only [isBlankByte, Bool.or_eq_true, decide_eq_true_eq] at hblank
            obtain ((rfl | rfl) | rfl) | rfl := hblank <;> rfl
          rw [Nat.add_comm _ 1, ← Nat.add_assoc]
          exact Int.le_trans (tallyTo_le hb (.inl hdigit)) (ih _)
        · exact Int.le_refl _
  exact hlength _ _

/-- A token with the layout around it. -/
theorem tallyTo_token {d : Int} (h : tallyTo src (layoutEnd src p) + d ≤ tallyTo src q) :
    tallyTo src p + d ≤ tallyTo src (layoutEnd src q) := by
  have hbefore := tallyTo_layout hclean (p := p)
  have hbehind := tallyTo_layout hclean (p := q)
  omega

variable {s : String} {o : Nat} {t : Tree}

theorem tallyTo_litAt (hs : isDigitless s = true) (h : litAt src s p = some (o, q)) :
    tallyTo src p ≤ tallyTo src q := by
  obtain ⟨hh, rfl, rfl⟩ := litAt_some h
  have htoken := tallyTo_holds hs hh
  rw [String.length_toList] at htoken
  simpa using tallyTo_token hclean (d := 0) (by simpa using htoken)

theorem tallyTo_openAt (h : litAt src "(" p = some (o, q)) : tallyTo src p + 1 ≤ tallyTo src q := by
  obtain ⟨hh, rfl, rfl⟩ := litAt_some h
  exact tallyTo_token hclean (Int.le_of_eq (tallyTo_open (holds_head hh)).symm)

theorem tallyTo_wordAt (hs : isReserved s = true) (h : wordAt src s p = some (o, q)) :
    tallyTo src p ≤ tallyTo src q := by
  obtain ⟨⟨hh, -⟩, rfl, rfl⟩ := wordAt_some h
  have hdigitless : ∀ w ∈ keywords, isDigitless w = true := by decide
  have htoken := tallyTo_holds (hdigitless s (List.contains_iff_mem.mp hs)) hh
  rw [String.length_toList] at htoken
  simpa using tallyTo_token hclean (d := 0) (by simpa using htoken)

theorem tallyTo_identAt (h : identAt src p = some (t, q)) : tallyTo src p ≤ tallyTo src q := by
  simp only [identAt, Option.ite_none_right_eq_some, Option.map_eq_some_iff, Prod.mk.injEq] at h
  obtain ⟨hstart, _, -, -, rfl⟩ := h
  obtain ⟨b, hb, hident⟩ := exists_of_any hstart
  have hdigit : (src[layoutEnd src p]?).any isDigitByte = false := by
    rw [hb, Option.any_some]
    by_contra h
    have hstart := (digit_byte (by simpa using h)).2.2
    rw [hident] at hstart
    cases hstart
  have hrun := tallyTo_runLength (fun _ h => h) (src.size - layoutEnd src p) (.inr hdigit)
  simpa using tallyTo_token hclean (d := 0) (by simpa [runEnd] using hrun)

theorem tallyTo_integerAt (h : integerAt src p = some (t, q)) :
    tallyTo src p + -1 ≤ tallyTo src q := by
  simp only [integerAt, Option.map_eq_some_iff, Prod.mk.injEq] at h
  obtain ⟨_, -, -, rfl⟩ := h
  have hrun :
      tallyTo src (layoutEnd src p) ≤ tallyTo src (runEnd isDigitByte src (layoutEnd src p)) + 1 :=
    tallyTo_digits _
  exact tallyTo_token hclean (by omega)

theorem tallyTo_typeAt (h : typeAt src p = some (t, q)) : tallyTo src p ≤ tallyTo src q := by
  simp only [typeAt, Option.or_eq_some_iff, Option.map_eq_some_iff, Prod.mk.injEq] at h
  obtain ⟨⟨_, _⟩, h, -, rfl⟩ | ⟨-, ⟨_, _⟩, h, -, rfl⟩ := h
  · exact tallyTo_wordAt hclean rfl h
  · exact tallyTo_wordAt hclean rfl h

theorem tallyTo_parens {i j r u : Nat} {d : Int} (hopen : litAt src "(" p = some (i, r))
    (h : d ≤ tallyTo src u - tallyTo src r) (hclose : litAt src ")" u = some (j, q)) :
    1 + d ≤ tallyTo src q - tallyTo src p := by
  have hbefore := tallyTo_openAt hclean hopen
  have hbehind := tallyTo_litAt hclean (s := ")") rfl hclose
  omega

end Tallies

section Phrases

/-- The strength of what a rule for expressions reads. -/
def levelOf : Nonterminal → Nat
  | .expr => 1
  | .and => 2
  | .not => 3
  | .compare => 4
  | .add => 5
  | .mul => 6
  | .unary | .call | .primary | .function => 7
  | _ => 0

def itemDue : Item → Int
  | .argument t => due 0 t
  | .parameter _ _ => 0

def itemsDue : List Item → Int
  | [] => 0
  | x :: xs => itemDue x + itemsDue xs

theorem itemsDue_arguments (ts : List Tree) : itemsDue (ts.map .argument) = dueAll ts := by
  induction ts with
  | nil => rfl
  | cons t ts ih => rw [List.map_cons, itemsDue, ih, itemDue, dueAll]

theorem itemsDue_parameters (params : List (Option Tree × Tree)) :
    itemsDue (params.map fun m => .parameter m.1 m.2) = 0 := by
  induction params with
  | nil => rfl
  | cons m params ih => rw [List.map_cons, itemsDue, ih, itemDue, Int.add_zero]

/-- What the trees of a phrase need is at most `d`. -/
def Owes : Phrase → Int → Prop
  | .one n t, d => due (levelOf n) t ≤ d
  | .value t, d | .said _ _ t, d => due 0 t ≤ d
  | .statements ts, d => dueAll ts ≤ d
  | .guarded _ _ cond body, d => 1 + due 0 cond + due 0 body ≤ d
  | .chain n a t, d => due (levelOf n) t ≤ due (levelOf n) a + d
  | .calls f t, d => due primaryStrength t ≤ due primaryStrength f + d
  | .item x, d => itemDue x ≤ d
  | .items xs, d | .moreItems xs, d => itemsDue xs ≤ d

variable {src : ByteArray} {p q : Nat} {φ : Phrase}

theorem int_of_integerAt {t : Tree} (h : integerAt src p = some (t, q)) :
    ∃ offset w, t = .int offset w ∧ 0 ≤ w := by
  have heval : Peg.eval src (fun _ _ => none) Pattern.integer p = some (t, q) :=
    eval_integer.trans h
  exact nonneg_of_value (Q := fun _ _ => True)
    (Peg.value_of_eval (fun _ _ _ _ => trivial) _ _ _ heval)

theorem level_of_kind {n m : Nonterminal} (h : m ∈ n.kinds) : levelOf n ≤ levelOf m := by
  cases n with
  | statement => exact Nat.zero_le _
  | not | compare | unary | primary =>
    obtain rfl := List.mem_singleton.mp h
    decide
  | _ => cases h

/-- The operations of a chain bind as tightly as the chain, and ask more of their right operands. -/
theorem level_of_chained {n m : Nonterminal} {ops : List BinaryOp} (h : n.chained = some (m, ops)) :
    levelOf m = levelOf n + 1 ∧
      ∀ op ∈ ops, opStrength op = levelOf n ∧ operandStrengths op = (levelOf n, levelOf n + 1) := by
  cases n <;> cases h <;> decide

theorem strength_of_comparison {op : BinaryOp} (h : op ∈ comparisons) :
    opStrength op = 4 ∧ operandStrengths op = (5, 5) := by
  have hall : ∀ op ∈ comparisons, opStrength op = 4 ∧ operandStrengths op = (5, 5) := by decide
  exact hall op h

/-- A text that is read as a tree opens the parentheses that the tree needs. -/
theorem owes_of_derives (hclean : Clean src) (h : Derives src φ p q) :
    Owes φ (tallyTo src q - tallyTo src p) := by
  induction h with
  | @program ts p q h ih =>
    have hbefore := tallyTo_layout hclean (p := p)
    have hbehind := tallyTo_layout hclean (p := q)
    simp only [Owes, levelOf, due_parts (g := .sequence) (fun _ => rfl) (Nat.zero_le 7),
      ownParens] at ih ⊢
    omega
  | noStatements | noItems | itemsEnd | chainEnd | callsEnd => simp [Owes, dueAll, itemsDue]
  | statements _ _ ih ih' =>
    simp only [Owes, levelOf, dueAll] at ih ih' ⊢
    omega
  | @kind n m t p q hm _ ih => exact Int.le_trans (due_mono (level_of_kind hm) t) ih
  | declare hword hident _ ih =>
    have hhead := tallyTo_wordAt hclean rfl hword
    have hname := tallyTo_identAt hclean hident
    simp only [Owes, levelOf, due_parts (g := .declare) (fun _ => rfl) (Nat.zero_le 7), ownParens,
      dueAll, due_leaf (leaf_of_identAt hident)] at ih ⊢
    omega
  | declareTyped htype hident _ ih =>
    have hhead := tallyTo_typeAt hclean htype
    have hname := tallyTo_identAt hclean hident
    simp only [Owes, levelOf, due_parts (g := .declare) (fun _ => rfl) (Nat.zero_le 7), ownParens,
      dueAll, due_leaf (leaf_of_identAt hident), due_leaf (leaf_of_typeAt htype)] at ih ⊢
    omega
  | assign hident _ ih =>
    have hname := tallyTo_identAt hclean hident
    simp only [Owes, levelOf, due_parts (g := .assign) (fun _ => rfl) (Nat.zero_le 7),
      due_parts (g := .varLoc) (fun _ => rfl) (Nat.zero_le 7), ownParens, dueAll,
      due_leaf (leaf_of_identAt hident)] at ih ⊢
    omega
  | @value v i j p q r s hequals _ hend ih =>
    have hbefore := tallyTo_litAt hclean (s := "=") rfl hequals
    have hbehind := tallyTo_litAt hclean (s := ";") rfl hend
    have hmono := due_mono (Nat.zero_le 1) v
    simp only [Owes, levelOf] at ih ⊢
    omega
  | @said w v o j p q r s hword hreserved _ hend ih =>
    have hbefore := tallyTo_wordAt hclean hreserved hword
    have hbehind := tallyTo_litAt hclean (s := ";") rfl hend
    have hmono := due_mono (Nat.zero_le 1) v
    simp only [Owes, levelOf] at ih ⊢
    omega
  | print _ ih | ret _ ih =>
    simp only [Owes, levelOf, due_parts (g := .print) (fun _ => rfl) (Nat.zero_le 7),
      due_parts (g := .ret) (fun _ => rfl) (Nat.zero_le 7), ownParens, dueAll] at ih ⊢
    omega
  | @guarded w cond body o i j p q r s u v hword hreserved hopen _ hclose _ ih ih' =>
    have hbefore := tallyTo_wordAt hclean hreserved hword
    have hmono := due_mono (Nat.zero_le 1) cond
    have hparens := tallyTo_parens hclean hopen ih hclose
    simp only [Owes, levelOf] at hparens hmono ih' ⊢
    omega
  | ifThen _ ih | whileDo _ ih =>
    simp only [Owes, levelOf, due_parts (g := .ifThen) (fun _ => rfl) (Nat.zero_le 7),
      due_parts (g := .whileDo) (fun _ => rfl) (Nat.zero_le 7), ownParens, dueAll] at ih ⊢
    omega
  | ifElse _ hword _ ih ih' =>
    have helse := tallyTo_wordAt hclean rfl hword
    simp only [Owes, levelOf, due_parts (g := .ifElse) (fun _ => rfl) (Nat.zero_le 7), ownParens,
      dueAll] at ih ih' ⊢
    omega
  | @exprStatement t i p q r _ hend ih =>
    have hbehind := tallyTo_litAt hclean (s := ";") rfl hend
    have hmono := due_mono (Nat.zero_le 1) t
    simp only [Owes, levelOf] at ih ⊢
    omega
  | block hopen _ _ hclose ih =>
    have hbefore := tallyTo_litAt hclean (s := "\x7b") rfl hopen
    have hbehind := tallyTo_litAt hclean (s := "\x7d") rfl hclose
    simp only [Owes, levelOf, due_parts (g := .sequence) (fun _ => rfl) (Nat.zero_le 7)] at ih ⊢
    omega
  | @leftAssoc n m ops a t p q r hn _ _ ih ih' =>
    have hmono :=
      due_mono
        (Nat.le_of_lt (Nat.lt_of_lt_of_eq (Nat.lt_succ_self _) (level_of_chained hn).1.symm)) a
    simp only [Owes] at ih ih' ⊢
    omega
  | @chain n m ops op a b t o p q r s hn hop hsign _ _ ih ih' =>
    obtain ⟨hlevel, hops⟩ := level_of_chained hn
    obtain ⟨hstrength, hoperands⟩ := hops op hop
    have hbefore := tallyTo_litAt hclean (by cases op <;> rfl) hsign
    simp only [Owes, due_binary, hstrength, hoperands, hlevel, Nat.lt_irrefl, if_false] at ih ih' ⊢
    omega
  | @compare op a b o p q r s hop _ hsign _ ih ih' =>
    obtain ⟨hstrength, hoperands⟩ := strength_of_comparison hop
    have hbefore := tallyTo_litAt hclean (by cases op <;> rfl) hsign
    simp only [Owes, levelOf, due_binary, hstrength, hoperands, Nat.lt_irrefl, if_false] at ih ih' ⊢
    omega
  | not hsign _ ih =>
    have hbefore := tallyTo_litAt hclean (s := "!") rfl hsign
    simp only [Owes, levelOf, due_not (Nat.le_refl 3), notStrength] at ih ⊢
    omega
  | @minus t o p q r hsign _ ih =>
    have hbefore := tallyTo_litAt hclean (s := "-") rfl hsign
    have hmono := due_mono (show 6 ≤ 7 by decide) t
    -- the zero that is not written makes up for the parentheses that are not needed
    have hzero : due 7 (.binary .sub o (.int o 0) t) = due 6 t := by
      rw [due_binary, show operandStrengths .sub = (5, 6) from rfl,
        due_int (Int64.le_refl 0) (by decide)]
      exact Int.zero_add _
    change due 7 _ ≤ _
    rw [hzero]
    simp only [Owes, levelOf] at ih
    omega
  | call _ _ ih ih' =>
    simp only [Owes, levelOf, primaryStrength] at ih ih' ⊢
    omega
  | @calls f t ts o i p q r s u hopen _ hclose _ ih ih' =>
    have hparens := tallyTo_parens hclean hopen ih hclose
    simp only [Owes, due_call (Nat.le_refl primaryStrength)] at ih' ⊢
    rw [itemsDue_arguments] at hparens
    omega
  | @paren t o i p q r s hopen _ hclose ih =>
    have hparens := tallyTo_parens hclean hopen ih hclose
    have hle := due_le 7 1 t
    simp only [Owes, levelOf] at hparens hle ⊢
    omega
  | lookup hident =>
    have hname := tallyTo_identAt hclean hident
    simp only [Owes, levelOf, due_parts (g := .lookup) (fun _ => rfl) (Nat.le_refl 7), ownParens,
      dueAll, due_leaf (leaf_of_identAt hident)]
    omega
  | integer hint =>
    have hnumber := tallyTo_integerAt hclean hint
    obtain ⟨o, w, rfl, hw⟩ := int_of_integerAt hint
    simp only [Owes, levelOf, due_int hw (Nat.le_refl 7)]
    omega
  | @function params result body o i j p q r s u v w hparams hword hopen _ hclose
        hresult _ ih ih' =>
    have hbefore := tallyTo_wordAt hclean rfl hword
    have hlist := tallyTo_parens hclean hopen ih hclose
    have harrow : tallyTo src v ≤ tallyTo src w ∧ ∀ t, result = some t → ∃ o x, t = ident o x := by
      rcases hresult with ⟨rfl, rfl⟩ | ⟨k, l, t, rfl, harrow, htype⟩
      · exact ⟨Int.le_refl _, nofun⟩
      · have hbefore := tallyTo_litAt hclean (s := "->") rfl harrow
        refine ⟨Int.le_trans hbefore (tallyTo_typeAt hclean htype), fun t' ht => ?_⟩
        exact Option.some.inj ht ▸ leaf_of_typeAt htype
    rw [itemsDue_parameters] at hlist
    simp only [Owes, levelOf, due_functionTree hparams harrow.2 (Nat.le_refl 7)] at ih' ⊢
    omega
  | argument _ ih => exact Int.le_trans (due_mono (Nat.zero_le 1) _) ih
  | parameter hident =>
    have hname := tallyTo_identAt hclean hident
    simp only [Owes, itemDue]
    omega
  | typedParameter htype hident =>
    have hhead := tallyTo_typeAt hclean htype
    have hname := tallyTo_identAt hclean hident
    simp only [Owes, itemDue]
    omega
  | items _ _ ih ih' =>
    simp only [Owes, itemsDue] at ih ih' ⊢
    omega
  | moreItems hcomma _ _ ih ih' =>
    have hbefore := tallyTo_litAt hclean (s := ",") rfl hcomma
    simp only [Owes, itemsDue] at ih ih' ⊢
    omega

end Phrases

end ClosureLang.Layout
