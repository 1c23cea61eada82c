import ClosureLang.Proofs.Layout.Alternatives
import ClosureLang.Proofs.Layout.Functions

/-! The texts of statements and blocks are read back. -/
namespace ClosureLang.Layout

open Grammar Peg ClosureLang.Tree

variable {src : ByteArray} {p : Nat} {text rest name : String} {t x : Tree} {o o' : Int}

/-- No second block of a conditional is at the front of `rest`. -/
def NoElse (src : ByteArray) (rest : String) : Prop :=
  ∀ q, Ahead src q rest → wordAt src "else" q = none

/-- Where `text` stands, the statement `t` is read up to offsets. -/
def DenotesStatement (text : String) (t : Tree) : Prop :=
  ∀ src p rest, NoElse src rest → Ahead src p (text ++ rest) →
    ∃ t' q, similar t' t = true ∧ Ahead src q rest ∧ read src .statement p = some (t', q)

theorem denotes_exprStatement (h : Denotes 1 text t) : DenotesStatement (text ++ ";") t := by
  intro src p rest _ ha
  rw [String.append_assoc] at ha
  obtain ⟨t', q₁, hsim, ha₁, h₁⟩ := h.read_expr (stops_token rfl rfl) ha
  obtain ⟨a, q₂, h₂, ha₂⟩ := ha₁.lit rfl
  exact ⟨t', q₂, hsim, ha₂, read_statement_of_expr ha.le h₁ h₂⟩

theorem read_initializer (h : Denotes 1 text t)
    (ha : Ahead src p (" = " ++ (text ++ (";" ++ rest)))) :
    ∃ t' q, similar t' t = true ∧ Ahead src q rest ∧
      Peg.eval src (read src) Pattern.initializer p = some (t', q) := by
  rw [show " = " = " " ++ ("=" ++ " ") from rfl, String.append_assoc, String.append_assoc] at ha
  obtain ⟨a, q₁, h₁, ha₁⟩ := ((ahead_blanks rfl).mp ha).lit rfl
  obtain ⟨t', q₂, hsim, ha₂, h₂⟩ := h.read_expr (stops_token rfl rfl) ((ahead_blanks rfl).mp ha₁)
  obtain ⟨b, q₃, h₃, ha₃⟩ := ha₂.lit rfl
  exact ⟨t', q₃, hsim, ha₃, by simp [h₁, h₂, h₃]⟩

theorem denotes_assign {i : Int} (hname : IsName name) (h : Denotes 1 text t) :
    DenotesStatement (name ++ " = " ++ text ++ ";")
      (form .assign o [form .varLoc o' [ident i name], t]) := by
  intro src p rest _ ha
  simp only [String.append_assoc] at ha
  obtain ⟨start, q₁, h₁, ha₁⟩ := ha.ident hname (by simp [isParted]; rfl)
  obtain ⟨t', q₂, hsim, ha₂, h₂⟩ := read_initializer h ha₁
  have hdeclare : read src .declare p = none :=
    read_declare_none ha.le (wordAt_of_identAt h₁ rfl)
      (typeAt_none (wordAt_of_identAt h₁ rfl) (wordAt_of_identAt h₁ rfl))
  refine ⟨form .assign start [form .varLoc start [ident start name], t'], q₂, ?_, ha₂, ?_⟩
  · simp [hsim]
  · rw [read_statement ha.le, hdeclare, read_assign ha.le, h₁, Option.bind_some, h₂]
    rfl

/-- The type of a declaration, or the word for none. -/
def declaredType (type : List Tree) : String := (type.head?.map leafName).getD "var"

theorem read_declareHead {type : List Tree} (htype : ∀ t ∈ type, IsType t) (hlen : type.length ≤ 1)
    (ha : Ahead src p (declaredType type ++ rest)) (hrest : isParted rest = true) :
    ∃ start tag q, declareHeadAt src p = some ((start, tag), q) ∧
      agreeAll false tag.toList type = true ∧ Ahead src q rest := by
  match type with
  | [] =>
    obtain ⟨start, q, hword, hq⟩ := Ahead.word (s := "var") ha rfl hrest
    exact ⟨start, none, q, by simp [declareHeadAt, hword], rfl, hq⟩
  | [t] =>
    obtain ⟨o, x, rfl, hx⟩ := htype t (by simp)
    obtain ⟨start, q, htype, hq⟩ := typeAt_ahead hx ha hrest
    have hvar : wordAt src "var" p = none := wordAt_of_typeAt htype
    refine ⟨start, some (ident start x), q, ?_, by simp, hq⟩
    simp [declareHeadAt, htype, hvar, offset?, ident]

theorem denotes_declare {type : List Tree} (hname : IsName name) (h : Denotes 1 text t)
    (htype : ∀ t ∈ type, IsType t) (hlen : type.length ≤ 1) :
    DenotesStatement (declaredType type ++ " " ++ name ++ " = " ++ text ++ ";")
      (form .declare o (ident o' name :: t :: type)) := by
  intro src p rest _ ha
  simp only [String.append_assoc] at ha
  obtain ⟨start, tag, q₁, h₁, htag, ha₁⟩ := read_declareHead htype hlen ha (by simp [isParted]; rfl)
  obtain ⟨start', q₂, h₂, ha₂⟩ := ((ahead_blanks rfl).mp ha₁).ident hname (by simp [isParted]; rfl)
  obtain ⟨t', q₃, hsim, ha₃, h₃⟩ := read_initializer h ha₂
  refine ⟨form .declare start (ident start' name :: t' :: tag.toList), q₃, ?_, ha₃, ?_⟩
  · simp [hsim, htag]
  · rw [read_statement ha.le, read_declare ha.le, h₁, Option.bind_some, h₂, Option.bind_some, h₃]
    rfl

theorem read_wordExpr {s : String} {f : Form} (hs : isSolid s = true) (h : Denotes 1 text t)
    (ha : Ahead src p (s ++ (" " ++ (text ++ (";" ++ rest))))) :
    ∃ m t' q, similar t' t = true ∧ Ahead src q rest ∧ wordAt src s p = some m ∧
      Peg.eval src (read src) (Pattern.wordExpr s f) p = some (form f m.1 [t'], q) := by
  obtain ⟨start, q₁, h₁, ha₁⟩ := ha.word hs (by simp [isParted]; rfl)
  obtain ⟨t', q₂, hsim, ha₂, h₂⟩ := h.read_expr (stops_token rfl rfl) ((ahead_blanks rfl).mp ha₁)
  obtain ⟨b, q₃, h₃, ha₃⟩ := ha₂.lit rfl
  exact ⟨(start, q₁), t', q₃, hsim, ha₃, h₁, by simp [h₁, h₂, h₃]⟩

theorem denotes_print (h : Denotes 1 text t) :
    DenotesStatement ("print " ++ text ++ ";") (form .print o [t]) := by
  intro src p rest _ ha
  simp only [show "print " = "print" ++ " " from rfl, String.append_assoc] at ha
  obtain ⟨m, t', q, hsim, hq, hword, hread⟩ := read_wordExpr (f := .print) rfl h ha
  refine ⟨form .print m.1 [t'], q, by simp [hsim], hq, ?_⟩
  rw [read_statement_keyword ha.le hword rfl (by decide) (by decide) (by decide), read_print ha.le,
    hread]
  rfl

theorem denotes_ret (h : Denotes 1 text t) :
    DenotesStatement ("ret " ++ text ++ ";") (form .ret o [t]) := by
  intro src p rest _ ha
  simp only [show "ret " = "ret" ++ " " from rfl, String.append_assoc] at ha
  obtain ⟨m, t', q, hsim, hq, hword, hread⟩ := read_wordExpr (f := .ret) rfl h ha
  have hother {s : String} (hs : isReserved s = true) (hne : "ret" ≠ s) : wordAt src s p = none :=
    wordAt_of_wordAt hword rfl hs hne
  refine ⟨form .ret m.1 [t'], q, by simp [hsim], hq, ?_⟩
  rw [read_statement_keyword ha.le hword rfl (by decide) (by decide) (by decide),
    read_print_none ha.le (hother rfl (by decide)), read_ifElse_none ha.le (hother rfl (by decide)),
    read_ifThen_none ha.le (hother rfl (by decide)),
    read_whileDo_none ha.le (hother rfl (by decide)), read_ret ha.le, hread]
  rfl

section Conditionals

variable {cond body : String} {c b : Tree}

theorem read_guardedBlock {s : String} (hs : isSolid s = true) (hc : Denotes 1 cond c)
    (hb : DenotesBlock body b)
    (ha : Ahead src p (s ++ (" (" ++ (cond ++ (") " ++ (body ++ rest)))))) :
    ∃ m c' b' q, similar c' c = true ∧ similar b' b = true ∧ Ahead src q rest ∧
      wordAt src s p = some m ∧
      Peg.eval src (read src) (Pattern.guardedBlock s) p = some ((m.1, c', b'), q) := by
  simp only [show " (" = " " ++ "(" from rfl, show ") " = ")" ++ " " from rfl,
    String.append_assoc] at ha
  obtain ⟨start, q₁, h₁, ha₁⟩ := ha.word hs (by simp [isParted]; rfl)
  obtain ⟨l, q₂, h₂, ha₂⟩ := ((ahead_blanks rfl).mp ha₁).lit rfl
  obtain ⟨c', q₃, hsimc, ha₃, h₃⟩ := hc.read_expr (stops_token rfl rfl) ha₂
  obtain ⟨r, q₄, h₄, ha₄⟩ := ha₃.lit rfl
  obtain ⟨b', q₅, hsimb, ha₅, h₅⟩ := hb src q₄ rest ((ahead_blanks rfl).mp ha₄)
  exact ⟨(start, q₁), c', b', q₅, hsimc, hsimb, ha₅, h₁, by simp [h₁, h₂, h₃, h₄, h₅]⟩

theorem denotes_whileDo (hc : Denotes 1 cond c) (hb : DenotesBlock body b) :
    DenotesStatement ("while" ++ (" (" ++ cond ++ ") " ++ body)) (form .whileDo o [c, b]) := by
  intro src p rest _ ha
  simp only [String.append_assoc] at ha
  obtain ⟨m, c', b', q, hsimc, hsimb, hq, hword, hread⟩ := read_guardedBlock rfl hc hb ha
  have hother {s : String} (hs : isReserved s = true) (hne : "while" ≠ s) : wordAt src s p = none :=
    wordAt_of_wordAt hword rfl hs hne
  refine ⟨form .whileDo m.1 [c', b'], q, by simp [hsimc, hsimb], hq, ?_⟩
  rw [read_statement_keyword ha.le hword rfl (by decide) (by decide) (by decide),
    read_print_none ha.le (hother rfl (by decide)), read_ifElse_none ha.le (hother rfl (by decide)),
    read_ifThen_none ha.le (hother rfl (by decide)), read_whileDo ha.le, hread]
  rfl

theorem denotes_ifThen (hc : Denotes 1 cond c) (hb : DenotesBlock body b) :
    DenotesStatement ("if" ++ (" (" ++ cond ++ ") " ++ body)) (form .ifThen o [c, b]) := by
  intro src p rest hrest ha
  simp only [String.append_assoc] at ha
  obtain ⟨m, c', b', q, hsimc, hsimb, hq, hword, hread⟩ := read_guardedBlock rfl hc hb ha
  have hprint : wordAt src "print" p = none := wordAt_of_wordAt hword rfl rfl (by decide)
  refine ⟨form .ifThen m.1 [c', b'], q, by simp [hsimc, hsimb], hq, ?_⟩
  rw [read_statement_keyword ha.le hword rfl (by decide) (by decide) (by decide),
    read_print_none ha.le hprint, read_ifElse ha.le, hread, Option.bind_some, hrest q hq,
    read_ifThen ha.le, hread]
  rfl

theorem denotes_ifElse {other : String} {a : Tree} (hc : Denotes 1 cond c)
    (hb : DenotesBlock body b) (ha : DenotesBlock other a) :
    DenotesStatement ("if" ++ (" (" ++ cond ++ ") " ++ body) ++ " else " ++ other)
      (form .ifElse o [c, b, a]) := by
  intro src p rest _ h
  simp only [show " else " = " " ++ ("else" ++ " ") from rfl, String.append_assoc] at h
  obtain ⟨m, c', b', q₁, hsimc, hsimb, ha₁, hword, h₁⟩ := read_guardedBlock rfl hc hb h
  obtain ⟨start, q₂, h₂, ha₂⟩ := ((ahead_blanks rfl).mp ha₁).word rfl (by simp [isParted]; rfl)
  obtain ⟨a', q₃, hsima, ha₃, h₃⟩ := ha src q₂ rest ((ahead_blanks rfl).mp ha₂)
  have hprint : wordAt src "print" p = none := wordAt_of_wordAt hword rfl rfl (by decide)
  refine ⟨form .ifElse m.1 [c', b', a'], q₃, by simp [hsimc, hsimb, hsima], ha₃, ?_⟩
  rw [read_statement_keyword h.le hword rfl (by decide) (by decide) (by decide),
    read_print_none h.le hprint, read_ifElse h.le, h₁, Option.bind_some, h₂, Option.bind_some, h₃]
  rfl

end Conditionals

/-- No statement is at the front of `rest`, nor a second block of a conditional. -/
def Closes (src : ByteArray) (rest : String) : Prop :=
  ∀ q, Ahead src q rest → read src .statement q = none ∧ wordAt src "else" q = none

/-- A brace or nothing is at the front of `rest`. -/
theorem closes_of_next (h : ∀ c, (trimmed rest).head? = some c → c = '\x7d') : Closes src rest := by
  intro q ha
  have hbyte : ∀ b, src[layoutEnd src q]? = some b → b = 125 := by
    intro b hb
    rw [ha.next] at hb
    obtain ⟨c, hc, rfl⟩ := Option.map_eq_some_iff.mp hb
    rw [h c hc]
    rfl
  have hword {s : String} {c : Char} {cs : List Char} (hs : s.toList = c :: cs)
      (hc : byteOf c ≠ 125) : wordAt src s q = none := wordAt_none hs fun hb => hc (hbyte _ hb)
  have hlit {s : String} {c : Char} {cs : List Char} (hs : s.toList = c :: cs)
      (hc : byteOf c ≠ 125) : litAt src s q = none := litAt_none hs fun hb => hc (hbyte _ hb)
  have hstart (c : UInt8 → Bool) (hc : c 125 = false) : (src[layoutEnd src q]?).any c = false := by
    cases hb : src[layoutEnd src q]? with
    | none => rfl
    | some b => rw [hbyte b hb]; exact hc
  have hident : identAt src q = none := by simp [identAt, hstart isIdentStart rfl]
  have hexpr : read src .expr q = none :=
    read_expr_none ha.le (read_primary_none ha.le (hstart _ rfl)) (hlit rfl (by decide))
      (hlit rfl (by decide))
  refine ⟨?_, hword rfl (by decide)⟩
  rw [read_statement ha.le, read_assign_none ha.le hident, read_exprStatement ha.le, hexpr,
    read_declare_none ha.le (hword rfl (by decide))
      (typeAt_none (hword rfl (by decide)) (hword rfl (by decide))),
    read_print_none ha.le (hword rfl (by decide)), read_ifElse_none ha.le (hword rfl (by decide)),
    read_ifThen_none ha.le (hword rfl (by decide)), read_whileDo_none ha.le (hword rfl (by decide)),
    read_ret_none ha.le (hword rfl (by decide))]
  rfl

/-- Where `text` stands, the statements `ts` are read up to offsets. -/
def DenotesSequence (text : String) (ts : List Tree) : Prop :=
  ∀ src p rest, Closes src rest → Ahead src p (text ++ rest) →
    ∃ ts' q, agreeAll false ts' ts = true ∧ Ahead src q rest ∧ wordAt src "else" p = none ∧
      repeatUpTo (read src .statement) (src.size + 1) p = (ts', q)

theorem denotes_nil : DenotesSequence "" [] := by
  intro src p rest hrest ha
  rw [String.empty_append] at ha
  obtain ⟨hnone, helse⟩ := hrest p ha
  exact ⟨[], p, agreeAll_nil, ha, helse, by simp [repeatUpTo, hnone]⟩

/-- In front of further statements no second block of a conditional begins. -/
theorem DenotesSequence.noElse {ts : List Tree} (h : DenotesSequence text ts)
    (hrest : Closes src rest) : NoElse src ("\n" ++ (text ++ rest)) := by
  intro q hq
  obtain ⟨_, _, -, -, helse, -⟩ := h src q rest hrest ((ahead_blanks rfl).mp hq)
  exact helse

theorem statement_fits {m : Tree × Nat} (hp : p ≤ src.size) (h : read src .statement p = some m) :
    p < m.2 ∧ m.2 ≤ src.size := by
  obtain ⟨-, hle, hlt⟩ := read_fits h hp
  exact ⟨hlt (by decide), hle⟩

theorem DenotesStatement.cons {blanks texts : String} {ts : List Tree} (h : DenotesStatement text t)
    (hblanks : isBlankText blanks = true)
    (hts : DenotesSequence texts ts) :
    DenotesSequence (blanks ++ text ++ "\n" ++ texts) (t :: ts) := by
  intro src p rest hrest ha
  simp only [String.append_assoc] at ha
  have ha' := (ahead_blanks hblanks).mp ha
  obtain ⟨t', q₁, hsim, ha₁, h₁⟩ := h src p _ (hts.noElse hrest) ha'
  obtain ⟨ts', q₂, hsims, ha₂, -, h₂⟩ := hts src q₁ rest hrest ((ahead_blanks rfl).mp ha₁)
  refine ⟨t' :: ts', q₂, by simp [hsim, hsims], ha₂, else_of_statement ha.le h₁, ?_⟩
  rw [repeatUpTo_step (fun _ _ => statement_fits) ha.le h₁, h₂]

theorem DenotesSequence.read_program {ts : List Tree} (h : DenotesSequence text ts)
    (hrest : Closes src rest) (hp : p ≤ src.size)
    (ha : Ahead src (layoutEnd src p) (text ++ rest)) :
    ∃ ts' q, agreeAll false ts' ts = true ∧ Ahead src q rest ∧
      read src .program p = some (form .sequence p ts', q) := by
  obtain ⟨ts', q, hsims, hq, -, hread⟩ := h src (layoutEnd src p) rest hrest ha
  refine ⟨ts', q, hsims, hq, ?_⟩
  rw [Grammar.read_program hp, hread, layoutEnd_of_settled hq.settled]

theorem DenotesSequence.block {ts : List Tree} {front back : String} (h : DenotesSequence text ts)
    (hfront : isBlankText front = true)
    (hback : isBlankText back = true) :
    DenotesBlock ("\x7b" ++ front ++ text ++ back ++ "\x7d") (form .sequence o ts) := by
  intro src p rest ha
  simp only [String.append_assoc] at ha
  obtain ⟨l, q₁, h₁, ha₁⟩ := ha.lit rfl
  have hrest : Closes src (back ++ ("\x7d" ++ rest)) := by
    refine closes_of_next fun c hc => ?_
    rw [trimmed_blanks hback, trimmed_of_solid rfl] at hc
    exact (Option.some.inj hc).symm
  have ha₁' := (ahead_blanks hfront).mp ha₁
  rw [← layoutEnd_of_settled ha₁'.settled] at ha₁'
  obtain ⟨ts', q₂, hsims, ha₂, h₂⟩ := h.read_program hrest ha₁.le ha₁'
  obtain ⟨r, q₃, h₃, ha₃⟩ := ((ahead_blanks hback).mp ha₂).lit rfl
  refine ⟨form .sequence l ts', q₃, by simp [hsims], ha₃, ?_⟩
  rw [read_block ha.le, h₁, Option.bind_some, h₂, Option.bind_some, h₃]
  rfl

end ClosureLang.Layout
