import ClosureLang.Proofs.Grammar.Names
import ClosureLang.Proofs.Tree.Everywhere

/-! The offsets of a tree in the text that it was read from: at the offset of every node stands the
token that the node records. -/
namespace ClosureLang.Grammar

open Peg Pattern ClosureLang.Tree

variable {src : ByteArray} {p q r : Nat} {f : Nonterminal → Nat → Option (Tree × Nat)} {α β : Type}

/-- No word or number goes on at `p`. -/
def Apart (src : ByteArray) (p : Nat) : Prop := ∀ i, i + 1 = p → (src[i]?).any isIdentByte = false

/-- A token may start at `p`, and a word that starts here is a whole one. -/
structure Edge (src : ByteArray) (p : Nat) : Prop where
  clear : Clear src p
  apart : (src[p]?).any isIdentByte = true → Apart src p

/-- Outside comments, `cs` is all that stands at `o` of bytes of the class `c`, with no word before
it. -/
def RunAt (src : ByteArray) (c : UInt8 → Bool) (o : Int) (cs : List Char) : Prop :=
  ∃ p : Nat, o = p ∧ modeAt src p ≠ .comment ∧ Apart src p ∧ cs ≠ [] ∧
    asciiText src p (runEnd c src p) = cs

/-- At the offset stands the name or reserved word, as a whole word. -/
def WordAt (src : ByteArray) (o : Int) (x : String) : Prop := RunAt src isIdentByte o x.toList

/-- At the offset stands a whole run of digits, and it denotes `w`. -/
def NumberAt (src : ByteArray) (o : Int) (w : Int64) : Prop :=
  ∃ ds, RunAt src isDigitByte o ds ∧ w.toInt = Decimal.natOfDigits ds

/-- At the offset stands the mark, outside comments. -/
def MarkAt (src : ByteArray) (o : Int) (s : String) : Prop :=
  ∃ p : Nat, o = p ∧ modeAt src p ≠ .comment ∧ holds src p s.toList = true

/-- What a compound node says about the text at its offset, and at those of the leaves that it names
things with. The sequence of a whole program starts with the text. -/
def AnchoredForm (src : ByteArray) (o : Int) (cs : List Tree) (parent : Tree) : Form → Prop
  | .sequence => MarkAt src o "\x7b" ∨ o = 0 ∧ parent = absent
  | .lookup | .varLoc => ∃ x, cs = [ident o x] ∧ WordAt src o x
  | .parameters => WordAt src o "func" ∧ ∀ c ∈ cs, ∃ o' x, c = ident o' x ∧ WordAt src o' x
  | .signature =>
    WordAt src o "func" ∧ ∃ ts o' x, cs = ts ++ [ident o' x] ∧ (x ≠ genericType → WordAt src o' x)
  | .declare => ∃ o' x v, WordAt src o' x ∧
      (cs = [ident o' x, v] ∧ WordAt src o "var" ∨
        ∃ y, cs = [ident o' x, v, ident o y] ∧ (y = "int" ∨ y = "func") ∧ WordAt src o y)
  | .assign => ∃ x v, cs = [form .varLoc o [ident o x], v]
  | .print => WordAt src o "print"
  | .ifThen | .ifElse => WordAt src o "if"
  | .whileDo => WordAt src o "while"
  | .ret => WordAt src o "ret"
  | .function => WordAt src o "func"
  | .call | .arguments => MarkAt src o "("
  | .binary op => MarkAt src o op.symbol
  | .not => MarkAt src o "!"
  | .invalid | .unknown _ => False

/-- A node stands where its token does. A number is written at its offset, or it is the zero that a
sign is taken from. What stands at a name is said at the node above it. -/
def Anchored (src : ByteArray) (t parent : Tree) : Prop :=
  match t with
  | .absent => False
  | .node (.ident _) _ _ => True
  | .node (.integer w) o _ =>
    NumberAt src o w ∨ w = 0 ∧ MarkAt src o "-" ∧ ∃ rhs, parent = .binary .sub o t rhs
  | .node (.form g) o cs => AnchoredForm src o cs parent g

/-- The tree may stand anywhere, and all its nodes stand where their tokens do. -/
def Steady (src : ByteArray) (t : Tree) : Prop := ∀ parent, Everywhere (Anchored src) parent t

section Tokens

theorem edge_zero : Edge src 0 := ⟨clear_zero, fun _ _ h => absurd h (Nat.succ_ne_zero _)⟩

theorem edge_of_stop (hp : Clear src p) (h : (src[p]?).any isIdentByte = false) : Edge src p :=
  ⟨hp, fun hany => absurd hany (by simp [h])⟩

theorem not_isIdentByte_of_isBlankByte {b : UInt8} (h : isBlankByte b = true) :
    isIdentByte b = false := by
  simp only [isBlankByte, Bool.or_eq_true, decide_eq_true_eq] at h
  rcases h with ((rfl | rfl) | rfl) | rfl <;> decide

/-- In front of what stands behind layout there is a blank; comments end with line feeds. -/
theorem blank_before_layoutLength (comment : Bool) (limit : Nat) {b : UInt8}
    (hb : src[p + layoutLength src comment limit p]? = some b) (hl : src.size - p ≤ limit) :
    layoutLength src comment limit p = 0 ∧ comment = false ∨
      ∃ i, i + 1 = p + layoutLength src comment limit p ∧ (src[i]?).any isBlankByte = true := by
  induction limit generalizing p comment with
  | zero =>
    have hlt := lt_size hb
    simp only [layoutLength] at hlt
    omega
  | succ limit ih =>
    rw [layoutLength] at hb ⊢
    cases hc : src[p]? with
    | none =>
      have hge : src.size ≤ p := by simpa using hc
      simp [hc] at hb
    | some c =>
      have hstep (next : Bool) (hb : src[p + (layoutLength src next limit (p + 1) + 1)]? = some b)
          (hblank : next = false → isBlankByte c = true) :
          ∃ i, i + 1 = p + (layoutLength src next limit (p + 1) + 1) ∧
            (src[i]?).any isBlankByte = true := by
        rw [show p + (layoutLength src next limit (p + 1) + 1) =
            p + 1 + layoutLength src next limit (p + 1) by
          omega] at hb ⊢
        obtain ⟨hzero, hnext⟩ | hbefore := ih next hb (by omega)
        · exact ⟨p, by rw [hzero], by simp [hc, hblank hnext]⟩
        · exact hbefore
      simp only [hc] at hb ⊢
      split at hb
      · rw [if_pos ‹_›]
        refine .inr (hstep _ hb fun hfeed => ?_)
        obtain rfl : c = lineFeed := by simpa using hfeed
        rfl
      · rw [if_neg ‹_›]
        split at hb
        · rw [if_pos ‹_›]
          exact .inr (hstep _ hb fun _ => ‹_›)
        · rw [if_neg ‹_›]
          split at hb
          · rw [if_pos ‹_›]
            exact .inr (hstep _ hb (by simp))
          · rw [if_neg ‹_›]
            simp_all

theorem edge_layout (h : Edge src p) : Edge src (layoutEnd src p) := by
  refine ⟨(level_layout h.clear).clear, fun hany i hi => ?_⟩
  obtain ⟨b, hb, -⟩ := exists_of_any hany
  obtain ⟨hzero, -⟩ | ⟨j, hj, hblank⟩ := blank_before_layoutLength false _ hb (Nat.le_refl _)
  · have hsame : layoutEnd src p = p := by rw [layoutEnd, hzero, Nat.add_zero]
    rw [hsame] at hany hi
    exact h.apart hany i hi
  · obtain rfl : i = j := by
      unfold layoutEnd at hi
      omega
    obtain ⟨b, hb, hblank⟩ := exists_of_any hblank
    simp [hb, not_isIdentByte_of_isBlankByte hblank]

/-- Behind a text whose last byte belongs to no word. -/
theorem apart_holds {cs : List Char} (hcs : ∀ c ∈ cs, isIdentByte (UInt8.ofNat c.toNat) = false)
    (hne : cs ≠ []) (h : holds src p cs = true) : Apart src (p + cs.length) := by
  induction cs generalizing p with
  | nil => exact absurd rfl hne
  | cons c cs ih =>
    simp only [holds, Bool.and_eq_true, decide_eq_true_eq] at h
    obtain rfl | hnil := eq_or_ne cs []
    · intro i hi
      obtain rfl : i = p := by simpa using hi
      simp [h.1, hcs c List.mem_cons_self]
    · rw [List.length_cons, show p + (cs.length + 1) = p + 1 + cs.length by omega]
      exact ih (fun c hc => hcs c (List.mem_cons_of_mem _ hc)) hnil h.2

/-- A mark stands outside comments, and a token may follow it. -/
theorem edge_of_litAt {s : String} (hs : isMark s = true) {m : Nat × Nat}
    (h : litAt src s p = some m) (hp : Clear src p) : Edge src m.2 ∧ MarkAt src m.1 s := by
  obtain ⟨hh, hstart, hstop⟩ := litAt_some h
  obtain ⟨hne, hchars⟩ := chars_of_isMark hs
  have hclear : Clear src m.1 := hstart ▸ (level_layout hp).clear
  obtain ⟨c, cs, hcs⟩ := List.exists_cons_of_ne_nil hne
  have hfirst := holds_head (hcs ▸ hh)
  have hloose : Loose src m.1 := loose_of_stop hclear (by simp [hfirst, hchars c (by simp [hcs])])
  have hfree := free_holds (fun c hc => ⟨(hchars c hc).2.2, (hchars c hc).1⟩) hne hloose hh
  have hapart := apart_holds (fun c hc => (hchars c hc).1) hne hh
  rw [String.length_toList] at hfree hapart
  rw [hstop]
  exact ⟨edge_layout ⟨(loose_of_free hfree).clear, fun _ => hapart⟩, m.1, rfl,
    hclear (lt_size hfirst), hh⟩

/-- A reserved word stands alone, and a token may follow it. -/
theorem edge_of_wordAt {s : String} (hs : isReserved s = true) {m : Nat × Nat}
    (h : wordAt src s p = some m) (hp : Edge src p) : Edge src m.2 ∧ WordAt src m.1 s := by
  obtain ⟨⟨hh, hnext⟩, hstart, hstop⟩ := wordAt_some h
  have hedge : Edge src m.1 := hstart ▸ edge_layout hp
  have hascii := reserved_ascii hs
  have hclear :=
    ((leveling src).goes_holds
      (List.all_eq_true.mpr fun c hc => isFlat_of_isIdentByte (hascii c hc).1)
    hh hedge.clear).clear
  have hne : s.toList ≠ [] := by
    intro hnil
    obtain rfl : s = "" := String.toList_inj.mp hnil
    cases hs
  obtain ⟨c, cs, hcs⟩ := List.exists_cons_of_ne_nil hne
  have hfirst := holds_head (hcs ▸ hh)
  rw [String.length_toList] at hclear
  rw [hstop]
  refine ⟨edge_layout (edge_of_stop hclear hnext), m.1, rfl, hedge.clear (lt_size hfirst),
    hedge.apart ?_, hne, ?_⟩
  · simp [hfirst, (hascii c (by simp [hcs])).1]
  · rw [hstart]
    exact run_of_wordAt h hs

theorem asciiText_runEnd_ne {c : UInt8 → Bool} (h : (src[p]?).any c = true) :
    asciiText src p (runEnd c src p) ≠ [] := by
  obtain ⟨b, hb, -⟩ := exists_of_any h
  have hlt := lt_size hb
  rw [runEnd, asciiText_eq,
    show src.size - p = (src.size - (p + 1)) + 1 by omega, runLength, if_pos h]
  simp
  omega

theorem edge_of_identAt {m : Tree × Nat} (h : identAt src p = some m) (hp : Edge src p) :
    Edge src m.2 ∧ ∃ o x, m.1 = .ident o x ∧ WordAt src o x := by
  simp only [identAt, Option.ite_none_right_eq_some, Option.map_eq_some_iff] at h
  obtain ⟨hany, x, hx, rfl⟩ := h
  obtain ⟨b, hb, hident⟩ := exists_of_any hany
  have hedge := edge_layout hp
  have hbyte : (src[layoutEnd src p]?).any isIdentByte = true := by
    simp [hb, isIdentByte_of_isIdentStart b hident]
  have hclear :=
    ((leveling src).goes_runEnd (c := isIdentByte) (fun _ => isFlat_of_isIdentByte)
      hedge.clear).clear
  simp only [name, Option.ite_none_left_eq_some, Option.some.injEq] at hx
  refine ⟨edge_layout (edge_of_stop hclear (runEnd_stop _ _ _)), _, x, rfl, layoutEnd src p, rfl,
    hedge.clear (lt_size hb), hedge.apart hbyte, ?_, ?_⟩
  · rw [← hx.2, String.toList_ofList]
    exact asciiText_runEnd_ne hbyte
  · rw [← hx.2, String.toList_ofList]

theorem toInt_of_literal {cs : List Char} {w : Int64} (h : Pattern.literal cs = some w) :
    w.toInt = Decimal.natOfDigits cs := by
  simp only [Pattern.literal, Option.ite_none_right_eq_some, Option.some.injEq] at h
  rw [← h.2, Int64.toInt_ofNat_of_lt h.1]

/-- A word may follow digits at once. -/
theorem clear_of_integerAt {m : Tree × Nat} (h : integerAt src p = some m) (hp : Edge src p) :
    Clear src m.2 ∧ ∃ o w, m.1 = .int o w ∧ NumberAt src o w := by
  simp only [integerAt, word?_asciiText, Option.map_eq_some_iff, Option.ite_none_right_eq_some] at h
  obtain ⟨w, ⟨hany, hw⟩, rfl⟩ := h
  obtain ⟨b, hb, hdigit⟩ := exists_of_any hany
  have hedge := edge_layout hp
  have hflat : ∀ b, isDigitByte b = true → isFlat b = true := fun b hb =>
    isFlat_of_isIdentByte (by simp [isIdentByte, hb])
  have hclear := ((leveling src).goes_runEnd hflat hedge.clear).clear
  exact ⟨(level_layout hclear).clear, _, w, rfl, _, ⟨layoutEnd src p, rfl, hedge.clear (lt_size hb),
    hedge.apart (by simp [hb, isIdentByte, hdigit]), asciiText_runEnd_ne hany, rfl⟩,
    toInt_of_literal hw⟩

end Tokens

section Trees

variable {o : Int} {g : Form} {cs : List Tree}

theorem steady_ident (o : Int) (x : String) : Steady src (.ident o x) :=
  fun _ => everywhere_node.mpr ⟨trivial, nofun⟩

theorem steady_int {w : Int64} (h : NumberAt src o w) : Steady src (.int o w) :=
  fun _ => everywhere_node.mpr ⟨.inl h, nofun⟩

theorem steady_form (h : ∀ parent, AnchoredForm src o cs parent g) (hcs : ∀ c ∈ cs, Steady src c) :
    Steady src (.form g o cs) :=
  fun parent => everywhere_node.mpr ⟨h parent, fun c hc => hcs c hc _⟩

theorem steady_binary {op : BinaryOp} {lhs rhs : Tree} (h : MarkAt src o op.symbol)
    (hlhs : Steady src lhs) (hrhs : Steady src rhs) : Steady src (.binary op o lhs rhs) :=
  steady_form (fun _ => h) (by simp [hlhs, hrhs])

/-- The zero of a negation has no token of its own. -/
theorem steady_negation {t : Tree} (h : MarkAt src o "-") (ht : Steady src t) :
    Steady src (.binary .sub o (.int o 0) t) := by
  refine fun parent => everywhere_node.mpr ⟨h, ?_⟩
  simp only [List.forall_mem_cons, List.not_mem_nil, false_imp_iff, implies_true, and_true]
  exact ⟨everywhere_node.mpr ⟨.inr ⟨rfl, h, t, rfl⟩, List.forall_mem_nil _⟩, ht _⟩

theorem steady_foldl_apply {lhs : Tree} (rest : List ((BinaryOp × Nat) × Tree))
    (hlhs : Steady src lhs) (hrest : ∀ m ∈ rest, MarkAt src m.1.2 m.1.1.symbol ∧ Steady src m.2) :
    Steady src (rest.foldl Pattern.apply lhs) := by
  induction rest generalizing lhs with
  | nil => exact hlhs
  | cons m rest ih =>
    simp only [List.forall_mem_cons] at hrest
    exact ih (steady_binary hrest.1.1 hlhs hrest.1.2) hrest.2

theorem steady_foldl_callTree {callee : Tree} (calls : List (Nat × List Tree))
    (hcallee : Steady src callee)
    (hcalls : ∀ m ∈ calls, MarkAt src m.1 "(" ∧ ∀ t ∈ m.2, Steady src t) :
    Steady src (calls.foldl callTree callee) := by
  induction calls generalizing callee with
  | nil => exact hcallee
  | cons m calls ih =>
    simp only [List.forall_mem_cons] at hcalls
    refine ih (steady_form (fun _ => hcalls.1.1) ?_) hcalls.2
    simp only [List.forall_mem_cons, List.not_mem_nil, false_imp_iff, implies_true, and_true]
    exact ⟨hcallee, steady_form (fun _ => hcalls.1.1) hcalls.1.2⟩

/-- The tag of an annotated result stands where it is written. -/
theorem steady_functionTree {start : Nat} {params : List (Option Tree × Tree)}
    {result : Option Tree} {body : Tree} (hfunc : WordAt src start "func")
    (hparams : ∀ m ∈ params, ∃ o x, m.2 = .ident o x ∧ WordAt src o x)
    (hresult : ∀ t, result = some t → ∃ o x, t = .ident o x ∧ WordAt src o x)
    (hbody : Steady src body) :
    Steady src (functionTree start params result body) := by
  have hparameters : Steady src (.form .parameters start (params.map Prod.snd)) := by
    refine steady_form (fun _ => ⟨hfunc, List.forall_mem_map.mpr hparams⟩)
      (List.forall_mem_map.mpr fun m hm => ?_)
    obtain ⟨o, x, hx, -⟩ := hparams m hm
    exact hx ▸ steady_ident o x
  have hlast : ∃ o x, result.getD (.ident start genericType) = .ident o x ∧
      (x ≠ genericType → WordAt src o x) := by
    cases result with
    | none => exact ⟨start, genericType, rfl, fun hne => absurd rfl hne⟩
    | some t =>
      obtain ⟨o, x, rfl, hword⟩ := hresult t rfl
      exact ⟨o, x, rfl, fun _ => hword⟩
  obtain ⟨o, x, htag, hword⟩ := hlast
  have hsignature : Steady src (.form .signature start (params.map tag ++ [.ident o x])) := by
    refine steady_form (fun _ => ⟨hfunc, _, o, x, rfl, hword⟩) fun c hc => ?_
    rcases List.mem_append.mp hc with hc | hc
    · obtain ⟨m, -, rfl⟩ := List.mem_map.mp hc
      exact steady_ident _ _
    · exact List.mem_singleton.mp hc ▸ steady_ident o x
  rw [functionTree, htag]
  refine steady_form (fun _ => hfunc) fun c hc => ?_
  split at hc <;> simp only [List.mem_cons, List.not_mem_nil, or_false] at hc
  · obtain rfl | rfl | rfl := hc <;> assumption
  · obtain rfl | rfl := hc <;> assumption

end Trees

/-- What a nonterminal makes of a text: statements inside a program, a single tree otherwise. -/
def Found (src : ByteArray) (n : Nonterminal) (t : Tree) : Prop :=
  if n = .program then ∀ c ∈ t.children, Steady src c else Steady src t

/-- Behind an expression a word may follow at once, since the expression may end with a number. -/
def Ends (src : ByteArray) (n : Nonterminal) (p : Nat) : Prop :=
  if n.role = .expression then Clear src p else Edge src p

/-- Matches that start where `pre` holds end where `post` does, with values that satisfy `u`. -/
def Finds (src : ByteArray) (f : Nonterminal → Nat → Option (Tree × Nat)) (a : Pattern α)
    (pre post : Nat → Prop) (u : α → Prop) : Prop :=
  ∀ p x q, Peg.eval src f a p = some (x, q) → pre p → post q ∧ u x

namespace Finds

variable {a : Pattern α} {b : Pattern β} {pre mid post : Nat → Prop} {u : α → Prop} {w : β → Prop}

theorem offset : Finds src f .offset pre pre fun _ => True := by
  rintro p x q ⟨⟩ hp
  exact ⟨hp, trivial⟩

theorem seq (ha : Finds src f a pre mid u) (hb : Finds src f b mid post w) :
    Finds src f (.seq a b) pre post fun m => u m.1 ∧ w m.2 := by
  intro p x q h hp
  simp only [eval_seq, Option.bind_eq_some_iff, Option.map_eq_some_iff, Prod.mk.injEq] at h
  obtain ⟨⟨y, r⟩, hx, ⟨z, _⟩, hy, rfl, rfl⟩ := h
  obtain ⟨hmid, hleft⟩ := ha _ _ _ hx hp
  obtain ⟨hpost, hright⟩ := hb _ _ _ hy hmid
  exact ⟨hpost, hleft, hright⟩

theorem alt {b : Pattern α} (ha : Finds src f a pre post u) (hb : Finds src f b pre post u) :
    Finds src f (.alt a b) pre post u := by
  intro p x q h hp
  simp only [eval_alt, Option.or_eq_some_iff] at h
  obtain h | ⟨-, h⟩ := h
  · exact ha _ _ _ h hp
  · exact hb _ _ _ h hp

theorem opt (ha : Finds src f a pre post u) (hpre : ∀ p, pre p → post p) :
    Finds src f (.opt a) pre post fun o => ∀ x, o = some x → u x := by
  intro p o q h hp
  cases hm : Peg.eval src f a p with
  | none =>
    simp only [eval_opt, hm, Option.map_none, Option.getD_none, Option.some.injEq,
      Prod.mk.injEq] at h
    obtain ⟨rfl, rfl⟩ := h
    exact ⟨hpre p hp, nofun⟩
  | some m =>
    simp only [eval_opt, hm, Option.map_some, Option.getD_some, Option.some.injEq,
      Prod.mk.injEq] at h
    obtain ⟨rfl, rfl⟩ := h
    obtain ⟨hpost, hu⟩ := ha _ _ _ hm hp
    exact ⟨hpost, fun x hx => Option.some.inj hx ▸ hu⟩

theorem star (ha : Finds src f a pre pre u) :
    Finds src f (.star a) pre pre fun xs => ∀ x ∈ xs, u x := by
  have hrepeat : ∀ limit p, pre p → pre (repeatUpTo (Peg.eval src f a) limit p).2 ∧
      ∀ x ∈ (repeatUpTo (Peg.eval src f a) limit p).1, u x := by
    intro limit
    induction limit with
    | zero => exact fun p hp => ⟨hp, List.forall_mem_nil _⟩
    | succ limit ih =>
      intro p hp
      rw [repeatUpTo]
      cases hm : Peg.eval src f a p with
      | none => exact ⟨hp, List.forall_mem_nil _⟩
      | some m =>
        obtain ⟨hmid, hu⟩ := ha _ _ _ hm hp
        obtain ⟨hpost, hus⟩ := ih _ hmid
        exact ⟨hpost, List.forall_mem_cons.mpr ⟨hu, hus⟩⟩
  intro p x q h hp
  simp only [eval_star, Option.some.injEq] at h
  have hfound := hrepeat (src.size + 1) p hp
  rwa [h] at hfound

theorem map {g : α → β} (ha : Finds src f a pre post u) (hg : ∀ x, u x → w (g x)) :
    Finds src f (map g a) pre post w := by
  intro p y q h hp
  simp only [eval_map, Option.map_eq_some_iff, Prod.mk.injEq] at h
  obtain ⟨⟨x, _⟩, h, rfl, rfl⟩ := h
  obtain ⟨hpost, hu⟩ := ha _ _ _ h hp
  exact ⟨hpost, hg x hu⟩

/-- Less may be said about the value. -/
theorem imp {u' : α → Prop} (ha : Finds src f a pre post u) (hu : ∀ x, u x → u' x) :
    Finds src f a pre post u' :=
  fun p x q h hp => (ha p x q h hp).imp_right (hu x)

/-- More may be known in front of the match. -/
theorem lead (ha : Finds src f a (Clear src) post u) : Finds src f a (Edge src) post u :=
  fun p x q h hp => ha p x q h hp.clear

/-- Less may be needed behind it. -/
theorem trail (ha : Finds src f a pre (Edge src) u) : Finds src f a pre (Clear src) u :=
  fun p x q h hp => (ha p x q h hp).imp_left Edge.clear

theorem fail : Finds src f (fail : Pattern α) pre post u := by
  intro p x q h
  simp [Pattern.fail] at h

theorem space : Finds src f space (Edge src) (Edge src) fun _ => True := by
  intro p x q h hp
  rw [eval_space] at h
  cases h
  exact ⟨edge_layout hp, trivial⟩

theorem lit (s : String) (hs : isMark s = true) :
    Finds src f (lit s) (Clear src) (Edge src) fun o => MarkAt src o s := by
  intro p x q h
  rw [eval_lit] at h
  exact edge_of_litAt hs h

theorem word (s : String) (hs : isReserved s = true) :
    Finds src f (word s) (Edge src) (Edge src) fun o => WordAt src o s := by
  intro p x q h
  rw [eval_word] at h
  exact edge_of_wordAt hs h

theorem ident : Finds src f ident (Edge src) (Edge src) fun t => ∃ o x, t = .ident o x ∧
    WordAt src o x := by
  intro p x q h
  rw [eval_ident] at h
  exact edge_of_identAt h

theorem integer : Finds src f integer (Edge src) (Clear src) (Steady src) := by
  intro p x q h hp
  rw [eval_integer] at h
  obtain ⟨hclear, o, w, rfl, hnumber⟩ := clear_of_integerAt h hp
  exact ⟨hclear, steady_int hnumber⟩

/-- Type tags are reserved words. -/
theorem type : Finds src f type (Edge src) (Edge src) fun t =>
    ∃ o x, t = .ident o x ∧ (x = "int" ∨ x = "func") ∧ WordAt src o x :=
  ((word _ (by decide)).map fun _ h => ⟨_, _, rfl, .inl rfl, h⟩).alt
    ((word _ (by decide)).map fun _ h => ⟨_, _, rfl, .inr rfl, h⟩)

theorem parens (ha : Finds src f a (Edge src) (Clear src) u) :
    Finds src f (parens a) (Clear src) (Edge src) fun m => MarkAt src m.1 "(" ∧ u m.2 :=
  ((lit _ (by decide)).seq (ha.seq (lit _ (by decide)))).map fun _ h => ⟨h.1, h.2.1⟩

/-- Items may end with numbers, as what stands behind them is a mark. -/
theorem list (ha : Finds src f a (Edge src) (Clear src) u) :
    Finds src f (Pattern.list a) (Edge src) (Clear src) fun xs => ∀ x ∈ xs, u x := by
  refine ((ha.seq ((lit _ (by decide)).seq ha).star).opt fun _ => Edge.clear).map fun o ho => ?_
  cases o with
  | none => exact nofun
  | some l =>
    obtain ⟨hfirst, hrest⟩ := ho l rfl
    exact List.forall_mem_cons.mpr ⟨hfirst, List.forall_mem_map.mpr fun m hm => (hrest m hm).2⟩

theorem operator (ops : List BinaryOp) :
    Finds src f (operator ops) (Clear src) (Edge src) fun m => MarkAt src m.2 m.1.symbol := by
  induction ops with
  | nil => exact fail
  | cons op ops ih =>
    have hfirst :
        Finds src f (Pattern.map (op, ·) (Pattern.lit op.symbol)) (Clear src) (Edge src) fun m =>
        MarkAt src m.2 m.1.symbol := (lit _ (isMark_symbol op)).map fun _ h => h
    exact hfirst.alt ih

section Rules

variable (hf : ∀ n p m, f n p = some m → Edge src p → Ends src n m.2 ∧ Found src n m.1)

include hf

theorem program : Finds src f (.rule .program) (Edge src) (Edge src) fun t =>
    ∀ c ∈ t.children, Steady src c :=
  fun p x q h => hf .program p (x, q) h

theorem statement (n : Nonterminal) (hn : n.role ≠ .expression ∧ n ≠ .program) :
    Finds src f (.rule n) (Edge src) (Edge src) (Steady src) := by
  intro p x q h hp
  simpa only [Ends, Found, hn, if_false] using hf n p (x, q) h hp

theorem expression (n : Nonterminal) (hn : n.role = .expression) :
    Finds src f (.rule n) (Edge src) (Clear src) (Steady src) := by
  intro p x q h hp
  have hne : n ≠ .program := by
    rintro rfl
    cases hn
  simpa only [Ends, Found, hn, hne, if_true, if_false] using hf n p (x, q) h hp

theorem initializer : Finds src f Pattern.initializer (Edge src) (Edge src) (Steady src) :=
  ((lit _ (by decide)).lead.seq ((expression hf _ rfl).seq (lit _ (by decide)))).map
    fun _ h => h.2.1

theorem wordExpr (s : String) (hs : isReserved s = true) {g : Form}
    (hg : ∀ o t parent, WordAt src o s → AnchoredForm src o [t] parent g) :
    Finds src f (Pattern.wordExpr s g) (Edge src) (Edge src) (Steady src) :=
  ((word s hs).seq ((expression hf _ rfl).seq (lit _ (by decide)))).map fun _ h =>
    steady_form (fun _ => hg _ _ _ h.1) (by simpa using h.2.1)

theorem guardedBlock (s : String) (hs : isReserved s = true) :
    Finds src f (Pattern.guardedBlock s) (Edge src) (Edge src) fun m =>
      WordAt src m.1 s ∧ Steady src m.2.1 ∧ Steady src m.2.2 :=
  ((word s hs).seq ((parens (expression hf _ rfl)).lead.seq (statement hf _ (by decide)))).map
      fun _ h =>
    ⟨h.1, h.2.1.2, h.2.2⟩

theorem leftAssoc (operand : Nonterminal) (ops : List BinaryOp)
    (hoperand : operand.role = .expression) :
    Finds src f (Pattern.leftAssoc operand ops) (Edge src) (Clear src) (Steady src) :=
  ((expression hf _ hoperand).seq ((operator ops).seq (expression hf _ hoperand)).star).map
      fun _ h =>
    steady_foldl_apply _ h.1 h.2

theorem declare : Finds src f (syntaxOf .declare) (Edge src) (Edge src) (Steady src) := by
  have hhead : Finds src f
      (.alt (Pattern.map (fun p : Nat => ((p : Int), none)) (Pattern.word "var"))
      (Pattern.map (fun t => (t.offset?.getD 0, some t)) Pattern.type)) (Edge src)
          (Edge src) fun m =>
        m.2 = none ∧ WordAt src m.1 "var" ∨
          ∃ y, m.2 = some (.ident m.1 y) ∧ (y = "int" ∨ y = "func") ∧ WordAt src m.1 y := by
    refine ((word _ (by decide)).map fun _ h => .inl ⟨rfl, h⟩).alt (type.map fun t ht => .inr ?_)
    obtain ⟨o, x, rfl, hx, hword⟩ := ht
    exact ⟨x, rfl, hx, hword⟩
  refine (hhead.seq (ident.seq (initializer hf))).map ?_
  rintro ⟨⟨o, tag⟩, x, v⟩ ⟨htag, ⟨o', y, rfl, hword⟩, hv⟩
  dsimp only at htag hv ⊢
  refine steady_form (fun _ => ⟨o', y, v, hword, ?_⟩) ?_
  · obtain ⟨rfl, hvar⟩ | ⟨z, rfl, hz⟩ := htag
    · exact .inl ⟨rfl, hvar⟩
    · exact .inr ⟨z, rfl, hz⟩
  · simp only [List.forall_mem_cons]
    refine ⟨steady_ident _ _, hv, ?_⟩
    obtain ⟨rfl, -⟩ | ⟨z, rfl, -⟩ := htag
    · exact List.forall_mem_nil _
    · simpa using steady_ident o z

theorem function : Finds src f (syntaxOf .function) (Edge src) (Edge src) (Steady src) := by
  have hparam : Finds src f param (Edge src) (Clear src) fun m =>
      ∃ o x, m.2 = .ident o x ∧ WordAt src o x :=
    ((type.opt fun _ => id).seq ident.trail).imp fun _ => And.right
  have hresult : Finds src f (.opt (Pattern.map Prod.snd (.seq (Pattern.lit "->") Pattern.type)))
      (Edge src) (Edge src) fun r => ∀ t, r = some t → ∃ o x, t = .ident o x ∧ WordAt src o x := by
    refine ((((lit _ (by decide)).lead.seq type).map fun m h => ?_).opt fun _ => id)
    obtain ⟨-, o, x, hx, -, hword⟩ := h
    exact ⟨o, x, hx, hword⟩
  refine ((word _ (by decide)).seq
    ((parens (list hparam)).lead.seq (hresult.seq (statement hf .block (by decide))))).map ?_
  exact fun m ⟨hfunc, hparams, htype, hbody⟩ => steady_functionTree hfunc hparams.2 htype hbody

/-- Every rule finds the tokens of its tree, if the rules that it applies do. -/
theorem syntaxOf (n : Nonterminal) :
    Finds src f (Grammar.syntaxOf n) (Edge src) (Ends src n) (Found src n) := by
  cases n with
  | program =>
    refine (offset.seq (space.seq ((statement hf _ (by decide)).star.seq space))).map ?_
    exact fun _ h => h.2.2.1
  | statement =>
    exact (statement hf _ (by decide)).alt
      ((statement hf _ (by decide)).alt ((statement hf _ (by decide)).alt
      ((statement hf _ (by decide)).alt
        ((statement hf _ (by decide)).alt ((statement hf _ (by decide)).alt
        ((statement hf _ (by decide)).alt (statement hf _ (by decide))))))))
  | declare => exact declare hf
  | assign =>
    refine (ident.seq (initializer hf)).map ?_
    rintro ⟨_, v⟩ ⟨⟨o, x, rfl, hword⟩, hv⟩
    refine steady_form (fun _ => ⟨x, v, rfl⟩) ?_
    simp only [List.forall_mem_cons, List.not_mem_nil, false_imp_iff, implies_true, and_true]
    exact ⟨steady_form (fun _ => ⟨x, rfl, hword⟩) (by simpa using steady_ident o x), hv⟩
  | print => exact wordExpr hf _ (by decide) fun _ _ _ h => h
  | ret => exact wordExpr hf _ (by decide) fun _ _ _ h => h
  | ifElse =>
    refine ((guardedBlock hf _ (by decide)).seq
      ((word _ (by decide)).seq (statement hf _ (by decide)))).map ?_
    rintro m ⟨⟨hword, hcond, hbody⟩, -, halternative⟩
    exact steady_form (fun _ => hword) (by simp [hcond, hbody, halternative])
  | ifThen =>
    exact (guardedBlock hf _ (by decide)).map fun _ h => steady_form (fun _ => h.1) (by simp [h.2])
  | whileDo =>
    exact (guardedBlock hf _ (by decide)).map fun _ h => steady_form (fun _ => h.1) (by simp [h.2])
  | exprStatement => exact ((expression hf _ rfl).seq (lit _ (by decide))).map fun _ h => h.1
  | block =>
    refine ((lit _ (by decide)).lead.seq ((program hf).seq (lit _ (by decide)).lead)).map
      fun _ h => ?_
    exact steady_form (fun _ => .inl h.1) h.2.1
  | expr => exact leftAssoc hf _ _ rfl
  | and => exact leftAssoc hf _ _ rfl
  | add => exact leftAssoc hf _ _ rfl
  | mul => exact leftAssoc hf _ _ rfl
  | not =>
    refine (((lit _ (by decide)).lead.seq (expression hf _ rfl)).map fun _ h => ?_).alt
      (expression hf _ rfl)
    exact steady_form (fun _ => h.1) (by simpa using h.2)
  | compare =>
    refine ((expression hf _ rfl).seq
      (((operator _).seq (expression hf _ rfl)).opt fun _ => id)).map ?_
    rintro ⟨lhs, o⟩ ⟨hlhs, ho⟩
    cases o with
    | none => exact hlhs
    | some m => exact steady_binary (ho m rfl).1 hlhs (ho m rfl).2
  | unary =>
    exact (((lit _ (by decide)).lead.seq (expression hf _ rfl)).map
      fun _ h => steady_negation h.1 h.2).alt (expression hf _ rfl)
  | call =>
    exact ((expression hf _ rfl).seq (parens (list (expression hf _ rfl))).trail.star).map
        fun _ h =>
      steady_foldl_callTree _ h.1 h.2
  | primary =>
    refine ((parens (expression hf _ rfl)).lead.trail.map fun _ h => h.2).alt
      ((expression hf _ rfl).alt ((ident.trail.map fun t ht => ?_).alt integer))
    obtain ⟨o, x, rfl, hword⟩ := ht
    exact steady_form (fun _ => ⟨x, rfl, hword⟩) (by simpa using steady_ident o x)
  | function => exact (function hf).trail

end Rules

end Finds

theorem found_of_read {n : Nonterminal} {m : Tree × Nat} (h : read src n p = some m)
    (hp : Edge src p) : Found src n m.1 := by
  have hfound : Ends src n m.2 ∧ Found src n m.1 :=
    ranking.match_of_read (Q := fun n p m => Edge src p → Ends src n m.2 ∧ Found src n m.1)
      (fun _ hf n p m h => Finds.syntaxOf hf n p m.1 m.2 h) h hp
  exact hfound.2

/-- In the tree of a text, of a program as well as of an expression, every node stands where its
token does. The sequence of the whole program stands at the start. -/
theorem anchored_of_parse (src : String) (t : Tree) :
    (parseProgram src = .ok t →
      (∃ ts, t = .form .sequence 0 ts) ∧ ∀ v ∈ t.visits, Anchored src.toUTF8 v.node v.parent) ∧
    (parseExpression src = .ok t →
      t.form? ≠ some .sequence ∧ ∀ v ∈ t.visits, Anchored src.toUTF8 v.node v.parent) := by
  refine ⟨fun h => ?_, fun h => ?_⟩
  · have hread := parseProgram_ok.mp h
    have hsteady : ∀ c ∈ t.children, Steady src.toUTF8 c := found_of_read hread edge_zero
    rw [read_program (Nat.zero_le _), Option.some.injEq, Prod.mk.injEq] at hread
    obtain ⟨rfl, -⟩ := hread
    exact ⟨⟨_, rfl⟩,
      forall_visits.mpr (everywhere_node.mpr ⟨.inr ⟨rfl, rfl⟩, fun c hc => hsteady c hc _⟩)⟩
  · have hread := parseExpression_ok.mp h
    have hsteady : Steady src.toUTF8 t := found_of_read hread edge_zero
    have hsorted : WellSorted (0 ≤ ·) .expression t := sorted_of_read hread
    refine ⟨?_, forall_visits.mpr (hsteady _)⟩
    cases hsorted <;> exact nofun

theorem anchored_of_parse_negation :
    (∃ t, parseProgram "int x = -1; # one\nprint f(x);" = .ok t ∧ (∃ ts, t = .form .sequence 0 ts) ∧
      ∀ v ∈ t.visits, Anchored "int x = -1; # one\nprint f(x);".toUTF8 v.node v.parent) ∧
    ∃ t, parseExpression "func(x) -> int \x7b ret !x; \x7d" = .ok t ∧ t.form? ≠ some .sequence ∧
      ∀ v ∈ t.visits, Anchored "func(x) -> int \x7b ret !x; \x7d".toUTF8 v.node v.parent := by
  have hprogram : (parseProgram "int x = -1; # one\nprint f(x);").toOption.isSome = true := by
    decide +kernel
  have hexpression : (parseExpression "func(x) -> int \x7b ret !x; \x7d").toOption.isSome =
      true := by decide +kernel
  obtain ⟨t, hp⟩ := exists_ok_of_isSome hprogram
  obtain ⟨u, he⟩ := exists_ok_of_isSome hexpression
  exact ⟨⟨t, hp, (anchored_of_parse _ t).1 hp⟩, u, he, (anchored_of_parse _ u).2 he⟩

end ClosureLang.Grammar
