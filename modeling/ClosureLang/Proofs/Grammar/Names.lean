import ClosureLang.Proofs.Grammar.Brackets
import ClosureLang.Proofs.Tree.Names

/-! The names of a tree in the text that it was read from: each stands behind those before it, is a
whole word there, and no part of a comment. -/
namespace ClosureLang.Grammar

open Peg Pattern ClosureLang.Tree

variable {src : ByteArray} {p q r : Nat} {b : UInt8} {f : Nonterminal → Nat → Option (Tree × Nat)}
  {α β : Type}

/-- A token may start at `p`: it would be no part of a comment and of no word before it. -/
def Loose (src : ByteArray) (p : Nat) : Prop :=
  ∀ b, src[p]? = some b → modeAt src p ≠ .comment ∧ (isIdentByte b = true → modeAt src p = .free)

theorem Loose.clear (h : Loose src p) : Clear src p :=
  fun hlt => (h src[p] (getElem?_eq_some_iff.mpr ⟨hlt, rfl⟩)).1

theorem loose_of_free (h : modeAt src p = .free) : Loose src p :=
  fun _ _ => ⟨by rw [h]; decide, fun _ => h⟩

/-- Behind a byte that belongs to no word. -/
theorem free_succ (hmode : modeAt src p ≠ .comment) (hb : src[p]? = some b) (hhash : b ≠ hash)
    (hident : isIdentByte b = false) : modeAt src (p + 1) = .free := by
  simp only [isIdentByte, Bool.or_eq_false_iff] at hident
  simp [modeAt_succ hb, Mode.next, hmode, hhash, hident.1, hident.2]

theorem free_blank (hmode : modeAt src p ≠ .comment) (hb : src[p]? = some b)
    (hblank : isBlankByte b = true) : modeAt src (p + 1) = .free := by
  have hbyte : b ≠ hash ∧ isIdentByte b = false := by
    simp only [isBlankByte, Bool.or_eq_true, decide_eq_true_eq] at hblank
    rcases hblank with ((rfl | rfl) | rfl) | rfl <;> decide
  exact free_succ hmode hb hbyte.1 hbyte.2

theorem loose_layoutLength (comment : Bool) (limit : Nat) (hl : src.size - p ≤ limit)
    (hmode : p < src.size → (modeAt src p = .comment ↔ comment = true))
    (hloose : comment = false → Loose src p) :
    Loose src (p + layoutLength src comment limit p) := by
  induction limit generalizing p comment with
  | zero =>
    intro b hb
    have hlt := lt_size hb
    simp only [layoutLength] at hlt
    omega
  | succ limit ih =>
    rw [layoutLength]
    cases hb : src[p]? with
    | none =>
      intro b hb'
      rw [Nat.add_zero, hb] at hb'
      cases hb'
    | some b =>
      have hmode := hmode (lt_size hb)
      have hstep (c : Bool) (hnext : modeAt src (p + 1) = .comment ↔ c = true)
          (hloose : c = false → modeAt src (p + 1) = .free) :
          Loose src (p + (layoutLength src c limit (p + 1) + 1)) := by
        rw [show p + (layoutLength src c limit (p + 1) + 1) =
          p + 1 + layoutLength src c limit (p + 1) by omega]
        exact ih c (by omega) (fun _ => hnext) fun hc => loose_of_free (hloose hc)
      have hnext := modeAt_succ hb
      simp only
      split
      · rename_i hcomment
        have hmode := hmode.mpr hcomment
        refine hstep _ ?_ ?_ <;> by_cases hfeed : b = lineFeed <;>
          simp [hnext, hmode, Mode.next, hfeed]
      · rename_i hcomment
        have hmode : modeAt src p ≠ .comment := fun h => hcomment (hmode.mp h)
        split
        · rename_i hblank
          have hfree := free_blank hmode hb hblank
          exact hstep _ (by simp [hfree]) fun _ => hfree
        · split
          · rename_i hhash
            exact hstep _ (by simp [hnext, Mode.next, hmode, hhash]) (by simp)
          · exact hloose (by simpa using hcomment)

theorem loose_layout (h : Loose src p) : Loose src (layoutEnd src p) :=
  loose_layoutLength false _ (Nat.le_refl _)
    (fun hlt => ⟨fun hcomment => absurd hcomment (h.clear hlt), nofun⟩) fun _ => h

/-- Behind a text of bytes that belong to no word. -/
theorem free_holds {cs : List Char}
    (hcs : ∀ c ∈ cs, UInt8.ofNat c.toNat ≠ hash ∧ isIdentByte (UInt8.ofNat c.toNat) = false)
    (hne : cs ≠ []) (hp : Loose src p) (h : holds src p cs = true) :
    modeAt src (p + cs.length) = .free := by
  induction cs generalizing p with
  | nil => exact absurd rfl hne
  | cons c cs ih =>
    simp only [holds, Bool.and_eq_true, decide_eq_true_eq] at h
    obtain ⟨hhash, hident⟩ := hcs c List.mem_cons_self
    have hfree := free_succ (hp _ h.1).1 h.1 hhash hident
    rw [List.length_cons, show p + (cs.length + 1) = p + 1 + cs.length by omega]
    by_cases hnil : cs = []
    · rw [hnil]
      exact hfree
    · exact ih (fun c hc => hcs c (List.mem_cons_of_mem _ hc)) hnil (loose_of_free hfree) h.2

theorem runEnd_stop (c : UInt8 → Bool) (src : ByteArray) (p : Nat) :
    (src[runEnd c src p]?).any c = false := by
  have hrun : ∀ limit p, src.size - p ≤ limit →
      (src[p + runLength c src limit p]?).any c = false := by
    intro limit
    induction limit with
    | zero =>
      intro p hl
      rw [getElem?_none (by omega)]
      rfl
    | succ limit ih =>
      intro p hl
      rw [runLength]
      split
      · rw [show p + (runLength c src limit (p + 1) + 1) =
          p + 1 + runLength c src limit (p + 1) by omega]
        exact ih (p + 1) (by omega)
      · exact (Bool.not_eq_true _).mp ‹_›
  exact hrun _ p (Nat.le_refl _)

/-- Behind the end of a word another token may start. -/
theorem loose_of_stop (hp : Clear src p) (h : (src[p]?).any isIdentByte = false) : Loose src p := by
  intro b hb
  rw [hb, Option.any_some] at h
  exact ⟨hp (lt_size hb), fun hident => absurd hident (by simp [h])⟩

theorem loose_word (hp : Loose src p) : Loose src (runEnd isIdentByte src p) :=
  loose_of_stop ((leveling src).goes_runEnd (c := isIdentByte) (fun _ => isFlat_of_isIdentByte)
    hp.clear).clear (runEnd_stop _ _ _)

theorem any_of_lt_runEnd {c : UInt8 → Bool} {i : Nat} (hp : p ≤ i) (h : i < runEnd c src p) :
    (src[i]?).any c = true := by
  have hrun : ∀ limit p, p ≤ i → i < p + runLength c src limit p → (src[i]?).any c = true := by
    intro limit
    induction limit with
    | zero =>
      intro p hp hi
      simp only [runLength] at hi
      omega
    | succ limit ih =>
      intro p hp hi
      rw [runLength] at hi
      split at hi
      · obtain rfl | hlt := Nat.eq_or_lt_of_le hp
        · assumption
        · exact ih (p + 1) hlt (by omega)
      · omega
  exact hrun _ p hp h

/-- Digits alone are no word. -/
theorem free_digits {i : Nat} (hfree : modeAt src p = .free) (hp : p ≤ i)
    (hi : i ≤ runEnd isDigitByte src p) : modeAt src i = .free := by
  induction i with
  | zero => rfl
  | succ i ih =>
    obtain heq | hlt := Nat.eq_or_lt_of_le hp
    · rw [← heq, hfree]
    · have hle := Nat.le_of_lt_succ hlt
      obtain ⟨b, hb, hdigit⟩ := exists_of_any (any_of_lt_runEnd hle hi)
      have hhash : b ≠ hash := by
        rintro rfl
        cases hdigit
      have hstart : isIdentStart b = false := by
        cases hs : isIdentStart b with
        | false => rfl
        | true => exact absurd hdigit (by simp [(start_byte hs).2.2.2])
      simp [modeAt_succ hb, Mode.next, ih hle (Nat.le_of_succ_le hi), hhash, hstart]

/-- At the offset stands the name, as a whole word. -/
def NameAt (src : ByteArray) (o : Int) (x : String) : Prop :=
  ∃ p : Nat, o = p ∧ modeAt src p = .free ∧ ∃ q, identAt src p = some (.ident p x, q)

/-- Names between `p` and `q`, one behind the other. A token may start at `q`. -/
structure Written (src : ByteArray) (p : Nat) (ms : List Mark) (q : Nat) : Prop where
  loose : Loose src q
  le : p ≤ q
  sorted : (ms.map Mark.offset).Pairwise (· < ·)
  bounds : ∀ m ∈ ms, (p : Int) ≤ m.offset ∧ m.offset < q
  names : ∀ m ∈ ms, NameAt src m.offset m.name

namespace Written

variable {ms ms' : List Mark}

theorem nil (h : Loose src q) (hle : p ≤ q) : Written src p [] q := ⟨h, hle, .nil, nofun, nofun⟩

theorem append (h : Written src p ms r) (h' : Written src r ms' q) :
    Written src p (ms ++ ms') q := by
  have hle := h.le
  have hle' := h'.le
  refine ⟨h'.loose, Nat.le_trans hle hle', ?_, fun m hm => ?_, fun m hm => ?_⟩
  · rw [List.map_append]
    refine List.pairwise_append.mpr ⟨h.sorted, h'.sorted, ?_⟩
    simp only [List.forall_mem_map]
    intro m hm m' hm'
    have hbounds := h.bounds m hm
    have hbounds' := h'.bounds m' hm'
    omega
  · rcases List.mem_append.mp hm with hm | hm
    · have hbounds := h.bounds m hm
      omega
    · have hbounds := h'.bounds m hm
      omega
  · rcases List.mem_append.mp hm with hm | hm
    · exact h.names m hm
    · exact h'.names m hm

theorem sublist (h : Written src p ms q) (hsub : ms'.Sublist ms) : Written src p ms' q :=
  ⟨h.loose, h.le, h.sorted.sublist (hsub.map _), fun m hm => h.bounds m (hsub.subset hm),
    fun m hm => h.names m (hsub.subset hm)⟩

end Written

/-- The names that `u` finds in the values of a pattern are written in the text of the match. -/
def Writes (src : ByteArray) (f : Nonterminal → Nat → Option (Tree × Nat)) (a : Pattern α)
    (u : α → List Mark) : Prop :=
  ∀ p x q, Peg.eval src f a p = some (x, q) → Loose src p → Written src p (u x) q

section Trees

variable {start : Nat} {params : List (Option Tree × Tree)} {result : Option Tree} {body : Tree}

theorem marks_functionTree (hparams : ∀ m ∈ params, ∃ o x, m.2 = .ident o x)
    (hresult : ∀ t, result = some t → ∃ o x, t = .ident o x) :
    (functionTree start params result body).marks =
      (params.map fun m => m.2.mark true) ++ body.marks := by
  have htags : (params.map tag ++ [result.getD (.ident start genericType)]).flatMap marks = [] := by
    refine marks_of_leaves fun t ht => ?_
    rcases List.mem_append.mp ht with ht | ht
    · obtain ⟨m, -, rfl⟩ := List.mem_map.mp ht
      exact ⟨_, _, rfl⟩
    · rw [List.mem_singleton.mp ht]
      cases result with
      | none => exact ⟨_, _, rfl⟩
      | some t => exact hresult t rfl
  have hleaves : (params.map Prod.snd).flatMap marks = [] := by
    refine marks_of_leaves fun t ht => ?_
    obtain ⟨m, hm, rfl⟩ := List.mem_map.mp ht
    exact hparams m hm
  unfold functionTree
  split <;> simp [Form.ownMarks, hleaves, htags]

theorem marks_foldl_apply (lhs : Tree) (rest : List ((BinaryOp × Nat) × Tree)) :
    (rest.foldl Pattern.apply lhs).marks = lhs.marks ++ rest.flatMap fun m => m.2.marks := by
  induction rest generalizing lhs with
  | nil => simp
  | cons m rest ih => simp [ih, Pattern.apply, binary, Form.ownMarks]

theorem marks_foldl_callTree (callee : Tree) (calls : List (Nat × List Tree)) :
    (calls.foldl callTree callee).marks = callee.marks ++ calls.flatMap fun m =>
      m.2.flatMap marks := by
  induction calls generalizing callee with
  | nil => simp
  | cons m calls ih => simp [ih, callTree, Form.ownMarks]

end Trees

namespace Writes

variable {a : Pattern α} {b : Pattern β} {u : α → List Mark} {w : β → List Mark}

theorem offset : Writes src f .offset fun _ => [] := by
  rintro p x q ⟨⟩ hp
  exact .nil hp (Nat.le_refl _)

theorem seq (ha : Writes src f a u) (hb : Writes src f b w) :
    Writes src f (.seq a b) fun m => u m.1 ++ w m.2 := by
  intro p x q h hp
  simp only [eval_seq, Option.bind_eq_some_iff, Option.map_eq_some_iff, Prod.mk.injEq] at h
  obtain ⟨⟨y, r⟩, hx, ⟨z, _⟩, hy, rfl, rfl⟩ := h
  have hleft := ha _ _ _ hx hp
  exact hleft.append (hb _ _ _ hy hleft.loose)

theorem alt {b : Pattern α} (ha : Writes src f a u) (hb : Writes src f b u) :
    Writes src f (.alt a b) u := by
  intro p x q h hp
  simp only [eval_alt, Option.or_eq_some_iff] at h
  obtain h | ⟨-, h⟩ := h
  · exact ha _ _ _ h hp
  · exact hb _ _ _ h hp

theorem opt (ha : Writes src f a u) : Writes src f (.opt a) fun o => (o.map u).getD [] := by
  intro p x q h hp
  cases hm : Peg.eval src f a p with
  | none =>
    simp only [eval_opt, hm, Option.map_none, Option.getD_none, Option.some.injEq,
      Prod.mk.injEq] at h
    obtain ⟨rfl, rfl⟩ := h
    exact .nil hp (Nat.le_refl _)
  | some m =>
    simp only [eval_opt, hm, Option.map_some, Option.getD_some, Option.some.injEq,
      Prod.mk.injEq] at h
    obtain ⟨rfl, rfl⟩ := h
    exact ha _ _ _ hm hp

theorem star (ha : Writes src f a u) : Writes src f (.star a) fun xs => xs.flatMap u := by
  have hrepeat : ∀ limit p, Loose src p →
      Written src p ((repeatUpTo (Peg.eval src f a) limit p).1.flatMap u)
        (repeatUpTo (Peg.eval src f a) limit p).2 := by
    intro limit
    induction limit with
    | zero => exact fun p hp => .nil hp (Nat.le_refl _)
    | succ limit ih =>
      intro p hp
      rw [repeatUpTo]
      cases hm : Peg.eval src f a p with
      | none => exact .nil hp (Nat.le_refl _)
      | some m =>
        have hfirst := ha _ _ _ hm hp
        exact hfirst.append (ih _ hfirst.loose)
  intro p x q h hp
  simp only [eval_star, Option.some.injEq] at h
  have hwritten := hrepeat (src.size + 1) p hp
  rwa [h] at hwritten

/-- What is known about the value of a match may help to see which names are in it. -/
theorem map_of_value {g : α → β} (ha : Writes src f a u)
    (hg : ∀ x, a.Value (fun _ _ => True) x → w (g x) = u x) : Writes src f (map g a) w := by
  intro p y q h hp
  simp only [eval_map, Option.map_eq_some_iff, Prod.mk.injEq] at h
  obtain ⟨⟨x, _⟩, h, rfl, rfl⟩ := h
  rw [hg x (value_of_eval (fun _ _ _ _ => trivial) a _ _ h)]
  exact ha _ _ _ h hp

theorem map {g : α → β} (ha : Writes src f a u) (hg : ∀ x, w (g x) = u x) :
    Writes src f (map g a) w :=
  ha.map_of_value fun x _ => hg x

/-- Names may be left out. -/
theorem thin {w : α → List Mark} (ha : Writes src f a u) (hw : ∀ x, (w x).Sublist (u x)) :
    Writes src f a w :=
  fun p x q h hp => (ha p x q h hp).sublist (hw x)

theorem fail : Writes src f (fail : Pattern α) u := by
  intro p x q h
  simp [Pattern.fail] at h

theorem space : Writes src f space fun _ => [] := by
  intro p x q h hp
  rw [eval_space] at h
  cases h
  exact .nil (loose_layout hp) (le_layoutEnd src p)

theorem lit (s : String) (hs : isMark s = true) : Writes src f (lit s) fun _ => [] := by
  intro p x q h hp
  rw [eval_lit] at h
  obtain ⟨hh, hstart, rfl⟩ := litAt_some h
  obtain ⟨hne, hchars⟩ := chars_of_isMark hs
  have hfree :=
    free_holds (fun c hc => ⟨(hchars c hc).2.2, (hchars c hc).1⟩) hne (hstart ▸ loose_layout hp) hh
  rw [String.length_toList] at hfree
  refine .nil (loose_layout (loose_of_free hfree)) ?_
  have hle := le_layoutEnd src p
  have hle' := le_layoutEnd src (x + s.length)
  omega

theorem word (s : String) (hs : isReserved s = true) : Writes src f (word s) fun _ => [] := by
  intro p x q h hp
  rw [eval_word] at h
  obtain ⟨⟨hh, hnext⟩, hstart, rfl⟩ := wordAt_some h
  have hlevel := (leveling src).goes_holds
    (List.all_eq_true.mpr fun c hc => isFlat_of_isIdentByte (reserved_ascii hs c hc).1) hh
    (hstart ▸ loose_layout hp).clear
  rw [String.length_toList] at hlevel
  refine .nil (loose_layout (loose_of_stop hlevel.clear hnext)) ?_
  have hle := le_layoutEnd src p
  have hle' := le_layoutEnd src (x + s.length)
  omega

/-- An identifier stands where it is read, and its name is that of the tree. -/
theorem ident (declares : Bool) : Writes src f ident fun t => [t.mark declares] := by
  intro p t q h hp
  rw [eval_ident] at h
  have hat := h
  simp only [identAt, Option.ite_none_right_eq_some, Option.map_eq_some_iff, Prod.mk.injEq] at hat
  obtain ⟨hany, x, -, rfl, rfl⟩ := hat
  obtain ⟨b, hb, hstart⟩ := exists_of_any hany
  have hloose := loose_layout hp
  have hfree := (hloose b hb).2 (isIdentByte_of_isIdentStart b hstart)
  have hlt : layoutEnd src p < runEnd isIdentByte src (layoutEnd src p) := by
    rw [runEnd_of_any (by simp [hb, isIdentByte_of_isIdentStart b hstart])]
    exact Nat.le_add_right _ _
  have hle := le_layoutEnd src p
  have hle' := le_layoutEnd src (runEnd isIdentByte src (layoutEnd src p))
  refine ⟨loose_layout (loose_word hloose), by omega, List.pairwise_singleton _ _, ?_, ?_⟩
  · simp only [List.mem_singleton, forall_eq]
    show (p : Int) ≤ (layoutEnd src p : Int) ∧ (layoutEnd src p : Int) < _
    omega
  · simp only [List.mem_singleton, forall_eq]
    refine ⟨layoutEnd src p, rfl, hfree,
      layoutEnd src (runEnd isIdentByte src (layoutEnd src p)), ?_⟩
    have hsettled := layoutEnd_of_settled (settled_layoutEnd src p)
    rw [identAt, hsettled]
    rwa [identAt] at h

theorem integer : Writes src f integer marks := by
  intro p t q h hp
  rw [eval_integer, integerAt] at h
  simp only [word?_asciiText, Option.map_eq_some_iff, Prod.mk.injEq,
    Option.ite_none_right_eq_some] at h
  obtain ⟨w, ⟨hany, -⟩, rfl, rfl⟩ := h
  obtain ⟨b, hb, hdigit⟩ := exists_of_any hany
  have hfree := (loose_layout hp b hb).2 (by simp [isIdentByte, hdigit])
  rw [marks_int]
  refine .nil
    (loose_layout (loose_of_free (free_digits hfree (Nat.le_add_right _ _) (Nat.le_refl _)))) ?_
  have hle := le_layoutEnd src p
  have hle' := le_layoutEnd src (runEnd isDigitByte src (layoutEnd src p))
  have hrun : layoutEnd src p ≤ runEnd isDigitByte src (layoutEnd src p) := Nat.le_add_right _ _
  omega

theorem type : Writes src f type fun _ => [] :=
  ((word _ (by decide)).map fun _ => rfl).alt ((word _ (by decide)).map fun _ => rfl)

theorem parens (ha : Writes src f a u) : Writes src f (parens a) fun m => u m.2 :=
  ((lit _ (by decide)).seq (ha.seq (lit _ (by decide)))).map fun _ => by simp

theorem list (ha : Writes src f a u) : Writes src f (Pattern.list a) fun xs => xs.flatMap u := by
  refine (opt (ha.seq (star ((lit _ (by decide)).seq ha)))).map fun o => ?_
  cases o with
  | none => rfl
  | some l => simp [List.flatMap_map]

theorem operator (ops : List BinaryOp) : Writes src f (operator ops) fun _ => [] := by
  induction ops with
  | nil => exact fail
  | cons op ops ih => exact ((lit _ (isMark_symbol op)).map fun _ => rfl).alt ih

theorem opt_silent (ha : Writes src f a fun _ => []) : Writes src f (.opt a) fun _ => [] :=
  ha.opt.thin fun _ => List.nil_sublist _

section Rules

variable (hf : ∀ n p m, f n p = some m → Loose src p → Written src p m.1.marks m.2)

include hf

theorem rule (n : Nonterminal) : Writes src f (.rule n) marks :=
  fun p x q h hp => hf n p (x, q) h hp

theorem initializer : Writes src f Pattern.initializer marks :=
  ((lit _ (by decide)).seq ((rule hf _).seq (lit _ (by decide)))).map fun _ => by simp

theorem wordExpr (s : String) (hs : isReserved s = true) {g : Form}
    (hg : ∀ ts, g.ownMarks ts = []) : Writes src f (Pattern.wordExpr s g) marks :=
  ((word s hs).seq ((rule hf _).seq (lit _ (by decide)))).map fun _ => by simp [hg]

theorem guardedBlock (s : String) (hs : isReserved s = true) :
    Writes src f (Pattern.guardedBlock s) fun m => m.2.1.marks ++ m.2.2.marks :=
  ((word s hs).seq ((parens (rule hf _)).seq (rule hf _))).map fun _ => by simp

theorem leftAssoc (operand : Nonterminal) (ops : List BinaryOp) :
    Writes src f (Pattern.leftAssoc operand ops) marks :=
  ((rule hf _).seq ((operator ops).seq (rule hf _)).star).map fun _ => by simp [marks_foldl_apply]

/-- The names in a function are those of its parameters and of its body. -/
theorem function : Writes src f (Grammar.syntaxOf .function) marks := by
  have hresult : Writes src f (.opt (Pattern.map Prod.snd (.seq (Pattern.lit "->") Pattern.type)))
      fun _ => [] :=
    opt_silent (((lit _ (by decide)).seq type).map fun _ => rfl)
  refine ((word _ (by decide)).seq ((parens (list (opt_silent type |>.seq (ident true)))).seq
    (hresult.seq (rule hf _)))).map_of_value ?_
  rintro m ⟨-, hparams, htype, -⟩
  rw [marks_functionTree
    (fun x hx => (isIdent_of_value (value_list (value_parens hparams) x hx).2).leaf) fun t ht => ?_]
  · simp [List.map_eq_flatMap]
  · obtain ⟨y, ⟨-, hy⟩, rfl⟩ := (value_map _ _ _).mp (htype t ht)
    exact (isType_of_value hy).leaf

/-- Every rule writes the names of its tree, if the rules that it applies do. -/
theorem syntaxOf (n : Nonterminal) : Writes src f (Grammar.syntaxOf n) marks := by
  cases n with
  | program =>
    exact (offset.seq (space.seq ((rule hf _).star.seq space))).map fun _ => by simp [Form.ownMarks]
  | statement =>
    exact (rule hf _).alt
      ((rule hf _).alt ((rule hf _).alt ((rule hf _).alt ((rule hf _).alt ((rule hf _).alt
      ((rule hf _).alt (rule hf _)))))))
  | declare =>
    have hhead : Writes src f
        (.alt (Pattern.map (fun p : Nat => ((p : Int), none)) (Pattern.word "var"))
        (Pattern.map (fun t => (t.offset?.getD 0, some t)) Pattern.type)) fun _ => [] :=
      ((word _ (by decide)).map fun _ => rfl).alt (type.map fun _ => rfl)
    refine (hhead.seq ((ident true).seq (initializer hf))).map_of_value ?_
    rintro m ⟨hm, hx, -⟩
    have htype : m.1.2.toList.flatMap marks = [] := by
      refine marks_of_leaves fun t ht => ?_
      obtain ⟨x, -, hx⟩ | ⟨u, hu, hx⟩ := hm <;> obtain hx := Option.some.inj hx
      · rw [← hx] at ht
        cases ht
      · rw [← hx, Option.toList_some, List.mem_singleton] at ht
        exact ht ▸ (isType_of_value hu).leaf
    simp [htype, Form.ownMarks, marks_of_leaf (isIdent_of_value hx).leaf]
  | assign =>
    refine ((ident false).seq (initializer hf)).map_of_value ?_
    rintro m ⟨hx, -⟩
    simp [Form.ownMarks, marks_of_leaf (isIdent_of_value hx).leaf]
  | print => exact wordExpr hf _ (by decide) fun _ => rfl
  | ret => exact wordExpr hf _ (by decide) fun _ => rfl
  | ifElse =>
    exact ((guardedBlock hf _ (by decide)).seq ((word _ (by decide)).seq (rule hf _))).map
        fun _ => by
      simp [Form.ownMarks]
  | ifThen => exact (guardedBlock hf _ (by decide)).map fun _ => by simp [Form.ownMarks]
  | whileDo => exact (guardedBlock hf _ (by decide)).map fun _ => by simp [Form.ownMarks]
  | exprStatement => exact ((rule hf _).seq (lit _ (by decide))).map fun _ => by simp
  | block =>
    have hstatements : Writes src f (.rule .program) fun t => t.children.flatMap marks :=
      (rule hf _).thin fun t => t.marks_children
    exact ((lit _ (by decide)).seq (hstatements.seq (lit _ (by decide)))).map fun _ => by
      simp [Form.ownMarks]
  | expr => exact leftAssoc hf _ _
  | and => exact leftAssoc hf _ _
  | add => exact leftAssoc hf _ _
  | mul => exact leftAssoc hf _ _
  | not =>
    exact (((lit _ (by decide)).seq (rule hf _)).map
      fun _ => by simp [Form.ownMarks]).alt (rule hf _)
  | compare =>
    refine ((rule hf _).seq ((operator _).seq (rule hf _)).opt).map fun m => ?_
    cases m.2 <;> simp [Pattern.apply, binary, Form.ownMarks]
  | unary =>
    exact (((lit _ (by decide)).seq (rule hf _)).map
      fun _ => by simp [binary, Form.ownMarks]).alt (rule hf _)
  | call =>
    exact ((rule hf _).seq (parens (list (rule hf _))).star).map fun _ => by
      simp [marks_foldl_callTree]
  | primary =>
    refine ((parens (rule hf _)).map fun _ => rfl).alt
      ((rule hf _).alt (((ident false).map_of_value fun t ht => ?_).alt integer))
    simp [Form.ownMarks, marks_of_leaf (isIdent_of_value ht).leaf]
  | function => exact function hf

end Rules

end Writes

/-- The names of a tree are written in the text that it is read from. -/
theorem written_of_read {n : Nonterminal} {m : Tree × Nat} (h : read src n p = some m)
    (hp : Loose src p) : Written src p m.1.marks m.2 :=
  ranking.match_of_read (Q := fun _ p m => Loose src p → Written src p m.1.marks m.2)
    (fun _ hf n p m h => Writes.syntaxOf hf n p m.1 m.2 h) h hp

theorem written_of_parse {src : String} {t : Tree} (h : parseProgram src = .ok t) :
    Written src.toUTF8 0 t.marks src.utf8ByteSize :=
  written_of_read (parseProgram_ok.mp h) (loose_of_free rfl)

/-- No two names of a program stand at the same offset. -/
theorem nodup_marks {src : String} {t : Tree} (h : parseProgram src = .ok t) :
    (t.marks.map Mark.offset).Nodup := (written_of_parse h).sorted.imp Int.ne_of_lt

/-- No two uses of a program stand at the same offset. -/
theorem nodup_useOffsets {src : String} {t : Tree} (h : parseProgram src = .ok t) :
    t.useOffsets.Nodup :=
  (nodup_marks h).sublist t.useOffsets_sublist

end ClosureLang.Grammar
