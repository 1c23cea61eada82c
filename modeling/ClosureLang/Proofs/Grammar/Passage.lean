import ClosureLang.Proofs.Grammar.Derivations

/-! Relations between the offsets where matches start and where they end. One that holds for layout,
for single bytes of tokens and around brackets holds for every phrase that is derived. -/
namespace ClosureLang.Grammar

/-- How many more brackets a byte opens than it closes. -/
def bracket (b : UInt8) : Int :=
  if b = 0x7b ∨ b = 0x28 then 1 else if b = 0x7d ∨ b = 0x29 then -1 else 0

/-- The bytes of words, numbers and marks other than brackets. -/
def isFlat (b : UInt8) : Bool :=
  isIdentByte b || "=;,!<>+-*/&|".toList.any fun c => b = UInt8.ofNat c.toNat

/-- An opening bracket, and the one that closes it. -/
def Paired (o c : UInt8) : Prop := o = 0x7b ∧ c = 0x7d ∨ o = 0x28 ∧ c = 0x29

theorem bracket_of_paired {o c : UInt8} (h : Paired o c) : bracket o = 1 ∧ bracket c = -1 := by
  rcases h with ⟨rfl, rfl⟩ | ⟨rfl, rfl⟩ <;> decide

/-- A relation between the offsets in front of matches and behind them. -/
structure Passage (src : ByteArray) where
  Goes : Nat → Nat → Prop
  refl {p : Nat} : Goes p p
  trans {p q r : Nat} : Goes p q → Goes q r → Goes p r
  layout {p : Nat} : Goes p (layoutEnd src p)
  flat {p : Nat} {b : UInt8} : src[p]? = some b → isFlat b = true → Goes p (p + 1)
  bracketed {p q : Nat} {o c : UInt8} : src[p]? = some o → Paired o c → Goes (p + 1) q →
      src[q]? = some c →
    Goes p (q + 1)

variable {src : ByteArray} {P : Passage src} {p q r : Nat}

theorem isFlat_of_isIdentByte {b : UInt8} (h : isIdentByte b = true) : isFlat b = true := by
  rw [isFlat, h, Bool.true_or]

/-- A text whose bytes are all flat. -/
def isFlatText (s : String) : Bool := s.toList.all fun c => isFlat (UInt8.ofNat c.toNat)

theorem isFlatText_of_isReserved {w : String} (h : isReserved w = true) : isFlatText w = true :=
  List.all_eq_true.mpr fun c hc => isFlat_of_isIdentByte (reserved_ascii h c hc).1

theorem isFlatText_symbol (op : BinaryOp) : isFlatText op.symbol = true := by cases op <;> decide

namespace Passage

theorem goes_holds {cs : List Char} (hcs : cs.all (fun c => isFlat (UInt8.ofNat c.toNat)) = true)
    (h : holds src p cs = true) : P.Goes p (p + cs.length) := by
  induction cs generalizing p with
  | nil => exact P.refl
  | cons c cs ih =>
    simp only [List.all_cons, Bool.and_eq_true] at hcs
    simp only [holds, Bool.and_eq_true, decide_eq_true_eq] at h
    rw [List.length_cons, show p + (cs.length + 1) = p + 1 + cs.length by omega]
    exact P.trans (P.flat h.1 hcs.1) (ih hcs.2 h.2)

theorem goes_runEnd {c : UInt8 → Bool} (hc : ∀ b, c b = true → isFlat b = true) :
    P.Goes p (runEnd c src p) := by
  have hrun : ∀ limit p, P.Goes p (p + runLength c src limit p) := by
    intro limit
    induction limit with
    | zero => exact fun p => P.refl
    | succ limit ih =>
      intro p
      rw [runLength]
      split
      · rename_i hany
        obtain ⟨b, hb, hcb⟩ := exists_of_any hany
        rw [show p + (runLength c src limit (p + 1) + 1) =
          p + 1 + runLength c src limit (p + 1) by omega]
        exact P.trans (P.flat hb (hc b hcb)) (ih _)
      · exact P.refl
  exact hrun _ _

/-- A token with the layout around it. -/
theorem goes_token (h : P.Goes (layoutEnd src p) q) : P.Goes p (layoutEnd src q) :=
  P.trans P.layout (P.trans h P.layout)

variable {s : String} {o : Nat} {t : Tree}

theorem goes_litAt (hs : isFlatText s = true) (h : litAt src s p = some (o, q)) : P.Goes p q := by
  obtain ⟨hh, hstart, rfl⟩ := litAt_some h
  have htoken := P.goes_holds hs hh
  rw [String.length_toList, hstart] at htoken
  rw [hstart]
  exact P.goes_token htoken

theorem goes_wordAt (hs : isReserved s = true) (h : wordAt src s p = some (o, q)) : P.Goes p q := by
  obtain ⟨⟨hh, -⟩, hstart, rfl⟩ := wordAt_some h
  have htoken := P.goes_holds (isFlatText_of_isReserved hs) hh
  rw [String.length_toList, hstart] at htoken
  rw [hstart]
  exact P.goes_token htoken

theorem goes_identAt (h : identAt src p = some (t, q)) : P.Goes p q := by
  simp only [identAt, Option.ite_none_right_eq_some, Option.map_eq_some_iff, Prod.mk.injEq] at h
  obtain ⟨-, _, -, -, rfl⟩ := h
  exact P.goes_token (P.goes_runEnd fun _ => isFlat_of_isIdentByte)

theorem goes_integerAt (h : integerAt src p = some (t, q)) : P.Goes p q := by
  simp only [integerAt, Option.map_eq_some_iff, Prod.mk.injEq] at h
  obtain ⟨_, -, -, rfl⟩ := h
  exact P.goes_token (P.goes_runEnd fun b hb => isFlat_of_isIdentByte (by simp [isIdentByte, hb]))

theorem goes_typeAt (h : typeAt src p = some (t, q)) : P.Goes p q := by
  simp only [typeAt, Option.or_eq_some_iff, Option.map_eq_some_iff, Prod.mk.injEq] at h
  obtain ⟨⟨_, _⟩, h, -, rfl⟩ | ⟨-, ⟨_, _⟩, h, -, rfl⟩ := h
  · exact goes_wordAt rfl h
  · exact goes_wordAt rfl h

/-- What stands between two brackets. -/
theorem goes_between {s t : String} {a b : Char} {i j u : Nat} (hs : s.toList = [a])
    (ht : t.toList = [b]) (hpair : Paired (UInt8.ofNat a.toNat) (UInt8.ofNat b.toNat))
    (hopen : litAt src s p = some (i, r)) (h : P.Goes r u) (hclose : litAt src t u = some (j, q)) :
    P.Goes p q := by
  obtain ⟨hh, hi, rfl⟩ := litAt_some hopen
  obtain ⟨hh', hj, rfl⟩ := litAt_some hclose
  have hlength : s.length = 1 := by rw [← String.length_toList, hs]; rfl
  have hlength' : t.length = 1 := by rw [← String.length_toList, ht]; rfl
  rw [hs] at hh
  rw [ht] at hh'
  rw [hlength] at h
  rw [hlength']
  have hinner : P.Goes (i + 1) j := by
    rw [hj]
    exact P.goes_token h
  have hmatch := P.bracketed (holds_head hh) hpair hinner (holds_head hh')
  rw [hi] at hmatch
  exact P.goes_token hmatch

theorem goes_parens {i j u : Nat} (hopen : litAt src "(" p = some (i, r)) (h : P.Goes r u)
    (hclose : litAt src ")" u = some (j, q)) : P.Goes p q :=
  goes_between rfl rfl (.inr ⟨rfl, rfl⟩) hopen h hclose

/-- A relation that holds around tokens and brackets holds around phrases. -/
theorem goes_of_derives {φ : Phrase} (h : Derives src φ p q) : P.Goes p q := by
  induction h with
  | program _ ih => exact P.trans P.layout (P.trans ih P.layout)
  | noStatements | chainEnd | callsEnd | noItems | itemsEnd => exact P.refl
  | statements _ _ ih ih' => exact P.trans ih ih'
  | kind _ _ ih => exact ih
  | declare hword hident _ ih =>
    exact P.trans (goes_wordAt rfl hword) (P.trans (goes_identAt hident) ih)
  | declareTyped htype hident _ ih =>
    exact P.trans (goes_typeAt htype) (P.trans (goes_identAt hident) ih)
  | assign hident _ ih => exact P.trans (goes_identAt hident) ih
  | value hequals _ hend ih =>
    exact P.trans (goes_litAt rfl hequals) (P.trans ih (goes_litAt rfl hend))
  | said hword hreserved _ hend ih =>
    exact P.trans (goes_wordAt hreserved hword) (P.trans ih (goes_litAt rfl hend))
  | print _ ih => exact ih
  | ret _ ih => exact ih
  | guarded hword hreserved hopen _ hclose _ ih ih' =>
    exact P.trans (goes_wordAt hreserved hword) (P.trans (goes_parens hopen ih hclose) ih')
  | ifThen _ ih => exact ih
  | ifElse _ hword _ ih ih' => exact P.trans ih (P.trans (goes_wordAt rfl hword) ih')
  | whileDo _ ih => exact ih
  | exprStatement _ hend ih => exact P.trans ih (goes_litAt rfl hend)
  | block hopen _ _ hclose ih => exact goes_between rfl rfl (.inl ⟨rfl, rfl⟩) hopen ih hclose
  | leftAssoc _ _ _ ih ih' => exact P.trans ih ih'
  | chain _ _ hop _ _ ih ih' =>
    exact P.trans (goes_litAt (isFlatText_symbol _) hop) (P.trans ih ih')
  | compare _ _ hop _ ih ih' =>
    exact P.trans ih (P.trans (goes_litAt (isFlatText_symbol _) hop) ih')
  | not hsign _ ih => exact P.trans (goes_litAt rfl hsign) ih
  | minus hsign _ ih => exact P.trans (goes_litAt rfl hsign) ih
  | call _ _ ih ih' => exact P.trans ih ih'
  | calls hopen _ hclose _ ih ih' => exact P.trans (goes_parens hopen ih hclose) ih'
  | paren hopen _ hclose ih => exact goes_parens hopen ih hclose
  | lookup hident => exact goes_identAt hident
  | integer hint => exact goes_integerAt hint
  | function _ hword hopen _ hclose hresult _ ih ih' =>
    refine P.trans (goes_wordAt rfl hword) (P.trans (goes_parens hopen ih hclose) (P.trans ?_ ih'))
    rcases hresult with ⟨-, rfl⟩ | ⟨k, l, t, -, harrow, htype⟩
    · exact P.refl
    · exact P.trans (goes_litAt rfl harrow) (goes_typeAt htype)
  | argument _ ih => exact ih
  | parameter hident => exact goes_identAt hident
  | typedParameter htype hident => exact P.trans (goes_typeAt htype) (goes_identAt hident)
  | items _ _ ih ih' => exact P.trans ih ih'
  | moreItems hcomma _ _ ih ih' => exact P.trans (goes_litAt rfl hcomma) (P.trans ih ih')

/-- Every match keeps to the relation. -/
theorem goes_of_read (P : Passage src) {n : Nonterminal} {m : Tree × Nat} (hp : p ≤ src.size)
    (h : read src n p = some m) : P.Goes p m.2 := goes_of_derives (derives_of_read hp h)

end Passage

end ClosureLang.Grammar
