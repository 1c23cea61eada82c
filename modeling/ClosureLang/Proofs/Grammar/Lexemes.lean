import ClosureLang.Proofs.Grammar.Syntax

/-! What tokens, blanks and comments come to, in terms of the bytes of the text. -/
namespace ClosureLang.Grammar

open Peg Pattern

variable {src : ByteArray} {f : Nonterminal → Nat → Option (Tree × Nat)} {p q : Nat}

theorem toList_loop_eq (b : ByteArray) (i : Nat) (acc : List UInt8) :
    ByteArray.toList.loop b i acc = acc.reverse ++ b.data.toList.drop i := by
  induction h : b.size - i generalizing i acc with
  | zero =>
    rw [ByteArray.toList.loop, if_neg (by omega), List.drop_eq_nil_of_le (by simp; omega)]
    simp
  | succ n ih =>
    have hlt : i < b.data.toList.length := by simp; omega
    rw [ByteArray.toList.loop, if_pos (by omega), ih (i + 1) _ (by omega),
      List.drop_eq_getElem_cons hlt]
    simp [ByteArray.get!, getElem!_pos b.data i (by simpa using hlt)]

theorem toList_eq (b : ByteArray) : b.toList = b.data.toList := by
  simp [ByteArray.toList, toList_loop_eq]

theorem getElem?_eq (src : ByteArray) (p : Nat) : src[p]? = src.data.toList[p]? := by
  simp [getElem?_def, ByteArray.getElem_eq_getElem_data]

theorem take_succ {b : UInt8} (h : src[p]? = some b) :
    src.data.toList.take (p + 1) = src.data.toList.take p ++ [b] := by
  rw [getElem?_eq] at h
  rw [List.take_add_one, h]
  rfl

theorem drop_eq_cons {b : UInt8} (h : src[p]? = some b) :
    src.data.toList.drop p = b :: src.data.toList.drop (p + 1) := by
  rw [getElem?_eq] at h
  obtain ⟨hlt, rfl⟩ := List.getElem?_eq_some_iff.mp h
  exact List.drop_eq_getElem_cons hlt

theorem asciiText_eq (src : ByteArray) (p n : Nat) :
    asciiText src p (p + n) =
      ((src.data.toList.drop p).take n).map fun b => Char.ofNat b.toNat := by
  simp [asciiText, toList_eq, Array.toList_extract, List.extract_eq_take_drop]

theorem getElem?_none (hp : src.size ≤ p) : src[p]? = none := by simp [hp]

theorem lt_size {b : UInt8} (h : src[p]? = some b) : p < src.size := (getElem?_eq_some_iff.mp h).1

theorem exists_of_any {c : UInt8 → Bool} (h : (src[p]?).any c = true) :
    ∃ b, src[p]? = some b ∧ c b = true := by
  cases hb : src[p]? <;> simp_all

@[simp] theorem eval_map {α β : Type} (g : α → β) (a : Pattern α) :
    eval src f (map g a) p = (eval src f a p).map fun m => (g m.1, m.2) := by
  cases h : eval src f a p <;> simp [map, h]

theorem eval_byte {c : UInt8 → Bool} {b : UInt8} (h : src[p]? = some b) (hb : c b = true) :
    eval src f (.byte c : Pattern UInt8) p = some (b, p + 1) := by
  simp [eval_byte_eq, h, hb]

theorem eval_byte_none {c : UInt8 → Bool} (h : (src[p]?).any c = false) :
    eval src f (.byte c : Pattern UInt8) p = none := by
  simp only [eval_byte_eq]
  cases hb : src[p]? with
  | none => rfl
  | some b => simp_all

theorem eval_text (cs : List Char) :
    eval src f (text cs) p = if holds src p cs then some ((), p + cs.length) else none := by
  induction cs generalizing p with
  | nil => simp [text, eval, holds]
  | cons c cs ih =>
    obtain hb | ⟨b, hb⟩ := Option.eq_none_or_eq_some (src[p]?)
    · simp [text, eval, holds, hb]
    · by_cases hc : b = UInt8.ofNat c.toNat
      · by_cases hh : holds src (p + 1) cs <;> simp [text, eval, ih, holds, hb, hc, hh]
        omega
      · simp [text, eval, holds, hb, hc]

theorem runLength_eq_of_le (c : UInt8 → Bool) (limit : Nat) (hl : src.size - p ≤ limit) :
    runLength c src limit p = runLength c src (src.size - p) p := by
  induction limit generalizing p with
  | zero => rw [Nat.le_zero.mp hl]
  | succ limit ih =>
    cases hb : src[p]? with
    | none =>
      have hp : src.size ≤ p := by simpa using hb
      simp [runLength, hb, Nat.sub_eq_zero_of_le hp]
    | some b =>
      have hp := lt_size hb
      rw [show src.size - p = (src.size - (p + 1)) + 1 by omega]
      simp only [runLength, ih (p := p + 1) (by omega)]

theorem runEnd_of_any {c : UInt8 → Bool} (h : (src[p]?).any c = true) :
    runEnd c src p = runEnd c src (p + 1) := by
  obtain ⟨b, hb, hc⟩ := exists_of_any h
  have hp := lt_size hb
  rw [runEnd, show src.size - p = (src.size - (p + 1)) + 1 by omega, runLength]
  simp [hb, hc, runEnd]
  omega

theorem runLength_le (c : UInt8 → Bool) (limit : Nat) : runLength c src limit p ≤ limit := by
  induction limit generalizing p with
  | zero => simp [runLength]
  | succ limit ih =>
    unfold runLength
    split
    · exact Nat.succ_le_succ ih
    · omega

theorem runEnd_le (c : UInt8 → Bool) (hp : p ≤ src.size) : runEnd c src p ≤ src.size := by
  have : runLength c src (src.size - p) p ≤ src.size - p := runLength_le c (src.size - p)
  simp only [runEnd]
  omega

/-- A repeated class of bytes takes the whole run. -/
theorem repeatUpTo_byte (c : UInt8 → Bool) (limit : Nat) :
    repeatUpTo (eval src f (.byte c : Pattern UInt8)) limit p =
      ((src.data.toList.drop p).take (runLength c src limit p), p + runLength c src limit p) := by
  induction limit generalizing p with
  | zero => simp [repeatUpTo, runLength]
  | succ limit ih =>
    cases h : (src[p]?).any c with
    | false => simp [repeatUpTo, runLength, eval_byte_none h, h]
    | true =>
      obtain ⟨b, hb, hc⟩ := exists_of_any h
      simp only [repeatUpTo, eval_byte hb hc, ih, runLength, h, drop_eq_cons hb]
      simp
      omega

theorem eval_star_byte (c : UInt8 → Bool) :
    eval src f (.star (.byte c) : Pattern (List UInt8)) p =
      some ((src.data.toList.drop p).take (runLength c src (src.size - p) p), runEnd c src p) := by
  change some (repeatUpTo (eval src f (.byte c : Pattern UInt8)) (src.size + 1) p) = _
  have hl : src.size - p ≤ src.size + 1 := by omega
  rw [repeatUpTo_byte, runLength_eq_of_le c (src.size + 1) hl, runEnd]

/-- A comment runs to the next line feed, and layout goes on there. -/
theorem layoutLength_comment (limit : Nat) :
    layoutLength src true limit p =
      runLength (· ≠ lineFeed) src limit p +
        layoutLength src false (limit - runLength (· ≠ lineFeed) src limit p)
          (p + runLength (· ≠ lineFeed) src limit p) := by
  induction limit generalizing p with
  | zero => simp [layoutLength, runLength]
  | succ limit ih =>
    cases hb : src[p]? with
    | none => simp [layoutLength, runLength, hb]
    | some b =>
      by_cases hf : b = lineFeed
      · subst hf
        simp [layoutLength, runLength, hb, show isBlankByte lineFeed = true from rfl]
      · simp only [layoutLength, runLength, hb, hf, ne_eq, not_false_eq_true, decide_true, if_true,
          ih, Option.any_some, Nat.add_sub_add_right]
        rw [show p + (runLength (fun x => decide ¬x = lineFeed) src limit (p + 1) + 1) =
          p + 1 + runLength (fun x => decide ¬x = lineFeed) src limit (p + 1) by omega]
        omega

/-- One blank or comment. -/
def layoutItem : Pattern Unit :=
  .alt (map (fun _ => ()) (.byte isBlankByte))
    (map (fun _ => ()) (.seq (.byte (· = hash)) (.star (.byte (· ≠ lineFeed)))))

theorem repeatUpTo_layoutItem (limit : Nat) (hp : p ≤ src.size) (hl : src.size - p < limit) :
    (repeatUpTo (eval src f layoutItem) limit p).2 = layoutEnd src p := by
  induction limit generalizing p with
  | zero => omega
  | succ limit ih =>
    cases hb : src[p]? with
    | none =>
      have hp' : src.size ≤ p := by simpa using hb
      simp [repeatUpTo, layoutItem, eval, hb, layoutEnd, Nat.sub_eq_zero_of_le hp', layoutLength]
    | some b =>
      have hlt := lt_size hb
      have hsize : src.size - p = (src.size - (p + 1)) + 1 := by omega
      by_cases hblank : isBlankByte b
      · have hstep : eval src f layoutItem p = some ((), p + 1) := by
          simp [layoutItem, eval, hb, hblank]
        simp only [repeatUpTo, hstep, ih hlt (by omega)]
        rw [layoutEnd, layoutEnd, hsize, layoutLength]
        simp [hb, hblank]
        omega
      · by_cases hhash : b = hash
        · subst hhash
          have hstep : eval src f layoutItem p = some ((), runEnd (· ≠ lineFeed) src (p + 1)) := by
            have hc : eval src f (.byte (· = hash) : Pattern UInt8) p = some (hash, p + 1) :=
              eval_byte hb (by simp)
            rw [layoutItem, eval, eval_map, eval_map, eval_byte_none (by simp [hb, hblank]), eval,
              hc, Option.bind_some, eval_star_byte]
            rfl
          have hend : runEnd (· ≠ lineFeed) src (p + 1) ≤ src.size := runEnd_le _ hlt
          have hge : p + 1 ≤ runEnd (· ≠ lineFeed) src (p + 1) := Nat.le_add_right _ _
          simp only [repeatUpTo, hstep, ih hend (by omega)]
          rw [layoutEnd, layoutEnd, hsize, layoutLength]
          simp only [hb, hblank, Bool.false_eq_true, if_false, if_true,
            layoutLength_comment, runEnd]
          simp only [Nat.sub_sub]
          omega
        · have hstep : eval src f layoutItem p = none := by
            simp [layoutItem, eval, hb, hblank, hhash]
          simp only [repeatUpTo, hstep]
          rw [layoutEnd, hsize, layoutLength]
          simp [hb, hblank, hhash]

@[simp] theorem eval_space : eval src f space p = some ((), layoutEnd src p) := by
  change some ((), (repeatUpTo (eval src f layoutItem) (src.size + 1) p).2) = _
  by_cases hp : p ≤ src.size
  · rw [repeatUpTo_layoutItem (src.size + 1) hp (by omega)]
  · have hnone : src[p]? = none := getElem?_none (by omega)
    have hsub : src.size - p = 0 := by omega
    simp [repeatUpTo, layoutItem, eval_byte_none, hnone, layoutEnd, hsub, layoutLength]

theorem layoutLength_le (c : Bool) (limit : Nat) : layoutLength src c limit p ≤ limit := by
  induction limit generalizing p c with
  | zero => simp [layoutLength]
  | succ limit ih =>
    unfold layoutLength
    split
    · omega
    · split
      · exact Nat.succ_le_succ (ih _)
      · split
        · exact Nat.succ_le_succ (ih _)
        · split
          · exact Nat.succ_le_succ (ih _)
          · omega

theorem le_layoutEnd (src : ByteArray) (p : Nat) : p ≤ layoutEnd src p := Nat.le_add_right _ _

theorem layoutEnd_le (hp : p ≤ src.size) : layoutEnd src p ≤ src.size := by
  have : layoutLength src false (src.size - p) p ≤ src.size - p :=
    layoutLength_le false (src.size - p)
  simp only [layoutEnd]
  omega

/-- Neither a blank nor a comment stands at `p`. -/
def Settled (src : ByteArray) (p : Nat) : Prop :=
  ∀ b, src[p]? = some b → isBlankByte b = false ∧ b ≠ hash

theorem settled_layoutLength (c : Bool) (limit : Nat) (hl : src.size - p ≤ limit) :
    Settled src (p + layoutLength src c limit p) := by
  induction limit generalizing p c with
  | zero =>
    intro b hb
    have := lt_size hb
    simp [layoutLength] at this
    omega
  | succ limit ih =>
    have hnext (c : Bool) : Settled src (p + (layoutLength src c limit (p + 1) + 1)) := by
      have := ih (p := p + 1) c (by omega)
      rwa [Nat.add_right_comm] at this
    cases hb : src[p]? with
    | none => simp [layoutLength, hb, Settled]
    | some b =>
      simp only [layoutLength, hb]
      split
      · exact hnext _
      · split
        · exact hnext _
        · split
          · exact hnext _
          · intro b' hb'
            simp only [Nat.add_zero, hb, Option.some.injEq] at hb'
            subst hb'
            simp_all

theorem settled_layoutEnd (src : ByteArray) (p : Nat) : Settled src (layoutEnd src p) :=
  settled_layoutLength false _ (Nat.le_refl _)

theorem layoutEnd_of_settled (h : Settled src p) : layoutEnd src p = p := by
  rw [layoutEnd]
  cases hl : src.size - p with
  | zero => simp [layoutLength]
  | succ n =>
    cases hb : src[p]? with
    | none => simp [layoutLength, hb]
    | some b => simp [layoutLength, hb, h b hb]

/-- A token that is neither a word nor layout. -/
def isMark (s : String) : Bool :=
  !s.toList.isEmpty && s.toList.all fun c =>
    !isIdentByte (UInt8.ofNat c.toNat) && !isBlankByte (UInt8.ofNat c.toNat) &&
      UInt8.ofNat c.toNat ≠ hash

theorem chars_of_isMark {s : String} (h : isMark s = true) :
    s.toList ≠ [] ∧ ∀ c ∈ s.toList, isIdentByte (UInt8.ofNat c.toNat) = false ∧
      isBlankByte (UInt8.ofNat c.toNat) = false ∧ UInt8.ofNat c.toNat ≠ hash := by
  simpa [isMark, and_assoc] using h

theorem isMark_symbol (op : BinaryOp) : isMark op.symbol = true := by cases op <;> decide

/-- The token `s` at `p`: where it stands and where the next one may. -/
def litAt (src : ByteArray) (s : String) (p : Nat) : Option (Nat × Nat) :=
  if holds src (layoutEnd src p) s.toList then
    some (layoutEnd src p, layoutEnd src (layoutEnd src p + s.length))
  else none

def wordAt (src : ByteArray) (s : String) (p : Nat) : Option (Nat × Nat) :=
  if holds src (layoutEnd src p) s.toList &&
      !(src[layoutEnd src p + s.length]?).any isIdentByte then
    some (layoutEnd src p, layoutEnd src (layoutEnd src p + s.length))
  else none

def identAt (src : ByteArray) (p : Nat) : Option (Tree × Nat) :=
  let start := layoutEnd src p
  let stop := runEnd isIdentByte src start
  if (src[start]?).any isIdentStart then
    (name (asciiText src start stop)).map fun x => (.ident start x, layoutEnd src stop)
  else none

def integerAt (src : ByteArray) (p : Nat) : Option (Tree × Nat) :=
  let start := layoutEnd src p
  let stop := runEnd isDigitByte src start
  (Decimal.word? (asciiText src start stop)).map fun w => (.int start w, layoutEnd src stop)

def typeAt (src : ByteArray) (p : Nat) : Option (Tree × Nat) :=
  ((wordAt src "int" p).map fun m => (.ident m.1 "int", m.2)).or
    ((wordAt src "func" p).map fun m => (.ident m.1 "func", m.2))

theorem holds_le {cs : List Char} (h : holds src p cs = true) (hp : p ≤ src.size) :
    p + cs.length ≤ src.size := by
  induction cs generalizing p with
  | nil => simpa using hp
  | cons c cs ih =>
    simp only [holds, Bool.and_eq_true, decide_eq_true_eq] at h
    have := ih h.2 (lt_size h.1)
    simp
    omega

@[simp] theorem eval_token {α : Type} (a : Pattern α) :
    eval src f (token a) p =
      (eval src f a (layoutEnd src p)).map fun m =>
        ((layoutEnd src p, m.1), layoutEnd src m.2) := by
  cases h : eval src f a (layoutEnd src p) <;> simp [token, h]

@[simp] theorem eval_lit (s : String) : eval src f (lit s) p = litAt src s p := by
  rw [lit, eval_map, eval_token, eval_text, litAt]
  split <;> simp [String.length_toList]

@[simp] theorem eval_word (s : String) : eval src f (word s) p = wordAt src s p := by
  rw [word, eval_map, eval_token, eval_seq, eval_text, wordAt, String.length_toList]
  by_cases hh : holds src (layoutEnd src p) s.toList = true
  · cases hb : (src[layoutEnd src p + s.length]?).any isIdentByte with
    | false => simp [hh, eval_byte_none hb]
    | true =>
      obtain ⟨b, hb', hc⟩ := exists_of_any hb
      simp [hh, eval_byte hb' hc]
  · simp [hh]

theorem eval_run {first others : UInt8 → Bool} (hsub : ∀ b, first b = true → others b = true) :
    eval src f (run first others) p =
      if (src[p]?).any first then
        some (asciiText src p (runEnd others src p), runEnd others src p)
      else none := by
  rw [run, eval_map, eval_seq]
  cases h : (src[p]?).any first with
  | false => simp [eval_byte_none h]
  | true =>
    obtain ⟨b, hb, hc⟩ := exists_of_any h
    have hany : (src[p]?).any others = true := by simp [hb, hsub b hc]
    have hlt := lt_size hb
    have hlen : runLength others src (src.size - p) p =
        runLength others src (src.size - (p + 1)) (p + 1) + 1 := by
      rw [show src.size - p = (src.size - (p + 1)) + 1 by omega, runLength, if_pos hany]
    rw [eval_byte hb hc, Option.bind_some, eval_star_byte, ← runEnd_of_any hany, runEnd,
      asciiText_eq, hlen, drop_eq_cons hb]
    simp

theorem all_runLength (c : UInt8 → Bool) (limit : Nat) :
    ∀ b ∈ (src.data.toList.drop p).take (runLength c src limit p), c b = true := by
  induction limit generalizing p with
  | zero => simp [runLength]
  | succ limit ih =>
    unfold runLength
    split
    · rename_i h
      obtain ⟨b, hb, hc⟩ := exists_of_any h
      rw [getElem?_eq] at hb
      obtain ⟨hlt, rfl⟩ := List.getElem?_eq_some_iff.mp hb
      rw [List.drop_eq_getElem_cons hlt, List.take_succ_cons]
      intro b hb
      rcases List.mem_cons.mp hb with rfl | hb
      · exact hc
      · exact ih b hb
    · simp

theorem isDigit_of_isDigitByte (b : UInt8) (h : isDigitByte b = true) :
    (Char.ofNat b.toNat).isDigit = true := by
  have hall : ∀ n < 58, 48 ≤ n → (Char.ofNat n).isDigit = true := by decide
  simp only [isDigitByte, Bool.and_eq_true, decide_eq_true_eq, UInt8.le_iff_toNat_le,
    UInt8.reduceToNat] at h
  exact hall b.toNat (by omega) h.1

/-- Digits denote a word if their number is small enough. -/
theorem word?_of_digits {cs : List Char} (hne : cs ≠ []) (h : ∀ c ∈ cs, c.isDigit = true) :
    Decimal.word? cs = Pattern.literal cs := by
  have hint : Decimal.int? cs = some (Int.ofNat (Decimal.natOfDigits cs)) := by
    have hnat : Decimal.nat? cs = some (Decimal.natOfDigits cs) := by
      simp [Decimal.nat?, hne]
      exact h
    unfold Decimal.int?
    split
    · have := h '-' (by simp); contradiction
    · have := h '+' (by simp); contradiction
    · simp [hnat]
  simp only [Decimal.word?, hint, Pattern.literal, Int.ofNat_eq_natCast]
  by_cases hlt : Decimal.natOfDigits cs < Decimal.wordLimit
  · rw [if_pos ⟨by omega, by omega⟩, if_pos hlt]
    rfl
  · rw [if_neg (by omega), if_neg hlt]

theorem isIdentByte_of_isIdentStart (b : UInt8) (h : isIdentStart b = true) :
    isIdentByte b = true := by
  simp [isIdentByte, h]

@[simp] theorem eval_ident : eval src f ident p = identAt src p := by
  rw [ident, eval_map, eval_token, eval_act, eval_run isIdentByte_of_isIdentStart, identAt]
  by_cases h : (src[layoutEnd src p]?).any isIdentStart = true
  · simp only [h, if_true, Option.bind_some, Option.map_map]
    rfl
  · simp only [h, if_false, Bool.false_eq_true]
    rfl

/-- The word of a run of digits; there is none without a digit. -/
theorem word?_asciiText :
    Decimal.word? (asciiText src p (runEnd isDigitByte src p)) =
      if (src[p]?).any isDigitByte then Pattern.literal (asciiText src p (runEnd isDigitByte src p))
      else none := by
  rw [runEnd, asciiText_eq]
  split
  · rename_i h
    obtain ⟨b, hb, -⟩ := exists_of_any h
    have hlt := lt_size hb
    apply word?_of_digits
    · rw [show src.size - p = (src.size - (p + 1)) + 1 by omega, runLength, if_pos h]
      simp
      omega
    · intro c hc
      obtain ⟨b, hb, rfl⟩ := List.mem_map.mp hc
      exact isDigit_of_isDigitByte b (all_runLength _ _ b hb)
  · rename_i h
    have hzero : runLength isDigitByte src (src.size - p) p = 0 := by
      cases src.size - p <;> simp [runLength, h]
    rw [hzero]
    rfl

@[simp] theorem eval_integer : eval src f integer p = integerAt src p := by
  rw [integer, eval_map, eval_token, eval_act, eval_run fun _ h => h]
  simp only [integerAt, word?_asciiText]
  by_cases h : (src[layoutEnd src p]?).any isDigitByte = true
  · simp only [h, if_true, Option.bind_some, Option.map_map]
    rfl
  · simp only [h, if_false, Bool.false_eq_true]
    rfl

@[simp] theorem eval_type : eval src f type p = typeAt src p := by
  simp [type, typeAt]

end ClosureLang.Grammar
