import ClosureLang.Proofs.Grammar.Readings
import ClosureLang.Proofs.Tree.WellSorted

/-! Text that is still to be read, and the tokens at its front. -/
namespace ClosureLang.Grammar

open Pattern

variable {src : ByteArray} {p q : Nat} {s rest : String}

abbrev byteOf (c : Char) : UInt8 := UInt8.ofNat c.toNat

/-- A character of one byte that starts no comment. -/
def isPlain (c : Char) : Bool := c.toNat < 128 && c ≠ '#'

def isPlainText (s : String) : Bool := s.toList.all isPlain

def isBlankChar (c : Char) : Bool := isBlankByte (byteOf c)

/-- A text without the blanks at its front. -/
def trimmed (s : String) : List Char := s.toList.dropWhile isBlankChar

/-- What is left of the text at `p` is `rest` without the blanks at its front. -/
structure Ahead (src : ByteArray) (p : Nat) (rest : String) : Prop where
  le : p ≤ src.size
  settled : Settled src p
  plain : isPlainText rest = true
  bytes : src.data.toList.drop (layoutEnd src p) = (trimmed rest).map byteOf

@[simp] theorem isPlainText_append {s t : String} :
    isPlainText (s ++ t) = (isPlainText s && isPlainText t) := by simp [isPlainText]

theorem ascii_of_isPlain {c : Char} (h : isPlain c = true) : Char.ofNat (byteOf c).toNat = c := by
  simp only [isPlain, Bool.and_eq_true, decide_eq_true_eq] at h
  have hmod : c.toNat % 256 = c.toNat := Nat.mod_eq_of_lt (by omega)
  simp [byteOf, UInt8.toNat_ofNat', hmod, Char.ofNat_toNat]

theorem byteOf_inj {c d : Char} (hc : isPlain c = true) (hd : isPlain d = true) :
    byteOf c = byteOf d ↔ c = d := by
  refine ⟨fun h => ?_, fun h => by rw [h]⟩
  rw [← ascii_of_isPlain hc, ← ascii_of_isPlain hd, h]

theorem plain_of_trimmed (h : isPlainText rest = true) : ∀ c ∈ trimmed rest, isPlain c = true := by
  intro c hc
  exact List.all_eq_true.mp h c ((List.dropWhile_sublist _).mem hc)

theorem getElem?_of_drop {bs : List UInt8} {b : UInt8} (h : src.data.toList.drop p = b :: bs) :
    src[p]? = some b ∧ src.data.toList.drop (p + 1) = bs := by
  have hb : (src.data.toList.drop p)[0]? = some b := by rw [h]; rfl
  rw [List.getElem?_drop, Nat.add_zero, ← getElem?_eq] at hb
  refine ⟨hb, ?_⟩
  rw [← List.drop_drop, h]
  rfl

theorem layoutEnd_of_blank {b : UInt8} (h : src[p]? = some b) (hb : isBlankByte b = true) :
    layoutEnd src p = layoutEnd src (p + 1) := by
  have hlt := lt_size h
  rw [layoutEnd, layoutEnd, show src.size - p = (src.size - (p + 1)) + 1 by omega, layoutLength]
  simp [h, hb]
  omega

theorem settled_of_plain {c : Char} (hc : isPlain c = true) (hblank : isBlankChar c = false)
    (h : src[p]? = some (byteOf c)) : Settled src p := by
  intro b hb
  rw [h, Option.some.injEq] at hb
  subst hb
  refine ⟨hblank, fun he => ?_⟩
  have : c = '#' := by rw [← ascii_of_isPlain hc, he]; rfl
  subst this
  contradiction

/-- Behind blanks the layout ends, since plain text has no comments. -/
theorem drop_layoutEnd {cs : List Char} (hcs : ∀ c ∈ cs, isPlain c = true)
    (h : src.data.toList.drop p = cs.map byteOf) :
    src.data.toList.drop (layoutEnd src p) = (cs.dropWhile isBlankChar).map byteOf := by
  induction cs generalizing p with
  | nil =>
    have hp : src.size ≤ p := by
      have := congrArg List.length h
      simp only [List.length_drop, List.map_nil, List.length_nil] at this
      simpa using Nat.sub_eq_zero_iff_le.mp this
    rw [layoutEnd_of_settled fun b hb => absurd (lt_size hb) (by omega), h]
    rfl
  | cons c cs ih =>
    obtain ⟨hb, hd⟩ := getElem?_of_drop h
    cases hblank : isBlankChar c with
    | true =>
      rw [layoutEnd_of_blank hb hblank, List.dropWhile_cons_of_pos hblank]
      exact ih (fun c hc => hcs c (by simp [hc])) hd
    | false =>
      rw [layoutEnd_of_settled (settled_of_plain (hcs c (by simp)) hblank hb), h,
        List.dropWhile_cons_of_neg (by simp [hblank])]

theorem ahead_of_drop (hp : p ≤ src.size) (hrest : isPlainText rest = true)
    (h : src.data.toList.drop p = rest.toList.map byteOf) : Ahead src (layoutEnd src p) rest where
  le := layoutEnd_le hp
  settled := settled_layoutEnd src p
  plain := hrest
  bytes := by
    rw [layoutEnd_of_settled (settled_layoutEnd src p)]
    exact drop_layoutEnd (List.all_eq_true.mp hrest) h

theorem bytes_of_plain (h : isPlainText s = true) :
    s.toUTF8.data.toList = s.toList.map byteOf := by
  have hcs : ∀ cs : List Char, (∀ c ∈ cs, isPlain c = true) →
      cs.flatMap String.utf8EncodeChar = cs.map byteOf := by
    intro cs hcs
    induction cs with
    | nil => rfl
    | cons c cs ih =>
      have hc := hcs c (by simp)
      simp only [isPlain, Bool.and_eq_true, decide_eq_true_eq] at hc
      have hle : c.val.toNat ≤ 127 := Nat.le_of_lt_succ hc.1
      rw [List.flatMap_cons, ih fun c hc => hcs c (by simp [hc]), String.utf8EncodeChar]
      simp only [hle, if_true]
      rfl
  rw [← hcs s.toList (List.all_eq_true.mp h), String.toUTF8, ← String.utf8Encode_toList]
  simp [List.utf8Encode]

/-- At the start of a plain text all of it is left. -/
theorem ahead_start (h : isPlainText s = true) : Ahead s.toUTF8 (layoutEnd s.toUTF8 0) s :=
  ahead_of_drop (Nat.zero_le _) h (by rw [List.drop_zero, bytes_of_plain h])

def isBlankText (s : String) : Bool := s.toList.all fun c => isBlankChar c && isPlain c

theorem trimmed_blanks (hs : isBlankText s = true) : trimmed (s ++ rest) = trimmed rest := by
  have hall := List.all_eq_true.mp hs
  simp only [Bool.and_eq_true] at hall
  rw [trimmed, String.toList_append, List.dropWhile_append_of_pos fun c hc => (hall c hc).1]
  rfl

/-- Blanks at the front do not matter. -/
theorem ahead_blanks (hs : isBlankText s = true) :
    Ahead src p (s ++ rest) ↔ Ahead src p rest := by
  have hall := List.all_eq_true.mp hs
  simp only [Bool.and_eq_true] at hall
  have htrimmed : trimmed (s ++ rest) = trimmed rest := trimmed_blanks hs
  have hplain : isPlainText s = true := List.all_eq_true.mpr fun c hc => (hall c hc).2
  constructor
  · intro ⟨hle, hset, hp, hb⟩
    rw [isPlainText_append, Bool.and_eq_true] at hp
    exact ⟨hle, hset, hp.2, htrimmed ▸ hb⟩
  · intro ⟨hle, hset, hp, hb⟩
    exact ⟨hle, hset, by rw [isPlainText_append, hplain, hp]; rfl, htrimmed ▸ hb⟩

/-- Nothing is left at the end alone. -/
theorem Ahead.at_end (h : Ahead src p "") : p = src.size := by
  have hlen := congrArg List.length h.bytes
  rw [layoutEnd_of_settled h.settled] at hlen
  simp only [List.length_drop, trimmed, List.map_nil, String.toList_empty, List.dropWhile_nil,
    List.length_nil, Nat.sub_eq_zero_iff_le] at hlen
  have hsize : src.size = src.data.toList.length := by simp
  have := h.le
  omega

/-- The next byte is that of the first character that is no blank. -/
theorem Ahead.next (h : Ahead src p rest) :
    src[layoutEnd src p]? = (trimmed rest).head?.map byteOf := by
  rw [getElem?_eq, ← Nat.add_zero (layoutEnd src p), ← List.getElem?_drop, h.bytes]
  cases trimmed rest <;> rfl

theorem holds_of_drop {s ds : List Char} (h : src.data.toList.drop p = ds.map byteOf)
    (hs : ∀ c ∈ s, isPlain c = true) (hds : ∀ c ∈ ds, isPlain c = true) :
    holds src p s = s.isPrefixOf ds := by
  induction s generalizing p ds with
  | nil => rfl
  | cons c s ih =>
    cases ds with
    | nil =>
      have hb : src[p]? = none := by
        rw [getElem?_eq, ← Nat.add_zero p, ← List.getElem?_drop, h]
        rfl
      simp [holds, hb]
    | cons d ds =>
      obtain ⟨hb, hd⟩ := getElem?_of_drop h
      have hcd : (src[p]? = some (UInt8.ofNat c.toNat)) ↔ c = d := by
        rw [hb, Option.some.injEq, eq_comm]
        exact byteOf_inj (hs c (by simp)) (hds d (by simp))
      rw [holds, List.isPrefixOf, ih hd (fun c hc => hs c (by simp [hc]))
        (fun c hc => hds c (by simp [hc]))]
      simp only [hcd]
      rfl

/-- A text that starts with no blank. -/
def isSolid (s : String) : Bool := s.toList.head?.any fun c => !isBlankChar c

theorem solid_cons (hs : isSolid s = true) : ∃ c cs, s.toList = c :: cs := by
  cases hcs : s.toList with
  | nil => simp [isSolid, hcs] at hs
  | cons c cs => exact ⟨c, cs, rfl⟩

theorem trimmed_of_solid (hs : isSolid s = true) :
    trimmed (s ++ rest) = s.toList ++ rest.toList := by
  obtain ⟨c, cs, hcs⟩ := solid_cons hs
  simp only [isSolid, hcs, List.head?_cons, Option.any_some, Bool.not_eq_true'] at hs
  rw [trimmed, String.toList_append, hcs]
  exact List.dropWhile_cons_of_neg (by simp [hs])

/-- A text that starts with no blank is all left at its start. -/
theorem ahead_solid (hplain : isPlainText s = true) (hs : isSolid s = true) :
    Ahead s.toUTF8 0 s := by
  obtain ⟨c, cs, hcs⟩ := solid_cons hs
  have hc : isPlain c = true := List.all_eq_true.mp hplain c (by simp [hcs])
  have hdrop : s.toUTF8.data.toList.drop 0 = byteOf c :: cs.map byteOf := by
    rw [List.drop_zero, bytes_of_plain hplain, hcs]
    rfl
  have hblank : isBlankChar c = false := by simpa [isSolid, hcs] using hs
  have hsettled := settled_of_plain hc hblank (getElem?_of_drop hdrop).1
  have h := ahead_start hplain
  rwa [layoutEnd_of_settled hsettled] at h

section Tokens

variable (h : Ahead src p (s ++ rest)) (hs : isSolid s = true)

include h hs

theorem Ahead.head {c : Char} {cs : List Char} (hcs : s.toList = c :: cs) :
    src[layoutEnd src p]? = some (byteOf c) := by
  rw [h.next, trimmed_of_solid hs, hcs]
  rfl

/-- The text `s` is what stands at `p`, and `rest` is left behind it. -/
theorem Ahead.split :
    holds src (layoutEnd src p) s.toList = true ∧
      src.data.toList.drop (layoutEnd src p + s.length) = rest.toList.map byteOf ∧
        layoutEnd src p + s.length ≤ src.size := by
  have hplain := h.plain
  rw [isPlainText_append, Bool.and_eq_true] at hplain
  have hdrop := h.bytes
  rw [trimmed_of_solid hs] at hdrop
  have hholds : holds src (layoutEnd src p) s.toList = true := by
    rw [holds_of_drop hdrop (List.all_eq_true.mp hplain.1)
      (trimmed_of_solid hs ▸ plain_of_trimmed h.plain)]
    simp
  refine ⟨hholds, ?_, ?_⟩
  · rw [← List.drop_drop, hdrop, List.map_append, ← String.length_toList]
    exact List.drop_left' (by simp)
  · have := holds_le hholds (layoutEnd_le h.le)
    rwa [String.length_toList] at this

theorem Ahead.behind : Ahead src (layoutEnd src (layoutEnd src p + s.length)) rest := by
  obtain ⟨-, hdrop, hle⟩ := h.split hs
  have hplain := h.plain
  rw [isPlainText_append, Bool.and_eq_true] at hplain
  exact ahead_of_drop hle hplain.2 hdrop

theorem Ahead.lit : ∃ start stop, litAt src s p = some (start, stop) ∧ Ahead src stop rest := by
  refine ⟨layoutEnd src p, _, ?_, h.behind hs⟩
  rw [litAt, if_pos (h.split hs).1]

/-- The byte behind `s`. -/
theorem Ahead.follower : src[layoutEnd src p + s.length]? = rest.toList.head?.map byteOf := by
  obtain ⟨-, hdrop, -⟩ := h.split hs
  rw [getElem?_eq, ← Nat.add_zero (layoutEnd src p + s.length), ← List.getElem?_drop, hdrop]
  cases rest.toList <;> rfl

end Tokens

/-- No identifier character is at the front of a text. -/
def isParted (rest : String) : Bool := !rest.toList.head?.any fun c => isIdentByte (byteOf c)

theorem Ahead.parted (h : Ahead src p (s ++ rest)) (hs : isSolid s = true)
    (hrest : isParted rest = true) :
    (src[layoutEnd src p + s.length]?).any isIdentByte = false := by
  rw [h.follower hs]
  simp only [isParted, Bool.not_eq_true'] at hrest
  cases hcs : rest.toList <;> simp_all

theorem Ahead.word (h : Ahead src p (s ++ rest)) (hs : isSolid s = true)
    (hrest : isParted rest = true) :
    ∃ start stop, wordAt src s p = some (start, stop) ∧ Ahead src stop rest := by
  refine ⟨layoutEnd src p, _, ?_, h.behind hs⟩
  rw [wordAt, if_pos]
  rw [(h.split hs).1, h.parted hs hrest]
  rfl

/-- A run of a class of characters is read to its end. -/
theorem Ahead.run {c : UInt8 → Bool} (h : Ahead src p (s ++ rest)) (hs : isSolid s = true)
    (hc : ∀ x ∈ s.toList, c (byteOf x) = true)
    (hrest : (rest.toList.head?).any (fun x => c (byteOf x)) = false) :
    runEnd c src (layoutEnd src p) = layoutEnd src p + s.length ∧
      asciiText src (layoutEnd src p) (layoutEnd src p + s.length) = s.toList := by
  have hholds := (h.split hs).1
  have hnext : (src[layoutEnd src p + s.toList.length]?).any c = false := by
    rw [String.length_toList, h.follower hs]
    cases hcs : rest.toList <;> simp_all
  have hplain := h.plain
  rw [isPlainText_append, Bool.and_eq_true] at hplain
  constructor
  · rw [runEnd, runLength_of_holds _ (Nat.le_refl _) hholds hc hnext, String.length_toList]
  · rw [← String.length_toList]
    exact asciiText_of_holds hholds fun x hx => ascii_of_isPlain (List.all_eq_true.mp hplain.1 x hx)

theorem ident_byte {b : UInt8} (h : isIdentByte b = true) :
    isBlankByte b = false ∧ isPlain (Char.ofNat b.toNat) = true ∧
    byteOf (Char.ofNat b.toNat) = b := by
  have hall : ∀ n < 256, isIdentByte (UInt8.ofNat n) = true →
      isBlankByte (UInt8.ofNat n) = false ∧ isPlain (Char.ofNat n) = true ∧
        byteOf (Char.ofNat n) = UInt8.ofNat n := by decide +kernel
  have := hall b.toNat b.toNat_lt
  rw [UInt8.ofNat_toNat] at this
  exact this h

/-- The characters of a name. -/
theorem name_chars {x : String} (hx : IsName x) :
    isSolid x = true ∧ isPlainText x = true ∧ (∀ c ∈ x.toList, isIdentByte (byteOf c) = true) ∧
      ∃ c cs, x.toList = c :: cs ∧ isIdentStart (byteOf c) = true := by
  obtain ⟨-, b, bs, hb, hbs, rfl⟩ := hx
  have hall : ∀ d ∈ b :: bs, isIdentByte d = true := by
    intro d hd
    rcases List.mem_cons.mp hd with rfl | hd
    · exact isIdentByte_of_isIdentStart d hb
    · exact hbs d hd
  have hb' := ident_byte (hall b (by simp))
  refine ⟨?_, ?_, ?_, _, _, String.toList_ofList, ?_⟩
  · simp [isSolid, isBlankChar, hb'.2.2, hb'.1]
  · simp only [isPlainText, String.toList_ofList, List.all_map, List.all_eq_true]
    exact fun d hd => (ident_byte (hall d hd)).2.1
  · intro c hc
    rw [String.toList_ofList, List.mem_map] at hc
    obtain ⟨d, hd, rfl⟩ := hc
    rw [(ident_byte (hall d hd)).2.2]
    exact hall d hd
  · rw [hb'.2.2]
    exact hb

theorem Ahead.ident {x : String} (h : Ahead src p (x ++ rest)) (hx : IsName x)
    (hrest : isParted rest = true) :
    ∃ start stop, identAt src p = some (Tree.ident start x, stop) ∧ Ahead src stop rest := by
  obtain ⟨hsolid, -, hident, c, cs, hcs, hc⟩ := name_chars hx
  have hnext := h.head hsolid hcs
  obtain ⟨hend, htext⟩ := h.run hsolid hident (by simpa [isParted] using hrest)
  refine ⟨layoutEnd src p, _, ?_, h.behind hsolid⟩
  simp [identAt, hnext, hc, hend, htext, name, hx.1]

theorem digit_byte {b : UInt8} (h : isDigitByte b = true) :
    b ≠ 40 ∧ b ≠ 102 ∧ isIdentStart b = false := by
  have hall : ∀ n < 58, 48 ≤ n →
      UInt8.ofNat n ≠ 40 ∧ UInt8.ofNat n ≠ 102 ∧ isIdentStart (UInt8.ofNat n) = false := by decide
  simp only [isDigitByte, Bool.and_eq_true, decide_eq_true_eq, UInt8.le_iff_toNat_le,
    UInt8.reduceToNat] at h
  have := hall b.toNat (by omega) h.1
  rwa [UInt8.ofNat_toNat] at this

theorem digit_chars (n : Nat) :
    ∀ c ∈ Decimal.natChars n, isDigitByte (byteOf c) = true ∧ isPlain c = true := by
  intro c hc
  have hdigit := Nat.isDigit_of_mem_toDigits (by decide) (by decide) hc
  have hall : ∀ m < 58, 48 ≤ m →
      isDigitByte (byteOf (Char.ofNat m)) = true ∧ isPlain (Char.ofNat m) = true := by decide
  simp only [Char.isDigit, Bool.and_eq_true, decide_eq_true_eq, ge_iff_le,
    UInt32.le_iff_toNat_le] at hdigit
  have := hall c.toNat (Nat.lt_succ_of_le hdigit.2) hdigit.1
  rwa [Char.ofNat_toNat] at this

theorem natOfDigits_natChars (n : Nat) : Decimal.natOfDigits (Decimal.natChars n) = n :=
  Nat.ofDigitChars_toDigits (by decide) (by decide)

/-- A word is written in digits that denote it. -/
theorem word_chars {w : Int64} (hw : 0 ≤ w) :
    isSolid (Decimal.wordText w) = true ∧ isPlainText (Decimal.wordText w) = true ∧
      (∀ c ∈ (Decimal.wordText w).toList, isDigitByte (byteOf c) = true) ∧
        Decimal.word? (Decimal.wordText w).toList = some w := by
  have hnonneg : 0 ≤ w.toInt := Int64.le_iff_toInt_le.mp hw
  have hlt : w.toInt < 9223372036854775808 := w.toInt_lt
  obtain ⟨n, hn⟩ := Int.eq_ofNat_of_zero_le hnonneg
  have hw' : Int64.ofNat n = w := by rw [← Int64.ofInt_eq_ofNat, ← hn, Int64.ofInt_toInt]
  have htext : (Decimal.wordText w).toList = Decimal.natChars n := by
    rw [Decimal.wordText, Decimal.intText, hn, String.toList_ofList]
    rfl
  have hne : Decimal.natChars n ≠ [] := Nat.toDigits_ne_nil
  refine ⟨?_, ?_, ?_, ?_⟩
  · obtain ⟨c, cs, hcs⟩ := List.exists_cons_of_ne_nil hne
    have hc := (digit_chars n c (by simp [hcs])).1
    simp [isSolid, htext, hcs, isBlankChar,
      (ident_byte (b := byteOf c) (by simp [isIdentByte, hc])).1]
  · rw [isPlainText, htext, List.all_eq_true]
    exact fun c hc => (digit_chars n c hc).2
  · rw [htext]
    exact fun c hc => (digit_chars n c hc).1
  · have hdigits := fun c hc => Nat.isDigit_of_mem_toDigits (c := c) (n := n) (b := 10) (by decide)
      (by decide) hc
    have hlimit : n < Decimal.wordLimit := by
      rw [hn] at hlt
      exact Int.ofNat_lt.mp hlt
    rw [htext, word?_of_digits hne hdigits, Pattern.literal, natOfDigits_natChars,
      if_pos hlimit, hw']

theorem Ahead.integer {w : Int64} (h : Ahead src p (Decimal.wordText w ++ rest)) (hw : 0 ≤ w)
    (hrest : isParted rest = true) :
    ∃ start stop, integerAt src p = some (Tree.int start w, stop) ∧ Ahead src stop rest := by
  obtain ⟨hsolid, -, hdigits, hword⟩ := word_chars hw
  have hnext : (rest.toList.head?).any (fun c => isDigitByte (byteOf c)) = false := by
    simp only [isParted, Bool.not_eq_true'] at hrest
    cases hcs : rest.toList with
    | nil => rfl
    | cons c cs => simp_all [isIdentByte]
  obtain ⟨hend, hrun⟩ := h.run hsolid hdigits hnext
  refine ⟨layoutEnd src p, _, ?_, h.behind hsolid⟩
  simp only [integerAt, hend, hrun, hword]
  rfl

end ClosureLang.Grammar
