import Mathlib.Data.List.TakeWhile
import ClosureLang.Proofs.Grammar.Ahead
import ClosureLang.Tree.Reader

/-! The lexemes of canonical text: what is written as one word is read as one. -/
namespace ClosureLang.Canonical

/-- An integer stands at the front of a text, with no letter, digit or underscore behind it. -/
def StartsWithInteger (cs : List Char) : Prop :=
  ∃ sign digits rest, cs = sign ++ digits ++ rest ∧ (sign = [] ∨ sign = ['-']) ∧ digits ≠ [] ∧
    (∀ d ∈ digits, d.isDigit = true) ∧ rest.head?.any isWordChar = false

/-- A name that stands for itself in canonical text. -/
structure IsSymbol (x : String) : Prop where
  nonempty : x ≠ ""
  chars : ∀ c ∈ x.toList, isSymbolChar c = true
  noInteger : ¬ StartsWithInteger x.toList

/-- No word goes on here: the text ends, or there is a space or a closing parenthesis. -/
def Parted (rest : List Char) : Prop := ∀ c ∈ rest.head?, c = ' ' ∨ c = ')'

variable {afterOpen : Bool} {o : Nat} {c : Char} {cs word rest : List Char}

theorem Parted.not_any {p : Char → Bool} (h : Parted rest) (hblank : p ' ' = false)
    (hclose : p ')' = false) : rest.head?.any p = false := by
  cases rest with
  | nil => rfl
  | cons c rest =>
    rcases h c rfl with rfl | rfl
    · exact hblank
    · exact hclose

theorem takeWhile_of_parted {p : Char → Bool} (h : Parted rest) (hblank : p ' ' = false)
    (hclose : p ')' = false) : rest.takeWhile p = [] := by
  have hnone := h.not_any hblank hclose
  cases rest with
  | nil => rfl
  | cons c rest => exact List.takeWhile_cons_of_neg (by simpa using hnone)

/-- A run of characters in a word does not go on behind it. -/
theorem takeWhile_append_of_parted {p : Char → Bool} (h : Parted rest) (hblank : p ' ' = false)
    (hclose : p ')' = false) : (word ++ rest).takeWhile p = word.takeWhile p := by
  rw [List.takeWhile_append, takeWhile_of_parted h hblank hclose, List.append_nil]
  split
  · rename_i hlen
    exact ((List.takeWhile_prefix p).eq_of_length hlen).symm
  · rfl

theorem integerLength_append (hword : word ≠ []) (h : Parted rest) :
    integerLength (word ++ rest) = integerLength word := by
  obtain ⟨c, cs, rfl⟩ := List.exists_cons_of_ne_nil hword
  have hsign : (if (c :: cs ++ rest).head? = some '-' then 1 else 0) =
      if (c :: cs).head? = some '-' then 1 else 0 := rfl
  simp only [integerLength, hsign]
  generalize hs : (if (c :: cs).head? = some '-' then 1 else 0) = sign
  have hsign1 : sign ≤ (c :: cs).length := by
    rw [List.length_cons, ← hs]
    split <;> omega
  rw [List.drop_append_of_le_length hsign1, takeWhile_append_of_parted h rfl rfl]
  generalize hd : (((c :: cs).drop sign).takeWhile Char.isDigit).length = digits
  have hdigits : sign + digits ≤ (c :: cs).length := by
    have := (List.takeWhile_prefix (l := (c :: cs).drop sign) Char.isDigit).length_le
    rw [hd, List.length_drop] at this
    omega
  rw [List.drop_append_of_le_length hdigits, List.head?_append]
  cases hrest : ((c :: cs).drop (sign + digits)).head? with
  | some d => rfl
  | none => rw [Option.none_or, h.not_any rfl rfl, Option.any_none]

theorem drop_length_takeWhile {p : Char → Bool} :
    (l : List Char) → l.drop (l.takeWhile p).length = l.dropWhile p
  | [] => rfl
  | c :: l => by
    by_cases hc : p c = true
    · simp [hc, drop_length_takeWhile l]
    · simp [hc]

/-- The integer at the front of a text is one, unless there is none. -/
theorem startsWithInteger_of_integerLength (h : integerLength cs ≠ 0) : StartsWithInteger cs := by
  simp only [integerLength] at h
  generalize hs : (if cs.head? = some '-' then 1 else 0) = sign at h
  split at h
  · exact absurd rfl h
  rename_i hcond
  simp only [Bool.or_eq_true, decide_eq_true_eq, not_or, Bool.not_eq_true] at hcond
  obtain ⟨hdigits, hnext⟩ := hcond
  refine ⟨cs.take sign, (cs.drop sign).takeWhile Char.isDigit,
    (cs.drop sign).dropWhile Char.isDigit, ?_, ?_, ?_, ?_, ?_⟩
  · rw [List.append_assoc, List.takeWhile_append_dropWhile, List.take_append_drop]
  · cases cs with
    | nil => exact .inl List.take_nil
    | cons c cs =>
      by_cases hc : c = '-'
      · subst hc hs
        exact .inr rfl
      · have hzero : sign = 0 := by simpa [hc] using hs.symm
        exact .inl (by rw [hzero, List.take_zero])
  · exact fun hnil => hdigits (by rw [hnil, List.length_nil])
  · exact fun d hd => List.mem_takeWhile_imp hd
  · rw [← List.drop_drop, drop_length_takeWhile] at hnext
    exact hnext

/-! Digits. -/

theorem takeWhile_digits (n : Nat) :
    (Decimal.natChars n).takeWhile Char.isDigit = Decimal.natChars n := by
  rw [List.takeWhile_eq_self_iff]
  exact fun c hc => Nat.isDigit_of_mem_toDigits (by decide) (by decide) hc

theorem integerLength_natChars (n : Nat) :
    integerLength (Decimal.natChars n) = (Decimal.natChars n).length := by
  have hne : Decimal.natChars n ≠ [] := Nat.toDigits_ne_nil
  have hsign : (Decimal.natChars n).head? ≠ some '-' := by
    intro hhead
    have hdigit := Nat.isDigit_of_mem_toDigits (b := 10) (n := n) (by decide) (by decide)
      (List.mem_of_head? hhead)
    contradiction
  simp [integerLength, hsign, takeWhile_digits, hne]

/-- The text of an integer is an integer from end to end. -/
theorem integerLength_intChars (i : Int) :
    integerLength (Decimal.intChars i) = (Decimal.intChars i).length := by
  cases i with
  | ofNat n => exact integerLength_natChars n
  | negSucc n =>
    have hne : Decimal.natChars (n + 1) ≠ [] := Nat.toDigits_ne_nil
    simp [Decimal.intChars, integerLength, takeWhile_digits, hne, Nat.add_comm 1]

theorem intChars_ne_nil (i : Int) : Decimal.intChars i ≠ [] := by
  cases i with
  | ofNat n => exact Nat.toDigits_ne_nil
  | negSucc n => exact List.cons_ne_nil _ _

theorem isSymbolChar_of_isDigit (h : c.isDigit = true) : isSymbolChar c = true := by
  have hall : ∀ m < 58, 48 ≤ m → isSymbolChar (Char.ofNat m) = true := by decide
  simp only [Char.isDigit, Bool.and_eq_true, decide_eq_true_eq, ge_iff_le,
    UInt32.le_iff_toNat_le] at h
  have := hall c.toNat (Nat.lt_succ_of_le h.2) h.1
  rwa [Char.ofNat_toNat] at this

theorem isSymbolChar_intChars {i : Int} (hc : c ∈ Decimal.intChars i) : isSymbolChar c = true := by
  have hdigits : ∀ n, ∀ c ∈ Decimal.natChars n, isSymbolChar c = true := fun n c hc =>
    isSymbolChar_of_isDigit (Nat.isDigit_of_mem_toDigits (by decide) (by decide) hc)
  cases i with
  | ofNat n => exact hdigits n c hc
  | negSucc n =>
    rcases List.mem_cons.mp hc with rfl | hc
    · rfl
    · exact hdigits (n + 1) c hc

theorem nat?_natChars (n : Nat) : Decimal.nat? (Decimal.natChars n) = some n := by
  have hdigits : ∀ c ∈ Decimal.natChars n, c.isDigit = true := fun c hc =>
    Nat.isDigit_of_mem_toDigits (by decide) (by decide) hc
  rw [Decimal.nat?, if_pos ⟨Nat.toDigits_ne_nil, List.all_eq_true.mpr hdigits⟩,
    Grammar.natOfDigits_natChars]

theorem int?_intChars (i : Int) : Decimal.int? (Decimal.intChars i) = some i := by
  cases i with
  | ofNat n =>
    have hdigits := fun c hc => Nat.isDigit_of_mem_toDigits (c := c) (n := n) (b := 10) (by decide)
      (by decide) hc
    have hnat := nat?_natChars n
    rw [Decimal.intChars]
    unfold Decimal.int?
    split
    · have hminus := hdigits '-' (by simp_all [Decimal.natChars])
      contradiction
    · have hplus := hdigits '+' (by simp_all [Decimal.natChars])
      contradiction
    · rw [hnat]
      rfl
  | negSucc n =>
    simp only [Decimal.intChars, Decimal.int?, nat?_natChars]
    rfl

/-- Every word reads back from its text. -/
theorem word?_intChars (w : Int64) : Decimal.word? (Decimal.intChars w.toInt) = some w := by
  have hlow : -9223372036854775808 ≤ w.toInt := w.le_toInt
  have hhigh : w.toInt < 9223372036854775808 := w.toInt_lt
  have hfits : -Int.ofNat Decimal.wordLimit ≤ w.toInt ∧ w.toInt < Int.ofNat Decimal.wordLimit :=
    ⟨hlow, hhigh⟩
  simp only [Decimal.word?, int?_intChars, if_pos hfits, Int64.ofInt_toInt]

/-! Lexemes in front of a text. -/

theorem lexemes_blank : lexemes afterOpen o (' ' :: rest) = lexemes afterOpen (o + 1) rest := by
  rw [lexemes]
  rfl

theorem lexemes_opening :
    lexemes afterOpen o ('(' :: rest) = .opening o :: lexemes true (o + 1) rest := by
  rw [lexemes]
  rfl

theorem lexemes_closing :
    lexemes afterOpen o (')' :: rest) = .closing o :: lexemes false (o + 1) rest := by
  rw [lexemes]
  rfl

/-- A word in front of a place where words end is one lexeme. -/
theorem lexemes_word (hne : word ≠ []) (hword : ∀ c ∈ word, isSymbolChar c = true)
    (h : Parted rest)
    (hlen : afterOpen = false → integerLength word = 0 ∨ integerLength word = word.length) :
    lexemes afterOpen o (word ++ rest) =
      (if afterOpen then .tag word o
        else if integerLength word = 0 then .symbol word o else .integer word o) ::
        lexemes false (o + Utf8.size word) rest := by
  have htake : (word ++ rest).takeWhile isSymbolChar = word.takeWhile isSymbolChar :=
    takeWhile_append_of_parted h rfl rfl
  have hinteger := integerLength_append hne h
  rw [List.takeWhile_eq_self_iff.mpr hword] at htake
  obtain ⟨c, cs, rfl⟩ := List.exists_cons_of_ne_nil hne
  have hc : isSymbolChar c = true := hword c (by simp)
  have hskip : isSkipped c = false := by
    simp only [isSymbolChar, Bool.not_eq_true', Bool.or_eq_false_iff] at hc
    exact hc.1.1.1
  have hopen : c ≠ '(' := by
    rintro rfl
    contradiction
  have hclose : c ≠ ')' := by
    rintro rfl
    contradiction
  have hlexeme : lexeme afterOpen o c (cs ++ rest) =
      (if afterOpen then .tag (c :: cs) o
        else if integerLength (c :: cs) = 0 then .symbol (c :: cs) o else .integer (c :: cs) o,
        (c :: cs).length) := by
    rw [List.cons_append] at htake hinteger
    simp only [lexeme, hopen, hclose, hc, htake, hinteger, if_false, Bool.not_true]
    cases afterOpen with
    | true => simp
    | false =>
      rcases hlen rfl with hlen | hlen
      · simp [hlen]
      · simp [hlen]
  rw [List.cons_append, lexemes, hskip, if_neg Bool.false_ne_true, hlexeme]
  simp only [← List.cons_append, List.take_left, List.drop_left]
  congr 2
  cases afterOpen
  · simp only [Bool.false_eq_true, if_false]
    split <;> rfl
  · rfl

theorem lexemes_tag (hne : word ≠ []) (hword : ∀ c ∈ word, isSymbolChar c = true)
    (h : Parted rest) : lexemes true o (word ++ rest) = .tag word o ::
      lexemes false (o + Utf8.size word) rest := by
  rw [lexemes_word hne hword h (fun hfalse : true = false => nomatch hfalse), if_pos rfl]

theorem lexemes_integer (i : Int) (h : Parted rest) :
    lexemes false o (Decimal.intChars i ++ rest) = .integer (Decimal.intChars i) o ::
      lexemes false (o + Utf8.size (Decimal.intChars i)) rest := by
  have hlen := integerLength_intChars i
  have hne := intChars_ne_nil i
  rw [lexemes_word hne (fun c hc => isSymbolChar_intChars hc) h (fun _ => .inr hlen), hlen,
    if_neg Bool.false_ne_true, if_neg (by simpa using hne)]

theorem lexemes_symbol {x : String} (hx : IsSymbol x) (h : Parted rest) :
    lexemes false o (x.toList ++ rest) = .symbol x.toList o ::
      lexemes false (o + Utf8.size x.toList) rest := by
  have hlen : integerLength x.toList = 0 := by
    by_contra hlen
    exact hx.noInteger (startsWithInteger_of_integerLength hlen)
  have hne : x.toList ≠ [] := fun hnil => hx.nonempty (String.toList_eq_nil_iff.mp hnil)
  rw [lexemes_word hne hx.chars h (fun _ => .inl hlen), hlen, if_neg Bool.false_ne_true, if_pos rfl]

end ClosureLang.Canonical
