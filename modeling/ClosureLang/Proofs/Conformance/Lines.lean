import ClosureLang.Conformance.Lines
import ClosureLang.Proofs.Grammar.Words
import ClosureLang.Proofs.Text.Encoding

/-! Layout says nothing to a parser. Programs as conformance cases keep them are the programs
themselves in other layout, because a line that looks blank has no words if the program parses. -/
namespace ClosureLang.Grammar

/-- A byte of a token. -/
def isToken (b : UInt8) : Bool := isFlat b || bracket b ≠ 0

variable {src : ByteArray} {p : Nat} {b : UInt8}

theorem isToken_cases (h : isToken b = true) :
    isInked b = true ∧ b.toNat < 128 ∧ Text.isBlank (Char.ofNat b.toNat) = false := by
  revert h
  have hall : ∀ n < 256, isToken (UInt8.ofNat n) = true → isInked (UInt8.ofNat n) = true ∧ n < 128 ∧
      Text.isBlank (Char.ofNat n) = false := by decide +kernel
  simpa using hall b.toNat b.toNat_lt

/-- There are no words but those of tokens, from `p` on. -/
def Tokens (src : ByteArray) (p : Nat) : Prop :=
  ∀ b ∈ (words (rest src p)).flatten, isToken b = true

theorem Tokens.cons (hb : src[p]? = some b) (htoken : isToken b = true) (h : Tokens src (p + 1)) :
    Tokens src p := by
  rw [Tokens, rest_of_byte hb, flatten_words_solid (isToken_cases htoken).1, List.forall_mem_cons]
  exact ⟨htoken, h⟩

/-- A match passes tokens and layout only. -/
def tokens (src : ByteArray) : Passage src where
  Goes p q := Tokens src q → Tokens src p
  refl := id
  trans h h' hr := h (h' hr)
  layout h := by rwa [Tokens, words_layoutEnd] at h
  flat hb hflat := .cons hb (by rw [isToken, hflat, Bool.true_or])
  bracketed ho hpair h hc hq := by
    obtain ⟨hopen, hclose⟩ := bracket_of_paired hpair
    exact .cons ho (by simp [isToken, hopen]) (h (.cons hc (by simp [isToken, hclose]) hq))

/-- A text that parses consists of tokens and layout. -/
theorem tokens_of_read {n : Nonterminal} {t : Tree} (h : read src n 0 = some (t, src.size)) :
    Tokens src 0 := by
  refine (tokens src).goes_of_read (Nat.zero_le _) h fun b hb => ?_
  rw [rest_nil (getElem?_none (Nat.le_refl _))] at hb
  cases hb

end ClosureLang.Grammar

namespace ClosureLang.Conformance

open Grammar Text

/-- The words of characters. -/
def wordsOf (cs : List Char) : List (List UInt8) := words (cs.flatMap String.utf8EncodeChar)

theorem wordsOf_toList (s : String) : wordsOf s.toList = words s.toUTF8.data.toList := by
  rw [wordsOf, bytes_toUTF8]

theorem lineFeed_not_mem {cs : List Char} (h : '\n' ∉ cs) :
    ∀ b ∈ cs.flatMap String.utf8EncodeChar, b ≠ lineFeed := by
  intro b hb
  obtain ⟨c, hc, hb⟩ := List.mem_flatMap.mp hb
  rintro rfl
  obtain ⟨hlt, henc⟩ | ⟨-, hbytes⟩ := encode_cases c
  · rw [henc, List.mem_singleton] at hb
    have hval := congrArg UInt8.toNat hb
    rw [UInt8.toNat_ofNat', Nat.mod_eq_of_lt (by omega)] at hval
    have hchar : c = '\n' := by
      rw [← c.ofNat_toNat, ← hval]
      rfl
    exact h (hchar ▸ hc)
  · exact absurd (hbytes _ hb) (by decide)

theorem wordsOf_line {line : List Char} (h : '\n' ∉ line) (cs : List Char) :
    wordsOf (line ++ '\n' :: cs) = wordsOf line ++ wordsOf cs := by
  rw [wordsOf, List.flatMap_append, List.flatMap_cons]
  exact words_line _ (lineFeed_not_mem h) _

/-- A carriage return in front of a line feed is layout or belongs to a comment. -/
theorem pieces_return (comment : Bool) (bs : List UInt8) :
    pieces comment (0x0d :: lineFeed :: bs) = pieces comment (lineFeed :: bs) := by
  cases comment with
  | true => exact pieces_comment (by decide)
  | false => rw [pieces_blank rfl, pieces_blank rfl, words_blank rfl]

theorem wordsOf_dropReturns (cs : List Char) : wordsOf (dropReturns cs) = wordsOf cs := by
  have hpieces : ∀ c, pieces c ((dropReturns cs).flatMap String.utf8EncodeChar) =
      pieces c (cs.flatMap String.utf8EncodeChar) := by
    fun_induction dropReturns cs with
    | case1 => exact fun _ => rfl
    | case2 cs ih => exact fun c => (pieces_append c [lineFeed] ih).trans (pieces_return c _).symm
    | case3 c cs _ ih => exact fun m => pieces_append m _ ih
  rw [wordsOf, wordsOf, words, words, hpieces]

/-- The words of a text are those of its lines. -/
theorem wordsOf_lines (cs : List Char) : wordsOf cs = (splitOnChar '\n' cs).flatMap wordsOf := by
  obtain ⟨piece, pieces, hsplit, hcs, hsep⟩ := splitOnChar_pieces '\n' cs
  rw [hsplit, hcs]
  clear hsplit hcs
  induction pieces generalizing piece with
  | nil => simp
  | cons l pieces ih =>
    rw [List.forall_mem_cons] at hsep
    rw [List.flatMap_cons, List.cons_append, wordsOf_line hsep.1, ih l hsep.2]
    rfl

/-- The words of lines, some of which are dropped because they have none. -/
theorem wordsOf_kept (keeps : String → Bool) (ls : List (List Char)) (hls : ∀ l ∈ ls, '\n' ∉ l)
    (h : ∀ l ∈ ls, keeps (String.ofList l) = false → wordsOf l = []) :
    wordsOf (String.join (((ls.map String.ofList).filter keeps).map (· ++ "\n"))).toList =
      ls.flatMap wordsOf := by
  induction ls with
  | nil => rfl
  | cons l ls ih =>
    rw [List.forall_mem_cons] at hls h
    rw [List.flatMap_cons, ← ih hls.2 h.2, List.map_cons, List.filter_cons]
    cases hkeeps : keeps (String.ofList l) with
    | false => rw [if_neg Bool.false_ne_true, h.1 hkeeps, List.nil_append]
    | true =>
      rw [if_pos rfl, List.map_cons, String.join_cons, String.toList_append, String.toList_append,
        String.toList_ofList, List.append_assoc, ← wordsOf_line hls.1]
      rfl

theorem blank_of_trim {s : String} (h : trim s = "") : ∀ c ∈ s.toList, isBlank c = true := by
  have hrest := congrArg String.toList h
  simp only [trim, trimLeftBy, trimRightBy, String.toList_ofList, String.toList_empty,
    List.reverse_eq_nil_iff, List.dropWhile_eq_nil_iff, List.mem_reverse] at hrest
  intro c hc
  rw [← List.takeWhile_append_dropWhile (p := isBlank) (l := s.toList), List.mem_append] at hc
  exact hc.elim List.mem_takeWhile_imp (hrest c)

/-- White space has no words where all words are tokens: what is not layout of it belongs to
none. -/
theorem wordsOf_blank {cs : List Char} (h : ∀ c ∈ cs, isBlank c = true)
    (htokens : ∀ b ∈ (wordsOf cs).flatten, isToken b = true) : wordsOf cs = [] := by
  have hbytes : ∀ b ∈ cs.flatMap String.utf8EncodeChar, isToken b = false ∧ b ≠ hash := by
    intro b hb
    obtain ⟨c, hc, hb⟩ := List.mem_flatMap.mp hb
    obtain ⟨hlt, henc⟩ | ⟨-, hlarge⟩ := encode_cases c
    · rw [henc, List.mem_singleton] at hb
      have hchar : Char.ofNat b.toNat = c := by
        rw [hb, UInt8.toNat_ofNat', Nat.mod_eq_of_lt (by omega), c.ofNat_toNat]
      have hblank := h c hc
      rw [← hchar] at hblank
      refine ⟨?_, ?_⟩
      · cases htoken : isToken b with
        | false => rfl
        | true => rw [(isToken_cases htoken).2.2] at hblank; cases hblank
      · rintro rfl
        cases hblank
    · have hb := hlarge b hb
      refine ⟨?_, ?_⟩
      · cases htoken : isToken b with
        | false => rfl
        | true => exact absurd (isToken_cases htoken).2.1 (by omega)
      · rintro rfl
        exact absurd hb (by decide)
  rw [wordsOf] at htokens ⊢
  generalize cs.flatMap String.utf8EncodeChar = bs at hbytes htokens
  induction bs with
  | nil => rfl
  | cons b bs ih =>
    rw [List.forall_mem_cons] at hbytes
    cases hblank : isBlankByte b with
    | true =>
      rw [words_blank hblank] at htokens ⊢
      exact ih hbytes.2 htokens
    | false =>
      rw [flatten_words_solid (isInked_iff.mpr ⟨hblank, hbytes.1.2⟩), List.forall_mem_cons,
        hbytes.1.1] at htokens
      cases htokens.1

/-- The lines that conformance cases keep of a text that consists of tokens and layout have all its
words. -/
theorem words_fixLines {src : String} (h : Tokens src.toUTF8 0) :
    words (fixLines src).toUTF8.data.toList = words src.toUTF8.data.toList := by
  have hlines : words src.toUTF8.data.toList =
      (splitOnChar '\n' (dropReturns src.toList)).flatMap wordsOf := by
    rw [← wordsOf_toList, ← wordsOf_dropReturns, wordsOf_lines]
  have hblank : ∀ l ∈ splitOnChar '\n' (dropReturns src.toList),
      (decide (trim (String.ofList l) ≠ "")) = false → wordsOf l = [] := by
    intro l hl htrim
    have htrim : trim (String.ofList l) = "" := by simpa using htrim
    refine wordsOf_blank (by simpa using blank_of_trim htrim) fun b hb => h b ?_
    obtain ⟨w, hw, hb⟩ := List.mem_flatten.mp hb
    change b ∈ (words src.toUTF8.data.toList).flatten
    rw [hlines]
    exact List.mem_flatten.mpr ⟨w, List.mem_flatMap.mpr ⟨l, hl, hw⟩, hb⟩
  obtain ⟨piece, pieces, hsplit, -, hsep⟩ := splitOnChar_pieces '\n' (dropReturns src.toList)
  rw [← hsplit] at hsep
  have hkept := wordsOf_kept (fun l => trim l ≠ "") _ hsep hblank
  rw [hlines, ← hkept, ← wordsOf_toList, fixLines, lines, String.toList_ofList]
  split
  · rename_i hempty
    rw [List.isEmpty_iff.mp hempty]
    rfl
  · rfl

/-- Layout is insignificant: texts that differ in it only parse alike. Programs in the form that
conformance cases compare parse to similar trees. -/
theorem layout_insignificant (src : String) :
    (∀ src' : String, Relayout src.toUTF8.data.toList src'.toUTF8.data.toList →
      SameOutcome (parseProgram src) (parseProgram src') ∧
      SameOutcome (parseExpression src) (parseExpression src')) ∧
    ∀ t, parseProgram src = .ok t →
      ∃ t', parseProgram (fixLines src) = .ok t' ∧ t.similar t' = true := by
  refine ⟨fun src' h => sameOutcome_of_words h.words_eq, fun t ht => ?_⟩
  have htokens := tokens_of_read (parseProgram_ok.mp ht)
  have hsame := (sameOutcome_of_words (words_fixLines htokens).symm).1
  rw [ht] at hsame
  generalize parseProgram (fixLines src) = o at hsame
  cases hsame with
  | ok hsimilar => exact ⟨_, rfl, hsimilar⟩

/-- A program between two comments, and with a tab in it. -/
theorem layout_insignificant_print :
    Relayout "print 1;\n\n".toUTF8.data.toList "#a\nprint\t1;#b".toUTF8.data.toList ∧
      SameOutcome (parseProgram "print 1;\n\n") (parseProgram "#a\nprint\t1;#b") ∧
      ∃ t t', parseProgram "print 1;\n\n" = .ok t ∧
        parseProgram (fixLines "print 1;\n\n") = .ok t' ∧
        t.similar t' = true := by
  have hsrc : "print 1;\n\n".toUTF8.data.toList =
      [112, 114, 105, 110, 116, 32, 49, 59, 10, 10] := by decide +kernel
  have hsrc' : "#a\nprint\t1;#b".toUTF8.data.toList =
      [35, 97, 10, 112, 114, 105, 110, 116, 9, 49, 59, 35, 98] := by decide +kernel
  have hgap : Relaid [32, 49, 59, 10, 10] [9, 49, 59, 35, 98] := by
    refine @Relaid.gap [32] [9] 49 _ _ nofun nofun (.blank rfl .nil) (.blank rfl .nil)
      rfl (.solid rfl ?_)
    exact .finish (.blank rfl (.blank rfl .nil))
      (.unclosed (List.forall_mem_singleton.mpr (by decide)))
  have hrelaid :
      Relaid [112, 114, 105, 110, 116, 32, 49, 59, 10, 10]
        [112, 114, 105, 110, 116, 9, 49, 59, 35, 98] :=
    .solid rfl (.solid rfl (.solid rfl (.solid rfl (.solid rfl hgap))))
  have hlayout :
      Relayout "print 1;\n\n".toUTF8.data.toList "#a\nprint\t1;#b".toUTF8.data.toList := by
    have hcomment : IsLayout false [35, 97, 10] :=
      @IsLayout.comment false [97] [] (List.forall_mem_singleton.mpr (by decide)) .nil
    rw [hsrc, hsrc']
    exact .start .nil hcomment hrelaid
  have hok : (parseProgram "print 1;\n\n").isOk = true := by decide +kernel
  cases hparse : parseProgram "print 1;\n\n" with
  | error e => rw [hparse] at hok; cases hok
  | ok t =>
    obtain ⟨hsame, hlines⟩ := layout_insignificant "print 1;\n\n"
    obtain ⟨t', ht', hsimilar⟩ := hlines t hparse
    exact ⟨hlayout, hparse ▸ (hsame _ hlayout).1, t, t', rfl, ht', hsimilar⟩

end ClosureLang.Conformance
