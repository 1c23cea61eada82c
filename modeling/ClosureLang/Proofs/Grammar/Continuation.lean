import ClosureLang.Proofs.Grammar.Memoization
import ClosureLang.Proofs.Grammar.Parallel

/-! The parses of a text and of a longer one that starts with it. They differ only behind the place
where the shorter text misses a token at its end. -/
namespace ClosureLang.Grammar

/-- The text `src'` goes on behind the last line of `src`. -/
structure Continues (src src' : ByteArray) : Prop where
  bytes : ∃ rest, src'.data.toList = src.data.toList ++ rest
  last : src.data.toList.getLast? = some lineFeed

namespace Continues

variable {src src' : ByteArray} {p q : Nat} {c : UInt8 → Bool}

section

variable (h : Continues src src')

include h

theorem size_le : src.size ≤ src'.size := by
  obtain ⟨rest, hrest⟩ := h.bytes
  have hlength := congrArg List.length hrest
  simp only [List.length_append, Array.length_toList, ByteArray.size_data] at hlength
  omega

theorem getElem?_eq (hq : q < src.size) : src'[q]? = src[q]? := by
  obtain ⟨rest, hrest⟩ := h.bytes
  rw [Grammar.getElem?_eq, Grammar.getElem?_eq, hrest, List.getElem?_append_left hq]

theorem lineFeed_last : src[src.size - 1]? = some lineFeed := by
  rw [Grammar.getElem?_eq, ← h.last, List.getLast?_eq_getElem?]
  rfl

/-- A run of bytes that are no line feeds ends before the shorter text does. -/
theorem runEnd_eq (hc : c lineFeed = false) (hq : q < src.size) :
    runEnd c src q < src.size ∧ runEnd c src' q = runEnd c src q := by
  induction hn : src.size - q generalizing q with
  | zero => omega
  | succ n ih =>
    cases hany : (src[q]?).any c with
    | false =>
      have hstop {s : ByteArray} (hs : (s[q]?).any c = false) : runEnd c s q = q := by
        cases hsize : s.size - q <;> simp [runEnd, runLength, hsize, hs]
      rw [hstop hany, hstop (by rwa [h.getElem?_eq hq])]
      exact ⟨hq, rfl⟩
    | true =>
      have hnext : q + 1 < src.size := by
        by_contra hle
        have hlast := h.lineFeed_last
        rw [show src.size - 1 = q by omega] at hlast
        rw [hlast, Option.any_some, hc] at hany
        cases hany
      have hany' : (src'[q]?).any c = true := by rwa [h.getElem?_eq hq]
      rw [runEnd_of_any hany, runEnd_of_any hany']
      exact ih hnext (by omega)

theorem holds_eq {cs : List Char} (hcs : ∀ x ∈ cs, UInt8.ofNat x.toNat ≠ lineFeed)
    (hq : q < src.size) :
    holds src' q cs = holds src q cs ∧ (holds src q cs = true → q + cs.length < src.size) := by
  induction cs generalizing q with
  | nil => exact ⟨rfl, fun _ => hq⟩
  | cons x cs ih =>
    simp only [holds, h.getElem?_eq hq, Bool.and_eq_true, decide_eq_true_eq, List.length_cons]
    by_cases hx : src[q]? = some (UInt8.ofNat x.toNat)
    · have hnext : q + 1 < src.size := by
        by_contra hle
        have hlast := h.lineFeed_last
        rw [show src.size - 1 = q by omega, hx] at hlast
        exact hcs x List.mem_cons_self (Option.some.inj hlast)
      obtain ⟨heq, hlt⟩ := ih (fun y hy => hcs y (List.mem_cons_of_mem _ hy)) hnext
      refine ⟨by rw [heq], fun hh => ?_⟩
      have := hlt hh.2
      omega
    · simp [hx]

theorem layoutLength_eq (comment : Bool) (hq : q ≤ src.size) :
    layoutLength src comment (src.size - q) q =
      min (layoutLength src' comment (src'.size - q) q) (src.size - q) := by
  induction hn : src.size - q generalizing q comment with
  | zero => simp [layoutLength]
  | succ n ih =>
    have hle := h.size_le
    have hlt : q < src.size := by omega
    obtain ⟨n', hn'⟩ : ∃ n', src'.size - q = n' + 1 := ⟨src'.size - q - 1, by omega⟩
    have hstep (b : Bool) :
        layoutLength src b n (q + 1) + 1 = min (layoutLength src' b n' (q + 1) + 1) (n + 1) := by
      have hrest := ih (q := q + 1) b (by omega) (by omega)
      rw [show src'.size - (q + 1) = n' by omega] at hrest
      omega
    rw [hn', layoutLength, layoutLength, h.getElem?_eq hlt]
    cases hb : src[q]? with
    | none => exact absurd hb (by simp [hlt])
    | some b =>
      simp only
      split
      · exact hstep _
      · split
        · exact hstep _
        · split
          · exact hstep _
          · simp

theorem layoutEnd_eq (hq : q ≤ src.size) : layoutEnd src q = min (layoutEnd src' q) src.size := by
  have hlength := h.layoutLength_eq false hq
  simp only [layoutEnd]
  omega

theorem asciiText_eq (hpq : p ≤ q) (hq : q ≤ src.size) :
    asciiText src' p q = asciiText src p q := by
  obtain ⟨rest, hrest⟩ := h.bytes
  obtain ⟨n, rfl⟩ := Nat.exists_eq_add_of_le hpq
  have hlength : src.data.toList.length = src.size := rfl
  rw [Grammar.asciiText_eq, Grammar.asciiText_eq, hrest, List.drop_append_of_le_length (by omega),
    List.take_append_of_le_length (by simp; omega)]

end

/-- Both parses stand at the same place, or the first one at its end and the second one behind
it. -/
def At (src src' : ByteArray) (p p' : Nat) : Prop := p = min p' src.size ∧ p' ≤ src'.size

theorem at_layout (h : Continues src src') {p p' : Nat} (hat : At src src' p p') :
    At src src' (layoutEnd src p) (layoutEnd src' p') := by
  obtain ⟨hp, hle'⟩ := hat
  refine ⟨?_, layoutEnd_le hle'⟩
  rw [h.layoutEnd_eq (by omega)]
  obtain hlt | hge := Nat.lt_or_ge p' src.size
  · rw [show p = p' by omega]
  · have hend : p = src.size := by omega
    have hleft := le_layoutEnd src' p
    have hright := le_layoutEnd src' p'
    omega

/-- Where the first text has a token, or misses one before its end, the second parse stands too. -/
theorem start_eq (h : Continues src src') {p p' : Nat} (hat : At src src' p p')
    (hlt : layoutEnd src p < src.size) : layoutEnd src' p' = layoutEnd src p := by
  have hlayout := (h.at_layout hat).1
  omega

theorem at_same (h : Continues src src') (hq : q < src.size) : At src src' q q := by
  have hle := h.size_le
  exact ⟨by omega, by omega⟩

/-- The end of the text is no token. -/
theorem before_end {α : Type} {o : Option α} {start : Nat} (hend : start = src.size → o = none)
    (hbefore : o = none → Before (some src.size) start) (hle : start ≤ src.size) :
    start < src.size := by
  by_contra hge
  have heq : start = src.size := by omega
  exact hge (hbefore (hend heq) _ rfl)

theorem holds_end {cs : List Char} (hcs : cs ≠ []) : holds src src.size cs = false := by
  cases cs with
  | nil => exact absurd rfl hcs
  | cons c cs => simp [holds]

theorem char_of_isMark {s : String} (hs : isMark s = true) :
    s.toList ≠ [] ∧ ∀ x ∈ s.toList, UInt8.ofNat x.toNat ≠ lineFeed := by
  obtain ⟨hne, hchars⟩ := chars_of_isMark hs
  refine ⟨hne, fun x hx heq => ?_⟩
  have hblank := (hchars x hx).2.1
  rw [heq] at hblank
  cases hblank

theorem char_of_isReserved {s : String} (hs : isReserved s = true) :
    s.toList ≠ [] ∧ ∀ x ∈ s.toList, UInt8.ofNat x.toNat ≠ lineFeed := by
  have hall : (keywords.all fun s => !s.toList.isEmpty) = true := rfl
  have hword := List.all_eq_true.mp hall s (by simpa [isReserved] using hs)
  refine ⟨by simpa using hword, fun x hx heq => ?_⟩
  have hident := (reserved_ascii hs x hx).1
  rw [heq] at hident
  cases hident

section Tokens

variable (h : Continues src src') {p' : Nat} {s : String}

include h

/-- A word or mark that the first text has does not reach its end, and the second text has it
too. -/
theorem holds_start (hs : s.toList ≠ [] ∧ ∀ x ∈ s.toList, UInt8.ofNat x.toNat ≠ lineFeed)
    (hlt : layoutEnd src p < src.size) (hat : At src src' p p') :
    holds src' (layoutEnd src' p') s.toList = holds src (layoutEnd src p) s.toList ∧
    (holds src (layoutEnd src p) s.toList = true → layoutEnd src p + s.length < src.size) := by
  rw [h.start_eq hat hlt, ← String.length_toList]
  exact h.holds_eq hs.2 hlt

theorem at_literal (hs : isMark s = true) (hat : At src src' p p')
    (hbefore : litAt src s p = none → Before (some src.size) (layoutEnd src p)) :
    (layoutEnd src p = layoutEnd src' p' ∧ layoutEnd src p < src.size) ∧
      Option.Rel (fun a b => At src src' a.2 b.2 ∧
          ∀ c, isMark (String.singleton c) = true →
            peek src (a.1 + s.length) c = peek src' (b.1 + s.length) c)
        (litAt src s p) (litAt src' s p') := by
  have hchars := char_of_isMark hs
  have hlt : layoutEnd src p < src.size := by
    refine before_end (fun hend => ?_) hbefore (layoutEnd_le (by have := hat.1; omega))
    simp [litAt, hend, holds_end hchars.1]
  have hstart := h.start_eq hat hlt
  obtain ⟨hholds, hstop⟩ := h.holds_start hchars hlt hat
  refine ⟨⟨hstart.symm, hlt⟩, ?_⟩
  rw [litAt, litAt, hholds, hstart]
  split
  · have hinside := hstop ‹_›
    exact .some ⟨h.at_layout (h.at_same hinside),
      fun c hc => (h.holds_eq (by simpa using (char_of_isMark hc).2) hinside).1.symm⟩
  · exact .none

theorem at_keyword (hs : isReserved s = true) (hat : At src src' p p')
    (hbefore : wordAt src s p = none → Before (some src.size) (layoutEnd src p)) :
    (layoutEnd src p = layoutEnd src' p' ∧ layoutEnd src p < src.size) ∧
      Option.Rel (fun a b => At src src' a.2 b.2) (wordAt src s p) (wordAt src' s p') := by
  have hchars := char_of_isReserved hs
  have hlt : layoutEnd src p < src.size := by
    refine before_end (fun hend => ?_) hbefore (layoutEnd_le (by have := hat.1; omega))
    simp [wordAt, hend, holds_end hchars.1]
  have hstart := h.start_eq hat hlt
  obtain ⟨hholds, hstop⟩ := h.holds_start hchars hlt hat
  refine ⟨⟨hstart.symm, hlt⟩, ?_⟩
  rw [wordAt, wordAt, hholds, hstart]
  cases hh : holds src (layoutEnd src p) s.toList with
  | false => exact .none
  | true =>
    have hinside := hstop hh
    rw [h.getElem?_eq hinside]
    split
    · exact .some (h.at_layout (h.at_same hinside))
    · exact .none

theorem at_ident (hat : At src src' p p')
    (hbefore : identAt src p = none → Before (some src.size) (layoutEnd src p)) :
    (layoutEnd src p = layoutEnd src' p' ∧ layoutEnd src p < src.size) ∧
      Option.Rel (fun a b => a.1 = b.1 ∧ At src src' a.2 b.2) (identAt src p)
        (identAt src' p') := by
  have hlt : layoutEnd src p < src.size := by
    refine before_end (fun hend => ?_) hbefore (layoutEnd_le (by have := hat.1; omega))
    simp [identAt, hend]
  have hstart := h.start_eq hat hlt
  obtain ⟨hinside, hrun⟩ := h.runEnd_eq (c := isIdentByte) (by decide) hlt
  refine ⟨⟨hstart.symm, hlt⟩, ?_⟩
  have hle : layoutEnd src p ≤ runEnd isIdentByte src (layoutEnd src p) := Nat.le_add_right _ _
  simp only [identAt, hstart, hrun, h.getElem?_eq hlt, h.asciiText_eq hle (Nat.le_of_lt hinside)]
  split
  · cases Pattern.name
      (asciiText src (layoutEnd src p) (runEnd isIdentByte src (layoutEnd src p))) with
    | none => exact .none
    | some x => exact .some ⟨rfl, h.at_layout (h.at_same hinside)⟩
  · exact .none

theorem at_integer (hat : At src src' p p')
    (hbefore : integerAt src p = none → Before (some src.size) (layoutEnd src p)) :
    (layoutEnd src p = layoutEnd src' p' ∧ layoutEnd src p < src.size) ∧
      Option.Rel (fun a b => a.1 = b.1 ∧ At src src' a.2 b.2) (integerAt src p)
        (integerAt src' p') := by
  have hlt : layoutEnd src p < src.size := by
    refine before_end (fun hend => ?_) hbefore (layoutEnd_le (by have := hat.1; omega))
    rw [integerAt, hend, word?_asciiText]
    simp
  have hstart := h.start_eq hat hlt
  obtain ⟨hinside, hrun⟩ := h.runEnd_eq (c := isDigitByte) (by decide) hlt
  refine ⟨⟨hstart.symm, hlt⟩, ?_⟩
  have hle : layoutEnd src p ≤ runEnd isDigitByte src (layoutEnd src p) := Nat.le_add_right _ _
  simp only [integerAt, hstart, hrun, h.asciiText_eq hle (Nat.le_of_lt hinside)]
  cases Decimal.word?
    (asciiText src (layoutEnd src p) (runEnd isDigitByte src (layoutEnd src p))) with
  | none => exact .none
  | some w => exact .some ⟨rfl, h.at_layout (h.at_same hinside)⟩

end Tokens

/-- The parses of both texts, up to the end of the first one. -/
def parallel (h : Continues src src') : Parallel src src' where
  limit := some src.size
  At := At src src'
  Here p p' := p = p' ∧ p < src.size
  name _ x := x
  place o := o
  name' _ x := x
  place' o := o
  at_le hat := ⟨by have := hat.1; omega, hat.2⟩
  at_layout := h.at_layout
  here_of_layout {p p'} hat hhere := by
    have hleft := le_layoutEnd src p
    have hat := hat.1
    omega
  place_here hhere := by rw [hhere.1]
  place_zero := rfl
  name_reserved _ _ _ := ⟨rfl, rfl⟩
  at_literal := h.at_literal
  at_keyword := h.at_keyword
  at_ident hat hbefore := by simpa only [Tree.relabel_id] using h.at_ident hat hbefore
  at_integer hat hbefore := by simpa only [Tree.relabel_id] using h.at_integer hat hbefore

end Continues

/-- The error of a text stands where a parse without the table gets. -/
theorem offset_of_error {src : String} {e : SyntaxError} (h : parseProgram src = .error e) :
    e.offset = far src.toUTF8 .program 0 := by
  have hcovers := covers_whole Rule.program (covers_empty src.toUTF8)
  have hserve : parseProgram src =
      verdict src.toUTF8 (whole src.toUTF8 .program (.empty src.toUTF8.size)).2.farthest
      (whole src.toUTF8 .program (.empty src.toUTF8.size)).1 :=
    congrArg Prod.fst (serve_eq {} ⟨.program, src⟩)
  rw [hserve] at h
  rw [verdict_error h, hcovers.2.farthest]
  simp

/-- A text that is no program, but starts one that goes on behind a line of it, misses a token at
its end. -/
theorem offset_of_continues {src text : String} {e : SyntaxError} {t : Tree}
    (h : Continues src.toUTF8 text.toUTF8) (herror : parseProgram src = .error e)
    (hok : parseProgram text = .ok t) : src.utf8ByteSize ≤ e.offset := by
  by_contra hlt
  have hfar : Before (some src.toUTF8.size) (far src.toUTF8 .program 0) := by
    rintro l ⟨⟩
    rw [← offset_of_error herror]
    exact Nat.lt_of_not_le hlt
  have hat : Continues.At src.toUTF8 text.toUTF8 0 0 := ⟨by omega, Nat.zero_le _⟩
  have hjoint : Option.Rel h.parallel.Joint (ofRead (read src.toUTF8 .program 0))
      (ofRead (read text.toUTF8 .program 0)) :=
    Parallel.joint_reading (r := .program) (by decide) hat hfar
  rw [parseProgram_ok.mp hok] at hjoint
  cases hread : read src.toUTF8 .program 0 with
  | none => rw [hread] at hjoint; cases hjoint
  | some m =>
    -- the shorter text would be read to its end
    rw [hread] at hjoint
    obtain ⟨u, q⟩ := m
    obtain ⟨-, -, -, hstop⟩ : h.parallel.Joint _ _ := by cases hjoint; assumption
    have hend : q = src.utf8ByteSize := by
      have hle := h.size_le
      have hmin : q = min text.utf8ByteSize src.utf8ByteSize := hstop.1
      have hsize : src.utf8ByteSize ≤ text.utf8ByteSize := hle
      omega
    rw [parseProgram_ok.mpr (hend ▸ hread)] at herror
    cases herror

end ClosureLang.Grammar
