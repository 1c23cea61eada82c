import ClosureLang.Proofs.Grammar.Ahead
import ClosureLang.Proofs.Grammar.Names
import ClosureLang.Proofs.Grammar.Parallel

/-! A program text in which a name is spelled differently at some of the places where it stands. It
is parsed like the text before, token by token. -/
namespace ClosureLang.Grammar

open ClosureLang.Tree

variable {src src' : ByteArray} {p q i : Nat} {c : UInt8 → Bool} {x : String}

/-! Runs of bytes, and the words that they spell. -/

theorem runEnd_eq_of (hp : p ≤ q) (hrun : ∀ i, p ≤ i → i < q → (src[i]?).any c = true)
    (hstop : (src[q]?).any c = false) : runEnd c src p = q := by
  obtain hlt | heq | hgt := Nat.lt_trichotomy (runEnd c src p) q
  · have hany := hrun (runEnd c src p) (Nat.le_add_right _ _) hlt
    rw [runEnd_stop] at hany
    cases hany
  · exact heq
  · rw [any_of_lt_runEnd hp hgt] at hstop
    cases hstop

theorem length_asciiText (hp : p ≤ q) (hq : q ≤ src.size) : (asciiText src p q).length = q - p := by
  obtain ⟨n, rfl⟩ := Nat.exists_eq_add_of_le hp
  have hlength : src.data.toList.length = src.size := rfl
  rw [asciiText_eq]
  simp only [List.length_map, List.length_take, List.length_drop]
  omega

/-- What stands behind a byte that a word may start with is part of the word. -/
theorem word_of_run (hmode : modeAt src p ≠ .comment) (hstart : (src[p]?).any isIdentStart = true)
    (hp : p < i) (hi : i ≤ runEnd isIdentByte src p) : modeAt src i = .word := by
  induction i with
  | zero => omega
  | succ i ih =>
    have hhash : ∀ b, isIdentByte b = true → b ≠ hash := by
      rintro b hb rfl
      cases hb
    obtain rfl | hlt := Nat.eq_or_lt_of_le (Nat.le_of_lt_succ hp)
    · obtain ⟨b, hb, hc⟩ := exists_of_any hstart
      simp [modeAt_succ hb, Mode.next, hmode, hhash b (isIdentByte_of_isIdentStart b hc), hc]
    · obtain ⟨b, hb, hc⟩ :=
        exists_of_any (any_of_lt_runEnd (Nat.le_of_lt hlt) (Nat.lt_of_succ_le hi))
      have hident : (isIdentStart b || isDigitByte b) = true := hc
      simp [modeAt_succ hb, Mode.next, ih hlt (Nat.le_of_succ_le hi), hhash b hc, hident]

/-- The same bytes spell the same text. -/
theorem asciiText_congr {n : Nat} (h : ∀ i, i < n → src'[q + i]? = src[p + i]?) :
    asciiText src' q (q + n) = asciiText src p (p + n) := by
  rw [asciiText_eq, asciiText_eq]
  refine congrArg _ (List.ext_getElem? fun i => ?_)
  rw [List.getElem?_take, List.getElem?_take]
  split
  · rw [List.getElem?_drop, List.getElem?_drop, ← getElem?_eq, ← getElem?_eq, h i ‹_›]
  · rfl

theorem holds_of_asciiText {cs : List Char} (h : asciiText src p (p + cs.length) = cs)
    (hcs : ∀ i, p ≤ i → i < p + cs.length → (src[i]?).any isIdentByte = true) :
    holds src p cs = true := by
  induction cs generalizing p with
  | nil => rfl
  | cons c cs ih =>
    obtain ⟨b, hb, hident⟩ := exists_of_any (hcs p (Nat.le_refl p) (by simp))
    have hp := (getElem?_eq src p).symm.trans hb
    obtain ⟨hlt, hget⟩ := List.getElem?_eq_some_iff.mp hp
    rw [asciiText_eq, List.drop_eq_getElem_cons hlt, hget, List.length_cons, List.take_succ_cons,
      List.map_cons, List.cons.injEq, ← asciiText_eq] at h
    have hbyte : b = UInt8.ofNat c.toNat := h.1 ▸ (ident_byte hident).2.2.symm
    rw [holds, hb, hbyte, ih h.2 fun i hi hi' => hcs i (by omega) (by rw [List.length_cons]; omega)]
    simp

/-- A reserved word stands where the longest word is the reserved one. -/
theorem wordAt_eq {s : String} (hs : isReserved s = true) (hp : p ≤ src.size) : wordAt src s p =
    if asciiText src (layoutEnd src p) (runEnd isIdentByte src (layoutEnd src p)) = s.toList then
      some (layoutEnd src p, layoutEnd src (runEnd isIdentByte src (layoutEnd src p)))
    else none := by
  have hle : layoutEnd src p ≤ runEnd isIdentByte src (layoutEnd src p) := Nat.le_add_right _ _
  cases h : wordAt src s p with
  | some m =>
    obtain ⟨start, stop⟩ := m
    have hrun := run_of_wordAt h hs
    obtain ⟨-, hstart, hstop⟩ := wordAt_some h
    have hlength := length_asciiText hle (runEnd_le isIdentByte (layoutEnd_le hp))
    rw [hrun, String.length_toList] at hlength
    rw [if_pos hrun, hstop, hstart,
      show layoutEnd src p + s.length = runEnd isIdentByte src (layoutEnd src p) by omega]
  | none =>
    rw [if_neg]
    intro hrun
    have hlength := length_asciiText hle (runEnd_le isIdentByte (layoutEnd_le hp))
    rw [hrun, String.length_toList] at hlength
    have hend : runEnd isIdentByte src (layoutEnd src p) = layoutEnd src p + s.length := by omega
    have hstop := runEnd_stop isIdentByte src (layoutEnd src p)
    have hholds : holds src (layoutEnd src p) s.toList = true := by
      refine holds_of_asciiText (by rwa [String.length_toList, ← hend]) fun i hi hi' =>
        any_of_lt_runEnd hi ?_
      rwa [String.length_toList, ← hend] at hi'
    rw [hend] at hstop
    simp [wordAt, hholds, hstop] at h

theorem start_of_wordAt {s : String} {m : Nat × Nat} (h : wordAt src s p = some m)
    (hs : isReserved s = true) : (src[layoutEnd src p]?).any isIdentStart = true := by
  have hall :
      (keywords.all fun s => s.toList.head?.any fun c => isIdentStart (UInt8.ofNat c.toNat)) =
        true := rfl
  have hword := List.all_eq_true.mp hall s (by simpa [isReserved] using hs)
  obtain ⟨start, stop⟩ := m
  obtain ⟨⟨hholds, -⟩, rfl, -⟩ := wordAt_some h
  cases hcs : s.toList with
  | nil => simp [hcs] at hword
  | cons c cs =>
    rw [hcs] at hword hholds
    rw [holds_head hholds]
    exact hword

/-- The name that stands at an offset is the longest word there. -/
theorem NameAt.word (h : NameAt src p x) :
    modeAt src p = .free ∧ (src[p]?).any isIdentStart = true ∧
    isReserved x = false ∧ asciiText src p (runEnd isIdentByte src p) = x.toList := by
  obtain ⟨p', hp', hfree, q, hident⟩ := h
  obtain rfl := Int.ofNat_inj.mp hp'
  simp only [identAt, Option.ite_none_right_eq_some, Option.map_eq_some_iff, Prod.mk.injEq,
    Tree.ident, Tree.node.injEq, Label.ident.injEq, Int.ofNat_inj] at hident
  obtain ⟨hstart, y, hname, ⟨rfl, hp, -⟩, -⟩ := hident
  rw [hp] at hstart hname
  simp only [Pattern.name, Option.ite_none_left_eq_some, Option.some.injEq] at hname
  obtain ⟨hreserved, rfl⟩ := hname
  exact ⟨hfree, hstart, (Bool.not_eq_true _).mp hreserved, String.toList_ofList.symm⟩

theorem NameAt.isName (h : NameAt src p x) : IsName x := by
  obtain ⟨p', -, -, q, hident⟩ := h
  have hvalue := Peg.value_of_eval (Q := fun _ _ => True) (f := fun _ _ => none)
    (fun _ _ _ _ => trivial) Pattern.ident p'
    _ (show Peg.eval src (fun _ _ => none) Pattern.ident p' = _ from eval_ident.trans hident)
  obtain ⟨o, y, hy, hname⟩ := isIdent_of_value hvalue
  cases hy
  exact hname

theorem NameAt.runEnd_eq (h : NameAt src p x) : runEnd isIdentByte src p = p + x.length := by
  obtain ⟨-, hstart, -, htext⟩ := h.word
  obtain ⟨b, hb, -⟩ := exists_of_any hstart
  have hle : p ≤ runEnd isIdentByte src p := Nat.le_add_right _ _
  have hlength := length_asciiText hle (runEnd_le isIdentByte (Nat.le_of_lt (lt_size hb)))
  rw [htext, String.length_toList] at hlength
  omega

/-- The bytes of a name are those of one word. -/
theorem NameAt.any_of_lt (h : NameAt src p x) (hp : p ≤ i) (hi : i < p + x.length) :
    (src[i]?).any isIdentByte = true := any_of_lt_runEnd hp (by rwa [h.runEnd_eq])

/-- Inside a name there is no other one. -/
theorem NameAt.word_of_lt (h : NameAt src p x) (hp : p < i) (hi : i ≤ p + x.length) :
    modeAt src i = .word := by
  obtain ⟨hfree, hstart, -, -⟩ := h.word
  exact word_of_run (by rw [hfree]; decide) hstart hp (by rwa [h.runEnd_eq])

/-- The bytes of the name `n` bytes long at one of the sites. -/
def Covered (sites : List Int) (n p : Nat) : Prop :=
  ∃ s : Nat, (s : Int) ∈ sites ∧ s ≤ p ∧ p < s + n

/-- The name of a tree with `new` for `old` at the sites. -/
def respell (sites : List Int) (old new : String) (o : Int) (x : String) : String :=
  if o ∈ sites ∧ x = old then new else x

def moved (shift : Nat → Nat) (o : Int) : Int := shift o.toNat

/-- The second text has the name `new` for `old` at the sites, and is else the same; `shift` says
where what stands in the first text stands in the second one. -/
structure Respells (src src' : ByteArray) (sites : List Int) (old new : String)
    (shift : Nat → Nat) : Prop where
  unreserved : isReserved old = false
  name : IsName new
  at_site : ∀ s : Nat, (s : Int) ∈ sites → NameAt src s old
  written : ∀ s : Nat, (s : Int) ∈ sites →
    holds src' (shift s) new.toList = true ∧ shift (s + old.length) = shift s + new.length
  copied : ∀ p < src.size, ¬ Covered sites old.length p →
      src'[shift p]? = src[p]? ∧ shift (p + 1) = shift p + 1
  zero : shift 0 = 0
  stop : shift src.size = src'.size

namespace Respells

variable {sites : List Int} {old new : String} {shift : Nat → Nat} {s : String} {n : Nat}

section Bytes

variable (h : Respells src src' sites old new shift)

include h

/-- No token starts in the middle of a name. -/
theorem site_of_loose (hp : Loose src p) (hcovered : Covered sites old.length p) :
    (p : Int) ∈ sites := by
  obtain ⟨s, hs, hle, hlt⟩ := hcovered
  obtain rfl | hgt := Nat.eq_or_lt_of_le hle
  · exact hs
  · obtain ⟨b, hb, hident⟩ := exists_of_any ((h.at_site s hs).any_of_lt hle hlt)
    have hword := (h.at_site s hs).word_of_lt hgt (Nat.le_of_lt hlt)
    rw [(hp b hb).2 hident] at hword
    cases hword

theorem start_site {s : Nat} (hs : (s : Int) ∈ sites) :
    (src'[shift s]?).any isIdentStart = true := by
  obtain ⟨-, -, -, c, cs, hcs, hc⟩ := name_chars h.name
  have hholds := (h.written s hs).1
  rw [hcs] at hholds
  rw [holds_head hholds]
  exact hc

/-- Where a token may start, a name is replaced or the texts have the same byte. -/
theorem site_or_copied (hp : Loose src p) :
    ((p : Int) ∈ sites ∧ (src[p]?).any isIdentStart = true ∧
      (src'[shift p]?).any isIdentStart = true) ∨
      (p < src.size → src'[shift p]? = src[p]? ∧ shift (p + 1) = shift p + 1) := by
  by_cases hcovered : Covered sites old.length p
  · have hs := h.site_of_loose hp hcovered
    exact .inl ⟨hs, (h.at_site p hs).word.2.1, h.start_site hs⟩
  · exact .inr fun hlt => h.copied p hlt hcovered

/-- A class of bytes that agrees on both, whether names are replaced or not. -/
theorem any_eq (hp : Loose src p) (hle : p ≤ src.size)
    (hc : (∀ b, isIdentStart b = true → c b = true) ∨ ∀ b, isIdentStart b = true → c b = false) :
    (src'[shift p]?).any c = (src[p]?).any c := by
  obtain ⟨-, hany, hany'⟩ | hcopied := h.site_or_copied hp
  · obtain ⟨b, hb, hstart⟩ := exists_of_any hany
    obtain ⟨b', hb', hstart'⟩ := exists_of_any hany'
    rw [hb, hb', Option.any_some, Option.any_some]
    obtain hc | hc := hc <;> rw [hc b hstart, hc b' hstart']
  · obtain rfl | hlt := Nat.eq_or_lt_of_le hle
    · rw [h.stop, getElem?_none (Nat.le_refl _), getElem?_none (Nat.le_refl _)]
    · rw [(hcopied hlt).1]

theorem copied_run (hle : p + n ≤ src.size)
    (hfree : ∀ i, i < n → ¬ Covered sites old.length (p + i)) :
    shift (p + n) = shift p + n ∧ ∀ i, i < n → src'[shift p + i]? = src[p + i]? := by
  induction n with
  | zero => exact ⟨rfl, nofun⟩
  | succ n ih =>
    obtain ⟨hshift, hbytes⟩ := ih (by omega) fun i hi => hfree i (by omega)
    obtain ⟨hbyte, hnext⟩ := h.copied (p + n) (by omega) (hfree n (by omega))
    refine ⟨by rw [← Nat.add_assoc, hnext, hshift, Nat.add_assoc], fun i hi => ?_⟩
    obtain hlt | rfl := Nat.lt_succ_iff_lt_or_eq.mp hi
    · exact hbytes i hlt
    · rw [← hshift, hbyte]

/-- The longest word at the start of a token: it is replaced, or it is the same in both texts. -/
theorem run_eq (hp : Loose src p) (hstart : (src[p]?).any isIdentStart = true) :
    runEnd isIdentByte src' (shift p) = shift (runEnd isIdentByte src p) ∧
      ((p : Int) ∈ sites ∧ asciiText src p (runEnd isIdentByte src p) = old.toList ∧
          asciiText src' (shift p) (shift (runEnd isIdentByte src p)) = new.toList ∨
        (p : Int) ∉ sites ∧ asciiText src' (shift p) (shift (runEnd isIdentByte src p)) =
          asciiText src p (runEnd isIdentByte src p)) := by
  obtain ⟨b, hb, hb'⟩ := exists_of_any hstart
  have hident := isIdentByte_of_isIdentStart
  have hfree := (hp b hb).2 (hident b hb')
  have hle := runEnd_le isIdentByte (Nat.le_of_lt (lt_size hb))
  have hstop : (src'[shift (runEnd isIdentByte src p)]?).any isIdentByte = false := by
    rw [h.any_eq (loose_word hp) hle (.inl hident), runEnd_stop]
  by_cases hs : (p : Int) ∈ sites
  · obtain ⟨-, -, hident, -⟩ := name_chars h.name
    obtain ⟨hholds, hshift⟩ := h.written p hs
    rw [(h.at_site p hs).runEnd_eq] at hstop ⊢
    rw [hshift, ← String.length_toList] at hstop ⊢
    obtain ⟨-, -, -, htext⟩ := (h.at_site p hs).word
    rw [(h.at_site p hs).runEnd_eq] at htext
    have hplain := (name_chars h.name).2.1
    refine ⟨?_, .inl ⟨hs, htext, ?_⟩⟩
    · rw [runEnd, runLength_of_holds _ (Nat.le_refl _) hholds hident hstop]
    · exact asciiText_of_holds hholds fun x hx => ascii_of_isPlain (List.all_eq_true.mp hplain x hx)
  · -- no other name that is replaced starts inside the word
    obtain ⟨n, hn⟩ :=
      Nat.exists_eq_add_of_le (show p ≤ runEnd isIdentByte src p from Nat.le_add_right _ _)
    have hfree : ∀ i, i < n → ¬ Covered sites old.length (p + i) := by
      rintro i hi ⟨s, hsite, hsle, hslt⟩
      obtain hlt | rfl | hgt := Nat.lt_trichotomy s p
      · exact hs (h.site_of_loose hp ⟨s, hsite, Nat.le_of_lt hlt, by omega⟩)
      · exact hs hsite
      · have hword := word_of_run (by rw [hfree]; decide) hstart hgt (by omega)
        rw [(h.at_site s hsite).word.1] at hword
        cases hword
    rw [hn] at hle hstop ⊢
    obtain ⟨hshift, hbytes⟩ := h.copied_run hle hfree
    rw [hshift] at hstop ⊢
    refine ⟨runEnd_eq_of (Nat.le_add_right _ _) (fun i hi hi' => ?_) hstop,
      .inr ⟨hs, asciiText_congr hbytes⟩⟩
    obtain ⟨j, rfl⟩ := Nat.exists_eq_add_of_le hi
    rw [hbytes j (by omega)]
    exact any_of_lt_runEnd (Nat.le_add_right _ _) (by omega)

/-- Layout is the same in both texts. -/
theorem layoutLength_eq (comment : Bool) (hle : p ≤ src.size)
    (hmode : p < src.size → (modeAt src p = .comment ↔ comment = true))
    (hloose : comment = false → Loose src p) :
    shift p + layoutLength src' comment (src'.size - shift p) (shift p) =
      shift (p + layoutLength src comment (src.size - p) p) := by
  induction hn : src.size - p generalizing p comment with
  | zero =>
    obtain rfl : p = src.size := by omega
    rw [h.stop, Nat.sub_self]
    exact h.stop.symm
  | succ n ih =>
    have hlt : p < src.size := by omega
    obtain ⟨b, hb⟩ : ∃ b, src[p]? = some b := ⟨_, getElem?_eq_some_iff.mpr ⟨hlt, rfl⟩⟩
    have hmode := hmode hlt
    by_cases hcovered : Covered sites old.length p
    · -- a name is no layout
      have hcomment : comment = false := by
        obtain ⟨s, hs, hsle, hslt⟩ := hcovered
        rw [← Bool.not_eq_true, ← hmode]
        obtain rfl | hgt := Nat.eq_or_lt_of_le hsle
        · rw [(h.at_site s hs).word.1]
          decide
        · rw [(h.at_site s hs).word_of_lt hgt (Nat.le_of_lt hslt)]
          decide
      subst hcomment
      have hs := h.site_of_loose (hloose rfl) hcovered
      have hzero {text : ByteArray} {k limit : Nat} (hany : (text[k]?).any isIdentStart = true) :
          layoutLength text false limit k = 0 := by
        obtain ⟨d, hd, hstart⟩ := exists_of_any hany
        have hblank := (ident_byte (isIdentByte_of_isIdentStart d hstart)).1
        have hhash : d ≠ hash := by
          rintro rfl
          cases hstart
        cases limit <;> simp [layoutLength, hd, hblank, hhash]
      rw [hzero (h.start_site hs), hzero (h.at_site p hs).word.2.1]
      rfl
    · obtain ⟨hbyte, hshift⟩ := h.copied p hlt hcovered
      rw [hb] at hbyte
      have hlt' := lt_size hbyte
      obtain ⟨n', hn'⟩ : ∃ n', src'.size - shift p = n' + 1 := ⟨src'.size - shift p - 1, by omega⟩
      have hstep (d : Bool) (hmode : modeAt src (p + 1) = .comment ↔ d = true)
          (hloose : d = false → Loose src (p + 1)) :
          shift p + (layoutLength src' d n' (shift p + 1) + 1) =
            shift (p + (layoutLength src d n (p + 1) + 1)) := by
        have hrest := ih d (p := p + 1) hlt (fun _ => hmode) hloose (by omega)
        rw [hshift, show src'.size - (shift p + 1) = n' by omega] at hrest
        rw [show p + (layoutLength src d n (p + 1) + 1) =
          p + 1 + layoutLength src d n (p + 1) by omega, ← hrest]
        omega
      have hnext := modeAt_succ hb
      rw [hn', layoutLength, layoutLength, hbyte, hb]
      simp only
      cases comment with
      | true =>
        have hmode := hmode.mpr rfl
        simp only [if_true]
        refine hstep _ ?_ fun hfeed => loose_of_free ?_
        · by_cases hfeed : b = lineFeed <;> simp [hnext, hmode, Mode.next, hfeed]
        · simp [hnext, hmode, Mode.next, show b = lineFeed by simpa using hfeed]
      | false =>
        have hmode : modeAt src p ≠ .comment :=
          fun hcomment => absurd (hmode.mp hcomment) (by decide)
        simp only [Bool.false_eq_true, if_false]
        split
        · rename_i hblank
          have hfree := free_blank hmode hb hblank
          exact hstep _ (by simp [hfree]) fun _ => loose_of_free hfree
        · split
          · rename_i hhash
            exact hstep _ (by simp [hnext, Mode.next, hmode, hhash]) (by simp)
          · rfl

end Bytes

/-- Both parses stand at the same place. -/
def At (src : ByteArray) (shift : Nat → Nat) (p p' : Nat) : Prop :=
  Loose src p ∧ p ≤ src.size ∧ p' = shift p

section Tokens

variable (h : Respells src src' sites old new shift)

include h

theorem at_le {p' : Nat} (hat : At src shift p p') : p ≤ src.size ∧ p' ≤ src'.size := by
  obtain ⟨hp, hle, rfl⟩ := hat
  refine ⟨hle, ?_⟩
  obtain rfl | hlt := Nat.eq_or_lt_of_le hle
  · exact Nat.le_of_eq h.stop
  · obtain ⟨-, -, hany⟩ | hcopied := h.site_or_copied hp
    · obtain ⟨b, hb, -⟩ := exists_of_any hany
      exact Nat.le_of_lt (lt_size hb)
    · have hbyte := (hcopied hlt).1
      rw [show src[p]? = some src[p] from getElem?_eq_some_iff.mpr ⟨hlt, rfl⟩] at hbyte
      exact Nat.le_of_lt (lt_size hbyte)

theorem at_layout {p' : Nat} (hat : At src shift p p') :
    At src shift (layoutEnd src p) (layoutEnd src' p') := by
  obtain ⟨hp, hle, rfl⟩ := hat
  refine ⟨loose_layout hp, layoutEnd_le hle, ?_⟩
  exact h.layoutLength_eq false hle
    (fun hlt => ⟨fun hcomment => absurd hcomment (hp.clear hlt), nofun⟩) fun _ => hp

/-- A text of bytes that belong to no word is in both texts or in none. -/
theorem holds_eq {cs : List Char}
    (hcs : ∀ c ∈ cs, UInt8.ofNat c.toNat ≠ hash ∧ isIdentByte (UInt8.ofNat c.toNat) = false)
    (hp : Loose src p) (hle : p ≤ src.size) : holds src' (shift p) cs = holds src p cs ∧
      (holds src p cs = true → At src shift (p + cs.length) (shift p + cs.length)) := by
  induction cs generalizing p with
  | nil => exact ⟨rfl, fun _ => ⟨hp, hle, rfl⟩⟩
  | cons c cs ih =>
    obtain ⟨hhash, hident⟩ := hcs c List.mem_cons_self
    have hbyte : src'[shift p]? = some (UInt8.ofNat c.toNat) ↔
        src[p]? = some (UInt8.ofNat c.toNat) := by
      have hne : ∀ b, isIdentStart b = true → decide (b = UInt8.ofNat c.toNat) = false := by
        rintro b hb
        refine decide_eq_false ?_
        rintro rfl
        rw [isIdentByte_of_isIdentStart _ hb] at hident
        cases hident
      have hsome (o : Option UInt8) :
          o = some (UInt8.ofNat c.toNat) ↔ o.any (fun b => b = UInt8.ofNat c.toNat) = true := by
        cases o <;> simp
      rw [hsome, hsome, h.any_eq hp hle (.inr hne)]
    simp only [holds, Bool.and_eq_true, decide_eq_true_eq, hbyte]
    by_cases hhead : src[p]? = some (UInt8.ofNat c.toNat)
    · have hfree := free_succ (hp _ hhead).1 hhead hhash hident
      have hlt := lt_size hhead
      have hshift : shift (p + 1) = shift p + 1 := by
        obtain ⟨-, hstart, -⟩ | hcopied := h.site_or_copied hp
        · rw [hhead, Option.any_some] at hstart
          rw [isIdentByte_of_isIdentStart _ hstart] at hident
          cases hident
        · exact (hcopied hlt).2
      obtain ⟨heq, hstop⟩ :=
        ih (fun c hc => hcs c (List.mem_cons_of_mem _ hc)) (loose_of_free hfree) hlt
      rw [hshift] at heq hstop
      rw [heq]
      refine ⟨rfl, fun hh => ?_⟩
      have hat := hstop hh.2
      rwa [show p + 1 + cs.length = p + (c :: cs).length by rw [List.length_cons]; omega,
        show shift p + 1 + cs.length = shift p + (c :: cs).length by
          rw [List.length_cons]; omega] at hat
    · simp [hhead]

theorem at_literal {p' : Nat} (hs : isMark s = true) (hat : At src shift p p') :
    Option.Rel (fun a b => At src shift a.2 b.2 ∧
        ∀ c, isMark (String.singleton c) = true →
          peek src (a.1 + s.length) c = peek src' (b.1 + s.length) c)
      (litAt src s p) (litAt src' s p') := by
  have hmarks {s : String} (hs : isMark s = true) :
      ∀ c ∈ s.toList, UInt8.ofNat c.toNat ≠ hash ∧ isIdentByte (UInt8.ofNat c.toNat) = false :=
    fun c hc => ⟨((chars_of_isMark hs).2 c hc).2.2, ((chars_of_isMark hs).2 c hc).1⟩
  obtain ⟨hloose, hle, hstart⟩ := h.at_layout hat
  obtain ⟨hholds, hstop⟩ := h.holds_eq (hmarks hs) hloose hle
  rw [litAt, litAt, hstart, hholds]
  split
  · have hend := hstop ‹_›
    rw [String.length_toList] at hend
    refine .some ⟨h.at_layout hend, fun c hc => ?_⟩
    obtain ⟨hend, hle, heq⟩ := hend
    simp only [heq]
    exact (h.holds_eq (by simpa using hmarks hc) hend hle).1.symm
  · exact .none

/-- A name that is replaced is read at the same place. -/
theorem at_ident {p' : Nat} (hat : At src shift p p') :
    Option.Rel (fun a b => a.1.relabel (respell sites old new) (moved shift) = b.1 ∧
      At src shift a.2 b.2) (identAt src p) (identAt src' p') := by
  obtain ⟨hloose, hle, hstart⟩ := h.at_layout hat
  rw [identAt, identAt, hstart]
  simp only [h.any_eq hloose hle (.inl fun _ hb => hb)]
  split
  · obtain ⟨hend, htexts⟩ := h.run_eq hloose ‹_›
    have hstop := h.at_layout ⟨loose_word hloose, runEnd_le isIdentByte hle, rfl⟩
    rw [hend]
    obtain ⟨hs, htext, htext'⟩ | ⟨hs, htext⟩ := htexts
    · rw [htext, htext', Pattern.name, Pattern.name, String.ofList_toList, String.ofList_toList,
        if_neg (by simp [h.unreserved]), if_neg (by simp [h.name.1])]
      refine .some ⟨?_, hstop⟩
      simp [respell, moved, hs]
    · rw [htext]
      cases Pattern.name
        (asciiText src (layoutEnd src p) (runEnd isIdentByte src (layoutEnd src p))) with
      | none => exact .none
      | some x =>
        refine .some ⟨?_, hstop⟩
        simp [respell, moved, hs]
  · exact .none

theorem at_keyword {p' : Nat} (hs : isReserved s = true) (hat : At src shift p p') :
    Option.Rel (fun a b => At src shift a.2 b.2) (wordAt src s p) (wordAt src' s p') := by
  obtain ⟨hloose, hle, hstart⟩ := h.at_layout hat
  have hle' := h.at_le hat
  cases hany : (src[layoutEnd src p]?).any isIdentStart with
  | true =>
    obtain ⟨hend, htexts⟩ := h.run_eq hloose hany
    have hstop := h.at_layout ⟨loose_word hloose, runEnd_le isIdentByte hle, rfl⟩
    rw [wordAt_eq hs hle'.1, wordAt_eq hs hle'.2, hstart, hend]
    obtain ⟨-, htext, htext'⟩ | ⟨-, htext⟩ := htexts
    · -- neither name is reserved
      have hne {x : String} (hx : isReserved x = false) : x.toList ≠ s.toList := by
        intro heq
        rw [String.toList_inj.mp heq, hs] at hx
        cases hx
      rw [htext, htext', if_neg (hne h.unreserved), if_neg (hne h.name.1)]
      exact .none
    · rw [htext]
      split
      · exact .some hstop
      · exact .none
  | false =>
    have hnone {text : ByteArray} {k : Nat}
        (hany : (text[layoutEnd text k]?).any isIdentStart = false) :
        wordAt text s k = none := by
      cases hword : wordAt text s k with
      | none => rfl
      | some m =>
        rw [start_of_wordAt hword hs] at hany
        cases hany
    rw [hnone hany, hnone (by rw [hstart, h.any_eq hloose hle (.inl fun _ hb => hb), hany])]
    exact .none

theorem at_integer {p' : Nat} (hat : At src shift p p') :
    Option.Rel (fun a b => a.1.relabel (respell sites old new) (moved shift) = b.1 ∧
      At src shift a.2 b.2) (integerAt src p) (integerAt src' p') := by
  obtain ⟨hloose, hle, hstart⟩ := h.at_layout hat
  have hdigit : ∀ b, isIdentStart b = true → isDigitByte b = false :=
    fun b hb => (start_byte hb).2.2.2
  rw [integerAt, integerAt, hstart, word?_asciiText, word?_asciiText,
    h.any_eq hloose hle (.inr hdigit)]
  split
  · rename_i hany
    obtain ⟨b, hb, hb'⟩ := exists_of_any hany
    have hfree := (hloose b hb).2 (by simp [isIdentByte, hb'])
    have hle' := runEnd_le isDigitByte hle
    have hloose' : Loose src (runEnd isDigitByte src (layoutEnd src p)) :=
      loose_of_free (free_digits hfree (Nat.le_add_right _ _) (Nat.le_refl _))
    have hstop :
        (src'[shift (runEnd isDigitByte src (layoutEnd src p))]?).any isDigitByte = false := by
      rw [h.any_eq hloose' hle' (.inr hdigit), runEnd_stop]
    have hat' := h.at_layout ⟨hloose', hle', rfl⟩
    obtain ⟨n, hn⟩ :=
      Nat.exists_eq_add_of_le
        (show layoutEnd src p ≤ runEnd isDigitByte src (layoutEnd src p) from Nat.le_add_right _ _)
    have hfree : ∀ i, i < n → ¬ Covered sites old.length (layoutEnd src p + i) := by
      intro i hi hcovered
      have hs :=
        h.site_of_loose
          (loose_of_free (free_digits hfree (Nat.le_add_right _ _) (by omega))) hcovered
      obtain ⟨d, hd, hd'⟩ := exists_of_any (h.at_site _ hs).word.2.1
      have hany : (src[layoutEnd src p + i]?).any isDigitByte = true :=
        any_of_lt_runEnd (Nat.le_add_right (layoutEnd src p) i) (by omega)
      rw [hd, Option.any_some, hdigit d hd'] at hany
      cases hany
    rw [hn] at hle' hstop hat' ⊢
    obtain ⟨hshift, hbytes⟩ := h.copied_run hle' hfree
    rw [hshift] at hstop hat'
    have hend :
        runEnd isDigitByte src' (shift (layoutEnd src p)) = shift (layoutEnd src p) + n := by
      refine runEnd_eq_of (Nat.le_add_right _ _) (fun i hi hi' => ?_) hstop
      obtain ⟨j, rfl⟩ := Nat.exists_eq_add_of_le hi
      rw [hbytes j (by omega)]
      exact any_of_lt_runEnd (Nat.le_add_right _ _) (by omega)
    rw [hend, asciiText_congr hbytes]
    cases Pattern.literal (asciiText src (layoutEnd src p) (layoutEnd src p + n)) with
    | none => exact .none
    | some w =>
      refine .some ⟨?_, hat'⟩
      simp [moved]
  · exact .none

end Tokens

/-- The parses of both texts. -/
def parallel (h : Respells src src' sites old new shift) : Parallel src src' where
  limit := none
  At := At src shift
  Here p p' := p' = shift p
  name := respell sites old new
  place := moved shift
  name' _ x := x
  place' o := o
  at_le := h.at_le
  at_layout := h.at_layout
  here_of_layout hat _ := hat.2.2
  place_here hhere := by rw [hhere, moved, Int.toNat_natCast]
  place_zero := by rw [moved, Int.toNat_zero, h.zero, Int.natCast_zero]
  name_reserved {x} hx o o' := by
    refine ⟨if_neg ?_, rfl⟩
    rintro ⟨-, rfl⟩
    rw [h.unreserved] at hx
    cases hx
  at_literal hs hat _ := ⟨(h.at_layout hat).2.2, h.at_literal hs hat⟩
  at_keyword hs hat _ := ⟨(h.at_layout hat).2.2, h.at_keyword hs hat⟩
  at_ident hat _ := ⟨(h.at_layout hat).2.2, by simpa only [Tree.relabel_id] using h.at_ident hat⟩
  at_integer hat _ :=
    ⟨(h.at_layout hat).2.2, by simpa only [Tree.relabel_id] using h.at_integer hat⟩

end Respells

/-- The tree of the respelled text has the new name where it is written, and its nodes stand where
the text has moved. -/
theorem parse_respelled {src src' : String} {sites : List Int} {old new : String}
    {shift : Nat → Nat} {t : Tree} (h : Respells src.toUTF8 src'.toUTF8 sites old new shift)
    (hparse : parseProgram src = .ok t) :
    parseProgram src' = .ok (t.relabel (respell sites old new) (moved shift)) := by
  have hat : Respells.At src.toUTF8 shift 0 0 := ⟨loose_of_free rfl, Nat.zero_le _, h.zero.symm⟩
  have hjoint :
      Option.Rel h.parallel.Joint (ofRead (read src.toUTF8 .program 0))
        (ofRead (read src'.toUTF8 .program 0)) :=
    Parallel.joint_reading (r := .program) (by decide) hat nofun
  rw [parseProgram_ok.mp hparse] at hjoint
  cases hread : read src'.toUTF8 .program 0 with
  | none => rw [hread] at hjoint; cases hjoint
  | some m =>
    rw [hread] at hjoint
    obtain ⟨u, q⟩ := m
    obtain ⟨hnode, -, -, hstop⟩ : h.parallel.Joint _ _ := by cases hjoint; assumption
    have hend : q = src'.utf8ByteSize := hstop.2.2.trans h.stop
    have htree : t.relabel (respell sites old new) (moved shift) = u := by
      have hlike : t.relabel (respell sites old new) (moved shift) =
          u.relabel (fun _ x => x) (fun o => o) := hnode
      rwa [relabel_id] at hlike
    rw [htree]
    exact parseProgram_ok.mpr (hend ▸ hread)

end ClosureLang.Grammar
