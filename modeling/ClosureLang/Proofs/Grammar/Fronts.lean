import ClosureLang.Proofs.Grammar.Anchors
import ClosureLang.Proofs.Grammar.Respelling

/-! Texts that start with the same bytes, up to layout. Tokens that end in front of that layout are
the same in both. -/
namespace ClosureLang.Grammar

variable {src src' : ByteArray} {w p q : Nat}

/-- A byte that no token contains. -/
def isLayoutByte (b : UInt8) : Bool := isBlankByte b || b = hash

/-- The texts have the same bytes up to `w`, where layout begins or goes on. -/
structure Shared (src src' : ByteArray) (w : Nat) : Prop where
  agree : ∀ i, i ≤ w → src'[i]? = src[i]?
  layout : (src[w]?).any isLayoutByte = true

theorem not_isLayoutByte_of_isIdentByte {b : UInt8} (h : isIdentByte b = true) :
    isLayoutByte b = false := by
  by_contra hlayout
  simp only [isLayoutByte, Bool.not_eq_false, Bool.or_eq_true, decide_eq_true_eq] at hlayout
  obtain hblank | rfl := hlayout
  · rw [not_isIdentByte_of_isBlankByte hblank] at h
    cases h
  · cases h

theorem not_isLayoutByte_of_isMark {s : String} (h : isMark s = true) :
    ∀ c ∈ s.toList, isLayoutByte (UInt8.ofNat c.toNat) = false := by
  intro c hc
  obtain ⟨-, hblank, hhash⟩ := (chars_of_isMark h).2 c hc
  simp [isLayoutByte, hblank, hhash]

namespace Shared

variable (h : Shared src src' w) {c : UInt8 → Bool} {cs : List Char} {s : String}

include h

theorem lt_size : w < src.size := by
  obtain ⟨b, hb, -⟩ := exists_of_any h.layout
  exact Grammar.lt_size hb

theorem lt_size' : w < src'.size := by
  obtain ⟨b, hb, -⟩ := exists_of_any h.layout
  rw [← h.agree w (Nat.le_refl w)] at hb
  exact Grammar.lt_size hb

theorem le_size' (hp : p ≤ w) : p ≤ src'.size := Nat.le_trans hp (Nat.le_of_lt h.lt_size')

theorem layoutLength_eq (comment : Bool) {limit limit' : Nat} (hlimit : w < p + limit)
    (hlimit' : w < p + limit') (hend : p + layoutLength src comment limit p ≤ w) :
    layoutLength src' comment limit' p = layoutLength src comment limit p := by
  induction limit generalizing p limit' comment with
  | zero =>
    simp only [layoutLength] at hend
    omega
  | succ limit ih =>
    obtain ⟨limit', rfl⟩ : ∃ n, limit' = n + 1 := ⟨limit' - 1, by omega⟩
    rw [layoutLength] at hend ⊢
    rw [layoutLength, h.agree p (by omega)]
    cases hb : src[p]? with
    | none => rfl
    | some b =>
      have hstep (next : Bool) (hend : p + (layoutLength src next limit (p + 1) + 1) ≤ w) :
          layoutLength src' next limit' (p + 1) + 1 = layoutLength src next limit (p + 1) + 1 := by
        rw [ih next (by omega) (by omega) (by omega)]
      simp only [hb] at hend ⊢
      by_cases hcomment : comment = true
      · simp only [if_pos hcomment] at hend ⊢
        exact hstep _ hend
      · by_cases hblank : isBlankByte b = true
        · simp only [if_neg hcomment, if_pos hblank] at hend ⊢
          exact hstep _ hend
        · by_cases hhash : b = hash
          · simp only [if_neg hcomment, if_neg hblank, if_pos hhash] at hend ⊢
            exact hstep _ hend
          · simp only [if_neg hcomment, if_neg hblank, if_neg hhash]

theorem layoutEnd_eq (hend : layoutEnd src q ≤ w) : layoutEnd src' q = layoutEnd src q := by
  have hlt := h.lt_size
  have hlt' := h.lt_size'
  rw [layoutEnd, layoutEnd, h.layoutLength_eq false (by omega) (by omega) hend]

theorem ne_of_any (hc : ∀ b, c b = true → isLayoutByte b = false)
    (hany : (src[p]?).any c = true) : p ≠ w := by
  rintro rfl
  obtain ⟨b, hb, hcb⟩ := exists_of_any hany
  have hlayout := h.layout
  rw [hb, Option.any_some, hc b hcb] at hlayout
  cases hlayout

theorem holds_eq (hcs : ∀ c ∈ cs, isLayoutByte (UInt8.ofNat c.toNat) = false) (hp : p ≤ w) :
    holds src' p cs = holds src p cs ∧ (holds src p cs = true → p + cs.length ≤ w) := by
  induction cs generalizing p with
  | nil => exact ⟨rfl, fun _ => hp⟩
  | cons c cs ih =>
    simp only [holds, h.agree p hp, Bool.and_eq_true, decide_eq_true_eq, List.length_cons]
    by_cases hc : src[p]? = some (UInt8.ofNat c.toNat)
    · have hne : p ≠ w := by
        rintro rfl
        have hlayout := h.layout
        rw [hc, Option.any_some, hcs c List.mem_cons_self] at hlayout
        cases hlayout
      obtain ⟨heq, hle⟩ :=
        ih (p := p + 1) (fun c hc => hcs c (List.mem_cons_of_mem _ hc)) (by omega)
      refine ⟨by rw [heq], fun hh => ?_⟩
      have := hle hh.2
      omega
    · simp [hc]

theorem runEnd_eq (hc : ∀ b, c b = true → isLayoutByte b = false) (hp : p ≤ w) :
    runEnd c src' p = runEnd c src p ∧ runEnd c src p ≤ w := by
  have hle : runEnd c src p ≤ w := by
    by_contra hgt
    exact h.ne_of_any hc (any_of_lt_runEnd hp (by omega)) rfl
  refine ⟨runEnd_eq_of (Nat.le_add_right _ _) (fun i hi hlt => ?_) ?_, hle⟩
  · rw [h.agree i (by omega)]
    exact any_of_lt_runEnd hi hlt
  · rw [h.agree _ hle]
    exact runEnd_stop _ _ _

theorem asciiText_eq (hpq : p ≤ q) (hq : q ≤ w) : asciiText src' p q = asciiText src p q := by
  obtain ⟨n, rfl⟩ := Nat.exists_eq_add_of_le hpq
  exact asciiText_congr fun i hi => h.agree _ (by omega)

theorem peek_eq {c : Char} (hc : isLayoutByte (UInt8.ofNat c.toNat) = false) (hp : p ≤ w) :
    peek src' p c = peek src p c :=
  (h.holds_eq (by simpa using hc) hp).1

/-! Tokens that start up to `w` are the same if they end there too, or are missing in both texts. -/

theorem litAt_eq (hs : isMark s = true) (hstart : layoutEnd src q ≤ w)
    (hstop : ∀ m, litAt src s q = some m → m.2 ≤ w) : litAt src' s q = litAt src s q := by
  rw [litAt] at hstop ⊢
  rw [litAt, h.layoutEnd_eq hstart, (h.holds_eq (not_isLayoutByte_of_isMark hs) hstart).1]
  split
  · rw [if_pos ‹_›] at hstop
    rw [h.layoutEnd_eq (hstop _ rfl)]
  · rfl

theorem wordAt_eq (hs : isReserved s = true) (hstart : layoutEnd src q ≤ w)
    (hstop : ∀ m, wordAt src s q = some m → m.2 ≤ w) : wordAt src' s q = wordAt src s q := by
  have hchars : ∀ c ∈ s.toList, isLayoutByte (UInt8.ofNat c.toNat) = false := fun c hc =>
    not_isLayoutByte_of_isIdentByte (reserved_ascii hs c hc).1
  obtain ⟨hholds, hle⟩ := h.holds_eq hchars hstart
  rw [String.length_toList] at hle
  rw [wordAt] at hstop ⊢
  rw [wordAt, h.layoutEnd_eq hstart, hholds]
  cases hh : holds src (layoutEnd src q) s.toList with
  | false => rfl
  | true =>
    rw [hh] at hstop
    rw [h.agree _ (hle hh)]
    split
    · rw [if_pos ‹_›] at hstop
      rw [h.layoutEnd_eq (hstop _ rfl)]
    · rfl

theorem identAt_eq (hstart : layoutEnd src q ≤ w) (hstop : ∀ m, identAt src q = some m → m.2 ≤ w) :
    identAt src' q = identAt src q := by
  obtain ⟨hrun, hle⟩ :=
    h.runEnd_eq (c := isIdentByte) (fun _ => not_isLayoutByte_of_isIdentByte) hstart
  have htext : asciiText src' (layoutEnd src q) (runEnd isIdentByte src (layoutEnd src q)) = _ :=
    h.asciiText_eq (Nat.le_add_right _ _) hle
  rw [identAt] at hstop ⊢
  rw [identAt, h.layoutEnd_eq hstart, h.agree _ hstart, hrun, htext]
  split
  · rw [if_pos ‹_›] at hstop
    cases hname :
      Pattern.name (asciiText src (layoutEnd src q) (runEnd isIdentByte src (layoutEnd src q))) with
    | none => rfl
    | some x =>
      rw [hname] at hstop
      rw [Option.map_some, Option.map_some, h.layoutEnd_eq (hstop _ rfl)]
  · rfl

theorem integerAt_eq (hstart : layoutEnd src q ≤ w)
    (hstop : ∀ m, integerAt src q = some m → m.2 ≤ w) : integerAt src' q = integerAt src q := by
  have hdigit : ∀ b, isDigitByte b = true → isLayoutByte b = false := fun b hb =>
    not_isLayoutByte_of_isIdentByte (by simp [isIdentByte, hb])
  obtain ⟨hrun, hle⟩ := h.runEnd_eq hdigit hstart
  have htext : asciiText src' (layoutEnd src q) (runEnd isDigitByte src (layoutEnd src q)) = _ :=
    h.asciiText_eq (Nat.le_add_right _ _) hle
  rw [integerAt] at hstop ⊢
  rw [integerAt, h.layoutEnd_eq hstart, hrun, htext]
  cases hword :
    Decimal.word? (asciiText src (layoutEnd src q) (runEnd isDigitByte src (layoutEnd src q))) with
  | none => rfl
  | some x =>
    rw [hword] at hstop
    rw [Option.map_some, Option.map_some, h.layoutEnd_eq (hstop _ rfl)]

end Shared

end ClosureLang.Grammar
