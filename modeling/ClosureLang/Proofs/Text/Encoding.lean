import Mathlib.Data.List.Basic
import ClosureLang.Text.Blank
import ClosureLang.Text.Utf8

/-! The bytes of texts, character by character, and their lines. -/
namespace ClosureLang.Text

theorem bytes_toUTF8 (s : String) :
    s.toUTF8.data.toList = s.toList.flatMap String.utf8EncodeChar := by
  rw [String.toUTF8, ← String.utf8Encode_toList]
  simp [List.utf8Encode]

/-- A character of ASCII is one byte, and no byte of another character looks like one of ASCII. -/
theorem encode_cases (c : Char) :
    (c.toNat < 128 ∧ String.utf8EncodeChar c = [UInt8.ofNat c.toNat]) ∨
      (128 ≤ c.toNat ∧ ∀ b ∈ String.utf8EncodeChar c, 128 ≤ b.toNat) := by
  have hbyte : ∀ n, 128 ≤ n → n < 256 → 128 ≤ (UInt8.ofNat n).toNat := by
    intro n hn hlt
    rw [UInt8.toNat_ofNat', Nat.mod_eq_of_lt hlt]
    exact hn
  have htail (n : Nat) : 128 ≤ (UInt8.ofNat (n % 64 + 128)).toNat := hbyte _ (by omega) (by omega)
  rw [String.utf8EncodeChar]
  have hval : c.val.toNat = c.toNat := rfl
  simp only [hval]
  split
  · exact .inl ⟨by omega, rfl⟩
  · refine .inr ⟨by omega, fun b hb => ?_⟩
    split at hb
    · simp only [List.mem_cons, List.not_mem_nil, or_false] at hb
      rcases hb with rfl | rfl
      · exact hbyte _ (by omega) (by omega)
      · exact htail _
    · split at hb <;> simp only [List.mem_cons, List.not_mem_nil, or_false] at hb
      · rcases hb with rfl | rfl | rfl
        · exact hbyte _ (by omega) (by omega)
        · exact htail _
        · exact htail _
      · rcases hb with rfl | rfl | rfl | rfl
        · exact hbyte _ (by omega) (by omega)
        · exact htail _
        · exact htail _
        · exact htail _

end ClosureLang.Text

namespace ClosureLang.Utf8

theorem toNat_ofNat_of_lt {n : Nat} (h : n < 256) : (UInt8.ofNat n).toNat = n := by
  rw [UInt8.toNat_ofNat', Nat.mod_eq_of_lt h]

theorem isContinuation_ofNat (n : Nat) : isContinuation (UInt8.ofNat (n % 64 + 128)) = true := by
  simp [isContinuation, UInt8.le_iff_toNat_le, UInt8.lt_iff_toNat_lt]
  omega

theorem payload_ofNat (n : Nat) : payload (UInt8.ofNat (n % 64 + 128)) = n % 64 := by
  rw [payload, toNat_ofNat_of_lt (by omega)]
  omega

section First

variable {b c d e : UInt8} {rest : List UInt8}

theorem first_one (hb : b.toNat < 128) : first b rest = (Char.ofNat b.toNat, 1) := by
  unfold first
  simp [UInt8.lt_iff_toNat_lt, hb]

theorem first_two (hb : 194 ≤ b.toNat) (hb' : b.toNat < 224) (hc : isContinuation c = true) :
    first b (c :: rest) = (Char.ofNat (b.toNat % 32 * 64 + payload c), 2) := by
  have hone : ¬ b.toNat < 128 := by omega
  unfold first
  simp [UInt8.lt_iff_toNat_lt, UInt8.le_iff_toNat_le, hone, hb, hb', hc]

theorem first_three (hb : 224 ≤ b.toNat) (hb' : b.toNat < 240) (hc : isContinuation c = true)
    (hd : isContinuation d = true) {n : Nat}
    (hn : b.toNat % 16 * 4096 + payload c * 64 + payload d = n) (hlow : 2048 ≤ n)
    (hvalid : n.isValidChar) : first b (c :: d :: rest) = (Char.ofNat n, 3) := by
  have hone : ¬ b.toNat < 128 := by omega
  have htwo : ¬ b.toNat < 224 := by omega
  have hsurrogate : ¬ (55296 ≤ n ∧ n < 57344) := by
    simp only [Nat.isValidChar] at hvalid
    omega
  unfold first
  simp [UInt8.lt_iff_toNat_lt, UInt8.le_iff_toNat_le, hone, htwo, hb, hb', hc, hd, hn,
    hlow, hsurrogate]

theorem first_four (hb : 240 ≤ b.toNat) (hb' : b.toNat < 245) (hc : isContinuation c = true)
    (hd : isContinuation d = true) (he : isContinuation e = true) {n : Nat}
    (hn : b.toNat % 8 * 262144 + payload c * 4096 + payload d * 64 + payload e = n)
    (hlow : 65536 ≤ n) (hhigh : n < 1114112) :
    first b (c :: d :: e :: rest) = (Char.ofNat n, 4) := by
  have hone : ¬ b.toNat < 128 := by omega
  have htwo : ¬ b.toNat < 224 := by omega
  have hthree : ¬ b.toNat < 240 := by omega
  unfold first
  simp [UInt8.lt_iff_toNat_lt, UInt8.le_iff_toNat_le, hone, htwo, hthree, hb, hb', hc, hd, he, hn,
    hlow, hhigh]

end First

/-- The bytes of a character spell it, whatever follows. -/
theorem first_encode (c : Char) (rest : List UInt8) :
    ∃ b bs, String.utf8EncodeChar c = b :: bs ∧ first b (bs ++ rest) = (c, bs.length + 1) := by
  have hvalid : c.toNat.isValidChar := c.valid
  have hhigh : c.toNat < 1114112 := by
    simp only [Nat.isValidChar] at hvalid
    omega
  have hchar : Char.ofNat c.toNat = c := c.ofNat_toNat
  have hcontinues := isContinuation_ofNat
  rw [String.utf8EncodeChar]
  simp only [show c.val.toNat = c.toNat from rfl]
  split
  · have hb := toNat_ofNat_of_lt (n := c.toNat) (by omega)
    refine ⟨_, _, rfl, ?_⟩
    rw [first_one (by omega), hb, hchar]
    rfl
  · split
    · have hb := toNat_ofNat_of_lt (n := c.toNat / 64 % 32 + 192) (by omega)
      refine ⟨_, _, rfl, ?_⟩
      rw [List.cons_append, first_two (by omega) (by omega) (hcontinues _), hb, payload_ofNat,
        show (c.toNat / 64 % 32 + 192) % 32 * 64 + c.toNat % 64 = c.toNat by omega, hchar]
      rfl
    · split
      · have hb := toNat_ofNat_of_lt (n := c.toNat / 4096 % 16 + 224) (by omega)
        refine ⟨_, _, rfl, ?_⟩
        rw [List.cons_append, List.cons_append,
          first_three (n := c.toNat) (by omega) (by omega) (hcontinues _)
          (hcontinues _) (by rw [hb, payload_ofNat, payload_ofNat]; omega) (by omega) hvalid, hchar]
        rfl
      · have hb := toNat_ofNat_of_lt (n := c.toNat / 262144 % 8 + 240) (by omega)
        refine ⟨_, _, rfl, ?_⟩
        rw [List.cons_append, List.cons_append, List.cons_append,
          first_four (n := c.toNat) (by omega) (by omega)
          (hcontinues _) (hcontinues _) (hcontinues _)
          (by rw [hb, payload_ofNat, payload_ofNat, payload_ofNat]; omega) (by omega) hhigh, hchar]
        rfl

/-- Encoded characters are read back. -/
theorem chars_encode (cs : List Char) :
    chars (cs.flatMap String.utf8EncodeChar) = cs.map fun c => (c, c.utf8Size) := by
  induction cs with
  | nil => rw [List.flatMap_nil, chars, List.map_nil]
  | cons c cs ih =>
    obtain ⟨b, bs, hencode, hfirst⟩ := first_encode c (cs.flatMap String.utf8EncodeChar)
    have hsize := String.length_utf8EncodeChar c
    rw [hencode, List.length_cons] at hsize
    rw [List.flatMap_cons, hencode, List.cons_append, chars, hfirst, Nat.add_sub_cancel,
      List.drop_left, ih, hsize, List.map_cons]

end ClosureLang.Utf8

namespace ClosureLang.Text

variable {sep : Char} {cs line : List Char} {before after : List (List Char)}

/-- The pieces of a text are what is between its separators. -/
theorem splitOnChar_pieces (sep : Char) (cs : List Char) : ∃ piece pieces,
    splitOnChar sep cs = piece :: pieces ∧ cs = piece ++ pieces.flatMap (sep :: ·) ∧
    ∀ l ∈ piece :: pieces, sep ∉ l := by
  induction cs with
  | nil => exact ⟨[], [], rfl, rfl, by simp⟩
  | cons c cs ih =>
    obtain ⟨piece, pieces, hsplit, hcs, hsep⟩ := ih
    rw [splitOnChar, hsplit]
    split
    · rename_i hc
      exact ⟨[], piece :: pieces,
        rfl, by rw [hc, hcs]; rfl, List.forall_mem_cons.mpr ⟨List.not_mem_nil, hsep⟩⟩
    · rename_i hc
      rw [List.forall_mem_cons] at hsep
      refine ⟨c :: piece, pieces, rfl, by rw [hcs]; rfl, List.forall_mem_cons.mpr ⟨?_, hsep.2⟩⟩
      exact fun hmem => (List.mem_cons.mp hmem).elim (fun h => hc h.symm) hsep.1

/-- There is one piece more than there are separators. -/
theorem length_splitOnChar (sep : Char) (cs : List Char) :
    (splitOnChar sep cs).length = cs.count sep + 1 := by
  induction cs with
  | nil => rfl
  | cons c cs ih =>
    obtain ⟨piece, pieces, hsplit, -⟩ := splitOnChar_pieces sep cs
    rw [hsplit, List.length_cons] at ih
    rw [splitOnChar, hsplit]
    split
    · rename_i hc
      rw [hc, List.count_cons_self, List.length_cons, List.length_cons, ih]
    · rename_i hc
      rw [List.count_cons_of_ne hc, List.length_cons, ih]

/-- What stands in front of a piece and behind it. -/
theorem splitOnChar_around (h : splitOnChar sep cs = before ++ line :: after) :
    cs = before.flatMap (· ++ [sep]) ++ line ++ after.flatMap (sep :: ·) ∧ (∀ l ∈ before, sep ∉ l) ∧
      sep ∉ line := by
  obtain ⟨piece, pieces, hsplit, hcs, hsep⟩ := splitOnChar_pieces sep cs
  rw [hsplit] at h
  rw [h, List.forall_mem_append, List.forall_mem_cons] at hsep
  refine ⟨?_, hsep.1, hsep.2.1⟩
  rw [hcs]
  clear hsplit hcs hsep
  induction before generalizing piece pieces with
  | nil =>
    obtain ⟨rfl, rfl⟩ := List.cons.inj h
    rfl
  | cons l before ih =>
    obtain ⟨rfl, hpieces⟩ := List.cons.inj h
    cases pieces with
    | nil => exact absurd hpieces.symm (List.append_ne_nil_of_right_ne_nil _ (List.cons_ne_nil _ _))
    | cons piece' pieces =>
      have hrest := ih piece' pieces hpieces
      simp only [List.flatMap_cons, List.append_assoc, List.cons_append, List.nil_append] at hrest ⊢
      rw [hrest]

end ClosureLang.Text
