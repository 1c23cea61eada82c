import ClosureLang.Proofs.Editor.Positions
import ClosureLang.Proofs.Text.Encoding

/-! Byte offsets and the positions that editors count convert back and forth. -/
namespace ClosureLang.Editor

open Utf8

variable {cs ds : List Char} {s : String} {o : Nat} {p : Position}

theorem lastLine_append (hds : '\n' ∉ ds) : lastLine (cs ++ ds) = lastLine cs ++ ds := by
  induction ds using List.reverseRecOn with
  | nil => simp
  | append_singleton ds d ih =>
    rw [List.mem_append, List.mem_singleton, not_or] at hds
    rw [← List.append_assoc, lastLine_char (Ne.symm hds.2), ih hds.1, List.append_assoc]

/-- Lines with the line feeds behind them. -/
def ended (lines : List (List Char)) : List Char := lines.flatMap (· ++ ['\n'])

theorem size_ended (lines : List (List Char)) :
    size (ended lines) = Position.lineBytes (lines.map String.ofList) := by
  induction lines with
  | nil => rfl
  | cons l lines ih =>
    rw [ended, List.flatMap_cons, size_append, size_append, List.map_cons, Position.lineBytes,
      ← size_toList, String.toList_ofList, ← ih]
    rfl

theorem lastLine_ended (lines : List (List Char)) : lastLine (ended lines) = [] := by
  induction lines using List.reverseRecOn with
  | nil => rfl
  | append_singleton lines l _ =>
    rw [ended, List.flatMap_append, List.flatMap_singleton, ← List.append_assoc, lastLine_feed]

theorem count_ended {lines : List (List Char)} (h : ∀ l ∈ lines, '\n' ∉ l) :
    (ended lines).count '\n' = lines.length := by
  induction lines with
  | nil => rfl
  | cons l lines ih =>
    rw [List.forall_mem_cons] at h
    have hrest := ih h.2
    rw [ended] at hrest
    rw [ended, List.flatMap_cons, List.count_append, List.count_append,
      List.count_eq_zero.mpr h.1, hrest]
    simp [Nat.add_comm]

/-- A position on a line of the text stands for a place on that line. -/
theorem offset?_of_line {line : String} (h : (Text.lines s)[p.line]? = some line) :
    ∃ o cs ds, p.offset? s = some o ∧ Splits s o cs ds ∧ cs.count '\n' = p.line ∧
      (lastLine cs).length = min p.character line.length := by
  rw [Text.lines, List.getElem?_map, Option.map_eq_some_iff] at h
  obtain ⟨l, hl, rfl⟩ := h
  obtain ⟨hlt, hget⟩ := List.getElem?_eq_some_iff.mp hl
  have hsplit := List.take_append_drop p.line (Text.splitOnChar '\n' s.toList)
  rw [List.drop_eq_getElem_cons hlt, hget] at hsplit
  obtain ⟨htext, hbefore, hline⟩ := Text.splitOnChar_around hsplit.symm
  generalize hbefore' : (Text.splitOnChar '\n' s.toList).take p.line = before at *
  have hlength : before.length = p.line := by
    rw [← hbefore', List.length_take, Nat.min_eq_left (Nat.le_of_lt hlt)]
  have htake : '\n' ∉ l.take p.character := fun hmem => hline (List.mem_of_mem_take hmem)
  refine ⟨size (ended before ++ l.take p.character), ended before ++ l.take p.character,
    l.drop p.character ++ ((Text.splitOnChar '\n' s.toList).drop (p.line + 1)).flatMap ('\n' :: ·),
    ?_, ⟨?_, rfl⟩, ?_, ?_⟩
  · simp only [Position.offset?, Text.lines, List.getElem?_map, hl, Option.map_some,
      ← List.map_take, hbefore', String.toList_ofList, size_append, size_ended]
  · refine htext.trans ?_
    simp only [ended, List.append_assoc]
    rw [← List.append_assoc (l.take p.character), List.take_append_drop]
  · rw [List.count_append, count_ended hbefore, List.count_eq_zero.mpr htake, hlength]
    rfl
  · rw [lastLine_append htake, lastLine_ended, List.nil_append, List.length_take,
      String.length_ofList]

theorem length_lines (s : String) : (Text.lines s).length = s.toList.count '\n' + 1 := by
  rw [Text.lines, List.length_map, Text.length_splitOnChar]

/-- A line has no offset if the text has too few line feeds. -/
theorem offset?_eq_none_iff : p.offset? s = none ↔ s.toList.count '\n' < p.line := by
  have hlines := length_lines s
  rw [Position.offset?]
  cases hline : (Text.lines s)[p.line]? with
  | none =>
    have hge := List.getElem?_eq_none_iff.mp hline
    simp only [true_iff]
    omega
  | some line =>
    have hlt := (List.getElem?_eq_some_iff.mp hline).1
    simp only [reduceCtorEq, false_iff]
    omega

namespace Position

/-- A position as it is transmitted, in words of 32 bits. -/
def toWords (p : Position) : UInt32 × UInt32 := (.ofNat p.line, .ofNat p.character)

def ofWords (w : UInt32 × UInt32) : Position := ⟨w.1.toNat, w.2.toNat⟩

theorem ofWords_toWords (hline : p.line < 0x100000000) (hcharacter : p.character < 0x100000000) :
    ofWords p.toWords = p := by
  rw [ofWords, toWords, UInt32.toNat_ofNat_of_lt' hline, UInt32.toNat_ofNat_of_lt' hcharacter]

end Position

theorem length_le_size (cs : List Char) : cs.length ≤ size cs := by
  induction cs with
  | nil => exact Nat.le_refl _
  | cons c cs ih =>
    have hpos := c.utf8Size_pos
    rw [List.length_cons, size]
    omega

theorem length_lastLine_le (cs : List Char) : (lastLine cs).length ≤ cs.length := by
  rw [lastLine, List.length_reverse, ← @List.length_reverse _ cs]
  exact (List.takeWhile_prefix _).length_le

/-- In a text of less than two gigabytes, the offset of a character becomes a position that stands
for it. A position has no offset if the text has too few line feeds; else it has one, which lies on
the line and behind as many characters as the position says, or at the end of the line if there are
fewer. -/
theorem offsets_and_positions (file : String) (hs : s.utf8ByteSize < 0x80000000) :
    (∀ o cs ds, Splits s o cs ds →
      (Position.ofWords (Position.ofLocation (Location.locate file s o)).toWords).offset?
        s = some o) ∧
    ∀ p : Position, (p.offset? s = none ↔ s.toList.count '\n' < p.line) ∧
      (p.line ≤ s.toList.count '\n' →
        ∃ line o, (Text.lines s)[p.line]? = some line ∧ p.offset? s = some o ∧
        Location.locate file s o = ⟨file, o, p.line + 1, min p.character line.length + 1⟩) := by
  refine ⟨fun o cs ds h => ?_, fun p => ⟨offset?_eq_none_iff, fun hfeeds => ?_⟩⟩
  · have hposition : Position.ofLocation (Location.locate file s o) = Position.ofOffset s o := by
      rw [Position.ofOffset, locate_eq h, locate_eq h]
      rfl
    have hlength := length_le_size cs
    have hfeeds : cs.count '\n' ≤ cs.length := List.count_le_length
    have hlast := length_lastLine_le cs
    have hle := h.le
    rw [h.size] at hlength
    have hwords : Position.ofWords (Position.ofOffset s o).toWords = Position.ofOffset s o := by
      rw [ofOffset_eq h]
      exact Position.ofWords_toWords (by dsimp only; omega) (by dsimp only; omega)
    rw [hposition, hwords, offset?_ofOffset h]
  · have hline : p.line < (Text.lines s).length := by
      rw [length_lines]
      omega
    obtain ⟨o, cs, ds, hoffset, h, hcount, hlength⟩ :=
      offset?_of_line (List.getElem?_eq_getElem hline)
    exact ⟨_, o, List.getElem?_eq_getElem hline, hoffset, by rw [locate_eq h, hcount, hlength]⟩

/-- The last character stands behind two bytes and a line feed; a position behind the first
character of the first line is taken as the end of that line. -/
theorem offsets_and_positions_two_lines :
    (Position.ofWords (Position.ofLocation (Location.locate "notes" "é\nb" 3)).toWords).offset?
      "é\nb" = some 3 ∧
    ∃ line o, (Text.lines "é\nb")[0]? = some line ∧ Position.offset? "é\nb" ⟨0, 7⟩ = some o ∧
      Location.locate "notes" "é\nb" o = ⟨"notes", o, 1, (min 7 line.length : Nat) + 1⟩ := by
  have hboth := offsets_and_positions (s := "é\nb") "notes" (by decide)
  exact ⟨hboth.1 3 ['é', '\n'] ['b']
    ⟨by decide, by decide⟩, by simpa using (hboth.2 ⟨0, 7⟩).2 (by decide)⟩

end ClosureLang.Editor
