import Mathlib.Data.List.Induction
import Mathlib.Data.List.TakeWhile
import ClosureLang.Editor.Position
import ClosureLang.Proofs.Grammar.Lexemes
import ClosureLang.Proofs.Text.Encoding

/-! Positions as lines and columns, and the byte offsets that they stand for. -/
namespace ClosureLang

namespace Utf8

variable {cs ds es : List Char} {s : String} {o i : Nat} {b : UInt8}

theorem length_encode (cs : List Char) : (cs.flatMap String.utf8EncodeChar).length = size cs := by
  induction cs with
  | nil => rfl
  | cons c cs ih =>
    rw [List.flatMap_cons, List.length_append, ih, String.length_utf8EncodeChar, size]

theorem size_append (cs ds : List Char) : size (cs ++ ds) = size cs + size ds := by
  rw [← length_encode, ← length_encode, ← length_encode, List.flatMap_append, List.length_append]

theorem size_toList (s : String) : size s.toList = s.utf8ByteSize := by
  rw [← length_encode, ← Text.bytes_toUTF8]
  rfl

theorem decode_encode (cs : List Char) : decode (cs.flatMap String.utf8EncodeChar) = cs := by
  rw [decode, chars_encode, List.map_map]
  exact List.map_id' cs

theorem count_encode (cs : List Char) : count (cs.flatMap String.utf8EncodeChar) = cs.length := by
  rw [count, chars_encode, List.length_map]

theorem bytesOf_eq (s : String) (start stop : Nat) :
    bytesOf s start stop = (s.toUTF8.data.toList.take stop).drop start := by
  rw [bytesOf, Grammar.toList_eq, ByteArray.data_extract, Array.toList_extract,
    List.extract_eq_take_drop, List.drop_take]

/-- A byte of ASCII is a character of its own. -/
theorem split_of_ascii (hb : (cs.flatMap String.utf8EncodeChar)[i]? = some b)
    (hlt : b.toNat < 128) :
    ∃ ds d es, cs = ds ++ d :: es ∧ size ds = i ∧ String.utf8EncodeChar d = [b] := by
  induction cs generalizing i with
  | nil => simp at hb
  | cons c cs ih =>
    rw [List.flatMap_cons, List.getElem?_append] at hb
    split at hb
    · obtain ⟨-, hencode⟩ | ⟨-, hhigh⟩ := Text.encode_cases c
      · rw [hencode] at hb
        obtain ⟨hi, rfl⟩ := List.getElem?_eq_some_iff.mp hb
        simp only [List.length_singleton, Nat.lt_one_iff] at hi
        subst hi
        exact ⟨[], c, cs, rfl, rfl, hencode⟩
      · have hge := hhigh b (List.mem_of_getElem? hb)
        omega
    · obtain ⟨ds, d, es, rfl, hsize, hencode⟩ := ih hb
      refine ⟨c :: ds, d, es, rfl, ?_, hencode⟩
      rw [size, hsize, ← String.length_utf8EncodeChar]
      omega

/-- The text is `cs`, which ends at an offset, and then `ds`. -/
structure Splits (s : String) (o : Nat) (cs ds : List Char) : Prop where
  text : s.toList = cs ++ ds
  size : size cs = o

namespace Splits

theorem bytes (h : Splits s o cs ds) :
    s.toUTF8.data.toList =
      cs.flatMap String.utf8EncodeChar ++ ds.flatMap String.utf8EncodeChar := by
  rw [Text.bytes_toUTF8, h.text, List.flatMap_append]

theorem take (h : Splits s o cs ds) :
    s.toUTF8.data.toList.take o = cs.flatMap String.utf8EncodeChar := by
  rw [h.bytes, List.take_left' (by rw [length_encode, h.size])]

theorem le (h : Splits s o cs ds) : o ≤ s.utf8ByteSize := by
  have hlength := congrArg List.length h.bytes
  rw [List.length_append, length_encode, h.size] at hlength
  exact Nat.le.intro hlength.symm

theorem start (s : String) : Splits s 0 [] s.toList := ⟨rfl, rfl⟩

theorem stop (s : String) : Splits s s.utf8ByteSize s.toList [] :=
  ⟨(List.append_nil _).symm, size_toList s⟩

/-- What stands between two places. -/
theorem between {cs' ds' : List Char} (h : Splits s o cs ds) (h' : Splits s i cs' ds')
    (hle : o ≤ i) : ∃ mid, cs' = cs ++ mid ∧ ds = mid ++ ds' := by
  obtain hmid | ⟨mid, rfl, rfl⟩ := List.append_eq_append_iff.mp (h.text.symm.trans h'.text)
  · exact hmid
  · have hsize := h.size
    rw [size_append, h'.size] at hsize
    have hnil : mid = [] := by
      cases mid with
      | nil => rfl
      | cons c mid =>
        have hpos := c.utf8Size_pos
        rw [Utf8.size] at hsize
        omega
    subst hnil
    exact ⟨[], by simp, rfl⟩

theorem unique {cs' ds' : List Char} (h : Splits s o cs ds) (h' : Splits s o cs' ds') :
    cs = cs' ∧ ds = ds' := by
  obtain ⟨mid, rfl, rfl⟩ := h.between h' (Nat.le_refl o)
  obtain ⟨mid', hcs, -⟩ := h'.between h (Nat.le_refl o)
  have hnil : mid = [] ∧ mid' = [] := by simpa using hcs
  rw [hnil.1, List.append_nil]
  exact ⟨rfl, rfl⟩

/-- Parts of the text between two places, as a text of its own. -/
theorem slice (h : Splits s o cs (ds ++ es)) (h' : Splits s i (cs ++ ds) es) :
    Utf8.slice s o i = String.ofList ds := by
  rw [Utf8.slice, bytesOf_eq, h'.take, List.flatMap_append,
    List.drop_left' (by rw [length_encode, h.size]), decode_encode]

theorem bytes_slice {cs' ds' : List Char} (h : Splits s o cs ds) (h' : Splits s i cs' ds')
    (hle : o ≤ i) :
    (Utf8.slice s o i).toUTF8.data.toList = (s.toUTF8.data.toList.take i).drop o := by
  obtain ⟨mid, rfl, rfl⟩ := h.between h' hle
  rw [h.slice h', Text.bytes_toUTF8, String.toList_ofList, h'.take, List.flatMap_append,
    List.drop_left' (by rw [length_encode, h.size])]

/-- The text splits in front of every byte of ASCII. -/
theorem of_ascii (hb : s.toUTF8[i]? = some b) (hlt : b.toNat < 128) :
    ∃ cs d ds, Splits s i cs (d :: ds) ∧ Splits s (i + 1) (cs ++ [d]) ds ∧
      String.utf8EncodeChar d = [b] := by
  rw [Grammar.getElem?_eq, Text.bytes_toUTF8] at hb
  obtain ⟨cs, d, ds, htext, hsize, hencode⟩ := split_of_ascii hb hlt
  refine ⟨cs, d, ds, ⟨htext, hsize⟩, ⟨by rw [htext, List.append_assoc]; rfl, ?_⟩, hencode⟩
  rw [size_append, hsize, Utf8.size, Utf8.size, ← String.length_utf8EncodeChar, hencode]
  rfl

end Splits

end Utf8

namespace Editor

open Utf8

variable {cs ds : List Char} {s : String} {o : Nat}

/-- The characters behind the last line feed. -/
def lastLine (cs : List Char) : List Char := (cs.reverse.takeWhile (· ≠ '\n')).reverse

theorem lastLine_feed (cs : List Char) : lastLine (cs ++ ['\n']) = [] := by simp [lastLine]

theorem lastLine_char {c : Char} (hc : c ≠ '\n') : lastLine (cs ++ [c]) = lastLine cs ++ [c] := by
  simp [lastLine, hc]

theorem lastLine_of_not_mem (h : '\n' ∉ cs) : lastLine cs = cs := by
  rw [lastLine, List.takeWhile_eq_self_iff.mpr
    fun c hc => by simpa using ne_of_mem_of_not_mem (List.mem_reverse.mp hc) h,
    List.reverse_reverse]

theorem lastLine_cons_of_mem {c : Char} (h : '\n' ∈ c :: cs) :
    lastLine (c :: cs) = lastLine cs := by
  rw [lastLine, lastLine, List.reverse_cons, List.takeWhile_append]
  split
  · rename_i hlength
    have hall := (List.takeWhile_prefix _).eq_of_length hlength
    have hmem : '\n' ∉ cs := by
      intro hmem
      have hchar := List.takeWhile_eq_self_iff.mp hall '\n' (List.mem_reverse.mpr hmem)
      simp at hchar
    obtain rfl : c = '\n' := by simpa [hmem, eq_comm] using h
    rw [hall]
    simp
  · rfl

/-- Only the line feed has the byte of a line feed. -/
theorem newline_not_mem {c : Char} (hc : c ≠ '\n') :
    ∀ b ∈ String.utf8EncodeChar c, b ≠ Location.newline := by
  rintro b hb rfl
  obtain ⟨hlt, hencode⟩ | ⟨-, hhigh⟩ := Text.encode_cases c
  · rw [hencode, List.mem_singleton] at hb
    have hcode := congrArg UInt8.toNat hb
    rw [UInt8.toNat_ofNat', Nat.mod_eq_of_lt (by omega)] at hcode
    refine hc ?_
    rw [← c.ofNat_toNat, ← hcode]
    rfl
  · exact absurd (hhigh _ hb) (by decide)

/-- Lines of bytes are lines of characters. -/
theorem lastLine_encode (cs : List Char) : Location.lastLine (cs.flatMap String.utf8EncodeChar) =
    (cs.count '\n', (lastLine cs).flatMap String.utf8EncodeChar) := by
  induction cs using List.reverseRecOn with
  | nil => rfl
  | append_singleton cs c ih =>
    simp only [Location.lastLine, Prod.mk.injEq] at ih ⊢
    rw [List.flatMap_append, List.flatMap_singleton, List.count_append, List.count_append, ih.1,
      List.reverse_append]
    by_cases hc : c = '\n'
    · subst hc
      rw [lastLine_feed]
      exact ⟨rfl, rfl⟩
    · have hbytes := newline_not_mem hc
      refine ⟨?_, ?_⟩
      · rw [List.count_eq_zero.mpr fun hmem => hbytes _ hmem rfl, List.count_singleton,
          if_neg (by simpa using hc)]
      · rw [List.takeWhile_append_of_pos (by simpa using hbytes), List.reverse_append,
          List.reverse_reverse, ih.2, lastLine_char hc, List.flatMap_append, List.flatMap_singleton]

/-- What a place is located at. -/
theorem locate_eq (h : Splits s o cs ds) (file : String) :
    Location.locate file s o = ⟨file, o, cs.count '\n' + 1, (lastLine cs).length + 1⟩ := by
  have hstop : min (o : Int).toNat s.utf8ByteSize = o := by
    rw [Int.toNat_natCast, Nat.min_eq_left h.le]
  simp only [Location.locate, if_neg (Int.not_lt.mpr (Int.natCast_nonneg o)), hstop, bytesOf_eq,
    List.drop_zero, h.take, lastLine_encode, count_encode]

theorem ofOffset_eq (h : Splits s o cs ds) :
    Position.ofOffset s o = ⟨cs.count '\n', (lastLine cs).length⟩ := by
  rw [Position.ofOffset, locate_eq h, Position.ofLocation]
  simp

theorem splitOnChar_ne_nil (sep : Char) (cs : List Char) : Text.splitOnChar sep cs ≠ [] := by
  rw [← List.length_pos_iff, Text.length_splitOnChar]
  exact Nat.succ_pos _

/-- The line that a place is in, and what stands before it. -/
theorem splitOnChar_append (cs ds : List Char) : ∃ before rest after,
    Text.splitOnChar '\n' (cs ++ ds) = before ++ (lastLine cs ++ rest) :: after ∧
    before.length = cs.count '\n' ∧
      Position.lineBytes (before.map String.ofList) + size (lastLine cs) = size cs := by
  induction cs with
  | nil =>
    obtain ⟨line, lines, hlines⟩ := List.exists_cons_of_ne_nil (splitOnChar_ne_nil '\n' ds)
    exact ⟨[], line, lines, hlines, rfl, rfl⟩
  | cons c cs ih =>
    obtain ⟨before, rest, after, hsplit, hcount, hbytes⟩ := ih
    rw [List.cons_append, Text.splitOnChar, hsplit]
    by_cases hc : c = '\n'
    · subst hc
      refine ⟨[] :: before, rest, after, ?_, by simp [hcount], ?_⟩
      · rw [if_pos rfl, lastLine_cons_of_mem List.mem_cons_self]
        rfl
      · rw [lastLine_cons_of_mem List.mem_cons_self, size, ← hbytes, List.map_cons,
          Position.lineBytes]
        simp only [String.ofList_nil, String.utf8ByteSize_empty, show ('\n').utf8Size = 1 from rfl]
        omega
    · rw [if_neg hc, List.count_cons_of_ne (by simpa using hc)]
      cases before with
      | nil =>
        -- the first line goes on
        have hmem : '\n' ∉ cs := List.count_eq_zero.mp hcount.symm
        have hmem' : '\n' ∉ c :: cs := by simpa [hmem] using Ne.symm hc
        refine ⟨[], rest, after, ?_, hcount, ?_⟩
        · rw [lastLine_of_not_mem hmem, lastLine_of_not_mem hmem']
          rfl
        · rw [lastLine_of_not_mem hmem']
          exact Nat.zero_add _
      | cons line before =>
        have hmem : '\n' ∈ c :: cs :=
          List.mem_cons_of_mem _ (List.count_pos_iff.mp (by rw [← hcount]; exact Nat.succ_pos _))
        refine ⟨(c :: line) :: before, rest, after, ?_, hcount, ?_⟩
        · rw [lastLine_cons_of_mem hmem]
          rfl
        · rw [lastLine_cons_of_mem hmem, size, ← hbytes, List.map_cons, List.map_cons,
            Position.lineBytes, Position.lineBytes, ← size_toList, ← size_toList,
            String.toList_ofList, String.toList_ofList, size]
          omega

/-- A position stands for the offset that it was made from. -/
theorem offset?_ofOffset (h : Splits s o cs ds) : (Position.ofOffset s o).offset? s = some o := by
  obtain ⟨before, rest, after, hsplit, hcount, hbytes⟩ := splitOnChar_append cs ds
  rw [ofOffset_eq h, Position.offset?, Text.lines, h.text, hsplit, ← hcount]
  simp only [List.map_append, List.map_cons]
  rw [List.getElem?_append_right (by simp), List.take_left' (by simp)]
  simp only [List.length_map, Nat.sub_self, List.getElem?_cons_zero, String.toList_ofList,
    List.take_left]
  rw [hbytes, h.size]

end Editor

end ClosureLang
