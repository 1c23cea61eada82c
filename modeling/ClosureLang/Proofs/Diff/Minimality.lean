import Mathlib.Data.List.Basic
import ClosureLang.Diff
import ClosureLang.Proofs.Editor.Positions

/-! Line diffs are correct and minimal: they spell both texts, and keep as many lines as any common
subsequence has. -/
namespace ClosureLang.Diff

section Common

variable {α : Type} [DecidableEq α] {x y : α} {l xs ys : List α}

/-- The length of a longest common subsequence. -/
def common : List α → List α → Nat
  | x :: xs, y :: ys =>
    if x = y then common xs ys + 1 else max (common xs (y :: ys)) (common (x :: xs) ys)
  | _, _ => 0
termination_by xs ys => xs.length + ys.length

@[simp] theorem common_nil_left (ys : List α) : common [] ys = 0 := by
  rw [common]
  simp

@[simp] theorem common_nil_right (xs : List α) : common xs [] = 0 := by
  rw [common]
  simp

theorem common_cons_self (x : α) (xs ys : List α) :
    common (x :: xs) (x :: ys) = common xs ys + 1 := by
  rw [common, if_pos rfl]

theorem common_cons_of_ne (h : x ≠ y) (xs ys : List α) :
    common (x :: xs) (y :: ys) = max (common xs (y :: ys)) (common (x :: xs) ys) := by
  rw [common, if_neg h]

/-- No common subsequence is longer. -/
theorem length_le_common (h : l.Sublist xs) (h' : l.Sublist ys) : l.length ≤ common xs ys := by
  fun_induction common xs ys generalizing l with
  | case1 xs x ys ih =>
    -- behind its first element, a common subsequence is one of both rests
    have htail := ih h.tail h'.tail
    rw [List.length_tail] at htail
    omega
  | case2 x xs y ys hne ih ih' =>
    obtain hskip | ⟨r, rfl, -⟩ := List.sublist_cons_iff.mp h
    · exact Nat.le_trans (ih hskip h') (Nat.le_max_left ..)
    · obtain hskip' | ⟨r', hr', -⟩ := List.sublist_cons_iff.mp h'
      · exact Nat.le_trans (ih' h hskip') (Nat.le_max_right ..)
      · exact absurd (List.cons.inj hr').1 hne
  | case3 xs ys hnil =>
    cases xs with
    | nil => simp [List.sublist_nil.mp h]
    | cons x xs =>
      cases ys with
      | nil => simp [List.sublist_nil.mp h']
      | cons y ys => exact (hnil x xs y ys rfl rfl).elim

end Common

variable {a b : Array Bytes} {t t' : Table} {i j i' j' n : Nat}

namespace Table

/-- Writing an entry changes nothing else. -/
theorem at?_set? (h : t.set? i j n = some t') (i' j' : Nat) :
    t'.at? i' j' = if i' = i ∧ j' = j then some n else t.at? i' j' := by
  rw [set?, Option.ite_none_right_eq_some, Option.some.injEq] at h
  obtain ⟨hsome, rfl⟩ := h
  rw [at?, Option.isSome_bind, Option.any_eq_true] at hsome
  obtain ⟨row, hrow, hlt⟩ := hsome
  rw [at?, at?, Array.getElem?_modify]
  by_cases hi : i' = i
  · subst hi
    rw [if_pos rfl, hrow]
    by_cases hj : j' = j
    · subst hj
      have hlt' : j' < row.size := by simpa using hlt
      simp [hlt']
    · simp [hj, Ne.symm hj]
  · simp [hi, Ne.symm hi]

theorem exists_set? (h : (t.at? i j).isSome) (n : Nat) : ∃ t', t.set? i j n = some t' :=
  ⟨_, if_pos h⟩

/-- The length of a longest common subsequence of what both texts have from their lines `i` and `j`
on. -/
def rest (a b : Array Bytes) (i j : Nat) : Nat := common (a.toList.drop i) (b.toList.drop j)

theorem drop_eq_cons (hi : i < a.size) : a.toList.drop i = a[i] :: a.toList.drop (i + 1) :=
  List.drop_eq_getElem_cons (by simpa using hi)

theorem drop_size (a : Array Bytes) : a.toList.drop a.size = [] := by
  rw [← Array.length_toList, List.drop_length]

theorem rest_size_left (a b : Array Bytes) (j : Nat) : rest a b a.size j = 0 := by
  rw [rest, drop_size, common_nil_left]

theorem rest_size_right (a b : Array Bytes) (i : Nat) : rest a b i b.size = 0 := by
  rw [rest, drop_size, common_nil_right]

/-- A table whose entries are there, and right in the rows below `i`, in row `i` from column `j` on,
and in the last column. -/
structure Filled (a b : Array Bytes) (i j : Nat) (t : Table) : Prop where
  isSome_at? : ∀ i' j', (t.at? i' j').isSome ↔ i' ≤ a.size ∧ j' ≤ b.size
  at?_eq : ∀ i' j', i' ≤ a.size → j' ≤ b.size → i < i' ∨ i' = i ∧ j ≤ j' ∨ j' = b.size →
    t.at? i' j' = some (rest a b i' j')

/-- Where nothing is left of one text, there is nothing in common. -/
theorem filled_zero (a b : Array Bytes) :
    Filled a b a.size 0 (.replicate (a.size + 1) (.replicate (b.size + 1) 0)) := by
  have hat : ∀ i j, at? (.replicate (a.size + 1) (.replicate (b.size + 1) 0)) i j =
      if i ≤ a.size ∧ j ≤ b.size then some 0 else none := by
    intro i j
    rw [at?, Array.getElem?_replicate]
    by_cases hi : i ≤ a.size
    · rw [if_pos (Nat.lt_succ_of_le hi), Option.bind_some, Array.getElem?_replicate]
      simp only [hi, true_and, Nat.lt_succ_iff]
    · rw [if_neg (by omega), Option.bind_none, if_neg (fun h => hi h.1)]
  refine ⟨fun i j => by rw [hat]; simp, fun i j hi hj hright => ?_⟩
  rw [hat, if_pos ⟨hi, hj⟩, Option.some.injEq]
  obtain rfl | rfl : i = a.size ∨ j = b.size := by omega
  · rw [rest_size_left]
  · rw [rest_size_right]

theorem rest_of_eq (hi : i < a.size) (hj : j < b.size) (h : a[i] = b[j]) :
    rest a b i j = rest a b (i + 1) (j + 1) + 1 := by
  rw [rest, rest, drop_eq_cons hi, drop_eq_cons hj, h, common_cons_self]

theorem rest_of_ne (hi : i < a.size) (hj : j < b.size) (h : a[i] ≠ b[j]) :
    rest a b i j = max (rest a b (i + 1) j) (rest a b i (j + 1)) := by
  rw [rest, rest, rest, drop_eq_cons hi, drop_eq_cons hj, common_cons_of_ne h]

theorem getElem_ne (h : ¬ (i < a.size ∧ j < b.size ∧ a[i]? = b[j]?)) (hi : i < a.size)
    (hj : j < b.size) : a[i] ≠ b[j] :=
  fun heq => h ⟨hi, hj, by rw [Array.getElem?_eq_getElem hi, Array.getElem?_eq_getElem hj, heq]⟩

/-- Without the line that is dropped on the left, no less is in common. -/
theorem rest_of_dropsLeft (hi : i < a.size) (hj : j ≤ b.size)
    (hdiffer : ¬ (i < a.size ∧ j < b.size ∧ a[i]? = b[j]?))
    (h : j = b.size ∨ i < a.size ∧ rest a b i (j + 1) ≤ rest a b (i + 1) j) :
    rest a b i j = rest a b (i + 1) j := by
  by_cases hlt : j < b.size
  · have hle : rest a b i (j + 1) ≤ rest a b (i + 1) j := by omega
    rw [rest_of_ne hi hlt (getElem_ne hdiffer hi hlt), Nat.max_eq_left hle]
  · obtain rfl : j = b.size := by omega
    rw [rest_size_right, rest_size_right]

/-- Without the line that is dropped on the right, no less is in common. -/
theorem rest_of_not_dropsLeft (hi : i ≤ a.size) (hj : j < b.size)
    (hdiffer : ¬ (i < a.size ∧ j < b.size ∧ a[i]? = b[j]?))
    (h : ¬ (j = b.size ∨ i < a.size ∧ rest a b i (j + 1) ≤ rest a b (i + 1) j)) :
    rest a b i j = rest a b i (j + 1) := by
  by_cases hlt : i < a.size
  · have hle : rest a b (i + 1) j ≤ rest a b i (j + 1) := by omega
    rw [rest_of_ne hlt hj (getElem_ne hdiffer hlt hj), Nat.max_eq_right hle]
  · obtain rfl : i = a.size := by omega
    rw [rest_size_left, rest_size_left]

/-- The step lemma: an entry is computed from entries that are right. -/
theorem Filled.fillEntry (h : Filled a b i (j + 1) t) (hi : i < a.size) (hj : j < b.size) :
    ∃ t', t.fillEntry a b i j = some t' ∧ Filled a b i j t' := by
  obtain ⟨isSome_at?, at?_eq⟩ := h
  have hdiagonal := at?_eq (i + 1) (j + 1) hi hj (.inl (Nat.lt_succ_self i))
  have hbelow := at?_eq (i + 1) j hi (Nat.le_of_lt hj) (.inl (Nat.lt_succ_self i))
  have hright := at?_eq i (j + 1) (Nat.le_of_lt hi) hj (.inr (.inl ⟨rfl, Nat.le_refl _⟩))
  obtain ⟨t', ht'⟩ :=
    exists_set? ((isSome_at? i j).mpr ⟨Nat.le_of_lt hi, Nat.le_of_lt hj⟩) (rest a b i j)
  refine ⟨t', ?_, fun i' j' => ?_, fun i' j' hi' hj' hdone => ?_⟩
  · rw [Table.fillEntry, Array.getElem?_eq_getElem hi, Array.getElem?_eq_getElem hj, hdiagonal,
      hbelow, hright]
    by_cases heq : a[i] = b[j]
    · simpa [heq, ← rest_of_eq hi hj heq] using ht'
    · simpa [heq, ← rest_of_ne hi hj heq] using ht'
  · rw [at?_set? ht']
    split
    · rename_i hsame
      simp only [Option.isSome_some, true_iff]
      omega
    · exact isSome_at? i' j'
  · rw [at?_set? ht']
    split
    · rename_i hsame
      rw [hsame.1, hsame.2]
    · exact at?_eq i' j' hi' hj' (by omega)

theorem Filled.fillRow (h : Filled a b i j t) (hi : i < a.size) (hj : j ≤ b.size) :
    ∃ t', t.fillRow a b i j = some t' ∧ Filled a b i 0 t' := by
  induction j generalizing t with
  | zero => exact ⟨t, rfl, h⟩
  | succ j ih =>
    obtain ⟨t₁, ht₁, h₁⟩ := h.fillEntry hi hj
    obtain ⟨t', ht', h'⟩ := ih h₁ (Nat.le_of_lt hj)
    exact ⟨t', by rw [Table.fillRow, ht₁, Option.bind_some, ht'], h'⟩

theorem Filled.fillRows (h : Filled a b i 0 t) (hi : i ≤ a.size) :
    ∃ t', t.fillRows a b i = some t' ∧ Filled a b 0 0 t' := by
  induction i generalizing t with
  | zero => exact ⟨t, rfl, h⟩
  | succ i ih =>
    have hnext : Filled a b i b.size t :=
      ⟨h.isSome_at?, fun i' j' hi' hj' hdone => h.at?_eq i' j' hi' hj' (by omega)⟩
    obtain ⟨t₁, ht₁, h₁⟩ := hnext.fillRow hi (Nat.le_refl _)
    obtain ⟨t', ht', h'⟩ := ih h₁ (Nat.le_of_lt hi)
    exact ⟨t', by rw [Table.fillRows, ht₁, Option.bind_some, ht'], h'⟩

/-- The table is computed, and all of its entries are right. -/
theorem of?_spec (a b : Array Bytes) : ∃ t, of? a b = some t ∧
    ∀ i j, i ≤ a.size → j ≤ b.size → t.at? i j = some (rest a b i j) := by
  obtain ⟨t, ht, h⟩ := (filled_zero a b).fillRows (Nat.le_refl _)
  exact ⟨t, ht, fun i j hi hj => h.at?_eq i j hi hj (by omega)⟩

end Table

/-- What a line stands for in the first text. -/
def Line.old? : Line → Option Bytes
  | kept text | removed text => some text
  | added _ => none

/-- What a line stands for in the second text. -/
def Line.new? : Line → Option Bytes
  | kept text | added text => some text
  | removed _ => none

def Line.kept? : Line → Option Bytes
  | kept text => some text
  | removed _ | added _ => none

/-- A script goes from one list of lines to another one, and keeps as many lines as possible. -/
structure Explains (xs ys : List Bytes) (script : List Line) : Prop where
  old : script.filterMap Line.old? = xs
  new : script.filterMap Line.new? = ys
  kept : (script.filterMap Line.kept?).length = common xs ys

namespace Explains

variable {x y : Bytes} {xs ys : List Bytes} {script : List Line}

theorem nil : Explains [] [] [] := ⟨rfl, rfl, by rw [common_nil_left]; rfl⟩

theorem keep (h : Explains xs ys script) (x : Bytes) :
    Explains (x :: xs) (x :: ys) (.kept x :: script) := by
  obtain ⟨rfl, rfl, hkept⟩ := h
  refine ⟨rfl, rfl, ?_⟩
  rw [common_cons_self, ← hkept]
  rfl

theorem remove (h : Explains xs ys script) (hcommon : common (x :: xs) ys = common xs ys) :
    Explains (x :: xs) ys (.removed x :: script) := by
  obtain ⟨rfl, rfl, hkept⟩ := h
  exact ⟨rfl, rfl, hkept.trans hcommon.symm⟩

theorem add (h : Explains xs ys script) (hcommon : common xs (y :: ys) = common xs ys) :
    Explains xs (y :: ys) (.added y :: script) := by
  obtain ⟨rfl, rfl, hkept⟩ := h
  exact ⟨rfl, rfl, hkept.trans hcommon.symm⟩

end Explains

open Table

section Script

variable (ht : ∀ i j, i ≤ a.size → j ≤ b.size → t.at? i j = some (rest a b i j))

include ht

/-- All entries that are looked at are there. -/
theorem dropsLeft_eq (hi : i ≤ a.size) (hj : j ≤ b.size) : dropsLeft a b t i j =
    some (decide (j = b.size ∨ i < a.size ∧ rest a b i (j + 1) ≤ rest a b (i + 1) j)) := by
  unfold dropsLeft
  by_cases hend : j = b.size
  · simp [hend]
  · by_cases hlt : i < a.size
    · rw [ht i (j + 1) hi (by omega), ht (i + 1) j hlt hj]
      simp [hend, hlt]
    · simp [hend, hlt]

/-- A script is found, and it is minimal. -/
theorem scriptFrom?_spec (hi : i ≤ a.size) (hj : j ≤ b.size) : ∃ script,
    scriptFrom? a b t i j = some script ∧ Explains (a.toList.drop i) (b.toList.drop j) script := by
  induction hn : (a.size - i) + (b.size - j) using Nat.strongRecOn generalizing i j with
  | _ n ih =>
  rw [scriptFrom?, dropsLeft_eq ht hi hj, Option.bind_some]
  by_cases hmore : i < a.size ∨ j < b.size
  · rw [if_pos hmore]
    by_cases hsame : i < a.size ∧ j < b.size ∧ a[i]? = b[j]?
    · obtain ⟨hia, hjb, heq⟩ := hsame
      obtain ⟨script, hscript, h⟩ := ih _ (by omega) (i := i + 1) (j := j + 1) hia hjb rfl
      rw [if_pos ⟨hia, hjb, heq⟩, dif_pos hia, hscript]
      rw [Array.getElem?_eq_getElem hia, Array.getElem?_eq_getElem hjb, Option.some.injEq] at heq
      refine ⟨_, rfl, ?_⟩
      rw [drop_eq_cons hia, drop_eq_cons hjb, ← heq]
      exact h.keep a[i]
    · rw [if_neg hsame]
      by_cases hleft : j = b.size ∨ i < a.size ∧ rest a b i (j + 1) ≤ rest a b (i + 1) j
      · have hia : i < a.size := by omega
        obtain ⟨script, hscript, h⟩ := ih _ (by omega) (i := i + 1) (j := j) hia hj rfl
        rw [decide_eq_true hleft, if_pos rfl, dif_pos hia, hscript]
        refine ⟨_, rfl, ?_⟩
        have hrest := rest_of_dropsLeft hia hj hsame hleft
        rw [rest, rest, drop_eq_cons hia] at hrest
        rw [drop_eq_cons hia]
        exact h.remove hrest
      · have hjb : j < b.size := by omega
        obtain ⟨script, hscript, h⟩ := ih _ (by omega) (i := i) (j := j + 1) hi hjb rfl
        rw [decide_eq_false hleft, if_neg Bool.false_ne_true, dif_pos hjb, hscript]
        refine ⟨_, rfl, ?_⟩
        have hrest := rest_of_not_dropsLeft hi hjb hsame hleft
        rw [rest, rest, drop_eq_cons hjb] at hrest
        rw [drop_eq_cons hjb]
        exact h.add hrest
  · rw [if_neg hmore]
    obtain ⟨rfl, rfl⟩ : i = a.size ∧ j = b.size := by omega
    refine ⟨[], rfl, ?_⟩
    rw [drop_size, drop_size]
    exact .nil

end Script

theorem script?_spec (xs ys : List Bytes) :
    ∃ script, script? xs.toArray ys.toArray = some script ∧ Explains xs ys script := by
  obtain ⟨t, ht, hright⟩ := of?_spec xs.toArray ys.toArray
  obtain ⟨script, hscript, h⟩ := scriptFrom?_spec hright (Nat.zero_le _) (Nat.zero_le _)
  exact ⟨script, by rw [script?, ht, Option.bind_some, hscript], h⟩

theorem linesOf_append {l : Bytes} (h : lineFeed ∉ l) (bs : Bytes) :
    linesOf (l ++ lineFeed :: bs) = l :: linesOf bs := by
  induction l with
  | nil => rw [List.nil_append, linesOf, if_pos rfl]
  | cons b l ih =>
    rw [List.mem_cons, not_or] at h
    rw [List.cons_append, linesOf, if_neg (Ne.symm h.1), ih h.2]

/-- What is written line by line is read so. -/
theorem linesOf_flatMap {ls : List Bytes} (h : ∀ l ∈ ls, lineFeed ∉ l) :
    linesOf (ls.flatMap fun l => l ++ [lineFeed]) = ls := by
  induction ls with
  | nil => rfl
  | cons l ls ih =>
    rw [List.forall_mem_cons] at h
    rw [List.flatMap_cons, List.append_assoc, List.singleton_append, linesOf_append h.1, ih h.2]

theorem not_mem_linesOf {bs l : Bytes} (hl : l ∈ linesOf bs) : lineFeed ∉ l := by
  induction bs generalizing l with
  | nil => exact absurd hl List.not_mem_nil
  | cons b bs ih =>
    rw [linesOf] at hl
    split at hl
    · obtain rfl | hl := List.mem_cons.mp hl
      · exact List.not_mem_nil
      · exact ih hl
    · rename_i hb
      split at hl
      · rw [List.mem_singleton.mp hl, List.mem_singleton]
        exact Ne.symm hb
      · rename_i line lines hlines
        rw [hlines, List.forall_mem_cons] at ih
        obtain rfl | hl := List.mem_cons.mp hl
        · rw [List.mem_cons, not_or]
          exact ⟨Ne.symm hb, ih.1⟩
        · exact ih.2 l hl

/-- A line of a script is a line of one of the texts. -/
theorem Explains.mem {xs ys : List Bytes} {script : List Line} (h : Explains xs ys script)
    {line : Line} (hline : line ∈ script) :
    ∃ m l, line.bytes = m :: l ∧ m ≠ lineFeed ∧ (l ∈ xs ∨ l ∈ ys) := by
  cases line with
  | kept l => exact ⟨_, l, rfl, by decide, .inl (h.old ▸ List.mem_filterMap.mpr ⟨_, hline, rfl⟩)⟩
  | removed l => exact ⟨_, l, rfl, by decide, .inl (h.old ▸ List.mem_filterMap.mpr ⟨_, hline, rfl⟩)⟩
  | added l => exact ⟨_, l, rfl, by decide, .inr (h.new ▸ List.mem_filterMap.mpr ⟨_, hline, rfl⟩)⟩

/-- Lines that are kept belong to both texts. -/
theorem kept_sublist {f : Line → Option Bytes}
    (hf : ∀ line, line.kept? = none ∨ line.kept? = f line) (script : List Line) :
    (script.filterMap Line.kept?).Sublist (script.filterMap f) := by
  induction script with
  | nil => exact .slnil
  | cons line script ih =>
    rw [List.filterMap_cons, List.filterMap_cons]
    obtain hnone | hsame := hf line
    · rw [hnone]
      cases f line with
      | none => exact ih
      | some l => exact ih.cons l
    · rw [hsame]
      cases f line with
      | none => exact ih
      | some l => exact ih.cons_cons l

/-- The rest of a line that begins with one of some marks. -/
def behindMark? (marks : Bytes) : Bytes → Option Bytes
  | [] => none
  | m :: line => if m ∈ marks then some line else none

/-- The lines with one of some marks. -/
def marked (marks : Bytes) (bs : Bytes) : List Bytes := (linesOf bs).filterMap (behindMark? marks)

/-- The diff of any two texts is found. Behind its headers, the lines that are kept or removed spell
the first text, those that are kept or added spell the second one, and no common subsequence of both
has more lines than are kept. -/
theorem diff_minimal (path before after : Bytes) :
    ∃ body, bytes? path before after = some (headers path ++ body) ∧
    marked [Line.keptMark, Line.removedMark] body = linesOf before ∧
    marked [Line.keptMark, Line.addedMark] body = linesOf after ∧
    (marked [Line.keptMark] body).Sublist (linesOf before) ∧
    (marked [Line.keptMark] body).Sublist (linesOf after) ∧
    ∀ l : List Bytes, l.Sublist (linesOf before) → l.Sublist (linesOf after) →
      l.length ≤ (marked [Line.keptMark] body).length := by
  obtain ⟨script, hscript, h⟩ := script?_spec (linesOf before) (linesOf after)
  refine ⟨script.flatMap
    fun line => line.bytes ++ [lineFeed], by rw [bytes?, hscript, Option.map_some], ?_⟩
  have hlines :
      linesOf (script.flatMap fun line => line.bytes ++ [lineFeed]) = script.map Line.bytes := by
    rw [← List.flatMap_map Line.bytes (fun l => l ++ [lineFeed]), linesOf_flatMap]
    intro l hl
    obtain ⟨line, hline, rfl⟩ := List.mem_map.mp hl
    obtain ⟨m, l, hbytes, hm, hmem⟩ := h.mem hline
    rw [hbytes, List.mem_cons, not_or]
    exact ⟨Ne.symm hm, hmem.elim not_mem_linesOf not_mem_linesOf⟩
  have hmarked (marks : Bytes) (f : Line → Option Bytes)
      (hf : ∀ line, behindMark? marks line.bytes = f line) :
      marked marks (script.flatMap fun line => line.bytes ++ [lineFeed]) = script.filterMap f := by
    rw [marked, hlines, List.filterMap_map]
    exact List.filterMap_congr fun line _ => hf line
  rw [hmarked [Line.keptMark, Line.removedMark] Line.old? (fun line => by cases line <;> rfl),
    hmarked [Line.keptMark, Line.addedMark] Line.new? (fun line => by cases line <;> rfl),
    hmarked [Line.keptMark] Line.kept? (fun line => by cases line <;> rfl)]
  refine ⟨h.old, h.new, ?_, ?_, fun l hl hl' => ?_⟩
  · rw [← h.old]
    exact kept_sublist (fun line => by cases line <;> simp [Line.kept?, Line.old?]) script
  · rw [← h.new]
    exact kept_sublist (fun line => by cases line <;> simp [Line.kept?, Line.new?]) script
  · rw [h.kept]
    exact length_le_common hl hl'

/-! ### Texts -/

/-- Bytes that are characters. -/
def Spelled (bs : Bytes) : Prop := ∃ cs : List Char, bs = cs.flatMap String.utf8EncodeChar

theorem linesOf_cons {b : UInt8} (h : b ≠ lineFeed) (bs : Bytes) :
    linesOf (b :: bs) = (b :: (linesOf bs).headD []) :: (linesOf bs).tail := by
  rw [linesOf, if_neg h]
  split
  · rename_i hnil
    rw [hnil]
    rfl
  · rename_i hcons
    rw [hcons]
    rfl

/-- What has no line feed belongs to the line behind it. -/
theorem linesOf_prepend {l : Bytes} (h : ∀ b ∈ l, b ≠ lineFeed) (hl : l ≠ []) (bs : Bytes) :
    linesOf (l ++ bs) = (l ++ (linesOf bs).headD []) :: (linesOf bs).tail := by
  induction l with
  | nil => exact absurd rfl hl
  | cons b l ih =>
    rw [List.forall_mem_cons] at h
    rw [List.cons_append, linesOf_cons h.1]
    cases l with
    | nil => rfl
    | cons b' l => rw [ih h.2 (List.cons_ne_nil _ _)]; rfl

namespace Spelled

variable {bs bs' : Bytes}

theorem append (h : Spelled bs) (h' : Spelled bs') : Spelled (bs ++ bs') := by
  obtain ⟨cs, rfl⟩ := h
  obtain ⟨ds, rfl⟩ := h'
  exact ⟨cs ++ ds, List.flatMap_append.symm⟩

theorem flatMap {α : Type} {f : α → Bytes} {as : List α} (h : ∀ a ∈ as, Spelled (f a)) :
    Spelled (as.flatMap f) := by
  induction as with
  | nil => exact ⟨[], rfl⟩
  | cons a as ih =>
    rw [List.forall_mem_cons] at h
    exact h.1.append (ih h.2)

theorem of_string (s : String) : Spelled s.toUTF8.data.toList := ⟨s.toList, Text.bytes_toUTF8 s⟩

/-- Lines of characters are characters. -/
theorem of_mem_linesOf (h : Spelled bs) : ∀ l ∈ linesOf bs, Spelled l := by
  obtain ⟨cs, rfl⟩ := h
  induction cs with
  | nil => exact List.forall_mem_nil _
  | cons c cs ih =>
    rw [List.flatMap_cons]
    by_cases hc : c = '\n'
    · rw [hc]
      show ∀ l ∈ linesOf (lineFeed :: _), Spelled l
      rw [linesOf, if_pos rfl, List.forall_mem_cons]
      exact ⟨⟨[], rfl⟩, ih⟩
    · have hne : String.utf8EncodeChar c ≠ [] := by
        rw [← List.length_pos_iff, String.length_utf8EncodeChar]
        exact c.utf8Size_pos
      rw [linesOf_prepend (Editor.newline_not_mem hc) hne, List.forall_mem_cons]
      have hc' : Spelled (String.utf8EncodeChar c) := ⟨[c], (List.flatMap_singleton ..).symm⟩
      cases hlines : linesOf (cs.flatMap String.utf8EncodeChar) with
      | nil => exact ⟨hc'.append ⟨[], rfl⟩, List.forall_mem_nil _⟩
      | cons line lines =>
        rw [hlines, List.forall_mem_cons] at ih
        exact ⟨hc'.append ih.1, ih.2⟩

end Spelled

/-- The diff of two texts is the one of their bytes. -/
theorem bytes?_text (path before after : String) :
    bytes? path.toUTF8.data.toList before.toUTF8.data.toList after.toUTF8.data.toList =
      some (text path before after).toUTF8.data.toList := by
  obtain ⟨script, hscript, h⟩ :=
    script?_spec (linesOf before.toUTF8.data.toList) (linesOf after.toUTF8.data.toList)
  have hbytes :
      bytes? path.toUTF8.data.toList before.toUTF8.data.toList after.toUTF8.data.toList = _ :=
    congrArg (Option.map _) hscript
  have hfeed : Spelled [lineFeed] := ⟨['\n'], rfl⟩
  have hheaders : Spelled (headers path.toUTF8.data.toList) := by
    have hminus : Spelled (ascii "--- ") := ⟨"--- ".toList, by decide⟩
    have hplus : Spelled (ascii "+++ ") := ⟨"+++ ".toList, by decide⟩
    exact (((hminus.append (.of_string path)).append hfeed).append hplus).append (.of_string path)
      |>.append hfeed
  have hline : ∀ line ∈ script, Spelled line.bytes := by
    intro line hline
    have hmem : ∀ l, l ∈ linesOf before.toUTF8.data.toList ∨ l ∈ linesOf after.toUTF8.data.toList →
        Spelled l :=
      fun l hl =>
        hl.elim ((Spelled.of_string before).of_mem_linesOf l)
          ((Spelled.of_string after).of_mem_linesOf l)
    obtain ⟨m, l, hbytes, -, hl⟩ := h.mem hline
    have hmark : Spelled [m] := by
      cases line <;> obtain ⟨rfl, -⟩ := List.cons.inj hbytes
      · exact ⟨[' '], rfl⟩
      · exact ⟨['-'], rfl⟩
      · exact ⟨['+'], rfl⟩
    rw [hbytes]
    exact hmark.append (hmem l hl)
  obtain ⟨cs, hcs⟩ :=
    hheaders.append (Spelled.flatMap fun line hmem => (hline line hmem).append hfeed)
  rw [Option.map_some, hcs] at hbytes
  have htext : text path before after = String.ofList cs := by
    rw [← Utf8.decode_encode cs,
      ← Option.getD_some (a := cs.flatMap String.utf8EncodeChar) (b := []), ← hbytes]
    rfl
  rw [hbytes, htext, Text.bytes_toUTF8, String.toList_ofList]

end ClosureLang.Diff
