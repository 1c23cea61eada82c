import Mathlib.Data.List.TakeWhile
import ClosureLang.Proofs.Grammar.Parallel
import ClosureLang.Proofs.Grammar.Passage

/-! Texts as parsers see them: words with layout in between. Two texts with the same words parse
alike, whatever the layout. -/
namespace ClosureLang.Grammar

/-- A byte that is no layout. -/
def isInked (b : UInt8) : Bool := !isBlankByte b && b ≠ hash

/-- A word in front of others, unless it is empty. -/
def withWord (w : List UInt8) (ws : List (List UInt8)) : List (List UInt8) :=
  if w = [] then ws else w :: ws

/-- What a text goes on with: the rest of the word that goes on, and the words behind it. -/
def pieces : Bool → List UInt8 → List UInt8 × List (List UInt8)
  | _, [] => ([], [])
  | comment, b :: bs =>
    if comment then ([], withWord (pieces (b ≠ lineFeed) bs).1 (pieces (b ≠ lineFeed) bs).2)
    else if isBlankByte b then ([], withWord (pieces false bs).1 (pieces false bs).2)
    else if b = hash then ([], withWord (pieces true bs).1 (pieces true bs).2)
    else (b :: (pieces false bs).1, (pieces false bs).2)

/-- The longest runs of bytes outside comments that are not blank. -/
def words (bs : List UInt8) : List (List UInt8) := withWord (pieces false bs).1 (pieces false bs).2

section Pieces

variable {b : UInt8} {bs cs : List UInt8}

theorem withWord_nil (ws : List (List UInt8)) : withWord [] ws = ws := if_pos rfl

theorem withWord_cons (b : UInt8) (w : List UInt8) (ws : List (List UInt8)) :
    withWord (b :: w) ws = (b :: w) :: ws :=
  if_neg nofun

theorem pieces_cons (comment : Bool) (b : UInt8) (bs : List UInt8) : pieces comment (b :: bs) =
    if comment then ([], withWord (pieces (b ≠ lineFeed) bs).1 (pieces (b ≠ lineFeed) bs).2)
    else if isBlankByte b then ([], withWord (pieces false bs).1 (pieces false bs).2)
    else if b = hash then ([], withWord (pieces true bs).1 (pieces true bs).2)
    else (b :: (pieces false bs).1, (pieces false bs).2) := rfl

theorem isInked_iff : isInked b = true ↔ isBlankByte b = false ∧ b ≠ hash := by
  simp [isInked]

theorem pieces_solid (h : isInked b = true) :
    pieces false (b :: bs) = (b :: (pieces false bs).1, (pieces false bs).2) := by
  obtain ⟨hblank, hhash⟩ := isInked_iff.mp h
  simp [pieces_cons, hblank, hhash]

/-- No word goes on in front of layout. -/
theorem pieces_blank (h : isBlankByte b = true) : pieces false (b :: bs) = ([], words bs) := by
  simp [pieces_cons, h, words]

theorem pieces_comment_lineFeed : pieces true (lineFeed :: bs) = ([], words bs) := by
  simp [pieces_cons, words]

theorem pieces_comment_fst (comment : List UInt8) : (pieces true comment).1 = [] := by
  cases comment <;> rfl

theorem pieces_comment (h : b ≠ lineFeed) : pieces true (b :: bs) = pieces true bs := by
  rw [pieces_cons, if_pos rfl, decide_eq_true h, pieces_comment_fst, withWord_nil]
  exact Prod.ext (pieces_comment_fst bs).symm rfl

theorem pieces_hash : pieces false (hash :: bs) = pieces true bs := by
  have hblank : isBlankByte hash = false := by decide
  rw [pieces_cons, if_neg Bool.false_ne_true, if_neg (by simp [hblank]), if_pos rfl,
    pieces_comment_fst, withWord_nil]
  exact Prod.ext (pieces_comment_fst bs).symm rfl

theorem words_blank (h : isBlankByte b = true) : words (b :: bs) = words bs := by
  rw [words, pieces_blank h, withWord_nil]

theorem pieces_closed (line : List UInt8) (h : ∀ b ∈ line, b ≠ lineFeed) :
    pieces true (line ++ lineFeed :: bs) = ([], words bs) := by
  induction line with
  | nil => exact pieces_comment_lineFeed
  | cons b line ih =>
    rw [List.forall_mem_cons] at h
    rw [List.cons_append, pieces_comment h.1, ih h.2]

/-- Where a text does not begin with layout, its words tell how it goes on. -/
theorem pieces_eq_of_words (h : ∀ b ∈ bs.head?, isInked b = true)
    (h' : ∀ b ∈ cs.head?, isInked b = true) (hwords : words bs = words cs) :
    pieces false bs = pieces false cs := by
  cases bs with
  | nil =>
    cases cs with
    | nil => rfl
    | cons c cs =>
      rw [words, words, pieces_solid (h' c rfl), withWord_cons] at hwords
      cases hwords
  | cons b bs =>
    cases cs with
    | nil =>
      rw [words, words, pieces_solid (h b rfl), withWord_cons] at hwords
      cases hwords
    | cons c cs =>
      rw [words, words, pieces_solid (h b rfl), pieces_solid (h' c rfl), withWord_cons,
        withWord_cons, List.cons.injEq] at hwords
      rw [pieces_solid (h b rfl), pieces_solid (h' c rfl)]
      exact Prod.ext hwords.1 hwords.2

/-- In a word, and behind a part of it. -/
theorem pieces_drop {n : Nat} (h : n ≤ (pieces false bs).1.length) :
    pieces false (bs.drop n) = ((pieces false bs).1.drop n, (pieces false bs).2) ∧
      bs.take n = (pieces false bs).1.take n := by
  induction n generalizing bs with
  | zero => exact ⟨rfl, rfl⟩
  | succ n ih =>
    cases bs with
    | nil => cases h
    | cons b bs =>
      cases hsolid : isInked b with
      | true =>
        rw [pieces_solid hsolid] at h ⊢
        obtain ⟨hdrop, htake⟩ := ih (Nat.le_of_succ_le_succ h)
        exact ⟨hdrop, congrArg (b :: ·) htake⟩
      | false =>
        exfalso
        rw [← Bool.not_eq_true, isInked_iff, not_and_or, Bool.not_eq_false, not_not] at hsolid
        obtain hblank | rfl := hsolid
        · rw [pieces_blank hblank] at h
          cases h
        · rw [pieces_hash, pieces_comment_fst] at h
          cases h

theorem withWord_append (w : List UInt8) (ws vs : List (List UInt8)) :
    withWord w (ws ++ vs) = withWord w ws ++ vs := by
  cases w with
  | nil => rfl
  | cons b w => rw [withWord_cons, withWord_cons, List.cons_append]

/-- No word and no comment goes beyond a line. -/
theorem pieces_line (comment : Bool) (line : List UInt8) (h : ∀ b ∈ line, b ≠ lineFeed)
    (bs : List UInt8) :
    pieces comment (line ++ lineFeed :: bs) =
      ((pieces comment line).1, (pieces comment line).2 ++ words bs) := by
  induction line generalizing comment with
  | nil =>
    cases comment with
    | true => exact pieces_comment_lineFeed
    | false => exact pieces_blank (by decide)
  | cons b line ih =>
    rw [List.forall_mem_cons] at h
    have hwords (c : Bool) : withWord (pieces c (line ++ lineFeed :: bs)).1
        (pieces c (line ++ lineFeed :: bs)).2 =
        withWord (pieces c line).1 (pieces c line).2 ++ words bs := by
      rw [ih _ h.2, withWord_append]
    rw [List.cons_append, pieces_cons, pieces_cons, hwords, hwords, hwords, ih _ h.2]
    split
    · rfl
    · split
      · rfl
      · split <;> rfl

theorem words_line (line : List UInt8) (h : ∀ b ∈ line, b ≠ lineFeed) (bs : List UInt8) :
    words (line ++ lineFeed :: bs) = words line ++ words bs := by
  rw [words, pieces_line false line h, withWord_append, words.eq_def line]

/-- Equal ends can be exchanged. -/
theorem pieces_append (comment : Bool) (line : List UInt8) (h : ∀ c, pieces c bs = pieces c cs) :
    pieces comment (line ++ bs) = pieces comment (line ++ cs) := by
  induction line generalizing comment with
  | nil => exact h comment
  | cons b line ih => simp only [List.cons_append, pieces_cons, ih]

/-- The bytes of the words are the bytes outside the layout. -/
theorem flatten_words (bs : List UInt8) :
    (words bs).flatten = (pieces false bs).1 ++ (pieces false bs).2.flatten := by
  rw [words]
  cases (pieces false bs).1 with
  | nil => rfl
  | cons b w => rw [withWord_cons, List.flatten_cons]

theorem flatten_words_solid (h : isInked b = true) :
    (words (b :: bs)).flatten = b :: (words bs).flatten := by
  rw [flatten_words, flatten_words, pieces_solid h, List.cons_append]

/-- A word goes on as long as no layout comes. -/
theorem pieces_fst (bs : List UInt8) : (pieces false bs).1 = bs.takeWhile isInked := by
  induction bs with
  | nil => rfl
  | cons b bs ih =>
    cases hsolid : isInked b with
    | true => rw [pieces_solid hsolid, List.takeWhile_cons_of_pos hsolid, ih]
    | false =>
      rw [List.takeWhile_cons_of_neg (by simp [hsolid])]
      rw [← Bool.not_eq_true, isInked_iff, not_and_or, Bool.not_eq_false, not_not] at hsolid
      obtain hblank | rfl := hsolid
      · rw [pieces_blank hblank]
      · rw [pieces_hash, pieces_comment_fst]

end Pieces

/-- Blanks and comments. Only at the end of a text there may be a comment that no line feed
closes. -/
inductive IsLayout : (last : Bool) → List UInt8 → Prop where
  | nil {last} : IsLayout last []
  | blank {last b bs} : isBlankByte b = true → IsLayout last bs → IsLayout last (b :: bs)
  | comment {last line bs} : (∀ b ∈ line, b ≠ lineFeed) → IsLayout last bs →
      IsLayout last (hash :: (line ++ lineFeed :: bs))
  | unclosed {line} : (∀ b ∈ line, b ≠ lineFeed) → IsLayout true (hash :: line)

/-- Two texts with the same words from here on. Layout stands where other layout does, and there may
be any at the end. -/
inductive Relaid : List UInt8 → List UInt8 → Prop where
  | solid {b bs bs'} : isInked b = true → Relaid bs bs' → Relaid (b :: bs) (b :: bs')
  | gap {g g' b bs bs'} : g ≠ [] → g' ≠ [] → IsLayout false g → IsLayout false g' →
      isInked b = true →
      Relaid bs bs' → Relaid (g ++ b :: bs) (g' ++ b :: bs')
  | finish {g g'} : IsLayout true g → IsLayout true g' → Relaid g g'

/-- Two texts that differ in their layout only, where there may be any at the start, too. -/
inductive Relayout : List UInt8 → List UInt8 → Prop where
  | start {g g' bs bs'} :
      IsLayout false g → IsLayout false g' → Relaid bs bs' → Relayout (g ++ bs) (g' ++ bs')

section Layouts

variable {last : Bool} {g bs cs : List UInt8}

theorem words_layout (h : IsLayout last g) (hlast : last = false) (bs : List UInt8) :
    words (g ++ bs) = words bs ∧ (g ≠ [] → pieces false (g ++ bs) = ([], words bs)) := by
  induction h with
  | nil => exact ⟨rfl, fun h => absurd rfl h⟩
  | blank hb _ ih =>
    rw [List.cons_append, words_blank hb, pieces_blank hb, (ih hlast).1]
    exact ⟨rfl, fun _ => rfl⟩
  | comment hline _ ih =>
    rw [List.cons_append, List.append_assoc, List.cons_append, words, pieces_hash,
      pieces_closed _ hline, withWord_nil, (ih hlast).1]
    exact ⟨rfl, fun _ => rfl⟩
  | unclosed => cases hlast

theorem pieces_unclosed (line : List UInt8) (h : ∀ b ∈ line, b ≠ lineFeed) :
    pieces true line = ([], []) := by
  induction line with
  | nil => rfl
  | cons b line ih =>
    rw [List.forall_mem_cons] at h
    rw [pieces_comment h.1, ih h.2]

theorem pieces_last (h : IsLayout last g) : pieces false g = ([], []) := by
  induction h with
  | nil => rfl
  | blank hb _ ih => rw [pieces_blank hb, words, ih, withWord_nil]
  | comment hline _ ih => rw [pieces_hash, pieces_closed _ hline, words, ih, withWord_nil]
  | unclosed hline => rw [pieces_hash, pieces_unclosed _ hline]

theorem Relaid.pieces_eq (h : Relaid bs cs) : pieces false bs = pieces false cs := by
  induction h with
  | solid hb _ ih => rw [pieces_solid hb, pieces_solid hb, ih]
  | gap hne hne' hg hg' hb _ ih =>
    rw [(words_layout hg rfl _).2 hne, (words_layout hg' rfl _).2 hne', words, words,
      pieces_solid hb, pieces_solid hb, ih]
  | finish hg hg' => rw [pieces_last hg, pieces_last hg']

/-- Texts that differ in their layout only have the same words. -/
theorem Relayout.words_eq (h : Relayout bs cs) : words bs = words cs := by
  cases h with
  | start hg hg' h =>
    rw [(words_layout hg rfl _).1, (words_layout hg' rfl _).1, words, words, h.pieces_eq]

end Layouts

variable {src src' : ByteArray} {p p' q q' : Nat} {c : UInt8 → Bool}

/-- The bytes from an offset on. -/
def rest (src : ByteArray) (p : Nat) : List UInt8 := src.data.toList.drop p

theorem rest_of_byte {b : UInt8} (h : src[p]? = some b) : rest src p = b :: rest src (p + 1) :=
  drop_eq_cons h

theorem rest_nil (h : src[p]? = none) : rest src p = [] := by
  rw [getElem?_eq] at h
  exact List.drop_eq_nil_of_le (List.getElem?_eq_none_iff.mp h)

theorem head?_rest (src : ByteArray) (p : Nat) : (rest src p).head? = src[p]? := by
  rw [rest, List.head?_drop, getElem?_eq]

theorem runEnd_eq_takeWhile (c : UInt8 → Bool) (src : ByteArray) (p : Nat) :
    runEnd c src p = p + ((rest src p).takeWhile c).length := by
  suffices h : ∀ limit p, src.size - p ≤ limit →
      runLength c src limit p = ((rest src p).takeWhile c).length by
    rw [runEnd, h _ _ (Nat.le_refl _)]
  intro limit
  induction limit with
  | zero =>
    intro p hp
    rw [runLength, rest_nil (getElem?_none (by omega))]
    rfl
  | succ limit ih =>
    intro p hp
    rw [runLength]
    cases hb : src[p]? with
    | none => simp [rest_nil hb]
    | some b =>
      rw [rest_of_byte hb, ih _ (by omega)]
      cases hcb : c b <;> simp [hcb]

/-- Skipping layout skips no words. -/
theorem words_layoutLength (comment : Bool) (limit : Nat) (hl : src.size - p ≤ limit) :
    withWord (pieces comment (rest src p)).1 (pieces comment (rest src p)).2 =
      words (rest src (p + layoutLength src comment limit p)) := by
  induction limit generalizing p comment with
  | zero =>
    have hnone : src[p]? = none := getElem?_none (by omega)
    rw [layoutLength, Nat.add_zero, rest_nil hnone]
    rfl
  | succ limit ih =>
    cases hb : src[p]? with
    | none =>
      rw [layoutLength, hb, Nat.add_zero, rest_nil hb]
      rfl
    | some b =>
      have hnext (c : Bool) : withWord (pieces c (rest src (p + 1))).1
          (pieces c (rest src (p + 1))).2 =
          words (rest src (p + (layoutLength src c limit (p + 1) + 1))) := by
        have hrest := ih (p := p + 1) c (by omega)
        rwa [Nat.add_right_comm] at hrest
      rw [layoutLength, hb, rest_of_byte hb]
      simp only
      split
      · rename_i hcomment
        rw [hcomment, pieces_cons, if_pos rfl, withWord_nil, hnext]
      · rename_i hcomment
        rw [Bool.not_eq_true] at hcomment
        subst hcomment
        split
        · rename_i hblank
          rw [pieces_blank hblank, withWord_nil, words, hnext]
        · split
          · rename_i hhash
            rw [hhash, pieces_hash, hnext]
          · rw [Nat.add_zero p, words, rest_of_byte hb]

theorem words_layoutEnd (src : ByteArray) (p : Nat) :
    words (rest src (layoutEnd src p)) = words (rest src p) :=
  (words_layoutLength false _ (Nat.le_refl _)).symm

def asWritten (_ : Int) (x : String) : String := x

def nowhere (_ : Int) : Int := 0

/-- The tree with no offsets. -/
def unplaced (t : Tree) : Tree := t.relabel asWritten nowhere

theorem similar_of_unplaced {t u : Tree} (h : unplaced t = unplaced u) :
    Tree.similar t u = true := by
  have hstrip (t : Tree) : t.strip = (unplaced t).strip := by
    have hplace : (unplaced t).strip = (t.relabel (fun _ x => x) fun o => o).strip :=
      Tree.strip_relabel (fun o => o) t
    rw [hplace, Tree.relabel_id]
  rw [Tree.similar_iff_strip, hstrip t, hstrip u, h]

/-- Both texts go on with the same piece of a word and the same words. -/
structure Abreast (src src' : ByteArray) (q q' : Nat) : Prop where
  pieces : pieces false (rest src q) = pieces false (rest src' q')
  le : q ≤ src.size
  le' : q' ≤ src'.size

/-- Both parses stand in front of the same words, and of no layout unless they begin. -/
structure SameWords (src src' : ByteArray) (p p' : Nat) : Prop where
  words : words (rest src p) = words (rest src' p')
  le : p ≤ src.size
  le' : p' ≤ src'.size
  settled : 0 < p → Settled src p
  settled' : 0 < p' → Settled src' p'

theorem solid_of_settled (h : Settled src p) : ∀ b ∈ (rest src p).head?, isInked b = true := by
  intro b hb
  rw [head?_rest] at hb
  exact isInked_iff.mpr (h b hb)

namespace Abreast

variable (h : Abreast src src' q q')

include h

theorem add {n : Nat} (hn : n ≤ (Grammar.pieces false (rest src q)).1.length) :
    Abreast src src' (q + n) (q' + n) ∧ asciiText src q (q + n) = asciiText src' q' (q' + n) := by
  obtain ⟨hdrop, htake⟩ := pieces_drop hn
  obtain ⟨hdrop', htake'⟩ := pieces_drop (h.pieces ▸ hn)
  have hlength (src : ByteArray) (q : Nat) : (rest src q).length = src.size - q := List.length_drop
  have hle (src : ByteArray) (q : Nat) (hn : n ≤ (Grammar.pieces false (rest src q)).1.length)
      (hq : q ≤ src.size) :
      q + n ≤ src.size := by
    rw [pieces_fst] at hn
    have hrest := Nat.le_trans hn (List.takeWhile_prefix isInked).length_le
    rw [hlength] at hrest
    omega
  refine ⟨⟨?_, hle src q hn h.le, hle src' q' (h.pieces ▸ hn) h.le'⟩, ?_⟩
  · rw [rest, List.drop_drop] at hdrop hdrop'
    rw [rest, rest, hdrop, hdrop', ← rest, ← rest, h.pieces]
  · rw [rest] at htake htake'
    rw [asciiText_eq, asciiText_eq, htake, htake', ← rest, ← rest, h.pieces]

variable (hc : ∀ b, c b = true → isInked b = true)

include hc

theorem any_eq : (src[q]?).any c = (src'[q']?).any c := by
  have hsame (src : ByteArray) (q : Nat) :
      (src[q]?).any c = ((Grammar.pieces false (rest src q)).1.head?).any c := by
    rw [← head?_rest, pieces_fst]
    cases rest src q with
    | nil => rfl
    | cons b bs =>
      cases hb : c b with
      | true => simp [hc b hb, hb]
      | false => cases hsolid : isInked b <;> simp [hsolid, hb]
  rw [hsame src q, hsame src' q', h.pieces]

theorem next (hany : (src[q]?).any c = true) : Abreast src src' (q + 1) (q' + 1) := by
  obtain ⟨b, hb, hcb⟩ := exists_of_any hany
  refine (h.add ?_).1
  rw [rest_of_byte hb, pieces_solid (hc b hcb)]
  exact Nat.succ_le_succ (Nat.zero_le _)

omit hc in
/-- A token without layout is in both texts or in none. -/
theorem holds_eq {cs : List Char} (hcs : ∀ x ∈ cs, isInked (UInt8.ofNat x.toNat) = true) :
    holds src q cs = holds src' q' cs ∧
      (holds src q cs = true → Abreast src src' (q + cs.length) (q' + cs.length)) := by
  induction cs generalizing q q' with
  | nil => exact ⟨rfl, fun _ => h⟩
  | cons x cs ih =>
    rw [List.forall_mem_cons] at hcs
    have hsolid : ∀ b, decide (b = UInt8.ofNat x.toNat) = true → isInked b = true := by
      intro b hb
      rw [of_decide_eq_true hb]
      exact hcs.1
    have hsome (o : Option UInt8) :
        decide (o = some (UInt8.ofNat x.toNat)) = o.any (· = UInt8.ofNat x.toNat) := by
      cases o <;> simp
    simp only [holds, hsome, ← h.any_eq hsolid]
    cases hany : (src[q]?).any (· = UInt8.ofNat x.toNat) with
    | false => simp
    | true =>
      obtain ⟨heq, hstop⟩ := ih (h.next hsolid hany) hcs.2
      refine ⟨by rw [heq], fun hh => ?_⟩
      rw [List.length_cons, Nat.add_comm _ 1, ← Nat.add_assoc, ← Nat.add_assoc]
      exact hstop hh

/-- A run of bytes that are no layout is the same in both texts. -/
theorem runEnd_eq : ∃ n, runEnd c src q = q + n ∧ runEnd c src' q' = q' + n ∧
    asciiText src q (q + n) = asciiText src' q' (q' + n) ∧ Abreast src src' (q + n) (q' + n) := by
  have hrun (src : ByteArray) (q : Nat) :
      runEnd c src q = q + ((Grammar.pieces false (rest src q)).1.takeWhile c).length := by
    rw [runEnd_eq_takeWhile, pieces_fst, List.takeWhile_takeWhile]
    congr 3
    funext b
    cases hcb : c b with
    | true => simp [hc b hcb]
    | false => simp
  obtain ⟨hnext, htext⟩ := h.add (List.takeWhile_prefix c).length_le
  exact ⟨_, hrun src q, by rw [hrun src' q', h.pieces], htext, hnext⟩

omit hc in
/-- Behind layout both texts go on with the same words. -/
theorem sameWords : SameWords src src' (layoutEnd src q) (layoutEnd src' q') where
  words := by rw [words_layoutEnd, words_layoutEnd, Grammar.words, Grammar.words, h.pieces]
  le := layoutEnd_le h.le
  le' := layoutEnd_le h.le'
  settled _ := settled_layoutEnd src q
  settled' _ := settled_layoutEnd src' q'

end Abreast

theorem SameWords.layout (h : SameWords src src' p p') :
    SameWords src src' (layoutEnd src p) (layoutEnd src' p') where
  words := by rw [words_layoutEnd, words_layoutEnd, h.words]
  le := layoutEnd_le h.le
  le' := layoutEnd_le h.le'
  settled _ := settled_layoutEnd src p
  settled' _ := settled_layoutEnd src' p'

theorem SameWords.abreast (h : SameWords src src' p p') :
    Abreast src src' (layoutEnd src p) (layoutEnd src' p') where
  pieces := pieces_eq_of_words (solid_of_settled (settled_layoutEnd src p))
    (solid_of_settled (settled_layoutEnd src' p')) h.layout.words
  le := h.layout.le
  le' := h.layout.le'

theorem solid_of_isIdentByte (b : UInt8) (h : isIdentByte b = true) : isInked b = true := by
  refine isInked_iff.mpr ⟨?_, ?_⟩
  · cases hblank : isBlankByte b with
    | false => rfl
    | true =>
      simp only [isBlankByte, Bool.or_eq_true, decide_eq_true_eq] at hblank
      rcases hblank with ((rfl | rfl) | rfl) | rfl <;> cases h
  · rintro rfl
    cases h

theorem solid_of_isMark {s : String} (h : isMark s = true) :
    ∀ x ∈ s.toList, isInked (UInt8.ofNat x.toNat) = true :=
  fun x hx => isInked_iff.mpr ((chars_of_isMark h).2 x hx).2

namespace SameWords

variable {s : String} (h : SameWords src src' p p')

include h

theorem at_literal (hs : isMark s = true) :
    Option.Rel (fun a b => SameWords src src' a.2 b.2 ∧
        ∀ c, isMark (String.singleton c) = true →
          peek src (a.1 + s.length) c = peek src' (b.1 + s.length) c)
      (litAt src s p) (litAt src' s p') := by
  obtain ⟨hholds, hstop⟩ := h.abreast.holds_eq (solid_of_isMark hs)
  rw [String.length_toList] at hstop
  rw [litAt, litAt, ← hholds]
  split
  · have hnext := hstop ‹_›
    exact .some ⟨hnext.sameWords,
      fun c hc => (hnext.holds_eq (by simpa using solid_of_isMark hc)).1⟩
  · exact .none

theorem at_keyword (hs : isReserved s = true) :
    Option.Rel (fun a b => SameWords src src' a.2 b.2) (wordAt src s p) (wordAt src' s p') := by
  have hsolid : ∀ x ∈ s.toList, isInked (UInt8.ofNat x.toNat) = true :=
    fun x hx => solid_of_isIdentByte _ (reserved_ascii hs x hx).1
  obtain ⟨hholds, hstop⟩ := h.abreast.holds_eq hsolid
  rw [String.length_toList] at hstop
  rw [wordAt, wordAt, ← hholds]
  cases hh : holds src (layoutEnd src p) s.toList with
  | false => exact .none
  | true =>
    have hnext := hstop hh
    rw [hnext.any_eq solid_of_isIdentByte]
    split
    · exact .some hnext.sameWords
    · exact .none

theorem at_ident : Option.Rel (fun a b => unplaced a.1 = unplaced b.1 ∧ SameWords src src' a.2 b.2)
    (identAt src p) (identAt src' p') := by
  obtain ⟨n, hrun, hrun', htext, hnext⟩ := h.abreast.runEnd_eq solid_of_isIdentByte
  simp only [identAt, hrun, hrun', htext,
    h.abreast.any_eq fun b hb => solid_of_isIdentByte b (isIdentByte_of_isIdentStart b hb)]
  split
  · cases Pattern.name (asciiText src' (layoutEnd src' p') (layoutEnd src' p' + n)) with
    | none => exact .none
    | some x => exact .some ⟨rfl, hnext.sameWords⟩
  · exact .none

theorem at_integer :
    Option.Rel (fun a b => unplaced a.1 = unplaced b.1 ∧ SameWords src src' a.2 b.2)
      (integerAt src p) (integerAt src' p') := by
  obtain ⟨n, hrun, hrun', htext, hnext⟩ :=
    h.abreast.runEnd_eq (c := isDigitByte) fun b hb =>
      solid_of_isIdentByte b (by simp [isIdentByte, hb])
  simp only [integerAt, hrun, hrun', htext]
  cases Decimal.word? (asciiText src' (layoutEnd src' p') (layoutEnd src' p' + n)) with
  | none => exact .none
  | some w => exact .some ⟨rfl, hnext.sameWords⟩

/-- The parses of both texts. -/
def parallel (src src' : ByteArray) : Parallel src src' where
  limit := none
  At := SameWords src src'
  Here _ _ := True
  name := asWritten
  place := nowhere
  name' := asWritten
  place' := nowhere
  at_le hat := ⟨hat.le, hat.le'⟩
  at_layout hat := hat.layout
  here_of_layout _ _ := trivial
  place_here _ := rfl
  place_zero := rfl
  name_reserved _ _ _ := ⟨rfl, rfl⟩
  at_literal hs hat _ := ⟨trivial, hat.at_literal hs⟩
  at_keyword hs hat _ := ⟨trivial, hat.at_keyword hs⟩
  at_ident hat _ := ⟨trivial, hat.at_ident⟩
  at_integer hat _ := ⟨trivial, hat.at_integer⟩

end SameWords

theorem words_settled (hp : Settled src p) (hle : p ≤ src.size) :
    p = src.size ↔ words (rest src p) = [] := by
  refine ⟨fun h => by rw [rest_nil (getElem?_none (Nat.le_of_eq h.symm))]; rfl, fun h => ?_⟩
  by_contra hne
  obtain ⟨b, hb⟩ : ∃ b, src[p]? = some b :=
    ⟨_, getElem?_eq_some_iff.mpr ⟨Nat.lt_of_le_of_ne hle hne, rfl⟩⟩
  rw [rest_of_byte hb, words, pieces_solid (isInked_iff.mpr (hp _ hb)), withWord_cons] at h
  cases h

/-- What one text parses to from start to end, another one with the same words does, too. -/
theorem read_of_words {n : Nonterminal} {t : Tree} (hn : n = .program ∨ n = .expr)
    (hwords : words src.data.toList = words src'.data.toList)
    (h : read src n 0 = some (t, src.size)) :
    ∃ t', read src' n 0 = some (t', src'.size) ∧ t.similar t' = true := by
  have hstart : SameWords src src' 0 0 := ⟨hwords, Nat.zero_le _, Nat.zero_le _, nofun, nofun⟩
  have hjoint :
      Option.Rel (SameWords.parallel src src').Joint (ofRead (read src n 0))
        (ofRead (read src' n 0)) := by
    obtain rfl | rfl := hn
    · exact Parallel.joint_reading (r := .program) (by decide) hstart nofun
    · exact Parallel.joint_reading (r := .expr) (by decide) hstart nofun
  have hsettled {src : ByteArray} {m : Tree × Nat} (h : read src n 0 = some m)
      (hpos : 0 < m.2 → Settled src m.2) :
      Settled src m.2 := by
    obtain rfl | rfl := hn
    · rw [read_program (Nat.zero_le _)] at h
      cases h
      exact settled_layoutEnd src _
    · exact hpos ((read_fits h (Nat.zero_le _)).2.2 nofun)
  rw [h] at hjoint
  cases hread : read src' n 0 with
  | none => rw [hread] at hjoint; cases hjoint
  | some m =>
    rw [hread] at hjoint
    obtain ⟨hnode, -, -, hstop⟩ : (SameWords.parallel src src').Joint _ _ := by
      cases hjoint; assumption
    have hend := (words_settled (hsettled h hstop.settled) hstop.le).mp rfl
    rw [hstop.words, ← words_settled (hsettled hread hstop.settled') hstop.le'] at hend
    exact ⟨m.1, by rw [← hend], similar_of_unplaced hnode⟩

/-- Both fail, or both succeed with similar trees. -/
inductive SameOutcome : Except SyntaxError Tree → Except SyntaxError Tree → Prop where
  | error {e e'} : SameOutcome (.error e) (.error e')
  | ok {t t'} : t.similar t' = true → SameOutcome (.ok t) (.ok t')

theorem sameOutcome_of_ok {o o' : Except SyntaxError Tree}
    (h : ∀ t, o = .ok t → ∃ t', o' = .ok t' ∧ t.similar t' = true)
    (h' : ∀ t', o' = .ok t' → ∃ t, o = .ok t ∧ t'.similar t = true) : SameOutcome o o' := by
  cases o with
  | ok t =>
    obtain ⟨t', rfl, hsimilar⟩ := h t rfl
    exact .ok hsimilar
  | error e =>
    cases o' with
    | ok t' =>
      obtain ⟨t, ht, -⟩ := h' t' rfl
      cases ht
    | error e' => exact .error

/-- Texts with the same words parse alike. -/
theorem sameOutcome_of_words {src src' : String}
    (h : words src.toUTF8.data.toList = words src'.toUTF8.data.toList) :
    SameOutcome (parseProgram src) (parseProgram src') ∧
    SameOutcome (parseExpression src) (parseExpression src') := by
  have hprogram {src src' : String}
      (h : words src.toUTF8.data.toList = words src'.toUTF8.data.toList) (t : Tree)
      (ht : parseProgram src = .ok t) : ∃ t', parseProgram src' = .ok t' ∧ t.similar t' = true := by
    simp only [parseProgram_ok] at ht ⊢
    exact read_of_words (.inl rfl) h ht
  have hexpr {src src' : String} (h : words src.toUTF8.data.toList = words src'.toUTF8.data.toList)
      (t : Tree)
      (ht : parseExpression src = .ok t) :
        ∃ t', parseExpression src' = .ok t' ∧ t.similar t' = true := by
    simp only [parseExpression_ok] at ht ⊢
    exact read_of_words (.inr rfl) h ht
  exact ⟨sameOutcome_of_ok (hprogram h) (hprogram h.symm),
    sameOutcome_of_ok (hexpr h) (hexpr h.symm)⟩

end ClosureLang.Grammar
