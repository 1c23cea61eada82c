import ClosureLang.Editor.Server
import ClosureLang.Proofs.Editor.Positions
import ClosureLang.Proofs.Grammar.Anchors
import ClosureLang.Proofs.Grammar.Inorder

/-! The extents of blocks. The search for a closing brace finds the brace that ends the block, so
that blocks lie inside one another or apart, and so do the lines that can be folded. -/
namespace ClosureLang.Editor

open Grammar ClosureLang.Tree

variable {src : ByteArray} {p q r d : Nat} {b : UInt8}

section Search

/-- Where the search for the brace that closes `d` blocks ends, if it starts at `p`. -/
def searchFrom (src : ByteArray) (d p : Nat) : Option Nat :=
  closingFrom false d p (src.data.toList.drop p)

theorem searchFrom_open (h : src[p]? = some 0x7b) :
    searchFrom src d p = searchFrom src (d + 1) (p + 1) := by
  rw [searchFrom, drop_eq_cons h]
  rfl

theorem searchFrom_close (h : src[p]? = some 0x7d) :
    searchFrom src d p = if d ≤ 1 then some p else searchFrom src (d - 1) (p + 1) := by
  rw [searchFrom, drop_eq_cons h]
  rfl

theorem searchFrom_other (h : src[p]? = some b) (hhash : b ≠ hash) (hopen : b ≠ 0x7b)
    (hclose : b ≠ 0x7d) : searchFrom src d p = searchFrom src d (p + 1) := by
  rw [searchFrom, drop_eq_cons h]
  simp [closingFrom, hhash, hopen, hclose, searchFrom]

/-- The search passes layout as the parser does. -/
theorem closingFrom_layoutLength (comment : Bool) (limit : Nat) (hl : src.size - p ≤ limit) :
    closingFrom comment d p (src.data.toList.drop p) =
      searchFrom src d (p + layoutLength src comment limit p) := by
  induction limit generalizing p comment with
  | zero =>
    have hnil : src.data.toList.drop p = [] := List.drop_eq_nil_of_le (by show src.size ≤ p; omega)
    rw [layoutLength, Nat.add_zero, searchFrom, hnil]
    rfl
  | succ limit ih =>
    cases hb : src[p]? with
    | none =>
      have hnil : src.data.toList.drop p = [] := List.drop_eq_nil_of_le (by simpa using hb)
      rw [layoutLength, hb, Nat.add_zero, searchFrom, hnil]
      rfl
    | some b =>
      have hstep (next : Bool) (h : closingFrom comment d p (src.data.toList.drop p) =
          closingFrom next d (p + 1) (src.data.toList.drop (p + 1))) :
          closingFrom comment d p (src.data.toList.drop p) =
            searchFrom src d (p + (layoutLength src next limit (p + 1) + 1)) := by
        rw [h, ih next (by omega), show p + (layoutLength src next limit (p + 1) + 1) =
          p + 1 + layoutLength src next limit (p + 1) by omega]
      rw [layoutLength, hb]
      simp only
      split
      · rename_i hcomment
        refine hstep _ ?_
        rw [drop_eq_cons hb, hcomment]
        rfl
      · rename_i hcomment
        obtain rfl : comment = false := by simpa using hcomment
        split
        · rename_i hblank
          have hother : b ≠ hash ∧ b ≠ 0x7b ∧ b ≠ 0x7d := by
            simp only [isBlankByte, Bool.or_eq_true, decide_eq_true_eq] at hblank
            rcases hblank with ((rfl | rfl) | rfl) | rfl <;> decide
          exact hstep _ (searchFrom_other hb hother.1 hother.2.1 hother.2.2)
        · split
          · rename_i hhash
            subst hhash
            refine hstep _ ?_
            rw [drop_eq_cons hb]
            rfl
          · rfl

theorem searchFrom_layout : searchFrom src d p = searchFrom src d (layoutEnd src p) :=
  closingFrom_layoutLength false _ (Nat.le_refl _)

/-- The search passes a match as if it were not there. -/
def skipping (src : ByteArray) : Passage src where
  Goes p q := ∀ d, 1 ≤ d → searchFrom src d p = searchFrom src d q
  refl _ _ := rfl
  trans h h' d hd := (h d hd).trans (h' d hd)
  layout _ _ := searchFrom_layout
  flat hb hflat _ _ := by
    obtain ⟨hbracket, hhash⟩ := isFlat_iff hflat
    exact searchFrom_other hb hhash (by rintro rfl; cases hbracket) (by rintro rfl; cases hbracket)
  bracketed ho hpair h hc d hd := by
    rcases hpair with ⟨rfl, rfl⟩ | ⟨rfl, rfl⟩
    · rw [searchFrom_open ho, h (d + 1) (by omega), searchFrom_close hc, if_neg (by omega),
        Nat.add_sub_cancel]
    · rw [searchFrom_other ho (by decide) (by decide) (by decide), h d hd,
        searchFrom_other hc (by decide) (by decide) (by decide)]

end Search

section Blocks

/-- Where a node stands in the text. -/
def openAt (t : Tree) : Nat := (t.offset?.getD 0).toNat

/-- Where the search for the brace that closes a block ends. -/
def closeAt (src : ByteArray) (t : Tree) : Nat := (searchFrom src 1 (openAt t + 1)).getD src.size

/-- The rule for blocks comes to the block: a program between two braces, of which the search finds
the second. -/
def Delimited (src : ByteArray) (t : Tree) : Prop :=
  ∃ p r s q ts, t = .form .sequence (openAt t) ts ∧ litAt src "\x7b" p = some (openAt t, r) ∧
    read src .program r = some (.form .sequence r ts, s) ∧
    litAt src "\x7d" s = some (closeAt src t, q)

/-- Blocks between `p` and `q` in the order of the text. -/
structure Nested (src : ByteArray) (p : Nat) (ts : List Tree) (q : Nat) : Prop where
  le : p ≤ q
  delimited : ∀ t ∈ ts, Delimited src t
  bounds : ∀ t ∈ ts, p ≤ openAt t ∧ closeAt src t < q
  pairwise : ts.Pairwise fun t u =>
      openAt t < openAt u ∧ closeAt src u < closeAt src t ∨ closeAt src t < openAt u

theorem Nested.append {ts us : List Tree} (h : Nested src p ts r) (h' : Nested src r us q) :
    Nested src p (ts ++ us) q := by
  have hle := h.le
  have hle' := h'.le
  refine ⟨by omega, fun t ht => ?_, fun t ht => ?_,
    List.pairwise_append.mpr ⟨h.pairwise, h'.pairwise, ?_⟩⟩
  · rcases List.mem_append.mp ht with ht | ht
    · exact h.delimited t ht
    · exact h'.delimited t ht
  · rcases List.mem_append.mp ht with ht | ht
    · have hbounds := h.bounds t ht
      omega
    · have hbounds := h'.bounds t ht
      omega
  · intro t ht u hu
    have hbounds := h.bounds t ht
    have hbounds' := h'.bounds u hu
    omega

/-- A token of one character: where it stands. -/
theorem byte_of_litAt {s : String} {c : Char} {o : Nat} (hs : s.toList = [c])
    (h : litAt src s p = some (o, q)) :
    src[o]? = some (UInt8.ofNat c.toNat) ∧ o = layoutEnd src p ∧ q = layoutEnd src (o + 1) := by
  obtain ⟨hh, ho, hq⟩ := litAt_some h
  have hlength : s.length = 1 := by rw [← String.length_toList, hs]; rfl
  rw [hs] at hh
  rw [hlength] at hq
  exact ⟨holds_head hh, ho, hq⟩

/-- The search that starts behind the brace of a block finds the brace that ends it. -/
theorem searchFrom_block {ts : List Tree} {o c s : Nat} (hopen : litAt src "\x7b" p = some (o, r))
    (hread : read src .program r = some (.form .sequence r ts, s))
    (hclose : litAt src "\x7d" s = some (c, q)) :
    searchFrom src 1 (o + 1) = some c := by
  obtain ⟨hbyte, -, hr⟩ := byte_of_litAt rfl hopen
  obtain ⟨hbyte', hc, -⟩ := byte_of_litAt rfl hclose
  have hsize : r ≤ src.size := hr ▸ layoutEnd_le (lt_size hbyte)
  have hskip := (skipping src).goes_of_read hsize hread 1 (Nat.le_refl _)
  rw [searchFrom_layout, ← hr, hskip, searchFrom_layout, ← hc, searchFrom_close hbyte',
    if_pos (Nat.le_refl _)]

theorem nested_block {ts us : List Tree} {o c s : Nat} (hopen : litAt src "\x7b" p = some (o, r))
    (hread : read src .program r = some (.form .sequence r ts, s)) (h : Nested src r us s)
    (hclose : litAt src "\x7d" s = some (c, q)) : Nested src p (.form .sequence o ts :: us) q := by
  obtain ⟨-, ho, hr⟩ := byte_of_litAt rfl hopen
  obtain ⟨-, hc, hq⟩ := byte_of_litAt rfl hclose
  have hfound := searchFrom_block hopen hread hclose
  have hclosed : closeAt src (.form .sequence o ts) = c := by
    show (searchFrom src 1 (o + 1)).getD src.size = c
    rw [hfound]
    rfl
  have hbefore := le_layoutEnd src p
  have hinner := le_layoutEnd src (o + 1)
  have hbehind := le_layoutEnd src s
  have hend := le_layoutEnd src (c + 1)
  have hle := h.le
  refine ⟨by omega, List.forall_mem_cons.mpr ⟨?_, h.delimited⟩,
    List.forall_mem_cons.mpr ⟨?_, fun t ht => ?_⟩,
    List.pairwise_cons.mpr ⟨fun t ht => ?_, h.pairwise⟩⟩
  · exact ⟨p, r, s, q, ts, rfl, hopen, hread, by rw [hclosed, hclose]⟩
  · rw [hclosed]
    show p ≤ o ∧ c < q
    omega
  · have hbounds := h.bounds t ht
    omega
  · have hbounds := h.bounds t ht
    rw [hclosed]
    show o < openAt t ∧ _ ∨ _
    omega

/-- The blocks of a tree stand in its text one behind or inside the other. -/
def nesting (src : ByteArray) : Listing src fun t => if t.isForm .sequence then [t] else [] where
  Spans := Nested src
  nil h := ⟨h, nofun, nofun, .nil⟩
  append := .append
  operator _ _ _ h := ⟨le_of_litAt h, nofun, nofun, .nil⟩
  block := nested_block
  silent t _ h := by rw [h]; rfl

end Blocks

section Program

variable {content : String} {t : Tree}

/-- A block is met, and not the sequence of the whole program. -/
def isBlockVisit (v : Visit) : Bool := v.node.isForm .sequence && !v.parent.isAbsent

theorem present_parents {parent : Tree} (h : parent.isAbsent = false) (t : Tree) :
    Everywhere (fun _ p => p.isAbsent = false) parent t := by
  induction t using Tree.induction generalizing parent with
  | absent => exact everywhere_absent
  | node l o cs ih => exact everywhere_node.mpr ⟨h, fun c hc => ih c hc rfl⟩

/-- The blocks of a program are the sequences below its root. -/
theorem map_node_blocks (t : Tree) :
    (t.visits.filter isBlockVisit).map Visit.node =
      (t.children.flatMap nodes).filter (·.isForm .sequence) := by
  cases t with
  | absent => rfl
  | node l o cs =>
    have hparents : ∀ v ∈ visitsOfChildren (fun _ => true) (node l o cs) 0 1 cs,
        v.parent.isAbsent = false :=
      (forall_visitsOfChildren _ _ _ cs).mpr fun c _ => present_parents rfl c
    have hsame : (visitsOfChildren (fun _ => true) (node l o cs) 0 1 cs).filter isBlockVisit =
        (visitsOfChildren (fun _ => true) (node l o cs) 0 1 cs).filter fun v =>
          v.node.isForm .sequence :=
      List.filter_congr fun v hv => by
        rw [isBlockVisit, hparents v hv, Bool.not_false, Bool.and_true]
    have hroot : isBlockVisit ⟨node l o cs, absent, 0, 0⟩ = false := by
      simp [isBlockVisit, isAbsent]
    rw [visits, visitsWhere, visitsFrom, if_pos rfl, List.filter_cons_of_neg (by simp [hroot]),
      hsame, children, ← map_node_visitsOfChildren (node l o cs) 0 1, List.filter_map]
    rfl

theorem flatMap_nodes_filter (ts : List Tree) :
    ts.flatMap (fun t => if t.isForm .sequence then [t] else []) =
      ts.filter (·.isForm .sequence) := by
  induction ts with
  | nil => rfl
  | cons t ts ih => by_cases h : t.isForm .sequence = true <;> simp [h, ih]

/-- The blocks of a program, in the order of its nodes. -/
theorem nested_of_parse (h : parseProgram content = .ok t) :
    Nested content.toUTF8 0 ((t.visits.filter isBlockVisit).map Visit.node)
      content.utf8ByteSize := by
  obtain ⟨l, hl, hnested⟩ := (nesting content.toUTF8).spans_of_derives (derives_of_parseProgram h)
  have hblocks : l = (t.children.flatMap nodes).filter (·.isForm .sequence) := by
    rw [show l = t.children.flatMap (inorder _) from hl, ← flatMap_nodes_filter, List.flatMap_assoc]
    refine List.flatMap_congr fun c _ => inorder_eq (fun u hu => if_neg fun hsequence => ?_) c
    unfold isOperation at hu
    split at hu
    · cases hsequence
    · cases hu
  rw [map_node_blocks, ← hblocks]
  exact hnested

theorem take_bytes {n : Nat} (h : content.utf8ByteSize ≤ n) :
    content.toUTF8.data.toList.take n = content.toUTF8.data.toList := List.take_of_length_le h

theorem closingBrace_eq {o : Nat} (hb : content.toUTF8[o]? = some 0x7b) :
    closingBrace content o = (searchFrom content.toUTF8 1 (o + 1)).getD content.utf8ByteSize := by
  have hlt : o < content.utf8ByteSize := lt_size hb
  have hbytes : Utf8.bytesOf content o content.utf8ByteSize =
      0x7b :: content.toUTF8.data.toList.drop (o + 1) := by
    rw [Utf8.bytesOf_eq, take_bytes (Nat.le_refl _), drop_eq_cons hb]
  rw [closingBrace, if_neg (by omega), Int.toNat_natCast, hbytes]
  rfl

theorem Delimited.offset? (h : Delimited src t) : t.offset? = some (openAt t : Int) := by
  obtain ⟨_, _, _, _, _, ht, -⟩ := h
  rw [ht]
  rfl

theorem Delimited.bytes (h : Delimited src t) :
    src[openAt t]? = some 0x7b ∧ src[closeAt src t]? = some 0x7d := by
  obtain ⟨p, r, s, q, ts, -, hopen, -, hclose⟩ := h
  exact ⟨(byte_of_litAt (c := '\x7b') rfl hopen).1, (byte_of_litAt (c := '\x7d') rfl hclose).1⟩

theorem Delimited.closingBrace_eq (h : Delimited content.toUTF8 t) :
    closingBrace content (t.offset?.getD 0) = closeAt content.toUTF8 t := by
  rw [h.offset?, Option.getD_some, Editor.closingBrace_eq h.bytes.1]
  rfl

/-- The brace that ends a block is in no comment if the one that starts it is not. -/
theorem Delimited.clear (h : Delimited src t) (hopen : modeAt src (openAt t) ≠ .comment) :
    modeAt src (closeAt src t) ≠ .comment := by
  obtain ⟨p, r, s, q, ts, -, hlit, hread, hlit'⟩ := h
  obtain ⟨hbyte, -, hr⟩ := byte_of_litAt rfl hlit
  obtain ⟨hbyte', hc, -⟩ := byte_of_litAt rfl hlit'
  have hsize : r ≤ src.size := hr ▸ layoutEnd_le (lt_size hbyte)
  have hclear : Clear src r := by
    have hopened : Clear src (openAt t + 1) := fun _ => by
      rw [free_succ hopen hbyte (by decide) (by decide)]
      decide
    rw [hr]
    exact (level_layout hopened).clear
  have hend := (level_layout (level_of_read hsize hread hclear).clear).clear
  rw [hc]
  exact hend (hc ▸ lt_size hbyte')

/-- The braces of a block are in no comment. -/
theorem clear_of_block (h : parseProgram content = .ok t) {v : Visit} (hv : v ∈ t.visits)
    (hblock : isBlockVisit v = true) : modeAt content.toUTF8 (openAt v.node) ≠ .comment := by
  have hread := parseProgram_ok.mp h
  have hsteady : ∀ c ∈ t.children, Steady content.toUTF8 c := found_of_read hread edge_zero
  rw [read_program (Nat.zero_le _), Option.some.injEq, Prod.mk.injEq] at hread
  obtain ⟨rfl, -⟩ := hread
  have hanchored : Anchored content.toUTF8 v.node v.parent :=
    forall_visits.mpr (everywhere_node.mpr ⟨.inr ⟨rfl, rfl⟩, fun c hc => hsteady c hc _⟩) v hv
  obtain ⟨node, parent, index, depth⟩ := v
  simp only [isBlockVisit, Bool.and_eq_true, Bool.not_eq_true', isForm, decide_eq_true_eq] at hblock
  obtain ⟨hform, hparent⟩ := hblock
  cases node with
  | absent => cases hform
  | node l o cs =>
    cases l with
    | integer w => cases hform
    | ident x => cases hform
    | form f =>
      obtain rfl := Option.some.inj hform
      obtain ⟨p, rfl, hmode, -⟩ | ⟨-, rfl⟩ := hanchored
      · exact hmode
      · cases hparent

end Program

section Lines

variable {content : String} {o i : Nat} {cs ds : List Char} {c : Char}

/-- How many lines end in front of an offset. -/
def lineOf (content : String) (o : Nat) : Nat :=
  (content.toUTF8.data.toList.take o).count Location.newline

theorem locate_line (h : o ≤ content.utf8ByteSize) :
    (Location.locate "" content o).line = lineOf content o + 1 := by
  simp only [Location.locate, if_neg (Int.not_lt.mpr (Int.natCast_nonneg o)), Int.toNat_natCast,
    Nat.min_eq_left h, Utf8.bytesOf_eq, List.drop_zero, Location.lastLine]
  rfl

theorem lineOf_mono (content : String) (h : o ≤ i) : lineOf content o ≤ lineOf content i :=
  ((List.take_sublist_take_left h).count_le _)

theorem lineOf_eq (h : Utf8.Splits content o cs ds) : lineOf content o = cs.count '\n' := by
  have hlast := congrArg Prod.fst (lastLine_encode cs)
  rw [lineOf, h.take]
  exact hlast

theorem lineOf_lt (content : String) (o : Nat) :
    lineOf content o < (Text.lines content).length := by
  have hmono : lineOf content o ≤ lineOf content content.utf8ByteSize := by
    rcases Nat.le_total o content.utf8ByteSize with h | h
    · exact lineOf_mono content h
    · rw [lineOf, lineOf, take_bytes h, take_bytes (Nat.le_refl _)]
  obtain ⟨before, rest, after, hsplit, hcount, -⟩ := splitOnChar_append content.toList []
  rw [List.append_nil] at hsplit
  rw [lineOf_eq (Utf8.Splits.stop content)] at hmono
  rw [Text.lines, List.length_map, hsplit, List.length_append, hcount, List.length_cons]
  omega

/-- A comment goes on to the end of its line. -/
theorem comment_after {bs : List UInt8} (h : ∀ b ∈ bs, b ≠ lineFeed) :
    Mode.comment.after bs = .comment := by
  induction bs with
  | nil => rfl
  | cons b bs ih =>
    rw [List.forall_mem_cons] at h
    rw [Mode.after, List.foldl_cons, Mode.next, if_pos rfl, if_neg h.1]
    exact ih h.2

/-- A hash on a line starts a comment, if it is in none already. -/
theorem comment_of_mem (h : '#' ∈ lastLine cs) :
    Mode.free.after (cs.flatMap String.utf8EncodeChar) = .comment := by
  induction cs using List.reverseRecOn with
  | nil => cases h
  | append_singleton cs c ih =>
    have happend : Mode.free.after ((cs ++ [c]).flatMap String.utf8EncodeChar) =
        (Mode.free.after (cs.flatMap String.utf8EncodeChar)).after (String.utf8EncodeChar c) := by
      rw [List.flatMap_append, List.flatMap_singleton, Mode.after, List.foldl_append]
      rfl
    by_cases hc : c = '\n'
    · rw [hc, lastLine_feed] at h
      cases h
    · rw [lastLine_char hc, List.mem_append] at h
      rw [happend]
      rcases h with h | h
      · rw [ih h]
        exact comment_after (newline_not_mem hc)
      · obtain rfl := List.mem_singleton.mp h
        generalize Mode.free.after (cs.flatMap String.utf8EncodeChar) = m
        cases m <;> decide

theorem mem_of_head_dropWhile {p : Char → Bool} {l r : List Char} {x : Char} (hc : p c = false)
    (h : ((l ++ c :: r).dropWhile p).head? = some x) : x = c ∨ x ∈ l := by
  induction l with
  | nil =>
    rw [List.nil_append, List.dropWhile_cons_of_neg (by simp [hc])] at h
    exact .inl (Option.some.inj h).symm
  | cons y l ih =>
    rw [List.cons_append, List.dropWhile_cons] at h
    split at h
    · exact (ih h).imp_right (List.mem_cons_of_mem _)
    · exact .inr (by simp_all)

theorem head_of_isCommentLine {line : String} (h : Document.isCommentLine line = true) :
    (line.toList.dropWhile Text.isBlank).head? = some '#' := by
  simp only [Document.isCommentLine, Text.startsWith, Text.trim, Text.trimRightBy, Text.trimLeftBy,
    String.toList_ofList, List.isPrefixOf_iff_prefix] at h
  obtain ⟨rest, h⟩ := h
  obtain ⟨tail, htail⟩ :=
    List.dropWhile_suffix Text.isBlank (l := (line.toList.dropWhile Text.isBlank).reverse)
  rw [← List.reverse_reverse (line.toList.dropWhile Text.isBlank), ← htail,
    List.reverse_append, ← h]
  rfl

/-- What stands on a comment line behind the hash is part of the comment. -/
theorem not_isCommentLine (h : Utf8.Splits content o cs (c :: ds))
    (hmode : modeAt content.toUTF8 o ≠ .comment) (hc : c ≠ '\n' ∧ c ≠ '#' ∧ Text.isBlank c = false)
    {line : String} (hline : (Text.lines content)[lineOf content o]? = some line) :
    Document.isCommentLine line = false := by
  obtain ⟨before, rest, after, hsplit, hcount, -⟩ := splitOnChar_append (cs ++ [c]) ds
  have hfeeds : before.length = lineOf content o := by
    rw [hcount, lineOf_eq h, List.count_append, List.count_singleton, if_neg (by simpa using hc.1)]
    rfl
  have htext : content.toList = cs ++ [c] ++ ds := by rw [h.text, List.append_assoc]; rfl
  rw [Text.lines, htext, hsplit, List.map_append, List.getElem?_append_right (by simp [hfeeds]),
    List.length_map, hfeeds, Nat.sub_self, List.map_cons, List.getElem?_cons_zero,
    Option.some.injEq, lastLine_char hc.1] at hline
  cases hcomment : Document.isCommentLine line with
  | false => rfl
  | true =>
    have hhead : ((lastLine cs ++ c :: rest).dropWhile Text.isBlank).head? = some '#' := by
      rw [← head_of_isCommentLine hcomment, ← hline, String.toList_ofList, List.append_assoc]
      rfl
    have hmem : '#' ∈ lastLine cs :=
      (mem_of_head_dropWhile hc.2.2 hhead).resolve_left (fun h => hc.2.1 h.symm)
    refine absurd ?_ hmode
    rw [modeAt, h.take, comment_of_mem hmem]

end Lines

section Runs

variable {Q : Nat → Prop} {line : Nat} {start : Option Nat} {tests : List Bool}

/-- A run of lines from `a` to `b`. -/
structure RunOf (Q : Nat → Prop) (first limit a b : Nat) : Prop where
  from_le : first ≤ a
  lt : a < b
  lt_limit : b < limit
  all : ∀ i, a ≤ i → i ≤ b → Q i

theorem RunOf.widen {first first' limit a b : Nat} (h : RunOf Q first limit a b)
    (hfirst : first' ≤ first) :
    RunOf Q first' limit a b := ⟨Nat.le_trans hfirst h.from_le, h.lt, h.lt_limit, h.all⟩

/-- The runs are made of lines that satisfy the test, and each ends before the next one starts. -/
theorem runs_spec (htests : ∀ i, tests[i]? = some true → Q (line + i))
    (hstart : ∀ s, start = some s → s < line ∧ ∀ i, s ≤ i → i < line → Q i) :
    (∀ r ∈ Document.runs line start tests,
      RunOf Q (start.getD line) (line + tests.length) r.1 r.2) ∧
      (Document.runs line start tests).Pairwise fun r r' => r.2 < r'.1 := by
  induction tests generalizing line start with
  | nil =>
    cases start with
    | none => exact ⟨nofun, .nil⟩
    | some s =>
      obtain ⟨hlt, hall⟩ := hstart s rfl
      rw [Document.runs]
      split
      · refine ⟨?_, List.pairwise_singleton _ _⟩
        simp only [List.mem_singleton, forall_eq]
        exact ⟨Nat.le_refl _, by omega, by simp; omega, fun i hi hi' => hall i hi (by omega)⟩
      · exact ⟨nofun, .nil⟩
  | cons test tests ih =>
    have hrest : ∀ i, tests[i]? = some true → Q (line + 1 + i) := by
      intro i hi
      have hq := htests (i + 1) hi
      rwa [Nat.add_assoc, Nat.add_comm 1 i]
    cases test with
    | true =>
      have hgrown : ∀ s, some (start.getD line) = some s → s < line + 1 ∧ ∀ i, s ≤ i →
          i < line + 1 → Q i := by
        rintro s ⟨⟩
        have hline : Q line := htests 0 rfl
        cases start with
        | none =>
          exact ⟨Nat.lt_succ_self _,
            fun i hi hi' => Nat.le_antisymm hi (Nat.le_of_lt_succ hi') ▸ hline⟩
        | some s =>
          obtain ⟨hlt, hall⟩ := hstart s rfl
          refine ⟨Nat.lt_succ_of_lt hlt, fun i hi hi' => ?_⟩
          rcases Nat.lt_or_eq_of_le (Nat.le_of_lt_succ hi') with hlt | rfl
          · exact hall i hi hlt
          · exact hline
      obtain ⟨hruns, hpairs⟩ := ih hrest hgrown
      rw [List.length_cons, show line + (tests.length + 1) = line + 1 + tests.length by omega]
      exact ⟨hruns, hpairs⟩
    | false =>
      have hnone : ∀ s, none = some s → s < line + 1 ∧ ∀ i, s ≤ i → i < line + 1 → Q i := nofun
      obtain ⟨hruns, hpairs⟩ := ih hrest hnone
      rw [List.length_cons, show line + (tests.length + 1) = line + 1 + tests.length by omega]
      cases start with
      | none => exact ⟨fun r hr => (hruns r hr).widen (Nat.le_succ _), hpairs⟩
      | some s =>
        obtain ⟨hlt, hall⟩ := hstart s rfl
        have hlater : ∀ r ∈ Document.runs (line + 1) none tests,
            RunOf Q s (line + 1 + tests.length) r.1 r.2 :=
          fun r hr => (hruns r hr).widen (show s ≤ line + 1 by omega)
        rw [Document.runs]
        split
        · refine ⟨List.forall_mem_cons.mpr
            ⟨⟨Nat.le_refl _, ?_, ?_, fun i hi hi' => hall i hi ?_⟩, hlater⟩,
            List.pairwise_cons.mpr ⟨fun r hr => ?_, hpairs⟩⟩
          · show s < line - 1
            omega
          · show line - 1 < _
            omega
          · have : i ≤ line - 1 := hi'
            omega
          · have hfrom : line + 1 ≤ r.1 := (hruns r hr).from_le
            show line - 1 < r.1
            omega
        · exact ⟨hlater, hpairs⟩

end Runs

section Folds

variable {content : String} {t : Tree}

/-- One interval lies inside the other, or they are apart. Both ends belong to an interval. -/
def Laminar (i j : Nat × Nat) : Prop :=
  i.1 ≤ j.1 ∧ j.2 ≤ i.2 ∨ j.1 ≤ i.1 ∧ i.2 ≤ j.2 ∨ i.2 < j.1 ∨ j.2 < i.1

/-- The lines that a block covers, without that of its last brace. -/
def blockFold? (content : String) (t : Tree) : Option Document.Fold :=
  if lineOf content (openAt t) + 1 < lineOf content (closeAt content.toUTF8 t) then
    some { startLine := lineOf content (openAt t),
           endLine := lineOf content (closeAt content.toUTF8 t) - 1, kind := .region }
  else none

/-- The line is a comment. -/
def CommentAt (content : String) (i : Nat) : Prop :=
  ∃ line, (Text.lines content)[i]? = some line ∧ Document.isCommentLine line = true

/-- A mark outside comments does not stand on a comment line. -/
theorem not_commentAt {o : Nat} {c : Char} (hb : content.toUTF8[o]? = some (UInt8.ofNat c.toNat))
    (hc : c = '\x7b' ∨ c = '\x7d') (hmode : modeAt content.toUTF8 o ≠ .comment) :
    ¬ CommentAt content (lineOf content o) := by
  have hascii : (UInt8.ofNat c.toNat).toNat < 128 ∧
      String.utf8EncodeChar c = [UInt8.ofNat c.toNat] := by
    rcases hc with rfl | rfl <;> decide
  obtain ⟨cs, d, ds, hsplits, -, hencode⟩ := Utf8.Splits.of_ascii hb hascii.1
  have hdecode := Utf8.decode_encode [d]
  rw [List.flatMap_singleton, hencode, ← hascii.2, ← List.flatMap_singleton String.utf8EncodeChar c,
    Utf8.decode_encode, List.singleton_inj] at hdecode
  subst hdecode
  rintro ⟨line, hline, hcomment⟩
  have hnot := not_isCommentLine hsplits hmode (by rcases hc with rfl | rfl <;> decide) hline
  rw [hnot] at hcomment
  cases hcomment

variable (uri : String) (version : Int)

theorem blockFolds_eq (h : parseProgram content = .ok t) :
    (Document.ofContent uri version content).blockFolds =
    ((t.visits.filter isBlockVisit).map Visit.node).filterMap (blockFold? content) := by
  have hnested := nested_of_parse h
  simp only [Document.blockFolds, Document.ofContent, h, List.filterMap_map]
  refine List.filterMap_congr fun v hv => ?_
  have hdelimited := hnested.delimited _ (List.mem_map_of_mem hv)
  obtain ⟨hopen, hclose⟩ := hdelimited.bytes
  rw [Function.comp_apply, hdelimited.closingBrace_eq, hdelimited.offset?, Option.getD_some,
    locate_line (Nat.le_of_lt (lt_size hopen)),
    locate_line (Nat.le_of_lt (lt_size hclose)), blockFold?]
  split
  · rw [if_pos (by omega)]
    simp
    omega
  · rw [if_neg (by omega)]

/-- What a fold of a block says about its braces. -/
theorem ends_of_blockFold? {f : Document.Fold} (h : blockFold? content t = some f) :
    f.startLine = lineOf content (openAt t) ∧
    f.endLine + 1 = lineOf content (closeAt content.toUTF8 t) ∧
      f.startLine < f.endLine := by
  unfold blockFold? at h
  split at h <;> simp only [Option.some.injEq, reduceCtorEq] at h
  subst h
  exact ⟨rfl, Nat.sub_add_cancel (by omega), Nat.lt_sub_of_add_lt ‹_›⟩

theorem laminar_blockFolds (h : parseProgram content = .ok t) :
    (Document.ofContent uri version content).blockFolds.Pairwise
      fun f g => Laminar (f.startLine, f.endLine) (g.startLine, g.endLine) := by
  rw [blockFolds_eq uri version h]
  refine List.Pairwise.filterMap _ (fun u v huv f hf g hg => ?_) (nested_of_parse h).pairwise
  obtain ⟨hstart, hend, hlt⟩ := ends_of_blockFold? hf
  obtain ⟨hstart', hend', hlt'⟩ := ends_of_blockFold? hg
  rcases huv with ⟨hopen, hclose⟩ | happart
  · have hfirst := lineOf_mono content (Nat.le_of_lt hopen)
    have hlast := lineOf_mono content (Nat.le_of_lt hclose)
    exact .inl ⟨by simp only; omega, by simp only; omega⟩
  · have hbetween := lineOf_mono content (Nat.le_of_lt happart)
    exact .inr (.inr (.inl (by simp only; omega)))

/-- The runs of comment lines. -/
theorem runs_commentFolds (content : String) :
    (∀ f ∈ (Document.ofContent uri version content).commentFolds,
      RunOf (CommentAt content) 0 (Text.lines content).length f.startLine f.endLine) ∧
    (Document.ofContent uri version content).commentFolds.Pairwise fun f g =>
      f.endLine < g.startLine := by
  have htests : ∀ i, ((Text.lines content).map Document.isCommentLine)[i]? = some true →
      CommentAt content (0 + i) := by
    intro i hi
    rw [List.getElem?_map, Option.map_eq_some_iff] at hi
    rwa [Nat.zero_add]
  have hnone : ∀ s, none = some s → s < 0 ∧ ∀ i, s ≤ i → i < 0 → CommentAt content i := nofun
  obtain ⟨hruns, hpairs⟩ := runs_spec htests hnone
  rw [List.length_map, Nat.zero_add] at hruns
  have hfolds : (Document.ofContent uri version content).commentFolds =
      (Document.runs 0 none ((Text.lines content).map Document.isCommentLine)).map fun r =>
        ⟨r.1, r.2, .comment⟩ := rfl
  rw [hfolds, List.pairwise_map]
  refine ⟨fun f hf => ?_, hpairs⟩
  obtain ⟨r, hr, rfl⟩ := List.mem_map.mp hf
  exact hruns r hr

/-- A run of comment lines lies inside a block or beside it. -/
theorem laminar_comment {f g : Document.Fold} (h : parseProgram content = .ok t)
    (hf : f ∈ (Document.ofContent uri version content).blockFolds)
    (hg : g ∈ (Document.ofContent uri version content).commentFolds) :
    Laminar (f.startLine, f.endLine) (g.startLine, g.endLine) := by
  have hrun := (runs_commentFolds uri version content).1 g hg
  rw [blockFolds_eq uri version h] at hf
  obtain ⟨u, hu, hf⟩ := List.mem_filterMap.mp hf
  obtain ⟨hstart, hend, hlt⟩ := ends_of_blockFold? hf
  have hdelimited := (nested_of_parse h).delimited u hu
  obtain ⟨v, hv, rfl⟩ := List.mem_map.mp hu
  obtain ⟨hmem, hblock⟩ := List.mem_filter.mp hv
  have hclear := clear_of_block h hmem hblock
  have hopen : ¬ CommentAt content f.startLine :=
    hstart ▸ not_commentAt (c := '\x7b') hdelimited.bytes.1 (.inl rfl) hclear
  have hclose : ¬ CommentAt content (f.endLine + 1) :=
    hend ▸ not_commentAt (c := '\x7d') hdelimited.bytes.2 (.inr rfl) (hdelimited.clear hclear)
  -- the lines of the braces are no comments, so the run contains neither
  have hnot : ∀ i, ¬ CommentAt content i → i < g.startLine ∨ g.endLine < i := by
    intro i hi
    by_contra hin
    exact hi (hrun.all i (by omega) (by omega))
  have hbefore := hnot _ hopen
  have hbehind := hnot _ hclose
  have hlt' := hrun.lt
  unfold Laminar
  simp only
  omega

theorem folds_of_parse (h : parseProgram content = .ok t) :
    (∀ f ∈ (Document.ofContent uri version content).folds,
      f.startLine < f.endLine ∧ f.endLine < (Text.lines content).length) ∧
    (Document.ofContent uri version content).folds.Pairwise
      fun f g => Laminar (f.startLine, f.endLine) (g.startLine, g.endLine) := by
  obtain ⟨hruns, hpairs⟩ := runs_commentFolds uri version content
  refine ⟨fun f hf => ?_,
      List.pairwise_append.mpr ⟨laminar_blockFolds uri version h, ?_, fun f hf g hg =>
    laminar_comment uri version h hf hg⟩⟩
  · rcases List.mem_append.mp hf with hf | hf
    · rw [blockFolds_eq uri version h] at hf
      obtain ⟨u, -, hf⟩ := List.mem_filterMap.mp hf
      obtain ⟨-, hend, hlt⟩ := ends_of_blockFold? hf
      have hlines := lineOf_lt content (closeAt content.toUTF8 u)
      exact ⟨hlt, by omega⟩
    · exact ⟨(hruns f hf).lt, (hruns f hf).lt_limit⟩
  · exact hpairs.imp fun hlt => .inr (.inr (.inl hlt))

end Folds

open Peg

theorem Delimited.parses {t : Tree} (h : Delimited src t) : ∃ (o p q : Nat) (body : Tree),
    t = .form .sequence o body.children ∧ o = openAt t ∧
    Parses syntaxOf src (.rule .block) p (some (t, q)) ∧
      Parses syntaxOf src (.seq (Pattern.lit "\x7b") (.seq (.rule .program) (Pattern.lit "\x7d"))) p
        (some ((o, body, closeAt src t), q)) := by
  have hbytes := h.bytes
  obtain ⟨p, r, s, q, ts, ht, hopen, hread, hclose⟩ := h
  have hp : p ≤ src.size := by
    have hlayout := le_layoutEnd src p
    have hlt := lt_size hbytes.1
    have hat := (byte_of_litAt rfl hopen).2.1
    omega
  refine ⟨openAt t, p, q, .form .sequence r ts, ht, rfl, ?_, ?_⟩
  · refine (ranking.parses_iff .block hp _).mpr ((read_block hp).trans ?_)
    rw [hopen, Option.bind_some, hread, Option.bind_some, hclose, ht]
    rfl
  · have heval : Peg.eval src (Grammar.read src)
        (.seq (Pattern.lit "\x7b") (.seq (.rule .program) (Pattern.lit "\x7d"))) p =
          some ((openAt t, Tree.form .sequence r ts, closeAt src t), q) := by
      simp only [eval_seq, eval_lit, eval_rule, hopen, Option.bind_some, hread, hclose,
        Option.map_some]
    rw [← heval]
    exact ranking.parses_eval ranking.read_allFit _ ranking.top p hp (by decide)
      fun n q hq _ => ranking.parses_read n q hq

/-- The closing brace of a block is the one that the rule for blocks took for it, so that blocks lie
inside one another or apart. So do the ranges of lines that can be folded, of blocks and of
comments, and all of them are longer than a line and end in the text. -/
theorem braces_match_blocks {content : String} {t : Tree} (h : parseProgram content = .ok t) :
    (∀ v ∈ t.visits, v.node.isForm .sequence = true → v.parent.isAbsent = false →
      ∃ (o p q : Nat) (body : Tree), v.node = .form .sequence o body.children ∧
      Parses syntaxOf content.toUTF8 (.rule .block) p (some (v.node, q)) ∧
      Parses syntaxOf content.toUTF8
        (.seq (Pattern.lit "\x7b") (.seq (.rule .program) (Pattern.lit "\x7d"))) p
        (some ((o, body, closingBrace content o), q))) ∧
    ((t.visits.filter fun v => v.node.isForm .sequence && !v.parent.isAbsent).map fun v =>
      (openAt v.node, closingBrace content (openAt v.node))).Pairwise
        (fun i j => i.1 < j.1 ∧ j.2 < i.2 ∨ i.2 < j.1) ∧
    ∀ (s : Server) (uri : String) (version : Int),
      s.doc? uri = some (Document.ofContent uri version content) →
      ∃ fs, s.query (.foldingRange uri) = Server.someOrNothing .folds fs ∧
        (∀ f ∈ fs, f.startLine < f.endLine ∧ f.endLine < (Text.lines content).length) ∧
        fs.Pairwise fun f g => Laminar (f.startLine, f.endLine) (g.startLine, g.endLine) := by
  have hnested := nested_of_parse h
  have hclosing {u : Tree} (hu : Delimited content.toUTF8 u) :
      closingBrace content (openAt u) = closeAt content.toUTF8 u := by
    rw [← hu.closingBrace_eq, hu.offset?, Option.getD_some]
  refine ⟨fun v hv hsequence hparent => ?_, ?_, fun s uri version hdoc => ?_⟩
  · have hblock : isBlockVisit v = true := by rw [isBlockVisit, hsequence, hparent]; rfl
    have hdelimited := hnested.delimited _ (List.mem_map_of_mem (List.mem_filter.mpr ⟨hv, hblock⟩))
    obtain ⟨o, p, q, body, hnode, rfl, hrule, hparts⟩ := hdelimited.parses
    exact ⟨_, p, q, body, hnode, hrule, by rwa [hclosing hdelimited]⟩
  · have hpairs := List.pairwise_map.mp hnested.pairwise
    rw [List.pairwise_map]
    refine hpairs.imp_of_mem fun hv hw hvw => ?_
    rw [hclosing (hnested.delimited _ (List.mem_map_of_mem hv)),
      hclosing (hnested.delimited _ (List.mem_map_of_mem hw))]
    exact hvw
  · refine ⟨(Document.ofContent uri version content).folds, ?_, folds_of_parse uri version h⟩
    rw [Server.query, hdoc]
    rfl

theorem braces_match_blocks_comment :
    ∃ t, parseProgram "var f = func(x) \x7b # \x7d\n # \x7b\n if (x) \x7b\nret 1;\n\x7d\x7d;" =
      .ok t ∧
      (t.visits.filter fun v => v.node.isForm .sequence && !v.parent.isAbsent).length = 2 ∧
      ∀ v ∈ t.visits, v.node.isForm .sequence = true → v.parent.isAbsent = false →
        ∃ (o p q : Nat) (body : Tree), v.node = .form .sequence o body.children ∧
          Parses syntaxOf
            "var f = func(x) \x7b # \x7d\n # \x7b\n if (x) \x7b\nret 1;\n\x7d\x7d;".toUTF8
              (.rule .block) p
            (some (v.node, q)) ∧
          Parses syntaxOf
            "var f = func(x) \x7b # \x7d\n # \x7b\n if (x) \x7b\nret 1;\n\x7d\x7d;".toUTF8
            (.seq (Pattern.lit "\x7b") (.seq (.rule .program) (Pattern.lit "\x7d"))) p
            (some
              ((o, body,
                closingBrace "var f = func(x) \x7b # \x7d\n # \x7b\n if (x) \x7b\nret 1;\n\x7d\x7d;"
                  o), q)) := by
  have hcheck :
      (parseProgram
        "var f = func(x) \x7b # \x7d\n # \x7b\n if (x) \x7b\nret 1;\n\x7d\x7d;").toOption.any
      (fun t => (t.visits.filter fun v => v.node.isForm .sequence && !v.parent.isAbsent).length =
        2) = true := by
    decide +kernel
  obtain ⟨t, hp, hcount⟩ := exists_ok_of_any hcheck
  exact ⟨t, hp, of_decide_eq_true hcount, (braces_match_blocks hp).1⟩

end ClosureLang.Editor
