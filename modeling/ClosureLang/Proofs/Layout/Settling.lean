import ClosureLang.Proofs.Layout.Respacing

/-! Formatting settles. The blank lines of a printed text are found again where its statements are
read back, but for those in front of a parenthesis. So the text that a formatted text is formatted
to is kept, and so is the formatted text itself unless a line that starts with a parenthesis stands
behind a blank one in it. -/
namespace ClosureLang.Layout

open Editor Grammar Peg ClosureLang.Tree

variable {style : Style} {src T front rest blanks more : String} {level k p q m : Nat}
  {t t' b b' : Tree} {ts bs : List Tree}

section Places

theorem blank_of_isBlankText {s : String} (h : isBlankText s = true) :
    ∀ c ∈ s.toList, isBlankChar c = true := by
  intro c hc
  have hall := List.all_eq_true.mp h c hc
  rw [Bool.and_eq_true] at hall
  exact hall.1

theorem bytes_at (hplain : isPlainText T = true) (i : Nat) :
    T.toUTF8[i]? = T.toList[i]?.map byteOf := by
  rw [getElem?_eq, bytes_of_plain hplain, List.getElem?_map]

/-- Behind a part of a plain text the rest of it is left. -/
theorem ahead_at (hplain : isPlainText T = true) (hT : T = front ++ rest) :
    Ahead T.toUTF8 (layoutEnd T.toUTF8 front.length) rest := by
  have hchars : T.toUTF8.data.toList = front.toList.map byteOf ++ rest.toList.map byteOf := by
    rw [bytes_of_plain hplain, hT, String.toList_append, List.map_append]
  have hsize : front.length ≤ T.toUTF8.size := by
    have hlength := congrArg List.length hchars
    simp only [List.length_append, List.length_map, String.length_toList] at hlength
    have hbytes : T.toUTF8.data.toList.length = T.toUTF8.size := by simp
    omega
  refine ahead_of_drop hsize ?_ ?_
  · rw [hT, isPlainText_append, Bool.and_eq_true] at hplain
    exact hplain.2
  · rw [hchars]
    exact List.drop_left' (by rw [List.length_map, String.length_toList])

theorem ahead_unique {src : ByteArray} (h : Ahead src p rest) (h' : Ahead src q rest) : p = q := by
  have hbytes := h.bytes.trans h'.bytes.symm
  rw [layoutEnd_of_settled h.settled, layoutEnd_of_settled h'.settled] at hbytes
  have hlength := congrArg List.length hbytes
  have hsize : src.data.toList.length = src.size := by simp
  rw [List.length_drop, List.length_drop, hsize] at hlength
  have hp := h.le
  have hq := h'.le
  omega

theorem opening_of_chars {f skipped cs : List Char} {c : Char} (hplain : isPlainText T = true)
    (hT : T.toList = f ++ (skipped ++ c :: cs))
    (hskipped : ∀ d ∈ skipped, isSkipped (byteOf d) = true) (hc : isSkipped (byteOf c) = false) :
    Opening T.toUTF8 f.length (f.length + skipped.length) := by
  refine ⟨Nat.le_add_right _ _, fun i hi hlt => ?_, byteOf c, ?_, hc⟩
  · rw [bytes_at hplain, hT, List.getElem?_append_right hi, List.getElem?_append_left (by omega)]
    obtain ⟨d, hd⟩ : ∃ d, skipped[i - f.length]? = some d :=
      ⟨_, List.getElem?_eq_getElem (by omega)⟩
    rw [hd]
    exact hskipped d (List.mem_of_getElem? hd)
  · rw [bytes_at hplain, hT, List.getElem?_append_right (Nat.le_add_right _ _),
      Nat.add_sub_cancel_left, List.getElem?_append_right (Nat.le_refl _), Nat.sub_self]
    rfl

end Places

section Feeds

/-- Only the blanks in front of an offset count. -/
theorem feedsBefore_blanks {bs cs : List UInt8} {b : UInt8} (hb : isBlankByte b = false)
    (hcs : ∀ c ∈ cs, isBlankByte c = true) : feedsBefore (bs ++ b :: cs) = cs.count lineFeed := by
  have hreverse : (bs ++ b :: cs).reverse = cs.reverse ++ b :: bs.reverse := by simp
  rw [feedsBefore, hreverse, List.takeWhile_append_of_pos (by simpa using hcs),
    List.takeWhile_cons_of_neg (by simp [hb]), List.append_nil, List.count_reverse]

theorem pause_of_leftmost {f cs ds : List Char} {c : Char} (hplain : isPlainText T = true)
    (hT : T.toList = f ++ c :: (cs ++ ds)) (hc : isBlankChar c = false)
    (hcs : ∀ d ∈ cs, isBlankChar d = true)
    (hm : leftmost (t.offset?.getD 0) t = (f.length + 1 + cs.length : Nat)) :
    pause style T t =
      (min (((cs.map byteOf).count lineFeed : Int) - 1) style.maxBlankLines).toNat := by
  have hbytes := bytes_of_plain hplain
  have hsize : T.utf8ByteSize = T.toList.length := by
    have hlength := congrArg List.length hbytes
    simpa using hlength
  have hle : f.length + 1 + cs.length ≤ T.utf8ByteSize := by
    rw [hsize, hT]
    simp only [List.length_append, List.length_cons]
    omega
  have htaken : (T.toUTF8.extract 0 (f.length + 1 + cs.length)).toList =
      f.map byteOf ++ byteOf c :: cs.map byteOf := by
    have hsplit : T.toList = (f ++ c :: cs) ++ ds := by rw [hT]; simp
    rw [toList_eq, ByteArray.data_extract, Array.toList_extract, List.extract_eq_take_drop, hbytes,
      hsplit, List.drop_zero, List.map_append, List.take_left' (by simp; omega)]
    simp
  have hne : ¬(T = "" ∨ ((f.length + 1 + cs.length : Nat) : Int) < 0 ∨
      (T.utf8ByteSize : Int) < (f.length + 1 + cs.length : Nat)) := by
    rintro (rfl | h | h)
    · simp at hT
    · omega
    · omega
  rw [pause, blankLinesBefore, hm]
  simp only [if_neg hne, Int.toNat_natCast, htaken]
  rw [feedsBefore_blanks hc (List.forall_mem_map.mpr hcs)]

/-- Behind a parenthesis there are no blank lines. -/
theorem pause_paren {f cs : List Char} (hplain : isPlainText T = true)
    (hT : T.toList = f ++ '(' :: cs) (hm : leftmost (t.offset?.getD 0) t = (f.length + 1 : Nat)) :
    pause style T t = 0 := by
  have hchars : T.toList = f ++ '(' :: ([] ++ cs) := hT
  rw [pause_of_leftmost hplain hchars rfl nofun hm, List.map_nil, List.count_nil]
  omega

/-- Behind the line in front of it, a statement has as many blank lines as there are line feeds. -/
theorem pause_blanks (hplain : isPlainText T = true) (hfront : endsSolid front = true)
    (hblanks : isBlankText blanks = true) (hT : T = front ++ "\n" ++ (blanks ++ more))
    (hm : leftmost (t.offset?.getD 0) t = ((front ++ "\n").length + blanks.length : Nat)) :
    pause style T t =
      (min ((blanks.toList.map byteOf).count lineFeed : Int) style.maxBlankLines).toNat := by
  obtain ⟨f, d, hd, hsolid⟩ : ∃ f d, front.toList = f ++ [d] ∧ isBlankChar d = false := by
    obtain ⟨d, hlast, hd⟩ := (Option.any_eq_true _ _).mp hfront
    obtain ⟨f, hf⟩ := List.getLast?_eq_some_iff.mp hlast
    exact ⟨f, d, hf, by simpa using hd⟩
  have hchars : T.toList = f ++ d :: (('\n' :: blanks.toList) ++ more.toList) := by
    rw [hT]
    simp [hd]
  have hlength : (front ++ "\n").length = f.length + 2 := by
    rw [← String.length_toList, String.toList_append, hd]
    simp
  have hblank : ∀ d ∈ '\n' :: blanks.toList, isBlankChar d = true :=
    List.forall_mem_cons.mpr ⟨rfl, blank_of_isBlankText hblanks⟩
  have hcount : ((('\n' :: blanks.toList).map byteOf).count lineFeed : Int) - 1 =
      (blanks.toList.map byteOf).count lineFeed := by
    rw [List.map_cons, show byteOf '\n' = lineFeed from rfl, List.count_cons_self, Int.natCast_add,
      Int.natCast_one, Int.add_sub_cancel]
  rw [pause_of_leftmost hplain hchars hsolid hblank, hcount]
  rw [hm, hlength, List.length_cons, String.length_toList]
  omega

/-- A number of blank lines that is kept once is kept again. -/
theorem pause_bound (style : Style) (src : String) (t : Tree) :
    (min (pause style src t : Int) style.maxBlankLines).toNat = pause style src t := by
  simp only [pause, blankLinesBefore]
  split <;> omega

end Feeds

section Lines

theorem denotes_statementRope (ht : WellSorted (0 ≤ ·) .statement t) (level : Nat) :
    DenotesStatement (statementRope style src level t).text t := by
  have hprinted : Printed style src .statement t := printed_of_wellSorted ht
  obtain ⟨text, htext, -, -, hdenotes⟩ := hprinted level
  cases htext.symm.trans (roped_of_inPlace ht.inPlace level)
  exact hdenotes

/-- A statement is read where it is printed, and its leftmost node stands behind the parentheses at
its front. -/
theorem read_printed (hplain : isPlainText T = true) (ht : WellSorted (0 ≤ ·) .statement t)
    (hT : T = front ++ (blanks ++ ((statementRope style src level t).text ++ ("\n" ++ more))))
    (hblanks : isBlankText blanks = true) (helse : NoElse T.toUTF8 ("\n" ++ more)) :
    ∃ t', read T.toUTF8 .statement (layoutEnd T.toUTF8 front.length) = some (t', layoutEnd T.toUTF8
        (front ++ blanks ++ (statementRope style src level t).text ++ "\n").length) ∧
      similar t' t = true ∧
      leftmost (t'.offset?.getD 0) t' = (front.length + (blanks.length + lead 0 t) : Nat) := by
  have hstart := (ahead_blanks hblanks).mp (ahead_at hplain hT)
  obtain ⟨t', q, hsim, hq, hread⟩ := denotes_statementRope ht level _ _ _ helse hstart
  have hend : Ahead T.toUTF8 (layoutEnd T.toUTF8
      (front ++ blanks ++ (statementRope style src level t).text ++ "\n").length) more :=
    ahead_at hplain (by rw [hT]; simp only [String.append_assoc])
  obtain rfl := ahead_unique ((ahead_blanks rfl).mp hq) hend
  obtain ⟨m, hm, hleft⟩ := leftmost_of_read (clean_of_plain hplain) hstart.le hread
  refine ⟨t', hread, hsim, ?_⟩
  have hfronted : Fronted (statementRope style src level t).text (lead 0 t) :=
    fronted_statement ht level
  obtain ⟨c, cs, hcs, hc⟩ := hfronted
  have hchars : T.toList = front.toList ++ ((blanks.toList ++ List.replicate (lead 0 t) '(') ++
      c :: (cs ++ ("\n" ++ more).toList)) := by
    rw [hT, String.toList_append, String.toList_append, String.toList_append, hcs]
    simp
  have hskipped : ∀ d ∈ blanks.toList ++ List.replicate (lead 0 t) '(',
      isSkipped (byteOf d) = true := by
    intro d hd
    rcases List.mem_append.mp hd with hd | hd
    · rw [isSkipped, show isBlankByte (byteOf d) = true from blank_of_isBlankText hblanks d hd,
        Bool.true_or]
    · rw [(List.mem_replicate.mp hd).2]
      rfl
  have hfound := opening_of_chars hplain hchars hskipped hc
  rw [String.length_toList] at hfound
  have hpassed :=
    Opening.trans (fun i hi hlt => blank_of_layout (clean_of_plain hplain) hi hlt)
      (le_layoutEnd _ _) hm
  rw [hleft, hpassed.unique hfound]
  simp [String.length_toList]

/-- A line that starts with a parenthesis behind a blank one. -/
def Detached (cs : List Char) : Prop :=
  ∃ front blanks back, cs = front ++ '\n' :: '\n' :: (blanks ++ '(' :: back) ∧
    ∀ c ∈ blanks, isBlankChar c = true

/-- Where a statement was printed behind another one, its blank lines are found again unless it
starts with a parenthesis. No node stands in front of that, and the blank lines are not looked for
behind it. -/
structure Settles (style : Style) (src T : String) (t t' : Tree) : Prop where
  lead_eq : lead 0 t' = lead 0 t
  pause_eq : pause style T t' = if lead 0 t = 0 then pause style src t else 0
  detached : lead 0 t ≠ 0 → pause style src t ≠ 0 → Detached T.toList

theorem count_lead (n : Nat) :
    ((Text.repeated n '\n' ++ indentation style level).toList.map byteOf).count lineFeed = n := by
  have hindent : ((indentation style level).toList.map byteOf).count lineFeed = 0 := by
    rw [indentation, Text.repeated, String.toList_ofList, List.map_replicate]
    exact List.count_replicate.trans (if_neg (by decide))
  rw [String.toList_append, List.map_append, List.count_append, hindent, Text.repeated,
    String.toList_ofList, List.map_replicate]
  exact List.count_replicate_self

/-- The line of a statement behind another line. -/
theorem pause_line {line : String} (hplain : isPlainText T = true) (hfront : endsSolid front = true)
    (hblanks : blanks = Text.repeated (pause style src t) '\n' ++ indentation style level)
    (hT : T = front ++ "\n" ++ (blanks ++ (line ++ more))) (hline : Fronted line (lead 0 t))
    (hm : leftmost (t'.offset?.getD 0) t' =
      ((front ++ "\n").length + (blanks.length + lead 0 t) : Nat)) :
    pause style T t' = if lead 0 t = 0 then pause style src t else 0 := by
  split
  · rename_i hlead
    rw [hlead, Nat.add_zero] at hm
    rw [pause_blanks hplain hfront (hblanks ▸ isBlankText_lead style _ level) hT hm, hblanks,
      count_lead, pause_bound]
  · rename_i hlead
    obtain ⟨n, hn⟩ := Nat.exists_eq_succ_of_ne_zero hlead
    obtain ⟨c, cs, hcs, -⟩ := hline
    have hchars : T.toList = ((front ++ "\n" ++ blanks).toList ++ List.replicate n '(') ++
        '(' :: (c :: cs ++ more.toList) := by
      rw [hn, List.replicate_succ'] at hcs
      simp only [hT, String.toList_append, hcs, List.append_assoc, List.cons_append,
        List.nil_append]
    refine pause_paren hplain hchars (hm.trans ?_)
    rw [hn, List.length_append, List.length_replicate, String.length_toList,
      String.length_append (front ++ "\n")]
    omega

theorem detached_line {line : String} {n : Nat}
    (hT : T = front ++ "\n" ++ (blanks ++ (line ++ more)))
    (hblanks : blanks = Text.repeated n '\n' ++ indentation style level) (hn : n ≠ 0) (hk : k ≠ 0)
    (hline : Fronted line k) : Detached T.toList := by
  obtain ⟨c, cs, hcs, -⟩ := hline
  obtain ⟨n, rfl⟩ := Nat.exists_eq_succ_of_ne_zero hn
  obtain ⟨k, rfl⟩ := Nat.exists_eq_succ_of_ne_zero hk
  refine ⟨front.toList, (Text.repeated n '\n' ++ indentation style level).toList,
    List.replicate k '(' ++ c :: cs ++ more.toList, ?_,
    blank_of_isBlankText (isBlankText_lead style n level)⟩
  simp [hT, hblanks, hcs, Text.repeated, List.replicate_succ]

end Lines

section Sequences

/-- The statements that are read from `p` on. -/
def statementsAt (src : ByteArray) (p : Nat) : List Tree :=
  (repeatUpTo (read src .statement) (src.size + 1) p).1

theorem statementsAt_cons {src : ByteArray} (hp : p ≤ src.size)
    (h : read src .statement p = some (t, q)) : statementsAt src p = t :: statementsAt src q := by
  rw [statementsAt, repeatUpTo_step (fun _ _ => statement_fits) hp h]
  rfl

theorem statementsAt_nil {src : ByteArray} (h : read src .statement p = none) :
    statementsAt src p = [] := by
  rw [statementsAt, repeatUpTo, h]

theorem denotes_statementsRope (style : Style) (src : String)
    (hts : ∀ t ∈ ts, WellSorted (0 ≤ ·) .statement t) (level : Nat) (first : Bool) :
    DenotesSequence (statementsRope style src level first ts).text ts := by
  have hprinted : ∀ t ∈ ts, Printed style src .statement t :=
    fun t ht => printed_of_wellSorted (hts t ht)
  obtain ⟨text, htext, -, -, hdenotes⟩ := statements_printed hprinted level first
  cases htext.symm.trans
    (statements_roped (fun t ht => roped_of_inPlace (hts t ht).inPlace) level first)
  exact hdenotes

/-- Every statement behind another one settles. Each is read where the line in front of it ends. -/
theorem settles_further (hplain : isPlainText T = true)
    (hts : ∀ t ∈ ts, WellSorted (0 ≤ ·) .statement t) (hfront : endsSolid front = true)
    (hT : T = front ++ "\n" ++ ((statementsRope style src level false ts).text ++ rest))
    (hrest : Closes T.toUTF8 rest) :
    List.Forall₂ (Settles style src T)
      ts (statementsAt T.toUTF8 (layoutEnd T.toUTF8 (front ++ "\n").length)) := by
  induction ts generalizing front with
  | nil =>
    rw [statementsRope, Rope.text_plain, String.empty_append] at hT
    have hahead := ahead_at hplain hT
    rw [statementsAt_nil (hrest _ hahead).1]
    exact .nil
  | cons t ts ih =>
    rw [List.forall_mem_cons] at hts
    have hlines : T = front ++ "\n" ++
        ((Text.repeated (pause style src t) '\n' ++ indentation style level) ++
        ((statementRope style src level t).text ++ ("\n" ++
          ((statementsRope style src level false ts).text ++ rest)))) := by
      rw [hT, statementsRope]
      simp only [Rope.text_append, Rope.text_plain, Bool.false_eq_true, if_false, pause,
        String.append_assoc]
    have helse := (denotes_statementsRope style src hts.2 level false).noElse hrest
    obtain ⟨t', hread, hsim, hm⟩ :=
      read_printed hplain hts.1 hlines (isBlankText_lead style _ level) helse
    rw [statementsAt_cons (ahead_at hplain hlines).le hread]
    refine .cons ⟨lead_of_similar hsim 0,
      pause_line hplain hfront rfl hlines (fronted_statement hts.1 level) hm, fun hlead hpause =>
        detached_line hlines rfl hpause hlead (fronted_statement hts.1 level)⟩
      (ih hts.2 (endsSolid_append (endsSolid_statement hts.1 level)) ?_)
    rw [hlines]
    simp only [String.append_assoc]

/-- In a sequence that is printed every statement but the first one settles. -/
theorem settles_sequence (hplain : isPlainText T = true)
    (hts : ∀ t ∈ ts, WellSorted (0 ≤ ·) .statement t) (hblanks : isBlankText blanks = true)
    (hT : T = front ++ (blanks ++ ((statementsRope style src level true ts).text ++ rest)))
    (hrest : Closes T.toUTF8 rest) :
    List.Forall₂ (Settles style src T)
      ts.tail (statementsAt T.toUTF8 (layoutEnd T.toUTF8 front.length)).tail := by
  cases ts with
  | nil =>
    rw [statementsRope, Rope.text_plain, String.empty_append] at hT
    have hahead := (ahead_blanks hblanks).mp (ahead_at hplain hT)
    rw [statementsAt_nil (hrest _ hahead).1]
    exact .nil
  | cons t ts =>
    rw [List.forall_mem_cons] at hts
    have hlines : T = front ++ ((blanks ++ (Text.repeated 0 '\n' ++ indentation style level)) ++
        ((statementRope style src level t).text ++ ("\n" ++
          ((statementsRope style src level false ts).text ++ rest)))) := by
      rw [hT, statementsRope]
      simp only [Rope.text_append, Rope.text_plain, if_true, String.append_assoc]
    have hblanks' :
        isBlankText (blanks ++ (Text.repeated 0 '\n' ++ indentation style level)) = true := by
      rw [isBlankText_append, hblanks, isBlankText_lead]
      rfl
    have helse := (denotes_statementsRope style src hts.2 level false).noElse hrest
    obtain ⟨t', hread, -, -⟩ := read_printed hplain hts.1 hlines hblanks' helse
    rw [statementsAt_cons (ahead_at hplain hlines).le hread, List.tail_cons, List.tail_cons]
    have hbehind : T = front ++ (blanks ++ (Text.repeated 0 '\n' ++ indentation style level)) ++
        (statementRope style src level t).text ++ "\n" ++
          ((statementsRope style src level false ts).text ++ rest) :=
      hlines.trans (by simp only [String.append_assoc])
    exact settles_further hplain hts.2 (endsSolid_append (endsSolid_statement hts.1 level))
      hbehind hrest

end Sequences

section Braces

/-- What is behind opening braces in the order of the text. -/
theorem sublist_tails {cs : List Char} {ps : List Nat} (hsorted : ps.Pairwise (· < ·))
    (hbraces : ∀ i ∈ ps, cs[i]? = some '\x7b') :
    (ps.map fun i => cs.drop (i + 1)).Sublist (tails cs) := by
  induction cs generalizing ps with
  | nil =>
    cases ps with
    | nil => exact .slnil
    | cons i ps => cases hbraces i List.mem_cons_self
  | cons c cs ih =>
    -- Places behind the first character are places of the rest.
    have hlater (ps : List Nat) (hsorted : ps.Pairwise (· < ·))
        (hbraces : ∀ i ∈ ps, (c :: cs)[i]? = some '\x7b')
        (hpos : ∀ i ∈ ps, 0 < i) : (ps.map fun i => (c :: cs).drop (i + 1)).Sublist (tails cs) := by
      obtain ⟨qs, rfl⟩ : ∃ qs : List Nat, ps = qs.map (· + 1) := by
        refine ⟨ps.map (· - 1), ?_⟩
        rw [List.map_map]
        refine (List.map_id ps).symm.trans (List.map_congr_left fun i hi => ?_)
        have := hpos i hi
        simp only [id, Function.comp]
        omega
      rw [List.map_map]
      refine ih ?_ ?_
      · exact (List.pairwise_map.mp hsorted).imp fun h => Nat.lt_of_succ_lt_succ h
      · exact fun i hi => hbraces _ (List.mem_map_of_mem hi)
    cases ps with
    | nil => exact List.nil_sublist _
    | cons i ps =>
      obtain ⟨hfirst, hrest⟩ := List.pairwise_cons.mp hsorted
      rw [List.forall_mem_cons] at hbraces
      cases i with
      | zero =>
        obtain rfl : c = '\x7b' := Option.some.inj hbraces.1
        rw [tails, if_pos rfl]
        exact (hlater ps hrest hbraces.2 hfirst).cons_cons _
      | succ i =>
        have hskip := hlater ((i + 1) :: ps) hsorted (List.forall_mem_cons.mpr hbraces)
          (List.forall_mem_cons.mpr ⟨by omega, fun j hj => by have := hfirst j hj; omega⟩)
        rw [tails]
        split
        · exact hskip.cons _
        · exact hskip

theorem brace_of_delimited (hplain : isPlainText T = true) (h : Delimited T.toUTF8 b) :
    T.toList[openAt b]? = some '\x7b' := by
  have hbyte := h.bytes.1
  rw [bytes_at hplain, Option.map_eq_some_iff] at hbyte
  obtain ⟨c, hc, hcb⟩ := hbyte
  have hcplain := List.all_eq_true.mp hplain c (List.mem_of_getElem? hc)
  rw [hc, (byteOf_inj hcplain (d := '\x7b') (by decide)).mp hcb]

/-- The brace that starts a block is in front of the one that ends it. -/
theorem openAt_lt (h : Delimited T.toUTF8 b) : openAt b < closeAt T.toUTF8 b := by
  have hlt := lt_size h.bytes.1
  obtain ⟨p, r, s, q, ts, -, hopen, hread, hclose⟩ := h
  obtain ⟨-, -, rfl⟩ := byte_of_litAt (c := '\x7b') rfl hopen
  obtain ⟨-, hc, -⟩ := byte_of_litAt (c := '\x7d') rfl hclose
  have hstart := le_layoutEnd T.toUTF8 (openAt b + 1)
  have hbody := (read_fits hread (layoutEnd_le hlt)).1
  have hend := le_layoutEnd T.toUTF8 s
  omega

/-- If there are as many blocks as opening braces, each of the braces starts a block. -/
theorem tails_eq (hplain : isPlainText T = true) {p q : Nat} (h : Editor.Nested T.toUTF8 p bs q)
    (hlength : bs.length = (tails T.toList).length) :
    tails T.toList = bs.map fun b => T.toList.drop (openAt b + 1) := by
  have hsorted : (bs.map openAt).Pairwise (· < ·) := by
    rw [List.pairwise_map]
    refine h.pairwise.imp_of_mem fun {b c} hb _ hbc => ?_
    have := openAt_lt (h.delimited b hb)
    omega
  have hbraces : ∀ i ∈ bs.map openAt, T.toList[i]? = some '\x7b' := by
    rw [List.forall_mem_map]
    exact fun b hb => brace_of_delimited hplain (h.delimited b hb)
  have hsublist := sublist_tails hsorted hbraces
  rw [List.map_map] at hsublist
  exact (hsublist.eq_of_length (by rw [List.length_map, hlength])).symm

end Braces

section Blocks

/-- The statements of a block stand on lines of their own between its braces. -/
theorem blockRope_lines {o : Int} (style : Style) (src : String) (level : Nat) (ts : List Tree) :
    ∃ level' blanks indent, isBlankText blanks = true ∧ isBlankText indent = true ∧
      (blockRope style src level (form .sequence o ts)).text =
        "\x7b" ++
          (blanks ++ ((statementsRope style src level' true ts).text ++ (indent ++ "\x7d"))) := by
  cases ts with
  | nil => exact ⟨level, "", "", rfl, rfl, rfl⟩
  | cons t ts =>
    refine ⟨level + 1, "\n", indentation style level, rfl, isBlankText_indentation level, ?_⟩
    have htext : (blockRope style src level (form .sequence o (t :: ts))).text = "\x7b" ++ "\n" ++
        ((statementsRope style src (level + 1) true (t :: ts)).text ++
          (indentation style level ++ "\x7d")) := rfl
    rw [htext, String.append_assoc]

theorem Opens.lines {o : Int} {tail : List Char} (h : Opens style src (form .sequence o ts) tail) :
    ∃ level blanks rest, isBlankText blanks = true ∧ (trimmed rest).head? = some '\x7d' ∧
      tail = (blanks ++ ((statementsRope style src level true ts).text ++ rest)).toList := by
  obtain ⟨-, level, behind, htail⟩ := h
  obtain ⟨level', blanks, indent, hblanks, hindent, htext⟩ :=
    blockRope_lines (o := o) style src level ts
  refine ⟨level', blanks, indent ++ ("\x7d" ++ String.ofList behind), hblanks, ?_, ?_⟩
  · rw [trimmed_blanks hindent, trimmed_of_solid rfl]
    rfl
  · rw [htext, String.toList_append] at htail
    rw [(List.cons.inj htail).2]
    simp

/-- The statements of a block settle. -/
theorem settles_block (hplain : isPlainText T = true) (h : Delimited T.toUTF8 b')
    (hopens : Opens style src b (T.toList.drop (openAt b' + 1))) :
    List.Forall₂ (Settles style src T) b.children.tail b'.children.tail := by
  have hlt := lt_size h.bytes.1
  obtain ⟨hbrace, -⟩ := List.getElem?_eq_some_iff.mp (brace_of_delimited hplain h)
  obtain ⟨p, r, s, q, us, hb', hopen, hread, -⟩ := h
  obtain ⟨-, -, rfl⟩ := byte_of_litAt (c := '\x7b') rfl hopen
  rw [read_program (layoutEnd_le hlt), layoutEnd_of_settled (settled_layoutEnd _ _)] at hread
  have hus : b'.children = statementsAt T.toUTF8 (layoutEnd T.toUTF8 (openAt b' + 1)) := by
    cases hread
    exact congrArg children hb'
  obtain ⟨ht, -⟩ := id hopens
  cases ht with
  | @block o ts hts =>
    obtain ⟨level, blanks, rest, hblanks, hrest, htail⟩ := hopens.lines
    have hT : T = String.ofList (T.toList.take (openAt b' + 1)) ++
        (blanks ++ ((statementsRope style src level true ts).text ++ rest)) := by
      refine String.toList_inj.mp ?_
      rw [String.toList_append, String.toList_ofList, ← htail, List.take_append_drop]
    have hlength : (String.ofList (T.toList.take (openAt b' + 1))).length = openAt b' + 1 := by
      rw [String.length_ofList, List.length_take, Nat.min_eq_left hbrace]
    have hsettles := settles_sequence hplain hts hblanks hT (closes_of_next fun c hc => by
      rw [hrest] at hc
      exact (Option.some.inj hc).symm)
    rw [hlength, ← hus] at hsettles
    exact hsettles

theorem nested_blocks (h : parseProgram T = .ok t) :
    ∃ bs, blocks t = t :: bs ∧ Editor.Nested T.toUTF8 0 bs T.utf8ByteSize := by
  have hnested := nested_of_parse h
  rw [map_node_blocks] at hnested
  have hsorted : WellSorted (0 ≤ ·) .block t := sorted_of_read (parseProgram_ok.mp h)
  cases hsorted with
  | block =>
    refine ⟨_, ?_, hnested⟩
    rw [blocks_eq, form, nodes_node, List.filter_cons_of_pos (by rfl)]
    rfl

/-- The statements of the whole program settle, and those of its blocks. -/
theorem settles_of_parse (style : Style) (h : parseProgram src = .ok t) :
    ∃ T t', format style src = .ok T ∧ parseProgram T = .ok t' ∧ unplaced t' = unplaced t ∧
      T = (renderRope style src t).text ∧
      List.Forall₂ (fun b b' => List.Forall₂ (Settles style src T) b.children.tail b'.children.tail)
        (blocks t) (blocks t') := by
  obtain ⟨hrender, hplain⟩ := render_rope style src h
  obtain ⟨T, t', hT, h', hsim⟩ := render_program style src h
  obtain rfl : (renderRope style src t).text = T := Except.ok.inj (hrender.symm.trans hT)
  have hsorted : WellSorted (0 ≤ ·) .block t := sorted_of_read (parseProgram_ok.mp h)
  have hshape := unplaced_of_similar hsorted (sorted_of_read (parseProgram_ok.mp h')) hsim
  refine ⟨_, t', ?_, h', hshape, rfl, ?_⟩
  · rw [format, h]
    simp only [hrender]
    rfl
  obtain ⟨bs, hbs, hnested⟩ := nested_blocks h'
  cases hsorted with
  | @block o ts hts =>
    have hlength := length_blocks hshape
    rw [hbs, blocks_sequence] at hlength ⊢
    have hbraced :
        Braced style src (ts.flatMap blocks) (renderRope style src (form .sequence o ts)).text :=
      braced_statements (fun t ht => outlined_of_wellSorted (hts t ht)) 0 true
    have htails := tails_eq hplain hnested (by
      have := hbraced.length_eq
      simp only [List.length_cons] at hlength
      omega)
    rw [Braced, htails, List.forall₂_map_right_iff] at hbraced
    refine .cons ?_ ?_
    · have hread := parseProgram_ok.mp h'
      rw [read_program (Nat.zero_le _), Option.some.injEq, Prod.mk.injEq] at hread
      have hT : (renderRope style src (form .sequence o ts)).text =
          "" ++ ("" ++ ((statementsRope style src 0 true ts).text ++ "")) := by
        rw [String.append_empty, String.empty_append, String.empty_append]
        rfl
      have hclosed : Closes (renderRope style src (form .sequence o ts)).text.toUTF8 "" :=
        closes_of_next fun c hc => by cases hc
      have hsettles := settles_sequence hplain hts rfl hT hclosed
      rw [← hread.1]
      exact hsettles
    · have hopened := ((List.forall₂_and_left _ _).mpr ⟨hnested.delimited, hbraced.flip⟩).flip
      exact hopened.imp fun b b' hb => settles_block hplain hb.1 hb.2

end Blocks

section Calm

/-- In front of no further statement that starts with a parenthesis blank lines are found. -/
def Calm (style : Style) (src : String) (t : Tree) : Prop :=
  ∀ b ∈ blocks t, ∀ s ∈ b.children.tail, lead 0 s ≠ 0 → pause style src s = 0

theorem parses_of_format (h : format style src = .ok T) : ∃ t, parseProgram src = .ok t := by
  cases ht : parseProgram src with
  | error e => simp [format, ht] at h
  | ok t => exact ⟨t, rfl⟩

theorem left_of_forall₂ {α β : Type} {R : α → β → Prop} {P : α → Prop} {as : List α} {bs : List β}
    (h : List.Forall₂ R as bs) (hR : ∀ a b, R a b → P a) : ∀ a ∈ as, P a :=
  ((List.forall₂_and_left _ _).mp (h.imp fun a b hab => ⟨hR a b hab, hab⟩)).1

/-- What is formatted is calm. -/
theorem calm_of_format (h : format style src = .ok T) (h' : parseProgram T = .ok t') :
    Calm style T t' := by
  obtain ⟨t, ht⟩ := parses_of_format h
  obtain ⟨U, u, hU, hu, -, -, hsettles⟩ := settles_of_parse style ht
  obtain rfl : U = T := Except.ok.inj (hU.symm.trans h)
  obtain rfl : u = t' := Except.ok.inj (hu.symm.trans h')
  refine left_of_forall₂ hsettles.flip fun b' b hb =>
    left_of_forall₂ hb.flip fun s' s hs hlead => ?_
  rw [hs.lead_eq] at hlead
  rw [hs.pause_eq, if_neg hlead]

theorem calm_of_attached (h : parseProgram src = .ok t) (hT : format style src = .ok T)
    (hattached : ¬Detached T.toList) : Calm style src t := by
  obtain ⟨U, u, hU, hu, -, -, hsettles⟩ := settles_of_parse style h
  obtain rfl : U = T := Except.ok.inj (hU.symm.trans hT)
  refine left_of_forall₂ hsettles fun b b' hb => left_of_forall₂ hb fun s s' hs hlead => ?_
  by_contra hpause
  exact hattached (hs.detached hlead hpause)

/-- The text of a calm program is kept. -/
theorem format_of_calm (h : parseProgram src = .ok t) (hcalm : Calm style src t)
    (hT : format style src = .ok T) : format style T = .ok T := by
  obtain ⟨U, t', hU, ht', hshape, hrope, hsettles⟩ := settles_of_parse style h
  obtain rfl : U = T := Except.ok.inj (hU.symm.trans hT)
  have hpauses : List.Forall₂ (SamePauses style src U) (blocks t) (blocks t') := by
    refine ((List.forall₂_and_left _ _).mpr ⟨hcalm, hsettles⟩).imp fun b b' hb => ?_
    refine ((List.forall₂_and_left _ _).mpr hb).imp fun s s' hs => ?_
    rw [hs.2.pause_eq]
    split
    · rfl
    · rename_i hlead
      exact hs.1 hlead
  obtain ⟨V, v, hV, -, -, hrope', -⟩ := settles_of_parse style ht'
  rw [hV, hrope',
    renderRope_twin (sorted_of_read (parseProgram_ok.mp h)) ⟨hshape, hpauses⟩, ← hrope]

end Calm

/-- Formatting settles at the second time. -/
theorem format_settles (h : format style src = .ok T) :
    ∃ T', format style T = .ok T' ∧ format style T' = .ok T' := by
  obtain ⟨t, ht⟩ := parses_of_format h
  obtain ⟨U, t', hU, ht', -⟩ := settles_of_parse style ht
  obtain rfl : U = T := Except.ok.inj (hU.symm.trans h)
  obtain ⟨T', -, hT', -⟩ := settles_of_parse style ht'
  exact ⟨T', hT', format_of_calm ht' (calm_of_format h ht') hT'⟩

/-- Formatting keeps its text if no line that starts with a parenthesis stands behind a blank
one. -/
theorem format_idempotent (h : format style src = .ok T) (hattached : ¬Detached T.toList) :
    format style T = .ok T := by
  obtain ⟨t, ht⟩ := parses_of_format h
  exact format_of_calm ht (calm_of_attached ht h hattached) h

/-- The blank line is kept at the first time, and dropped with the parenthesis in front of the first
node. -/
example : (format {} "a;\n\n-x*y;").toOption = some "a;\n\n(0 - x) * y;\n" ∧
    (format {} "a;\n\n(0 - x) * y;\n").toOption = some "a;\n(0 - x) * y;\n" := by
  decide +kernel

end ClosureLang.Layout
