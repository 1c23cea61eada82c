import ClosureLang.Proofs.Grammar.Brackets
import ClosureLang.Proofs.Grammar.Continuation
import ClosureLang.Session

/-! A session waits for the rest of a program. -/
namespace ClosureLang

namespace Grammar

/-- Bytes of characters outside ASCII count nothing and leave comments as they are. -/
theorem depthFrom_high {bs : List UInt8} (h : ∀ b ∈ bs, 128 ≤ b.toNat) (m : Mode) :
    depthFrom m bs = 0 ∧ (m.after bs = .comment ↔ m = .comment) := by
  induction bs generalizing m with
  | nil => exact ⟨rfl, Iff.rfl⟩
  | cons b bs ih =>
    have hb := h b List.mem_cons_self
    have hne (c : UInt8) (hc : c.toNat < 128) : b ≠ c := by
      rintro rfl
      omega
    obtain ⟨hdepth, hafter⟩ := ih (fun c hc => h c (List.mem_cons_of_mem _ hc)) (m.next b)
    have hbracket : bracket b = 0 := by
      simp [bracket, hne 0x7b (by decide), hne 0x28 (by decide), hne 0x7d (by decide),
        hne 0x29 (by decide)]
    have hnext : m.next b = .comment ↔ m = .comment := by
      rw [Mode.next, if_neg (hne lineFeed (by decide)), if_neg (hne hash (by decide))]
      split
      · simp [*]
      · split <;> simp [*]
    refine ⟨?_, hafter.trans hnext⟩
    rw [depthFrom, hdepth, Mode.weight, hbracket]
    simp

theorem byte_eq_iff {c d : Char} (hc : c.toNat < 128) (hd : d.toNat < 128) :
    UInt8.ofNat c.toNat = UInt8.ofNat d.toNat ↔ c = d := by
  refine ⟨fun h => ?_, fun h => by rw [h]⟩
  have hnat := congrArg UInt8.toNat h
  rw [UInt8.toNat_ofNat', UInt8.toNat_ofNat', Nat.mod_eq_of_lt (by omega),
    Nat.mod_eq_of_lt (by omega)] at hnat
  exact Char.ext (UInt32.toNat_inj.mp hnat)

/-- One character of ASCII. -/
theorem nesting_cons (m : Mode) {c : Char} (hc : c.toNat < 128) (cs : List Char) :
    Session.nesting (m = .comment) (c :: cs) =
      m.weight (UInt8.ofNat c.toNat) +
        Session.nesting (m.next (UInt8.ofNat c.toNat) = .comment) cs := by
  have hfeed : UInt8.ofNat c.toNat = lineFeed ↔ c = '\n' := byte_eq_iff (d := '\n') hc (by decide)
  have hhash : UInt8.ofNat c.toNat = hash ↔ c = '#' := byte_eq_iff (d := '#') hc (by decide)
  have hbracket : bracket (UInt8.ofNat c.toNat) =
      if c = '\x7b' ∨ c = '(' then 1 else if c = '\x7d' ∨ c = ')' then -1 else 0 := by
    have hbyte (d : Char) (hd : d.toNat < 128) :
        UInt8.ofNat c.toNat = UInt8.ofNat d.toNat ↔ c = d :=
      byte_eq_iff hc hd
    simp only [← hbyte '\x7b' (by decide), ← hbyte '(' (by decide), ← hbyte '\x7d' (by decide),
      ← hbyte ')' (by decide)]
    rfl
  generalize UInt8.ofNat c.toNat = b at hfeed hhash hbracket
  by_cases hm : m = .comment
  · subst hm
    by_cases hc : c = '\n' <;> simp [Session.nesting, Mode.weight, Mode.next, hfeed, hc]
  · by_cases hc : c = '#'
    · subst hc
      simp [Session.nesting, Mode.weight, Mode.next, hm, hhash, hbracket]
    · have hnext : m.next b ≠ .comment := by
        rw [Mode.next, if_neg hm, if_neg fun hb => hc (hhash.mp hb)]
        split <;> decide
      simp only [Session.nesting, Mode.weight, hm, hnext, hc, hbracket, decide_false, if_false]
      split
      · omega
      · split <;> omega

/-- Characters and bytes count the same brackets. -/
theorem nesting_eq (m : Mode) (cs : List Char) :
    Session.nesting (m = .comment) cs = depthFrom m (cs.flatMap String.utf8EncodeChar) := by
  induction cs generalizing m with
  | nil => simp [Session.nesting, depthFrom]
  | cons c cs ih =>
    rw [List.flatMap_cons]
    obtain ⟨hc, hbytes⟩ | ⟨hc, hbytes⟩ := Text.encode_cases c
    · rw [hbytes, List.cons_append, List.nil_append, depthFrom, ← ih, nesting_cons m hc]
    · obtain ⟨hdepth, hafter⟩ := depthFrom_high hbytes m
      have hne (d : Char) (hd : d.toNat < 128) : c ≠ d := by
        rintro rfl
        omega
      have hsame :
          Session.nesting (m = .comment) (c :: cs) = Session.nesting (m = .comment) cs := by
        by_cases hm : m = .comment <;>
          simp [Session.nesting, hm, hne '\n' (by decide), hne '#' (by decide),
            hne '\x7b' (by decide), hne '(' (by decide), hne '\x7d' (by decide),
            hne ')' (by decide)]
      rw [depthFrom_append, hdepth, Int.zero_add, ← ih, decide_eq_decide.mpr hafter, hsame]

/-- No text that starts a program closes more brackets than it opens. -/
theorem nesting_nonneg {src rest : String} {t : Tree} (h : parseProgram (src ++ rest) = .ok t) :
    0 ≤ Session.nesting false src.toList := by
  have hlevel : Level (src ++ rest).toUTF8 0 (src ++ rest).utf8ByteSize :=
    level_of_read (Nat.zero_le _) (parseProgram_ok.mp h) clear_zero
  have hbytes :
      (src ++ rest).toUTF8.data.toList = src.toUTF8.data.toList ++ rest.toUTF8.data.toList := by
    simp only [Text.bytes_toUTF8, String.toList_append, List.flatMap_append]
  have hsize : src.utf8ByteSize ≤ (src ++ rest).utf8ByteSize := by
    rw [String.utf8ByteSize_append]
    omega
  have habove := hlevel.above src.utf8ByteSize (Nat.zero_le _) hsize
  have hcount :
      depthAt (src ++ rest).toUTF8 src.utf8ByteSize = Session.nesting false src.toList := by
    have hlength : src.utf8ByteSize = src.toUTF8.data.toList.length := rfl
    rw [depthAt, hbytes, hlength, List.take_left, Text.bytes_toUTF8]
    exact (nesting_eq .free src.toList).symm
  rwa [hcount] at habove

theorem continues_of_append (body rest : String) :
    Continues (body ++ "\n").toUTF8 (body ++ "\n" ++ rest).toUTF8 where
  bytes :=
    ⟨rest.toUTF8.data.toList, by
      simp only [Text.bytes_toUTF8, String.toList_append, List.flatMap_append]⟩
  last := by
    rw [Text.bytes_toUTF8, String.toList_append, List.flatMap_append]
    exact List.getLast?_concat

end Grammar

namespace Session

theorem size_trimRightBy_le (p : Char → Bool) (s : String) :
    (Text.trimRightBy p s).utf8ByteSize ≤ s.utf8ByteSize := by
  have hsplit :
      Text.trimRightBy p s ++ String.ofList (s.toList.reverse.takeWhile p).reverse = s := by
    rw [Text.trimRightBy, ← String.ofList_append, ← List.reverse_append,
      List.takeWhile_append_dropWhile, List.reverse_reverse, String.ofList_toList]
  have hsize := congrArg String.utf8ByteSize hsplit
  rw [String.utf8ByteSize_append] at hsize
  omega

/-- An input that is rejected although it is the start of a program, up to the end of a line, is
incomplete. A session keeps its lines and asks for the next one, until a blank line makes it report
the rejection and drop them. -/
theorem feed_start_of_program (body rest : String) {t : Tree} {e : Grammar.SyntaxError}
    (hprogram : Grammar.parseProgram (body ++ "\n" ++ rest) = .ok t)
    (herror : parse (body ++ "\n") = .error e) :
    incomplete (body ++ "\n") e = true ∧
      (∀ (s : Session) (line : String), Text.trim line ≠ "" →
        s.pending ++ line ++ "\n" = body ++ "\n" →
        s.feed line = (false, "", { s with pending := body ++ "\n" })) ∧
      ∀ (s : Session) (line : String), Text.trim line = "" → s.pending = body ++ "\n" →
        s.feed line =
          (true, s.render (body ++ "\n") (syntaxReport (body ++ "\n") e),
            { s with pending := "" }) := by
  have hrejected : Grammar.parseProgram (body ++ "\n") = .error e := by
    unfold parse at herror
    cases hparse : Grammar.parseProgram (body ++ "\n") with
    | ok u => simp [hparse] at herror
    | error e' =>
      simp only [hparse] at herror
      split at herror
      · cases herror
      · cases herror
        rfl
  have hincomplete : incomplete (body ++ "\n") e = true := by
    have hnonneg := Grammar.nesting_nonneg hprogram
    have hoffset :=
      Grammar.offset_of_continues (Grammar.continues_of_append body rest) hrejected hprogram
    have htrimmed := size_trimRightBy_le isLayout (body ++ "\n")
    unfold incomplete
    simp only
    split
    · simp only [decide_eq_true_eq]
      omega
    · simp only [decide_eq_true_eq]
      omega
  refine ⟨hincomplete, fun s line hline hpending => ?_, fun s line hline hpending => ?_⟩
  · simp only [feed, if_neg hline, hpending, herror, hincomplete, if_true]
  · have hfilled : s.pending ≠ "" := by simp [hpending]
    simp only [feed, if_pos hline, flush, if_neg hfilled]
    simp only [hpending, herror]
    rfl

/-- A block whose closing brace is still to come, from its second line on. -/
theorem feed_start_of_program_block :
    ∃ (s : Session) (t : Tree) (e : Grammar.SyntaxError),
      Grammar.parseProgram ("if (1) \x7b\nprint 2;" ++ "\n" ++ "\x7d") = .ok t ∧
      parse ("if (1) \x7b\nprint 2;" ++ "\n") = .error e ∧
      s = (({} : Session).feed "if (1) \x7b").2.2 ∧
      incomplete ("if (1) \x7b\nprint 2;" ++ "\n") e = true ∧
      s.feed "print 2;" = (false, "", { s with pending := "if (1) \x7b\nprint 2;" ++ "\n" }) ∧
      { s with pending := "if (1) \x7b\nprint 2;" ++ "\n" }.feed " " =
        (true, s.render ("if (1) \x7b\nprint 2;" ++ "\n")
          (syntaxReport ("if (1) \x7b\nprint 2;" ++ "\n") e), { s with pending := "" }) := by
  have hok :
      (Grammar.parseProgram ("if (1) \x7b\nprint 2;" ++ "\n" ++ "\x7d")).toOption.isSome =
        true := by
    decide +kernel
  have hfails : (parse ("if (1) \x7b\nprint 2;" ++ "\n")).toOption.isSome = false := by
    decide +kernel
  obtain ⟨t, hprogram⟩ := Grammar.exists_ok_of_isSome hok
  cases herror : parse ("if (1) \x7b\nprint 2;" ++ "\n") with
  | ok _ => rw [herror] at hfails; cases hfails
  | error e =>
    obtain ⟨hincomplete, hfeed, hblank⟩ := feed_start_of_program _ _ hprogram herror
    exact ⟨_, t, e, hprogram, rfl, rfl, hincomplete,
      hfeed _ "print 2;" (by decide +kernel) (by decide +kernel),
      hblank _ " " (by decide +kernel) rfl⟩

/-- An input that ends in a blank line can start a program too, but a session that is fed the blank
line does not wait for the rest: it reports what was pending. -/
theorem feed_blank_line_forces :
    ∃ (s : Session) (t : Tree) (e : Grammar.SyntaxError),
      Grammar.parseProgram ("print (1\n" ++ "\n" ++ ");") = .ok t ∧
      parse ("print (1\n" ++ "\n") = .error e ∧
      s = (({} : Session).feed "print (1").2.2 ∧ s.pending ++ "" ++ "\n" = "print (1\n" ++ "\n" ∧
      (s.feed "").1 = true ∧ (s.feed "").2.2.pending = "" ∧
      (s.feed "").2.1 = "error: syntax error\n  --> <repl>:2:1\n   |\n" := by
  have hok : (Grammar.parseProgram ("print (1\n" ++ "\n" ++ ");")).toOption.isSome = true := by
    decide +kernel
  have hfails : (parse ("print (1\n" ++ "\n")).toOption.isSome = false := by decide +kernel
  obtain ⟨t, hprogram⟩ := Grammar.exists_ok_of_isSome hok
  cases herror : parse ("print (1\n" ++ "\n") with
  | ok _ => rw [herror] at hfails; cases hfails
  | error e =>
    exact ⟨_, t, e, hprogram, rfl, rfl, by decide +kernel, by decide +kernel, by decide +kernel,
      by decide +kernel⟩

end Session

end ClosureLang
