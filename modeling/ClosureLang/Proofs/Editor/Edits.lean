import ClosureLang.Editor.Document
import ClosureLang.Proofs.Editor.Positions
import ClosureLang.Proofs.Grammar.Respelling

/-! Edits of a document, and the text that they lead to. Where every edit puts a new name for a
whole word, the text is the old one respelled. -/
namespace ClosureLang.Editor

open Grammar (NameAt IsName Covered Respells holds)
open Utf8 (Splits)

/-- A part of a text, by its bytes, and what takes its place. -/
structure Patch where
  start : Nat
  stop : Nat
  text : String

/-- Two parts of a text without a common byte. -/
def Patch.Apart (p q : Patch) : Prop := p.stop ≤ q.start ∨ q.stop ≤ p.start

/-- The part of a document that an edit is about; its positions have to exist. -/
def Document.Edit.patch? (content : String) (e : Document.Edit) : Option Patch := do
  return { start := ← e.range.start.offset? content, stop := ← e.range.stop.offset? content,
           text := e.text }

/-- The text behind `start` with some of its parts replaced, which are in order. -/
def patched (content : String) (start : Nat) : List Patch → String
  | [] => Utf8.slice content start content.utf8ByteSize
  | p :: ps => Utf8.slice content start p.start ++ p.text ++ patched content p.stop ps

/-- The document with all edits made, each where it was in the old one. -/
def applyEdits (content : String) (es : List Document.Edit) : Option String := do
  let patches ← es.mapM (Document.Edit.patch? content)
  return patched content 0 (patches.mergeSort fun p q => p.start ≤ q.start)

/-! Words of `n` bytes each that are replaced by a text. -/

section Splice

variable {bytes text : List UInt8} {n start o s p i : Nat} {os : List Nat}

/-- The bytes behind `start` with a text for the `n` bytes at every place. -/
def splice (bytes text : List UInt8) (n start : Nat) : List Nat → List UInt8
  | [] => bytes.drop start
  | o :: os => (bytes.take o).drop start ++ (text ++ splice bytes text n (o + n) os)

/-- Where a byte behind `start` comes to stand in the bytes with a text of `m` bytes for the `n` at
every place. -/
def spliceShift (n m start : Nat) : List Nat → Nat → Nat
  | [], p => p - start
  | o :: os, p => if p < o + n then p - start else o - start + m + spliceShift n m (o + n) os p

/-- Places behind `start` at which `n` bytes each stand, one behind the other, in so many bytes. -/
def Spaced (n size : Nat) : Nat → List Nat → Prop
  | start, [] => start ≤ size
  | start, o :: os => start ≤ o ∧ Spaced n size (o + n) os

theorem Spaced.start_le {size : Nat} (h : Spaced n size start os) : start ≤ size := by
  induction os generalizing start with
  | nil => exact h
  | cons o os ih => exact Nat.le_trans h.1 (Nat.le_trans (Nat.le_add_right o n) (ih h.2))

theorem Spaced.le_of_mem {size : Nat} (h : Spaced n size start os) (hs : s ∈ os) :
    start ≤ s ∧ s + n ≤ size := by
  induction os generalizing start with
  | nil => cases hs
  | cons o os ih =>
    rcases List.mem_cons.mp hs with rfl | hs
    · exact ⟨h.1, h.2.start_le⟩
    · have hle := (ih h.2 hs).1
      exact ⟨Nat.le_trans h.1 (Nat.le_trans (Nat.le_add_right o n) hle), (ih h.2 hs).2⟩

/-- What is at least as far apart as the words are long, each followed by a byte that is none of
theirs. -/
theorem spaced_of_pairwise {size : Nat} (hsorted : os.Pairwise fun o o' => o + n ≤ o')
    (hstart : ∀ o ∈ os, start ≤ o) (hsize : ∀ o ∈ os, o + n ≤ size) (hle : start ≤ size) :
    Spaced n size start os := by
  induction os generalizing start with
  | nil => exact hle
  | cons o os ih =>
    rw [List.pairwise_cons] at hsorted
    exact ⟨hstart o List.mem_cons_self,
      ih hsorted.2 hsorted.1 (fun o ho => hsize o (List.mem_cons_of_mem _ ho))
      (hsize o List.mem_cons_self)⟩

theorem spliceShift_start (hn : 0 < n) {size : Nat} (h : Spaced n size start os) :
    spliceShift n text.length start os start = 0 := by
  cases os with
  | nil => exact Nat.sub_self start
  | cons o os =>
    rw [spliceShift, if_pos (Nat.lt_of_le_of_lt h.1 (Nat.lt_add_of_pos_right hn)), Nat.sub_self]

theorem length_take_drop {size : Nat} (hsize : bytes.length = size) (ho : o ≤ size) :
    ((bytes.take o).drop start).length = o - start := by
  rw [List.length_drop, List.length_take, hsize, Nat.min_eq_left ho]

/-- Behind the first place. -/
theorem getElem?_splice_add (h : Spaced n bytes.length start (o :: os)) (i : Nat) :
    (splice bytes text n start (o :: os))[o - start + text.length + i]? =
      (splice bytes text n (o + n) os)[i]? := by
  have ho : o ≤ bytes.length := Nat.le_trans (Nat.le_add_right o n) h.2.start_le
  have hlength : ((bytes.take o).drop start).length = o - start := length_take_drop rfl ho
  rw [splice, List.getElem?_append_right (by omega), List.getElem?_append_right (by omega), hlength]
  congr 1
  omega

/-- Bytes at no place are copied. -/
theorem splice_copied (text : List UInt8) (hn : 0 < n) (h : Spaced n bytes.length start os)
    (hp : start ≤ p) (hfree : ∀ s ∈ os, ¬ (s ≤ p ∧ p < s + n)) :
    (splice bytes text n start os)[spliceShift n text.length start os p]? = bytes[p]? ∧
      spliceShift n text.length start os (p + 1) = spliceShift n text.length start os p + 1 := by
  induction os generalizing start with
  | nil =>
    rw [splice, spliceShift, spliceShift, List.getElem?_drop, Nat.add_sub_cancel' hp]
    exact ⟨rfl, Nat.sub_add_comm hp⟩
  | cons o os ih =>
    have hfirst := hfree o List.mem_cons_self
    rw [spliceShift, spliceShift]
    by_cases hbefore : p < o + n
    · have hpo : p < o := by omega
      have hlength : ((bytes.take o).drop start).length = o - start := length_take_drop rfl
        (Nat.le_trans (Nat.le_add_right o n) h.2.start_le)
      rw [if_pos hbefore, if_pos (by omega), splice, List.getElem?_append_left (by omega),
        List.getElem?_drop, Nat.add_sub_cancel' hp, List.getElem?_take_of_lt hpo]
      exact ⟨rfl, Nat.sub_add_comm hp⟩
    · have hrest := ih h.2 (by omega) fun s hs => hfree s (List.mem_cons_of_mem _ hs)
      rw [if_neg hbefore, if_neg (by omega), getElem?_splice_add h, hrest.1, hrest.2]
      exact ⟨rfl, rfl⟩

/-- At every place stands the text. -/
theorem splice_written (text : List UInt8) (hn : 0 < n) (h : Spaced n bytes.length start os)
    (hs : s ∈ os) :
    (∀ i < text.length, (splice bytes text n start os)[spliceShift n text.length start os s + i]? =
      text[i]?) ∧
      spliceShift n text.length start os (s + n) =
        spliceShift n text.length start os s + text.length := by
  induction os generalizing start with
  | nil => cases hs
  | cons o os ih =>
    rw [spliceShift, spliceShift]
    rcases List.mem_cons.mp hs with rfl | hs
    · rw [if_pos (Nat.lt_add_of_pos_right hn), if_neg (Nat.lt_irrefl _), spliceShift_start hn h.2]
      refine ⟨fun i hi => ?_, rfl⟩
      have hlength : ((bytes.take s).drop start).length = s - start := length_take_drop rfl
        (Nat.le_trans (Nat.le_add_right s n) h.2.start_le)
      rw [splice, List.getElem?_append_right (by omega), hlength, Nat.add_sub_cancel_left,
        List.getElem?_append_left hi]
    · have hle := (h.2.le_of_mem hs).1
      obtain ⟨hbytes, hshift⟩ := ih h.2 hs
      rw [if_neg (by omega), if_neg (by omega), hshift]
      refine ⟨fun i hi => ?_, by omega⟩
      rw [Nat.add_assoc, getElem?_splice_add h, hbytes i hi]

theorem splice_stop (text : List UInt8) (h : Spaced n bytes.length start os) :
    spliceShift n text.length start os bytes.length = (splice bytes text n start os).length := by
  induction os generalizing start with
  | nil => rw [splice, spliceShift, List.length_drop]
  | cons o os ih =>
    have ho := h.2.start_le
    rw [splice, spliceShift, if_neg (by omega), ih h.2, List.length_append, List.length_append,
      length_take_drop rfl (Nat.le_trans (Nat.le_add_right o n) ho), Nat.add_assoc]

end Splice

/-! Names in a text. -/

section Names

variable {content old new x : String} {cs ds : List Char} {o p start : Nat} {os : List Nat}
  {src : ByteArray}

theorem holds_of_bytes (h : ∀ i < cs.length, src[p + i]? = (cs.map Grammar.byteOf)[i]?) :
    holds src p cs = true := by
  induction cs generalizing p with
  | nil => rfl
  | cons c cs ih =>
    have hfirst : src[p]? = some (Grammar.byteOf c) := h 0 (Nat.succ_pos _)
    rw [holds, hfirst, ih
      fun i hi => by
        rw [Nat.add_assoc, Nat.add_comm 1 i, h (i + 1) (Nat.succ_lt_succ hi), List.map_cons,
      List.getElem?_cons_succ]]
    exact Bool.and_true _ ▸ decide_eq_true rfl

theorem bytes_of_isName (hx : IsName x) : x.toUTF8.data.toList = x.toList.map Grammar.byteOf :=
  Grammar.bytes_of_plain (Grammar.name_chars hx).2.1

theorem utf8ByteSize_of_isName (hx : IsName x) : x.utf8ByteSize = x.length := by
  have hlength := congrArg List.length (bytes_of_isName hx)
  rwa [List.length_map, String.length_toList] at hlength

theorem length_pos_of_isName (hx : IsName x) : 0 < x.length := by
  obtain ⟨-, -, -, c, cs, hcs, -⟩ := Grammar.name_chars hx
  rw [← String.length_toList, hcs]
  exact Nat.succ_pos _

/-- The text splits in front of ASCII and behind it. -/
theorem splits_of_holds (hcs : ∀ c ∈ cs, Grammar.isPlain c = true) (hne : cs ≠ [])
    (h : holds content.toUTF8 o cs = true) :
    ∃ before after, Splits content o before (cs ++ after) ∧
      Splits content (o + cs.length) (before ++ cs) after := by
  induction cs generalizing o with
  | nil => exact absurd rfl hne
  | cons c cs ih =>
    rw [List.forall_mem_cons] at hcs
    simp only [holds, Bool.and_eq_true, decide_eq_true_eq] at h
    have hplain := hcs.1
    simp only [Grammar.isPlain, Bool.and_eq_true, decide_eq_true_eq] at hplain
    have hbyte : (UInt8.ofNat c.toNat).toNat = c.toNat := Utf8.toNat_ofNat_of_lt (by omega)
    obtain ⟨before, d, after, hsplit, hsplit', hencode⟩ :=
      Splits.of_ascii h.1 (by rw [hbyte]; exact hplain.1)
    have hd : d = c := by
      have hdecode := Utf8.decode_encode [d]
      have hdecode' := Utf8.decode_encode [c]
      obtain ⟨-, hc⟩ | ⟨hge, -⟩ := Text.encode_cases c
      · rw [List.flatMap_singleton, hencode] at hdecode
        rw [List.flatMap_singleton, hc, hdecode, List.cons.injEq] at hdecode'
        exact hdecode'.1
      · exact absurd hplain.1 (Nat.not_lt.mpr hge)
    subst hd
    by_cases hnil : cs = []
    · subst hnil
      exact ⟨before, after, hsplit, hsplit'⟩
    · obtain ⟨before', after', hrest, hrest'⟩ := ih hcs.2 hnil h.2
      obtain ⟨rfl, rfl⟩ := hsplit'.unique hrest
      refine ⟨before, after', hsplit, ?_⟩
      rw [List.length_cons, show o + (cs.length + 1) = o + 1 + cs.length by omega]
      simpa using hrest'

theorem holds_of_nameAt (h : NameAt src o x) : holds src o x.toList = true := by
  refine Grammar.holds_of_asciiText ?_ fun i hi hi' =>
    h.any_of_lt hi (by rwa [String.length_toList] at hi')
  rw [String.length_toList, ← h.runEnd_eq]
  exact h.word.2.2.2

/-- A name is a part of the text. -/
theorem splits_of_nameAt (h : NameAt content.toUTF8 o x) :
    ∃ before after, Splits content o before (x.toList ++ after) ∧
    Splits content (o + x.utf8ByteSize) (before ++ x.toList) after := by
  obtain ⟨-, hplain, -, c, cs, hcs, -⟩ := Grammar.name_chars h.isName
  obtain ⟨before, after, hsplit, hsplit'⟩ :=
    splits_of_holds (List.all_eq_true.mp hplain) (by rw [hcs]; exact List.cons_ne_nil _ _)
    (holds_of_nameAt h)
  rw [String.length_toList, ← utf8ByteSize_of_isName h.isName] at hsplit'
  exact ⟨before, after, hsplit, hsplit'⟩

/-- The edit that puts a name for another one. -/
theorem patch?_ofBytes (h : NameAt content.toUTF8 o old) (new : String) :
    Document.Edit.patch? content ⟨.ofBytes content o old.utf8ByteSize, new⟩ =
      some ⟨o, o + old.utf8ByteSize, new⟩ := by
  obtain ⟨before, after, hsplit, hsplit'⟩ := splits_of_nameAt h
  simp only [Document.Edit.patch?, Range.ofBytes, offset?_ofOffset hsplit, ← Int.natCast_add,
    offset?_ofOffset hsplit']
  rfl

/-- The bytes of the text with a new name at every place. -/
theorem bytes_patched (new : String) {n : Nat} {ps : List Patch}
    (hps : ps = os.map fun o => ⟨o, o + n, new⟩)
    (hstart : ∃ before after, Splits content start before after)
    (hsplits : ∀ o ∈ os, ∃ before after before' after', Splits content o before after ∧
      Splits content (o + n) before' after') (h : Spaced n content.utf8ByteSize start os) :
    (patched content start ps).toUTF8.data.toList =
      splice content.toUTF8.data.toList new.toUTF8.data.toList n start os := by
  obtain ⟨before, after, hstart⟩ := hstart
  induction os generalizing start before after ps with
  | nil =>
    subst hps
    rw [List.map_nil, patched, hstart.bytes_slice (.stop content) h, splice, List.take_of_length_le]
    exact Nat.le_refl _
  | cons o os ih =>
    subst hps
    obtain ⟨before', after', before'', after'', hsplit, hsplit'⟩ := hsplits o List.mem_cons_self
    have hrest :=
      ih rfl (fun o ho => hsplits o (List.mem_cons_of_mem _ ho)) h.2 before'' after'' hsplit'
    have hbytes : ∀ s t : String,
        (s ++ t).toUTF8.data.toList = s.toUTF8.data.toList ++ t.toUTF8.data.toList := by
      intro s t
      rw [Text.bytes_toUTF8, Text.bytes_toUTF8, Text.bytes_toUTF8, String.toList_append,
        List.flatMap_append]
    rw [List.map_cons, patched, hbytes, hbytes, hstart.bytes_slice hsplit h.1, hrest, splice,
      List.append_assoc]

/-- Names stand apart. -/
theorem apart_of_lt (h : NameAt src o x) (h' : NameAt src p old) (hlt : o < p) :
    o + x.length ≤ p := by
  by_contra hcovered
  have hword := h.word_of_lt hlt (by omega)
  rw [h'.word.1] at hword
  cases hword

end Names

section Sites

variable {content old : String} {sites : List Int}

/-- The edits that put a new name for one that stands at some places. -/
def nameEdits (content old new : String) (sites : List Int) : List Document.Edit :=
  sites.map fun o => ⟨.ofBytes content o old.utf8ByteSize, new⟩

/-- The parts of the text that are replaced. -/
def namePatches (old new : String) (sites : List Int) : List Patch :=
  sites.map fun o => ⟨o.toNat, o.toNat + old.utf8ByteSize, new⟩

theorem mapM_patch?_nameEdits (hsites : ∀ o ∈ sites, NameAt content.toUTF8 o old) (new : String) :
    (nameEdits content old new sites).mapM (Document.Edit.patch? content) =
      some (namePatches old new sites) := by
  induction sites with
  | nil => rfl
  | cons o sites ih =>
    rw [List.forall_mem_cons] at hsites
    obtain ⟨p, rfl, -⟩ := hsites.1
    have hrest := ih hsites.2
    simp only [nameEdits, namePatches] at hrest
    simp only [nameEdits, namePatches, List.map_cons, List.mapM_cons,
      patch?_ofBytes hsites.1, hrest]
    rfl

theorem toNat_of_nameAt {src : ByteArray} {o : Int} {x : String} (h : NameAt src o x) :
    (o.toNat : Int) = o := by
  obtain ⟨p, rfl, -⟩ := h
  rfl

/-- The places in the order of the text. -/
def inOrder (sites : List Int) : List Nat := (sites.map Int.toNat).mergeSort (· ≤ ·)

theorem nameAt_of_mem_inOrder (hsites : ∀ o ∈ sites, NameAt content.toUTF8 o old) {p : Nat}
    (hp : p ∈ inOrder sites) : NameAt content.toUTF8 p old := by
  obtain ⟨o, ho, rfl⟩ := List.mem_map.mp (List.mem_mergeSort.mp hp)
  rw [toNat_of_nameAt (hsites o ho)]
  exact hsites o ho

theorem mem_inOrder (hsites : ∀ o ∈ sites, NameAt content.toUTF8 o old) (p : Nat) :
    p ∈ inOrder sites ↔ (p : Int) ∈ sites := by
  rw [inOrder, List.mem_mergeSort, List.mem_map]
  refine ⟨?_, fun hp => ⟨p, hp, rfl⟩⟩
  rintro ⟨o, ho, rfl⟩
  rwa [toNat_of_nameAt (hsites o ho)]

/-- The places in order, with the bytes of a name at each. -/
theorem spaced_inOrder (hold : IsName old) (hsites : ∀ o ∈ sites, NameAt content.toUTF8 o old)
    (hnodup : sites.Nodup) : Spaced old.utf8ByteSize content.utf8ByteSize 0 (inOrder sites) := by
  have hat : ∀ p ∈ inOrder sites, NameAt content.toUTF8 p old :=
    fun _ => nameAt_of_mem_inOrder hsites
  have hdistinct : (inOrder sites).Nodup := by
    refine (List.mergeSort_perm _ _).nodup_iff.mpr (hnodup.map_on fun o ho o' ho' heq => ?_)
    rw [← toNat_of_nameAt (hsites o ho), ← toNat_of_nameAt (hsites o' ho'), heq]
  have hsorted : (inOrder sites).Pairwise fun o o' => decide (o ≤ o') = true :=
    List.pairwise_mergeSort (by simpa using fun a b c : Nat => Nat.le_trans)
      (by simpa using Nat.le_total) _
  refine spaced_of_pairwise ((hsorted.and hdistinct).imp_of_mem fun hp hp' hlt => ?_)
    (fun _ _ => Nat.zero_le _) (fun p hp => ?_) (Nat.zero_le _)
  · rw [utf8ByteSize_of_isName hold]
    exact apart_of_lt (hat _ hp) (hat _ hp') (Nat.lt_of_le_of_ne (of_decide_eq_true hlt.1) hlt.2)
  · obtain ⟨_, _, -, hsplit⟩ := splits_of_nameAt (hat p hp)
    exact hsplit.le

/-- The names to be replaced have no common byte. -/
theorem pairwise_namePatches (hold : IsName old) (hsites : ∀ o ∈ sites, NameAt content.toUTF8 o old)
    (hnodup : sites.Nodup) (new : String) : (namePatches old new sites).Pairwise Patch.Apart := by
  refine List.pairwise_map.mpr (List.Pairwise.imp_of_mem (fun {o o'} ho ho' hne => ?_) hnodup)
  have hat := hsites _ ho
  have hat' := hsites _ ho'
  have heq := toNat_of_nameAt hat
  have heq' := toNat_of_nameAt hat'
  rw [← heq] at hat
  rw [← heq'] at hat'
  rw [Patch.Apart, utf8ByteSize_of_isName hold]
  have hne : o.toNat ≠ o'.toNat := fun hnat => hne (by rw [← heq, ← heq', hnat])
  obtain hlt | hlt := Nat.lt_or_gt_of_ne hne
  · exact .inl (apart_of_lt hat hat' hlt)
  · exact .inr (apart_of_lt hat' hat hlt)

/-- Edits of all places where a name is to be replaced respell the text. -/
theorem applyEdits_nameEdits {new : String} (hold : IsName old) (hnew : IsName new)
    (hsites : ∀ o ∈ sites, NameAt content.toUTF8 o old) (hnodup : sites.Nodup) : ∃ text shift,
      applyEdits content (nameEdits content old new sites) = some text ∧
        Respells content.toUTF8 text.toUTF8 sites old new shift := by
  have hspaced := spaced_inOrder hold hsites hnodup
  have hpatches : (namePatches old new sites).mergeSort (fun p q => p.start ≤ q.start) =
      (inOrder sites).map fun o => ⟨o, o + old.utf8ByteSize, new⟩ := by
    rw [inOrder, List.map_mergeSort (s := fun p q : Patch => p.start ≤ q.start) (by simp),
      List.map_map]
    rfl
  refine ⟨patched content 0 ((inOrder sites).map fun o => ⟨o, o + old.utf8ByteSize, new⟩),
    spliceShift old.length new.length 0 (inOrder sites), ?_, ?_⟩
  · simp only [applyEdits, mapM_patch?_nameEdits hsites, Option.bind_eq_bind,
      Option.bind_some, hpatches]
    rfl
  · have hbytes := bytes_patched new rfl ⟨_, _, .start content⟩ (fun o ho => by
      obtain ⟨before, after, hsplit, hsplit'⟩ := splits_of_nameAt (nameAt_of_mem_inOrder hsites ho)
      exact ⟨_, _, _, _, hsplit, hsplit'⟩) hspaced
    have hsize : (content.toUTF8.data.toList).length = content.utf8ByteSize := rfl
    have hpos := length_pos_of_isName hold
    have hlength : new.toUTF8.data.toList.length = new.length := by
      rw [bytes_of_isName hnew, List.length_map, String.length_toList]
    rw [utf8ByteSize_of_isName hold] at hspaced hbytes ⊢
    rw [← hsize] at hspaced
    have hwritten := fun s hs => splice_written new.toUTF8.data.toList hpos hspaced (s := s) hs
    rw [hlength] at hwritten
    refine ⟨hold.1, hnew, fun s => hsites s, fun s hs => ?_, fun p hp hfree => ?_, ?_, ?_⟩
    · obtain ⟨htext, hshift⟩ := hwritten s ((mem_inOrder hsites s).mpr hs)
      refine ⟨holds_of_bytes fun i hi => ?_, hshift⟩
      rw [String.length_toList] at hi
      rw [Grammar.getElem?_eq, hbytes, htext i hi, bytes_of_isName hnew]
    · have hcopied :=
        splice_copied new.toUTF8.data.toList hpos hspaced (Nat.zero_le p) fun s hs hle =>
          hfree ⟨s, (mem_inOrder hsites s).mp hs, hle⟩
      rw [hlength] at hcopied
      rw [Grammar.getElem?_eq, Grammar.getElem?_eq, hbytes]
      exact hcopied
    · rw [← hlength]
      exact spliceShift_start hpos hspaced
    · have hstop := splice_stop new.toUTF8.data.toList hspaced
      rw [hlength, ← hbytes] at hstop
      exact hstop

end Sites

end ClosureLang.Editor
