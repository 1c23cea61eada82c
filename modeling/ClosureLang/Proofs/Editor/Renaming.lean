import Mathlib.Tactic.Tauto
import ClosureLang.Editor.Server
import ClosureLang.Proofs.Editor.Accounting
import ClosureLang.Proofs.Editor.Edits
import ClosureLang.Proofs.Run.Progress

/-! Renaming in an editor: the edits put a name in place of another one, wherever a symbol is
declared or used, and do nothing else. -/
namespace ClosureLang

open ClosureLang.Tree

namespace Grammar

/-- The rule for identifiers reads the text from start to end. -/
def ReadAsName (x : String) : Prop :=
  (applyMemo x.toUTF8 (depthBound x.toUTF8) .ident 0 (.empty x.utf8ByteSize)).1 =
    some { node := .ident 0 x, stop := x.utf8ByteSize }

theorem readAsName_iff_identAt {x : String} :
    ReadAsName x ↔ identAt x.toUTF8 0 = some (.ident 0 x, x.utf8ByteSize) := by
  have hout : (applyMemo x.toUTF8 (depthBound x.toUTF8) .ident 0 (.empty x.utf8ByteSize)).1 =
      ofRead (identAt x.toUTF8 0) := (covers_whole .ident (covers_empty x.toUTF8)).1
  rw [ReadAsName, hout]
  cases identAt x.toUTF8 0 with
  | none => simp [ofRead]
  | some m =>
    obtain ⟨t, q⟩ := m
    simp [ofRead]

theorem isIdentByte_lt {b : UInt8} (h : isIdentByte b = true) : b.toNat < 128 := by
  have hall : ∀ n < 256, isIdentByte (UInt8.ofNat n) = true → n < 128 := by decide +kernel
  exact hall b.toNat b.toNat_lt (by simpa using h)

end Grammar

namespace Text

/-- Bytes of ASCII are characters. -/
theorem toList_of_ascii {cs : List Char}
    (h : ∀ b ∈ cs.flatMap String.utf8EncodeChar, b.toNat < 128) :
    cs = (cs.flatMap String.utf8EncodeChar).map fun b => Char.ofNat b.toNat := by
  induction cs with
  | nil => rfl
  | cons c cs ih =>
    rw [List.flatMap_cons, List.forall_mem_append] at h
    rw [List.flatMap_cons, List.map_append, ← ih h.2]
    obtain ⟨hlt, hencode⟩ | ⟨-, hhigh⟩ := encode_cases c
    · rw [hencode, List.map_singleton, Utf8.toNat_ofNat_of_lt (by omega), c.ofNat_toNat]
      rfl
    · obtain ⟨b, hb⟩ :=
        List.exists_mem_of_length_pos (l := String.utf8EncodeChar c)
          (by rw [String.length_utf8EncodeChar]; exact c.utf8Size_pos)
      have hlt := h.1 b hb
      have hge := hhigh b hb
      omega

end Text

namespace Editor

open Grammar (IsName NameAt ReadAsName)

theorem readAsName_iff {x : String} : ReadAsName x ↔ IsName x := by
  refine Grammar.readAsName_iff_identAt.trans ⟨fun h => ?_, fun hx => ?_⟩
  · have hat : NameAt x.toUTF8 (0 : Nat) x := ⟨0, rfl, rfl, _, h⟩
    exact hat.isName
  · obtain ⟨-, hplain, -, c, cs, hcs, hc⟩ := Grammar.name_chars hx
    obtain ⟨start, stop, hident, hstop⟩ :=
      (Grammar.ahead_start (s := x ++ "") (by rwa [String.append_empty])).ident hx rfl
    rw [String.append_empty] at hident hstop
    have hsettled : Grammar.Settled x.toUTF8 0 := by
      intro b hb
      rw [Grammar.getElem?_eq, bytes_of_isName hx, hcs] at hb
      obtain rfl := Option.some.inj hb
      refine ⟨(Grammar.ident_byte (Grammar.isIdentByte_of_isIdentStart _ hc)).1, fun hhash => ?_⟩
      rw [hhash] at hc
      cases hc
    have hlayout := Grammar.layoutEnd_of_settled hsettled
    have hstart : start = 0 := by
      simp only [Grammar.identAt, hlayout, Option.ite_none_right_eq_some, Option.map_eq_some_iff,
        Prod.mk.injEq] at hident
      obtain ⟨-, y, -, htree, -⟩ := hident
      injection htree with _ hoffset
      exact hoffset.symm
    rw [hlayout, hstart, hstop.at_end] at hident
    exact hident

/-- The bytes of a text that can be used as an identifier. -/
theorem isName_iff_bytes {x : String} :
    isName x = true ↔ x ≠ "" ∧ (∀ b ∈ x.toUTF8.data.toList, Grammar.isIdentByte b = true) ∧
    (∀ b ∈ x.toUTF8.data.toList.head?, Grammar.isDigitByte b = false) ∧
      Grammar.isReserved x = false := by
  rw [isName, Grammar.toList_eq]
  cases hbytes : x.toUTF8.data.toList with
  | nil =>
    have hempty : x = "" := String.utf8ByteSize_eq_zero_iff.mp (congrArg List.length hbytes)
    simp [hempty]
  | cons b bs =>
    have hne : x ≠ "" := by
      rintro rfl
      cases hbytes
    have hstart : Grammar.isIdentStart b = true ↔
        Grammar.isIdentByte b = true ∧ Grammar.isDigitByte b = false := by
      refine ⟨fun hb => ⟨Grammar.isIdentByte_of_isIdentStart b hb, (Grammar.start_byte hb).2.2.2⟩,
        fun ⟨hb, hdigit⟩ => ?_⟩
      simpa [Grammar.isIdentByte, hdigit] using hb
    simp only [Bool.and_eq_true, hstart, List.all_eq_true, Bool.not_eq_true', List.forall_mem_cons,
      List.head?_cons, Option.mem_some_iff, forall_eq']
    tauto

theorem isName_iff {x : String} : isName x = true ↔ IsName x := by
  refine ⟨fun h => ?_, fun hx => ?_⟩
  · rw [isName, Grammar.toList_eq] at h
    cases hbytes : x.toUTF8.data.toList with
    | nil =>
      rw [hbytes] at h
      cases h
    | cons b bs =>
      simp only [hbytes, Bool.and_eq_true, List.all_eq_true, Bool.not_eq_true'] at h
      obtain ⟨⟨hb, hbs⟩, hreserved⟩ := h
      refine ⟨hreserved, b, bs, hb, hbs, ?_⟩
      have hall : ∀ d ∈ b :: bs, d.toNat < 128 :=
        List.forall_mem_cons.mpr ⟨Grammar.isIdentByte_lt (Grammar.isIdentByte_of_isIdentStart b hb),
          fun d hd => Grammar.isIdentByte_lt (hbs d hd)⟩
      rw [Text.bytes_toUTF8] at hbytes
      rw [← hbytes] at hall ⊢
      rw [← Text.toList_of_ascii hall, String.ofList_toList]
  · obtain ⟨-, -, hident, c, cs, hcs, hc⟩ := Grammar.name_chars hx
    rw [hcs, List.forall_mem_cons] at hident
    rw [isName, Grammar.toList_eq, bytes_of_isName hx, hcs]
    simp only [List.map_cons, hc, Bool.true_and, Bool.and_eq_true, List.all_map, List.all_eq_true,
      hx.1, Bool.not_false]
    exact ⟨hident.2, trivial⟩

variable {content : String} {t : Tree} {ix : Index}

/-- Where a symbol is declared and referred to. -/
def Index.places (ix : Index) (id : SymbolId) (s : Symbol) : List Int :=
  s.offset :: (ix.references.filter fun r => r.symbol = id).map Reference.offset

/-- The new names of a program in which the symbol is renamed. -/
def Index.renaming (ix : Index) (id : SymbolId) (s : Symbol) (new : String) (m : Mark) : String :=
  if (m.declares ∧ m.offset = s.offset) ∨
      (¬ m.declares ∧ ∃ r ∈ ix.references, r.symbol = id ∧ r.offset = m.offset) then new
  else m.name

theorem Index.mem_places {id : SymbolId} {s : Symbol} {o : Int} :
    o ∈ ix.places id s ↔ o = s.offset ∨ ∃ r ∈ ix.references, r.symbol = id ∧ r.offset = o := by
  simp [Index.places, and_assoc]

section Marks

variable (hparse : Grammar.parseProgram content = .ok t) (hbuild : Index.build? t content = some ix)

include hparse

theorem eq_of_offset {m m' : Mark} (hm : m ∈ t.marks) (hm' : m' ∈ t.marks)
    (h : m.offset = m'.offset) : m = m' :=
  List.inj_on_of_nodup_map (Grammar.nodup_marks hparse) hm hm' h

include hbuild

theorem mark_of_symbol {s : Symbol} {id : SymbolId} (hs : ix.symbol? id = some s) :
    ⟨s.offset, s.name, true⟩ ∈ t.marks := by
  have hperm := Index.build?_entries (sorted_of_parse hparse).inPlace hbuild
  have hmem : (s.offset, some s.name) ∈ ix.entries := by
    have hs' : s ∈ ix.symbols.toList := Array.mem_toList_iff.mpr (Array.mem_of_getElem? hs)
    exact List.mem_append_left _ (List.mem_append_left _ (List.mem_map.mpr ⟨s, hs', rfl⟩))
  obtain ⟨⟨o, x, declares⟩, hm, hentry⟩ := List.mem_map.mp (hperm.mem_iff.mp hmem)
  cases declares with
  | false => cases hentry
  | true =>
    cases hentry
    exact hm

theorem mark_of_reference {r : Reference} (hr : r ∈ ix.references) :
    ∃ s, ix.symbol? r.symbol = some s ∧ ⟨r.offset, s.name, false⟩ ∈ t.marks := by
  obtain ⟨ix', hbuild', hcorrect, -⟩ :=
    Index.build?_notes (P := fun c u => (c, u) ∈ t.sites (.program t))
    (sorted_of_parse hparse).inPlace (fun _ hs => hs) content
  rw [hbuild] at hbuild'
  cases hbuild'
  obtain ⟨c, u, x, k, hsite, ⟨huse, hname⟩, hoffset, -, s, hs, rfl, -⟩ := hcorrect.references r hr
  refine ⟨s, hs, ?_⟩
  have hu : u ∈ t.nodes := by
    rw [← map_snd_sites (.program t) t]
    exact List.mem_map_of_mem hsite
  refine List.mem_flatMap.mpr ⟨u, hu, ?_⟩
  rw [ownMarks_of_isUse huse, List.mem_singleton, mark, hname, hoffset]
  rfl

/-- All symbols and references stand at different places. -/
theorem nodup_offsets :
    (ix.symbols.toList.map Symbol.offset ++ ix.references.map Reference.offset).Nodup := by
  have hperm := Index.build?_entries (sorted_of_parse hparse).inPlace hbuild
  have hnodup : (ix.entries.map Prod.fst).Nodup := by
    refine (hperm.map _).nodup_iff.mpr ?_
    rw [List.map_map]
    exact Grammar.nodup_marks hparse
  refine hnodup.sublist ?_
  rw [Index.entries, List.map_append, List.map_append, List.map_map, List.map_map]
  exact List.sublist_append_left _ _

/-- A symbol is declared and used at different places. -/
theorem nodup_places {s : Symbol} {id : SymbolId} (hs : ix.symbol? id = some s) :
    (ix.places id s).Nodup := by
  obtain ⟨-, hreferences, hdisjoint⟩ := List.nodup_append.mp (nodup_offsets hparse hbuild)
  have huses : ((ix.references.filter fun r => r.symbol = id).map Reference.offset).Sublist
      (ix.references.map Reference.offset) := List.filter_sublist.map _
  have hs' : s.offset ∈ ix.symbols.toList.map Symbol.offset :=
    List.mem_map_of_mem (Array.mem_toList_iff.mpr (Array.mem_of_getElem? hs))
  exact List.nodup_cons.mpr
    ⟨fun hmem => hdisjoint _ hs' _ (huses.subset hmem) rfl, hreferences.sublist huses⟩

theorem mark_of_use {s : Symbol} {id : SymbolId} (hs : ix.symbol? id = some s) {r : Reference}
    (hr : r ∈ ix.references) (hid : r.symbol = id) : ⟨r.offset, s.name, false⟩ ∈ t.marks := by
  obtain ⟨s', hs', hmark⟩ := mark_of_reference hparse hbuild hr
  rw [hid, hs] at hs'
  cases hs'
  exact hmark

/-- A symbol is known by where it is declared. -/
theorem id_of_offset {id id' : SymbolId} {s s' : Symbol} (hs : ix.symbol? id = some s)
    (hs' : ix.symbol? id' = some s') (h : s'.offset = s.offset) : id' = id := by
  have hnodup := (List.nodup_append.mp (nodup_offsets hparse hbuild)).1
  have hoffset : ∀ {i : SymbolId} {σ : Symbol}, ix.symbol? i = some σ →
      (ix.symbols.toList.map Symbol.offset)[i]? = some σ.offset := by
    intro i σ hσ
    rw [List.getElem?_map, Array.getElem?_toList, show ix.symbols[i]? = some σ from hσ,
      Option.map_some]
  have hlt : id' < (ix.symbols.toList.map Symbol.offset).length :=
    (List.getElem?_eq_some_iff.mp (hoffset hs')).1
  refine (List.getElem?_inj hlt hnodup).mp ?_
  rw [hoffset hs, hoffset hs', h]

/-- A use is at one of the places of a symbol just if the declaration of the symbol that it means
is. -/
theorem mem_places_iff {id : SymbolId} {s s' : Symbol} (hs : ix.symbol? id = some s) {r : Reference}
    (hr : r ∈ ix.references) (hs' : ix.symbol? r.symbol = some s') :
    s'.offset ∈ ix.places id s ↔ r.offset ∈ ix.places id s := by
  have hdeclared := mark_of_symbol hparse hbuild hs'
  obtain ⟨s'', hs'', hused⟩ := mark_of_reference hparse hbuild hr
  rw [hs'] at hs''
  cases hs''
  have happart : ∀ {m : Mark}, m ∈ t.marks → m.declares = false → m.offset ≠ s'.offset := by
    intro m hm hfalse hoffset
    rw [eq_of_offset hparse hm hdeclared hoffset] at hfalse
    cases hfalse
  rw [Index.mem_places, Index.mem_places]
  refine ⟨fun h => .inr ?_, fun h => .inl ?_⟩
  · obtain h | ⟨r', hr', hid, hoffset⟩ := h
    · exact ⟨r, hr, id_of_offset hparse hbuild hs hs' h, rfl⟩
    · exact absurd hoffset (happart (mark_of_use hparse hbuild hs hr' hid) rfl)
  · obtain h | ⟨r', hmem, rfl, hoffset⟩ := h
    · have hmark := eq_of_offset hparse hused (mark_of_symbol hparse hbuild hs) h
      cases congrArg Mark.declares hmark
    · have hnodup := (List.nodup_append.mp (nodup_offsets hparse hbuild)).2.1
      obtain rfl : r' = r := List.inj_on_of_nodup_map hnodup hmem hr hoffset
      rw [hs] at hs'
      cases hs'
      rfl

theorem nameAt_of_mem_places {s : Symbol} {id : SymbolId} (hs : ix.symbol? id = some s) {o : Int}
    (ho : o ∈ ix.places id s) : NameAt content.toUTF8 o s.name := by
  have hnames := (Grammar.written_of_parse hparse).names
  rcases Index.mem_places.mp ho with rfl | ⟨r, hr, hid, rfl⟩
  · exact hnames _ (mark_of_symbol hparse hbuild hs)
  · exact hnames _ (mark_of_use hparse hbuild hs hr hid)

theorem isName_of_symbol {s : Symbol} {id : SymbolId} (hs : ix.symbol? id = some s) :
    IsName s.name := by
  have hat : NameAt content.toUTF8 s.offset s.name :=
    nameAt_of_mem_places hparse hbuild hs List.mem_cons_self
  rw [← toNat_of_nameAt hat] at hat
  exact hat.isName

/-- The names at the places of a symbol are those of its marks. -/
theorem respell_eq_renaming {s : Symbol} {id : SymbolId} (hs : ix.symbol? id = some s)
    (new : String) :
    ∀ m ∈ t.marks, Grammar.respell (ix.places id s) s.name new m.offset m.name =
      ix.renaming id s new m := by
  intro m hm
  have hsymbol : m.offset = s.offset → m = ⟨s.offset, s.name, true⟩ :=
    eq_of_offset hparse hm (mark_of_symbol hparse hbuild hs)
  have huse : (∃ r ∈ ix.references, r.symbol = id ∧ r.offset = m.offset) →
      m.declares = false ∧ m.name = s.name := by
    rintro ⟨r, hr, hid, ho⟩
    rw [eq_of_offset hparse hm (mark_of_use hparse hbuild hs hr hid) ho.symm]
    exact ⟨rfl, rfl⟩
  have hiff : (m.offset ∈ ix.places id s ∧ m.name = s.name) ↔ (m.declares ∧ m.offset = s.offset) ∨
      (¬ m.declares ∧ ∃ r ∈ ix.references, r.symbol = id ∧ r.offset = m.offset) := by
    rw [Index.mem_places]
    refine ⟨fun ⟨ho, _⟩ => ho.imp (fun ho => ⟨by rw [hsymbol ho], ho⟩)
      fun ho => ⟨by simp [(huse ho).1], ho⟩, ?_⟩
    rintro (⟨-, ho⟩ | ⟨-, ho⟩)
    · exact ⟨.inl ho, by rw [hsymbol ho]⟩
    · exact ⟨.inr ho, (huse ho).2⟩
  rw [Grammar.respell, Index.renaming]
  simp only [hiff]

end Marks

/-- The edits of a renaming put the new name at the places of the symbol. -/
theorem renameEdits_eq (hparse : Grammar.parseProgram content = .ok t)
    (hbuild : Index.build? t content = some ix) {uri : String} {version : Int} {h : Document.Hit}
    {new : String} :
    Server.renameEdits (.ofContent uri version content) h new =
      nameEdits content h.symbol.name new (ix.places h.id h.symbol) := by
  have hindex : (Document.ofContent uri version content).index = some ix := by
    simp only [Document.ofContent, hparse, hbuild]
  simp only [Server.renameEdits, Document.occurrences, Document.usesOf, hindex, nameEdits,
    Index.places, List.map_cons, List.map_map, Document.nameRange]
  rfl

/-- What is found under a cursor is a symbol of the index. -/
theorem symbol_of_hit {uri : String} {version : Int} {pos : Position} {h : Document.Hit}
    (hparse : Grammar.parseProgram content = .ok t)
    (hhit : (Document.ofContent uri version content).hit? pos = some h) :
    ∃ ix, Index.build? t content = some ix ∧
      (Document.ofContent uri version content).index = some ix ∧
      ix.symbol? h.id = some h.symbol := by
  have hindex : (Document.ofContent uri version content).index = Index.build? t content := by
    simp only [Document.ofContent, hparse]
  simp only [Document.hit?, hindex, Option.bind_eq_bind, Option.bind_eq_some_iff, Option.pure_def,
    Option.some.injEq] at hhit
  obtain ⟨ix, hbuild, ⟨id, reference⟩, -, symbol, hsymbol, rfl⟩ := hhit
  exact ⟨ix, hbuild, hindex.trans hbuild, hsymbol⟩

/-- Renaming succeeds for the names of the language. Its edits are apart from each other, each puts
the new name for one occurrence of the old one, and the document with all of them parses to the
program with the new name where the symbol is declared and referred to. -/
theorem rename_exact {server : Server} {uri : String} {version : Int} {pos : Position}
    {h : Document.Hit} (hdoc : server.doc? uri = some (.ofContent uri version content))
    (hparse : Grammar.parseProgram content = .ok t)
    (hhit : (Document.ofContent uri version content).hit? pos = some h) (new : String) :
    ((∃ reply, server.rename uri pos new = .ok reply) ↔ ReadAsName new) ∧
    (ReadAsName new ↔ new ≠ "" ∧ (∀ b ∈ new.toUTF8.data.toList, Grammar.isIdentByte b = true) ∧
      (∀ b ∈ new.toUTF8.data.toList.head?, Grammar.isDigitByte b = false) ∧
        Grammar.isReserved new = false) ∧
    ∃ ix, Index.build? t content = some ix ∧ ix.symbol? h.id = some h.symbol ∧
      ⟨h.symbol.offset, h.symbol.name, true⟩ ∈ t.marks ∧
      (∀ r ∈ ix.references, r.symbol = h.id → ⟨r.offset, h.symbol.name, false⟩ ∈ t.marks) ∧
      ∀ reply, server.rename uri pos new = .ok reply →
        ∃ es patches text t', reply = .renamed uri es ∧
        es.mapM (Document.Edit.patch? content) = some patches ∧ patches.Pairwise Patch.Apart ∧
        (∀ p ∈ patches, p.text = new ∧ NameAt content.toUTF8 p.start h.symbol.name ∧
          Utf8.slice content p.start p.stop = h.symbol.name) ∧
        applyEdits content es = some text ∧ Grammar.parseProgram text = .ok t' ∧
        t'.similar (t.rename (ix.renaming h.id h.symbol new)) = true := by
  obtain ⟨ix, hbuild, -, hsymbol⟩ := symbol_of_hit hparse hhit
  have hreply : server.rename uri pos new =
      if isName new then
        .ok (.renamed uri (Server.renameEdits (.ofContent uri version content) h new))
      else .error (.invalidName new) := by
    simp only [Server.rename, hdoc, hhit]
  have hnames : ∀ o ∈ ix.places h.id h.symbol, NameAt content.toUTF8 o h.symbol.name :=
    fun o => nameAt_of_mem_places hparse hbuild hsymbol
  have hold : IsName h.symbol.name := isName_of_symbol hparse hbuild hsymbol
  have hnodup := nodup_places hparse hbuild hsymbol
  refine ⟨?_, readAsName_iff.trans (isName_iff.symm.trans isName_iff_bytes), ix, hbuild, hsymbol,
    mark_of_symbol hparse hbuild hsymbol, fun r =>
      mark_of_use hparse hbuild hsymbol, fun reply hok => ?_⟩
  · rw [readAsName_iff, ← isName_iff, hreply]
    cases isName new <;> simp
  · rw [hreply] at hok
    cases hnew : isName new with
    | false => simp [hnew] at hok
    | true =>
      rw [hnew, if_pos rfl, renameEdits_eq hparse hbuild] at hok
      obtain ⟨text, shift, happly, hrespells⟩ :=
        applyEdits_nameEdits hold (isName_iff.mp hnew) hnames hnodup
      refine ⟨_, _, text, _, (Except.ok.inj hok).symm, mapM_patch?_nameEdits hnames new,
        pairwise_namePatches hold hnames hnodup new, fun p hp =>
          ?_, happly, Grammar.parse_respelled hrespells hparse, ?_⟩
      · obtain ⟨o, ho, rfl⟩ := List.mem_map.mp hp
        have hat := hnames o ho
        rw [← toNat_of_nameAt hat] at hat
        obtain ⟨before, after, hsplit, hsplit'⟩ := splits_of_nameAt hat
        refine ⟨rfl, hat, ?_⟩
        rw [hsplit.slice hsplit', String.ofList_toList]
      · have hreserved : ∀ o x, Grammar.isReserved x = true →
            Grammar.respell (ix.places h.id h.symbol) h.symbol.name new o x = x := by
          intro o x hx
          refine if_neg fun hmem => ?_
          rw [hmem.2, hold.1] at hx
          cases hx
        rw [Tree.similar_iff_strip]
        exact (strip_rename hreserved (sorted_of_parse hparse).inPlace
          (respell_eq_renaming hparse hbuild hsymbol new)).symm

/-- A variable gets a longer name, in its declaration and where it is printed. -/
theorem rename_exact_print : ∃ server t h ix es text t',
    server.doc? "p" = some (.ofContent "p" 1 "var a=1;print a;") ∧
    Grammar.parseProgram "var a=1;print a;" = .ok t ∧
    (Document.ofContent "p" 1 "var a=1;print a;").hit? ⟨0, 14⟩ = some h ∧
    Index.build? t "var a=1;print a;" = some ix ∧
    Server.rename server "p" ⟨0, 14⟩ "b2" = .ok (.renamed "p" es) ∧
    applyEdits "var a=1;print a;" es = some text ∧ Grammar.parseProgram text = .ok t' ∧
    t'.similar (t.rename (ix.renaming h.id h.symbol "b2")) = true := by
  have hdoc : ({ docs := [.ofContent "p" 1 "var a=1;print a;"] } : Server).doc? "p" =
      some (.ofContent "p" 1 "var a=1;print a;") := rfl
  have hfound : ((Document.ofContent "p" 1 "var a=1;print a;").hit? ⟨0, 14⟩).isSome = true := by
    decide +kernel
  obtain ⟨h, hhit⟩ := Option.isSome_iff_exists.mp hfound
  have hparses : (Grammar.parseProgram "var a=1;print a;").toOption.isSome = true := by
    decide +kernel
  obtain ⟨t, hparse⟩ := Grammar.exists_ok_of_isSome hparses
  obtain ⟨hsucceeds, -, ix, hbuild, -, -, -, hreply⟩ := rename_exact hdoc hparse hhit "b2"
  have hnew : ReadAsName "b2" := readAsName_iff.mpr (isName_iff.mp (by decide +kernel))
  obtain ⟨reply, hrename⟩ := hsucceeds.mpr hnew
  obtain ⟨es, -, text, t', rfl, -, -, -, happly, ht', hsimilar⟩ := hreply reply hrename
  exact ⟨_, t, h, ix, es, text, t', hdoc, hparse, hhit, hbuild, hrename, happly, ht', hsimilar⟩

end Editor

end ClosureLang
