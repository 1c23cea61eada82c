import ClosureLang.Proofs.Run.Progress
import ClosureLang.Proofs.Tree.Lexing
import ClosureLang.Proofs.Tree.Similar

/-! Canonical text reads back. -/
namespace ClosureLang.Tree

variable {l : Label} {f : Form} {o : Int} {cs : List Tree}

/-- Every name in the tree stands for itself in canonical text. -/
def Legible (t : Tree) : Prop := ∀ x o cs, node (.ident x) o cs ∈ t.nodes → Canonical.IsSymbol x

theorem legible_node :
    Legible (node l o cs) ↔
      (∀ x, l = .ident x → Canonical.IsSymbol x) ∧ ∀ c ∈ cs, Legible c := by
  have hnodes : ∀ t : Tree, Legible t ↔
      ∀ u ∈ t.nodes, ∀ x o cs, u = node (.ident x) o cs → Canonical.IsSymbol x := fun t =>
    ⟨fun h u hu x o cs heq => h x o cs (heq ▸ hu), fun h x o cs hu => h _ hu x o cs rfl⟩
  simp only [hnodes, forall_nodes_node (l := l)]
  refine and_congr ⟨fun h x hx => h x o cs (hx ▸ rfl), fun h x o cs heq => ?_⟩ Iff.rfl
  injection heq with hl
  exact h x hl

end ClosureLang.Tree

namespace ClosureLang.Canonical

open ClosureLang.Tree

/-- Where a datum goes that was read: into the innermost open compound, if there is one. -/
def place : List Open → Datum → List Lexeme → Option (Datum × List Lexeme)
  | [], d, ls => some (d, ls)
  | f :: stack, d, ls => readDatum (f.add d :: stack) ls

/-- The text `cs` at the offset `start` is the datum `d`, whatever is open there and whatever
follows behind it at the offset `stop`. -/
def Spells (cs : List Char) (start : Nat) (d : Datum) (stop : Nat) : Prop :=
  ∀ stack rest, Parted rest →
    readDatum stack (lexemes false start (cs ++ rest)) = place stack d (lexemes false stop rest)

/-- The text `cs` at the offset `start` is the data `ds`, inside a compound that is open there. -/
def SpellsAll (cs : List Char) (start : Nat) (ds : List Datum) (stop : Nat) : Prop :=
  ∀ f stack rest, Parted rest →
    readDatum (f :: stack) (lexemes false start (cs ++ rest)) =
      readDatum ({ f with items := ds.reverse ++ f.items } :: stack) (lexemes false stop rest)

variable {o o' stop : Nat} {text cs : List Char} {stack : List Open} {ls : List Lexeme} {d : Datum}
  {ds : List Datum} {x : String} {f : Form}

theorem readDatum_integer :
    readDatum stack (.integer text o :: ls) = place stack (.integer text o) ls := by
  cases stack <;> rfl

theorem readDatum_symbol :
    readDatum stack (.symbol text o :: ls) = place stack (.symbol text o) ls := by
  cases stack <;> rfl

theorem readDatum_closing {f : Open} :
    readDatum (f :: stack) (.closing o :: ls) = place stack f.close ls := by
  cases stack <;> rfl

theorem readDatum_opening :
    readDatum stack (.opening o :: .tag text o' :: ls) =
      readDatum (⟨text, o', []⟩ :: stack) ls := by
  cases stack <;> rfl

theorem spells_integer (i : Int) : ∃ stop,
    Spells (Decimal.intChars i) o (.integer (Decimal.intChars i) o) stop :=
  ⟨_, fun stack rest hrest => by rw [lexemes_integer i hrest, readDatum_integer]⟩

theorem spells_symbol (hx : IsSymbol x) : ∃ stop, Spells x.toList o (.symbol x.toList o) stop :=
  ⟨_, fun stack rest hrest => by rw [lexemes_symbol hx hrest, readDatum_symbol]⟩

theorem parted_closing {rest : List Char} : Parted (')' :: rest) := by
  intro c hc
  obtain rfl := Option.mem_some.mp hc
  exact .inr rfl

theorem parted_children {rest : List Char} (h : Parted rest) (ts : List Tree) :
    Parted (charsOfChildren ts ++ rest) := by
  cases ts with
  | nil => exact h
  | cons t ts =>
    intro c hc
    obtain rfl := Option.mem_some.mp hc
    exact .inl rfl

theorem spellsAll_nil : SpellsAll [] o [] o := fun _ _ _ _ => rfl

theorem spellsAll_cons {ts : List Tree} (hd : Spells text (o + 1) d o')
    (hds : SpellsAll (charsOfChildren ts) o' ds stop) :
    SpellsAll (' ' :: text ++ charsOfChildren ts) o (d :: ds) stop := by
  intro f stack rest hrest
  have hbehind := parted_children hrest ts
  calc readDatum (f :: stack) (lexemes false o (' ' :: text ++ charsOfChildren ts ++ rest))
    _ = readDatum (f :: stack) (lexemes false (o + 1) (text ++ (charsOfChildren ts ++ rest))) := by
        rw [List.append_assoc, List.cons_append, lexemes_blank]
    _ = readDatum (f.add d :: stack) (lexemes false o' (charsOfChildren ts ++ rest)) :=
        hd (f :: stack) _ hbehind
    _ = _ := by
        rw [hds _ stack rest hrest]
        simp [Open.add]

theorem isSymbolChar_tag (f : Form) :
    f.tag.toList ≠ [] ∧ ∀ c ∈ f.tag.toList, isSymbolChar c = true := by
  have htag : (!f.tag.toList.isEmpty && f.tag.toList.all isSymbolChar) = true := by
    cases f with
    | binary op => cases op <;> decide
    | unknown =>
      simp only [Form.tag]
      decide
    | _ => decide
  simpa using htag

theorem spells_compound {ts : List Tree}
    (hds : SpellsAll (charsOfChildren ts) (o + 1 + Utf8.size f.tag.toList) ds stop) :
    Spells ('(' :: f.tag.toList ++ charsOfChildren ts ++ [')']) o
      (.compound f.tag.toList (o + 1) ds) (stop + 1) := by
  intro stack rest hrest
  obtain ⟨hne, htag⟩ := isSymbolChar_tag f
  have hbehind : Parted (charsOfChildren ts ++ ')' :: rest) := parted_children parted_closing ts
  simp only [List.cons_append, List.append_assoc, List.nil_append]
  rw [lexemes_opening, lexemes_tag hne htag hbehind, readDatum_opening,
    hds _ stack _ parted_closing, lexemes_closing, readDatum_closing]
  simp [Open.close]

/-- Tags of forms that valid trees are made of read back. -/
theorem ofTag?_tag {cs : List Tree} (h : checkForm f cs = none) : Form.ofTag? f.tag = some f := by
  cases f with
  | binary op => cases op <;> decide
  | invalid | unknown => simp [checkForm] at h
  | _ => decide

mutual

/-- The text of a valid tree is a datum of one that is equal but for offsets, and valid. -/
theorem reads_tree : (t : Tree) → Whole t → Legible t → ∀ o, ∃ d stop t',
    Spells t.chars o d stop ∧ treeOf d = .ok t' ∧ t'.strip = t.strip ∧ Whole t'
  | absent, h, _, _ => nomatch h.present
  | node (.integer w) _ cs, _, _, o => by
    obtain ⟨stop, hspells⟩ := spells_integer w.toInt (o := o)
    refine ⟨_, stop, .int o w, hspells, ?_, rfl, whole_node nofun rfl⟩
    rw [treeOf, word?_intChars]
  | node (.ident x) _ cs, _, hl, o => by
    obtain ⟨stop, hspells⟩ := spells_symbol ((legible_node.mp hl).1 x rfl) (o := o)
    refine ⟨_, stop, .ident o x, hspells, ?_, rfl, whole_node nofun rfl⟩
    rw [treeOf, String.ofList_toList]
  | node (.form f) o₀ cs, h, hl, o => by
    obtain ⟨hform, hcs⟩ := whole_form_iff.mp h
    obtain ⟨ds, stop, ts, hspells, htrees, hstrip, hts⟩ :=
      reads_trees cs hcs (legible_node.mp hl).2 (o + 1 + Utf8.size f.tag.toList)
    have hshape : checkForm f ts = none := by
      rw [← checkForm_strip hts, ← stripAll_eq_map, hstrip, stripAll_eq_map,
        checkForm_strip hcs, hform]
    refine ⟨_, _, .form f (o + 1 : Nat) ts, spells_compound hspells, ?_, ?_, whole_form hts hshape⟩
    · simp only [treeOf, String.ofList_toList, ofTag?_tag hform, htrees]
    · simp only [strip, form, hstrip]

theorem reads_trees : (ts : List Tree) → (∀ t ∈ ts, Whole t) → (∀ t ∈ ts, Legible t) → ∀ o,
    ∃ ds stop ts', SpellsAll (charsOfChildren ts) o ds stop ∧ treesOf ds = .ok ts' ∧
      stripAll ts' = stripAll ts ∧ ∀ t' ∈ ts', Whole t'
  | [], _, _, o => ⟨[], o, [], spellsAll_nil, rfl, rfl, nofun⟩
  | t :: ts, h, hl, o => by
    rw [List.forall_mem_cons] at h hl
    obtain ⟨d, o', t', hd, htree, hstrip, hwhole⟩ := reads_tree t h.1 hl.1 (o + 1)
    obtain ⟨ds, stop, ts', hds, htrees, hstrips, hwholes⟩ := reads_trees ts h.2 hl.2 o'
    refine ⟨d :: ds, stop, t' :: ts', spellsAll_cons hd hds, ?_, ?_, ?_⟩
    · simp only [treesOf, htree, htrees]
    · simp only [stripAll, hstrip, hstrips]
    · exact List.forall_mem_cons.mpr ⟨hwhole, hwholes⟩

end

/-! Names of programs stand for themselves. -/

theorem isSymbol_of_head {c : Char} (hx : x.toList = c :: cs)
    (hchars : ∀ d ∈ c :: cs, isSymbolChar d = true) (hdigit : c.isDigit = false) (hsign : c ≠ '-') :
    IsSymbol x := by
  refine ⟨fun hnil => by simp [hnil] at hx, fun d hd => hchars d (hx ▸ hd), ?_⟩
  rintro ⟨sign, digits, rest, hsplit, rfl | rfl, hne, hdigits, -⟩
  · obtain ⟨d, ds, rfl⟩ := List.exists_cons_of_ne_nil hne
    rw [hx, List.nil_append, List.cons_append] at hsplit
    injection hsplit with hc
    rw [hc, hdigits d List.mem_cons_self] at hdigit
    contradiction
  · rw [hx, List.append_assoc, List.singleton_append] at hsplit
    injection hsplit with hc
    contradiction

theorem isSymbol_of_isName (h : Grammar.IsName x) : IsSymbol x := by
  obtain ⟨-, b, bs, hb, hbs, rfl⟩ := h
  have hall : ∀ n < 256, Grammar.isIdentByte (UInt8.ofNat n) = true →
      isSymbolChar (Char.ofNat n) = true ∧ (Grammar.isIdentStart (UInt8.ofNat n) = true →
        (Char.ofNat n).isDigit = false ∧ Char.ofNat n ≠ '-') := by decide +kernel
  have hbyte : ∀ b, Grammar.isIdentByte b = true →
      isSymbolChar (Char.ofNat b.toNat) = true ∧ (Grammar.isIdentStart b = true →
        (Char.ofNat b.toNat).isDigit = false ∧ Char.ofNat b.toNat ≠ '-') := by
    intro b hb
    have := hall b.toNat b.toNat_lt
    rw [UInt8.ofNat_toNat] at this
    exact this hb
  obtain ⟨hchar, hstart⟩ := hbyte b (Grammar.isIdentByte_of_isIdentStart b hb)
  obtain ⟨hdigit, hsign⟩ := hstart hb
  refine isSymbol_of_head String.toList_ofList ?_ hdigit hsign
  simp only [List.mem_cons, forall_eq_or_imp, List.forall_mem_map]
  exact ⟨hchar, fun c hc => (hbyte c (hbs c hc)).1⟩

theorem legible_ident {offset : Int} (hx : IsSymbol x) : Legible (ident offset x) := by
  refine legible_node.mpr ⟨fun y hy => ?_, nofun⟩
  injection hy with hy
  exact hy ▸ hx

theorem legible_form {offset : Int} {ts : List Tree} (h : ∀ t ∈ ts, Legible t) :
    Legible (form f offset ts) :=
  legible_node.mpr ⟨nofun, h⟩

theorem legible_name {t : Tree} (h : IsIdent t) : Legible t := by
  obtain ⟨o, x, rfl, hx⟩ := h
  exact legible_ident (isSymbol_of_isName hx)

theorem legible_tag {t : Tree} (h : IsTag t) : Legible t := by
  have hint : IsSymbol "int" := isSymbol_of_head rfl (List.all_eq_true.mp rfl) rfl (by decide)
  have hfunc : IsSymbol "func" := isSymbol_of_head rfl (List.all_eq_true.mp rfl) rfl (by decide)
  have hvar : IsSymbol genericType := isSymbol_of_head rfl (List.all_eq_true.mp rfl) rfl (by decide)
  obtain ⟨o, x, rfl, rfl | rfl⟩ | ⟨o, rfl⟩ := h
  · exact legible_ident hint
  · exact legible_ident hfunc
  · exact legible_ident hvar

theorem legible_signature {n : Nat} {sig : List Tree} (h : IsSignature n sig) :
    ∀ s ∈ sig, Legible s := by
  obtain rfl | ⟨o, tags, rfl, -, htags, -⟩ := h
  · exact nofun
  · simpa using legible_form fun t ht => legible_tag (htags t ht)

/-- The names in a program stand for themselves. -/
theorem legible_of_wellSorted {P : Int64 → Prop} {role : Role} {t : Tree}
    (h : WellSorted P role t) : Legible t := by
  induction h with
  | int => exact legible_node.mpr ⟨nofun, nofun⟩
  | lookup hx => exact legible_form (by simpa using legible_name hx)
  | binary _ _ ihl ihr => exact legible_form (by simp [ihl, ihr])
  | not _ ih => exact legible_form (by simp [ih])
  | call _ _ ihc ihargs =>
    exact legible_form (by simpa using ⟨ihc, legible_form ihargs⟩)
  | function hparams _ hsig ihb =>
    refine legible_form ?_
    simp only [List.forall_mem_cons]
    exact ⟨legible_form fun x hx => legible_name (hparams x hx), ihb, legible_signature hsig⟩
  | block _ ih => exact legible_form ih
  | declare hx _ htype _ ihv =>
    refine legible_form ?_
    simp only [List.forall_mem_cons]
    exact ⟨legible_name hx, ihv, fun t ht => legible_tag (.inl (htype t ht))⟩
  | @assign _ offset' x _ hx _ ih =>
    have hloc : Legible (form .varLoc offset' [x]) := legible_form (by simpa using legible_name hx)
    exact legible_form (by simpa using ⟨hloc, ih⟩)
  | print _ ih => exact legible_form (by simp [ih])
  | ret _ ih => exact legible_form (by simp [ih])
  | ifThen _ _ ihc ihb => exact legible_form (by simp [ihc, ihb])
  | ifElse _ _ _ ihc ihb iha => exact legible_form (by simp [ihc, ihb, iha])
  | whileDo _ _ ihc ihb => exact legible_form (by simp [ihc, ihb])
  | expression _ ih => exact ih

/-! The round trip. -/

/-- The text of the tree is read as a tree that is equal but for offsets. -/
def ReadsBack (t : Tree) : Prop := ∃ t', parse t.canonical = .ok t' ∧ similar t' t = true

theorem readsBack_of_whole {t : Tree} (h : Whole t) (hl : Legible t) : ReadsBack t := by
  obtain ⟨d, stop, t', hspells, htree, hstrip, hwhole⟩ := reads_tree t h hl 0
  have hread : readDatum [] (lexemes false 0 t.canonical.toList) = some (d, []) := by
    have hnil := hspells [] [] nofun
    rw [List.append_nil] at hnil
    rw [canonical, String.toList_ofList, hnil, lexemes]
    rfl
  refine ⟨t', ?_, (similar_iff_strip t' t).mpr hstrip⟩
  simp only [parse, hread, htree, hwhole.validate]

/-- The trees whose text reads back: valid ones, with names that stand for themselves. -/
structure Readable (t : Tree) : Prop where
  present : t.isAbsent = false
  valid : t.validate = none
  legible : Legible t

theorem Readable.readsBack {t : Tree} (h : Readable t) : ReadsBack t :=
  readsBack_of_whole ⟨h.present, List.findSome?_eq_none_iff.mp h.valid⟩ h.legible

theorem readable_of_wellSorted {P : Int64 → Prop} {role : Role} {t : Tree}
    (h : WellSorted P role t) : Readable t :=
  ⟨h.whole.present, h.whole.validate, legible_of_wellSorted h⟩

theorem canonical_eq_iff {a b : Tree} (ha : ReadsBack a) (hb : ReadsBack b) :
    a.canonical = b.canonical ↔ similar a b = true := by
  constructor
  · intro heq
    obtain ⟨a', hparse, hsame⟩ := ha
    obtain ⟨b', hparse', hsame'⟩ := hb
    rw [heq, hparse'] at hparse
    injection hparse with hparse
    rw [similar_iff_strip] at hsame hsame' ⊢
    rw [← hsame, ← hsame', hparse]
  · intro hsame
    rw [similar_iff_strip] at hsame
    rw [canonical, canonical, ← chars_strip a, hsame, chars_strip]

/-- Canonical text reads back as the tree it was written for, up to offsets. Programs and what they
fold to are such trees, and equal text is similarity among them. -/
theorem canonical_reads_back :
    (∀ t, Readable t → ReadsBack t) ∧
    (∀ src t, Grammar.parseProgram src = .ok t →
      Readable t ∧ ReadsBack t ∧ ∃ t', Fold.fold t = some t' ∧ Readable t' ∧ ReadsBack t') ∧
    ∀ a b, Readable a → Readable b → (a.canonical = b.canonical ↔ similar a b = true) := by
  refine ⟨fun t => Readable.readsBack, fun src t hparse => ?_, fun a b ha hb =>
    canonical_eq_iff ha.readsBack hb.readsBack⟩
  have hsorted := sorted_of_parse hparse
  have hread := readable_of_wellSorted hsorted
  obtain ⟨t', hf⟩ := Option.isSome_iff_exists.mp (Fold.fold_isSome hsorted)
  have hread' := readable_of_wellSorted (Fold.inPlace_of_fold hsorted hf)
  exact ⟨hread, hread.readsBack, t', hf, hread', hread'.readsBack⟩

/-- The least integer reads back, and so does what the differences in a program fold to. -/
theorem canonical_reads_back_least :
    ReadsBack (form .print 0 [int 6 Int64.minValue]) ∧
    ∃ t, Grammar.parseProgram "print 1-x-y-2;" = .ok t ∧ ReadsBack t ∧
      ∃ t', Fold.fold t = some t' ∧ ReadsBack t' := by
  have hleast : Readable (form .print 0 [int 6 Int64.minValue]) := by
    have hsorted : InPlace .statement (form .print 0 [int 6 Int64.minValue]) :=
      .print (.int trivial)
    exact readable_of_wellSorted hsorted
  have hparses : (Grammar.parseProgram "print 1-x-y-2;").toOption.isSome = true := by decide +kernel
  obtain ⟨t, hparse⟩ := Grammar.exists_ok_of_isSome hparses
  obtain ⟨-, hread, t', hf, -, hread'⟩ := canonical_reads_back.2.1 _ t hparse
  exact ⟨canonical_reads_back.1 _ hleast, t, hparse, hread, t', hf, hread'⟩

end ClosureLang.Canonical
