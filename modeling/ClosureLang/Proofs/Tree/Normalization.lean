import Mathlib.Data.List.TakeWhile
import ClosureLang.Tree.Canonical

/-! What the normal form of canonical text keeps of a layout: the tokens, and whether blanks part
two of them at a joint where blanks are not dropped. -/
namespace ClosureLang.Canonical

open Text (isBlank)

/-- Neither a blank nor a parenthesis. -/
def isSolid (c : Char) : Bool := !isBlank c && c ≠ '(' && c ≠ ')'

inductive Token where
  | opening
  | closing
  | word (chars : List Char)

namespace Token

def chars : Token → List Char
  | opening => ['(']
  | closing => [')']
  | word cs => cs

def isWord : Token → Bool
  | word _ => true
  | _ => false

def isClosing : Token → Bool
  | closing => true
  | _ => false

/-- A word has characters, and all of them are solid. -/
def Proper : Token → Prop
  | word cs => cs ≠ [] ∧ ∀ c ∈ cs, isSolid c = true
  | _ => True

end Token

/-- Blanks are dropped in front of the first token, behind an opening parenthesis and in front of a
closing one. -/
def isLoose : Option Token → Token → Bool
  | none, _ | some .opening, _ | _, .closing => false
  | _, _ => true

/-- A text as its tokens, each with the blanks in front of it. -/
abbrev Spaced := List (List Char × Token)

namespace Spaced

def chars (l : Spaced) : List Char := l.flatMap fun (blanks, t) => blanks ++ t.chars

/-- Only blanks stand between proper tokens, and two words do not touch. -/
def Sound : Option Token → Spaced → Prop
  | _, [] => True
  | prev, (blanks, t) :: l =>
    (∀ c ∈ blanks, isBlank c = true) ∧ t.Proper ∧ (prev.any Token.isWord → t.isWord → blanks ≠ []) ∧
      Sound (some t) l

/-- The tokens, each with the fact whether a blank in front of it is kept. -/
def joints : Option Token → Spaced → List (Bool × Token)
  | _, [] => []
  | prev, (blanks, t) :: l => (!blanks.isEmpty && isLoose prev t, t) :: joints (some t) l

/-- A text is laid out as these tokens, with nothing but blanks behind them. -/
def LaysOut (l : Spaced) (s : String) : Prop :=
  ∃ tail, l.Sound none ∧ (∀ c ∈ tail, isBlank c = true) ∧ s.toList = l.chars ++ tail

/-- Blanks stand at every joint where they are kept. -/
def Parted : Option Token → Spaced → Prop
  | _, [] => True
  | prev, (blanks, t) :: l => (isLoose prev t → blanks ≠ []) ∧ Parted (some t) l

end Spaced

/-- The text of tokens with one space in front of those that are parted from the token before. -/
def textOf (ts : List (Bool × Token)) : List Char :=
  ts.flatMap fun (gap, t) => (if gap then [' '] else []) ++ t.chars

/-- What is remembered behind a token, or at the start. -/
def Spacing.behind : Option Token → Spacing
  | none => {}
  | some .opening => { empty := false, afterOpen := true }
  | some _ => { empty := false }

variable {prev prev' : Option Token} {t : Token} {l l' : Spaced} {blanks cs w : List Char}
  {c : Char} {s s' : String}

/-! ### Layouts of texts -/

theorem Spaced.Sound.behind (h : l.Sound prev)
    (hhead : ∀ p ∈ l.head?, prev'.any Token.isWord → p.2.isWord → p.1 ≠ []) : l.Sound prev' := by
  cases l with
  | nil => trivial
  | cons p l => exact ⟨h.1, h.2.1, hhead p rfl, h.2.2.2⟩

/-- A solid character belongs to the word that follows at once, or is a word of its own. -/
theorem exists_spaced_solid (hc : isSolid c = true) (hl : l.Sound none) :
    ∃ l' : Spaced, l'.Sound none ∧ l'.chars = c :: l.chars := by
  by_cases hword : ∃ w l', l = ([], Token.word w) :: l'
  · obtain ⟨w, l', rfl⟩ := hword
    obtain ⟨-, ⟨-, hw⟩, -, hrest⟩ := hl
    have hproper : (Token.word (c :: w)).Proper :=
      ⟨List.cons_ne_nil c w, List.forall_mem_cons.mpr ⟨hc, hw⟩⟩
    refine ⟨([], .word (c :: w)) :: l', ⟨nofun, hproper, nofun, ?_⟩, rfl⟩
    cases l' with
    | nil => trivial
    | cons p l' => exact hrest
  · have hproper : (Token.word [c]).Proper := ⟨List.cons_ne_nil c [], by simpa using hc⟩
    refine ⟨([], .word [c]) :: l, ⟨nofun, hproper, nofun, hl.behind ?_⟩, rfl⟩
    rintro ⟨blanks, t⟩ hp - ht rfl
    obtain ⟨l', rfl⟩ := List.head?_eq_some_iff.mp hp
    cases t with
    | opening | closing => contradiction
    | word w => exact hword ⟨w, l', rfl⟩

theorem exists_spaced (cs : List Char) :
    ∃ (l : Spaced) (tail : List Char), l.Sound none ∧ (∀ c ∈ tail, isBlank c = true) ∧
      cs = l.chars ++ tail := by
  induction cs with
  | nil => exact ⟨[], [], trivial, nofun, rfl⟩
  | cons c cs ih =>
    obtain ⟨l, tail, hl, htail, rfl⟩ := ih
    by_cases hblank : isBlank c = true
    · cases l with
      | nil => exact ⟨[], c :: tail, trivial, List.forall_mem_cons.mpr ⟨hblank, htail⟩, rfl⟩
      | cons p l =>
        obtain ⟨blanks, t⟩ := p
        exact ⟨(c :: blanks, t) :: l, tail,
          ⟨List.forall_mem_cons.mpr ⟨hblank, hl.1⟩, hl.2.1, nofun, hl.2.2.2⟩, htail, rfl⟩
    · by_cases hopen : c = '('
      · exact ⟨([], .opening) :: l, tail, ⟨nofun, trivial, nofun, hl.behind nofun⟩,
          htail, by rw [hopen]; rfl⟩
      · by_cases hclose : c = ')'
        · exact ⟨([], .closing) :: l, tail, ⟨nofun, trivial, nofun, hl.behind nofun⟩,
            htail, by rw [hclose]; rfl⟩
        · obtain ⟨l', hl', hchars⟩ :=
            exists_spaced_solid (c := c) (by simp [isSolid, hblank, hopen, hclose]) hl
          exact ⟨l', tail, hl', htail, by rw [hchars]; rfl⟩

/-- Every text is a layout of tokens. -/
theorem exists_laysOut (s : String) : ∃ l : Spaced, l.LaysOut s := by
  obtain ⟨l, tail, hl, htail, hchars⟩ := exists_spaced s.toList
  exact ⟨l, tail, hl, htail, hchars⟩

/-! ### Normal forms of layouts -/

theorem not_of_isSolid (h : isSolid c = true) : isBlank c = false ∧ c ≠ '(' ∧ c ≠ ')' := by
  simpa [isSolid, and_assoc] using h

theorem exists_chars (ht : t.Proper) : ∃ c cs, t.chars = c :: cs ∧ isBlank c = false := by
  cases t with
  | opening => exact ⟨'(', [], rfl, by decide⟩
  | closing => exact ⟨')', [], rfl, by decide⟩
  | word w =>
    obtain ⟨hne, hw⟩ := ht
    obtain ⟨c, w, rfl⟩ := List.exists_cons_of_ne_nil hne
    exact ⟨c, w, rfl, (not_of_isSolid (hw c List.mem_cons_self)).1⟩

theorem normalizeFrom_blanks (h : ∀ c ∈ blanks, isBlank c = true) (prev : Option Token)
    (cs : List Char) :
    normalizeFrom (.behind prev) (blanks ++ cs) =
      normalizeFrom { Spacing.behind prev with pending := !blanks.isEmpty && prev.isSome } cs := by
  have hrun : ∀ (blanks : List Char) (s : Spacing), (∀ c ∈ blanks, isBlank c = true) →
      normalizeFrom s (blanks ++ cs) =
        normalizeFrom { s with pending := if blanks = [] then s.pending else !s.empty } cs := by
    intro blanks
    induction blanks with
    | nil => exact fun s _ => rfl
    | cons b blanks ih =>
      intro s hb
      rw [List.forall_mem_cons] at hb
      rw [List.cons_append, normalizeFrom, if_pos hb.1, ih _ hb.2]
      simp
  rw [hrun blanks _ h]
  obtain _ | _ | _ | _ := prev <;> cases blanks <;> rfl

theorem normalizeFrom_solid (h : ∀ c ∈ w, isSolid c = true) (cs : List Char) :
    normalizeFrom { empty := false } (w ++ cs) = w ++ normalizeFrom { empty := false } cs := by
  induction w with
  | nil => rfl
  | cons c w ih =>
    rw [List.forall_mem_cons] at h
    obtain ⟨hblank, hopen, hclose⟩ := not_of_isSolid h.1
    simp [normalizeFrom, hblank, hopen, hclose, ih h.2]

theorem normalizeFrom_token (ht : t.Proper) (s : Spacing) (cs : List Char) :
    normalizeFrom s (t.chars ++ cs) =
      (if s.pending && !s.afterOpen && !t.isClosing then [' '] else []) ++ t.chars ++
        normalizeFrom (.behind (some t)) cs := by
  cases t with
  | opening =>
    have hblank : isBlank '(' = false := by decide
    cases hs : s.pending && !s.afterOpen <;>
      simp [Token.chars, Token.isClosing, normalizeFrom, hblank, hs, Spacing.behind]
  | closing =>
    have hblank : isBlank ')' = false := by decide
    simp [Token.chars, Token.isClosing, normalizeFrom, hblank, Spacing.behind]
  | word w =>
    obtain ⟨hne, hw⟩ := ht
    obtain ⟨c, w, rfl⟩ := List.exists_cons_of_ne_nil hne
    rw [List.forall_mem_cons] at hw
    obtain ⟨hblank, hopen, hclose⟩ := not_of_isSolid hw.1
    have hrest := normalizeFrom_solid hw.2 cs
    cases hs : s.pending && !s.afterOpen <;>
      simp [Token.chars, Token.isClosing, normalizeFrom, hblank, hopen, hclose, hs, hrest,
        Spacing.behind]

/-- Of a layout, the normal form keeps the tokens and one space at each loose joint with blanks. -/
theorem normalizeFrom_spaced {tail : List Char} (htail : ∀ c ∈ tail, isBlank c = true)
    (hl : l.Sound prev) :
    normalizeFrom (.behind prev) (l.chars ++ tail) = textOf (l.joints prev) := by
  induction l generalizing prev with
  | nil =>
    have h := normalizeFrom_blanks htail prev []
    rwa [List.append_nil] at h
  | cons p l ih =>
    obtain ⟨blanks, t⟩ := p
    obtain ⟨hblanks, ht, -, hrest⟩ := hl
    have hgap : ({ Spacing.behind prev with pending := !blanks.isEmpty && prev.isSome }.pending &&
        !(Spacing.behind prev).afterOpen && !t.isClosing) =
          (!blanks.isEmpty && isLoose prev t) := by
      obtain _ | _ | _ | _ := prev <;> cases t <;> simp [isLoose, Spacing.behind, Token.isClosing]
    rw [Spaced.chars, List.flatMap_cons, ← Spaced.chars, List.append_assoc, List.append_assoc,
      normalizeFrom_blanks hblanks, normalizeFrom_token ht, ih hrest, hgap]
    rfl

/-! ### Reading back -/

/-- The token at the front of a text, and the text behind it. -/
def firstToken : List Char → Token × List Char
  | '(' :: cs => (.opening, cs)
  | ')' :: cs => (.closing, cs)
  | cs => (.word (cs.takeWhile isSolid), cs.dropWhile isSolid)

/-- The token at the front of a normal form, whether a space parts it from the token before, and the
text behind it. -/
def firstJoint : List Char → (Bool × Token) × List Char
  | ' ' :: cs => ((true, (firstToken cs).1), (firstToken cs).2)
  | cs => ((false, (firstToken cs).1), (firstToken cs).2)

/-- No word goes on here. -/
def Ends (cs : List Char) : Prop := ∀ c ∈ cs.head?, isSolid c = false

theorem firstToken_chars (ht : t.Proper) (hcs : t.isWord → Ends cs) :
    firstToken (t.chars ++ cs) = (t, cs) := by
  cases t with
  | opening => rfl
  | closing => rfl
  | word w =>
    obtain ⟨hne, hw⟩ := ht
    have hnone : cs.takeWhile isSolid = [] ∧ cs.dropWhile isSolid = cs := by
      cases cs with
      | nil => exact ⟨rfl, rfl⟩
      | cons c cs =>
        have hc : ¬ isSolid c = true := by simpa using hcs rfl c rfl
        exact ⟨List.takeWhile_cons_of_neg hc, List.dropWhile_cons_of_neg hc⟩
    have hfirst : firstToken (w ++ cs) =
        (.word ((w ++ cs).takeWhile isSolid), (w ++ cs).dropWhile isSolid) := by
      obtain ⟨c, u, rfl⟩ := List.exists_cons_of_ne_nil hne
      obtain ⟨-, hopen, hclose⟩ := not_of_isSolid (hw c List.mem_cons_self)
      rw [List.cons_append, firstToken]
      · exact fun _ heq => hopen (List.cons.inj heq).1
      · exact fun _ heq => hclose (List.cons.inj heq).1
    rw [Token.chars, hfirst, List.takeWhile_append_of_pos hw, List.dropWhile_append_of_pos hw,
      hnone.1, hnone.2, List.append_nil]

theorem firstJoint_textOf (ht : t.Proper) (hcs : t.isWord → Ends cs) (gap : Bool) :
    firstJoint ((if gap then [' '] else []) ++ t.chars ++ cs) = ((gap, t), cs) := by
  cases gap with
  | true =>
    show firstJoint (' ' :: (t.chars ++ cs)) = _
    rw [firstJoint, firstToken_chars ht hcs]
  | false =>
    show firstJoint (t.chars ++ cs) = _
    rw [firstJoint, firstToken_chars ht hcs]
    obtain ⟨c, u, heq, hc⟩ := exists_chars ht
    rw [heq]
    rintro cs' hcons
    cases hcons
    exact absurd hc (by decide)

/-- Two words do not touch, so a word ends where the next token begins. -/
theorem ends_textOf (hl : l.Sound (some t)) (ht : t.isWord) :
    Ends (textOf (l.joints (some t))) := by
  cases l with
  | nil => exact nofun
  | cons p l =>
    obtain ⟨blanks, u⟩ := p
    obtain ⟨-, -, hparted, -⟩ := hl
    rw [Spaced.joints, textOf, List.flatMap_cons]
    cases hgap : !blanks.isEmpty && isLoose (some t) u with
    | true =>
      rintro c ⟨⟩
      decide
    | false =>
      cases u with
      | opening | closing =>
        rintro c ⟨⟩
        decide
      | word w =>
        cases t with
        | opening | closing => contradiction
        | word => simp [isLoose, hparted rfl rfl] at hgap

theorem textOf_inj (hl : l.Sound prev) (hl' : l'.Sound prev)
    (h : textOf (l.joints prev) = textOf (l'.joints prev)) : l.joints prev = l'.joints prev := by
  have hne : ∀ {gap : Bool} {t : Token} {ts : List (Bool × Token)}, t.Proper →
      textOf ((gap, t) :: ts) ≠ [] := by
    intro gap t ts ht hnil
    obtain ⟨c, u, heq, -⟩ := exists_chars ht
    simp [textOf, heq] at hnil
  induction l generalizing prev l' with
  | nil =>
    cases l' with
    | nil => rfl
    | cons p' l' => exact absurd h.symm (hne hl'.2.1)
  | cons p l ih =>
    cases l' with
    | nil => exact absurd h (hne hl.2.1)
    | cons p' l' =>
      obtain ⟨blanks, t⟩ := p
      obtain ⟨blanks', t'⟩ := p'
      obtain ⟨-, ht, -, hrest⟩ := hl
      obtain ⟨-, ht', -, hrest'⟩ := hl'
      have hfirst := congrArg firstJoint h
      simp only [Spaced.joints, textOf, List.flatMap_cons] at hfirst ⊢
      rw [← textOf, ← textOf, firstJoint_textOf ht (ends_textOf hrest),
        firstJoint_textOf ht' (ends_textOf hrest')] at hfirst
      obtain ⟨hjoint, htext⟩ := Prod.mk.inj hfirst
      obtain ⟨-, rfl⟩ := Prod.mk.inj hjoint
      rw [hjoint, ih hrest hrest' htext]

theorem normalize_of_laysOut (h : l.LaysOut s) :
    normalize s = String.ofList (textOf (l.joints none)) := by
  obtain ⟨tail, hl, htail, hchars⟩ := h
  rw [normalize, hchars]
  exact congrArg String.ofList (normalizeFrom_spaced htail hl)

theorem normalize_eq_iff_joints (hl : l.LaysOut s) (hl' : l'.LaysOut s') :
    normalize s = normalize s' ↔ l.joints none = l'.joints none := by
  rw [normalize_of_laysOut hl, normalize_of_laysOut hl', String.ofList_inj]
  obtain ⟨-, hsound, -⟩ := hl
  obtain ⟨-, hsound', -⟩ := hl'
  exact ⟨textOf_inj hsound hsound', congrArg textOf⟩

/-- Two texts have the same normal form just if they are layouts of the same tokens, with blanks at
the same loose joints. -/
theorem normalize_eq_iff (s s' : String) :
    normalize s = normalize s' ↔
      ∃ l l' : Spaced, l.LaysOut s ∧ l'.LaysOut s' ∧ l.joints none = l'.joints none := by
  constructor
  · intro h
    obtain ⟨l, hl⟩ := exists_laysOut s
    obtain ⟨l', hl'⟩ := exists_laysOut s'
    exact ⟨l, l', hl, hl', (normalize_eq_iff_joints hl hl').mp h⟩
  · rintro ⟨l, l', hl, hl', h⟩
    exact (normalize_eq_iff_joints hl hl').mpr h

theorem joints_eq_of_parted (hl : l.Parted prev) (hl' : l'.Parted prev)
    (htokens : l.map Prod.snd = l'.map Prod.snd) : l.joints prev = l'.joints prev := by
  induction l generalizing prev l' with
  | nil =>
    obtain rfl := List.map_eq_nil_iff.mp htokens.symm
    rfl
  | cons p l ih =>
    cases l' with
    | nil => cases htokens
    | cons p' l' =>
      obtain ⟨blanks, t⟩ := p
      obtain ⟨blanks', t'⟩ := p'
      obtain ⟨rfl, hrest⟩ := List.cons.inj htokens
      have hgap : (!blanks.isEmpty && isLoose prev t) = (!blanks'.isEmpty && isLoose prev t) := by
        cases hloose : isLoose prev t with
        | false => rw [Bool.and_false, Bool.and_false]
        | true =>
          rw [List.isEmpty_eq_false_iff.mpr (hl.1 hloose),
            List.isEmpty_eq_false_iff.mpr (hl'.1 hloose)]
      rw [Spaced.joints, Spaced.joints, hgap, ih hl.2 hl'.2 hrest]

/-- Layouts of the same tokens that part them at every loose joint have the same normal form. -/
theorem normalize_eq_of_parted (hl : l.LaysOut s) (hl' : l'.LaysOut s') (hparted : l.Parted none)
    (hparted' : l'.Parted none) (htokens : l.map Prod.snd = l'.map Prod.snd) :
    normalize s = normalize s' :=
  (normalize_eq_iff_joints hl hl').mpr (joints_eq_of_parted hparted hparted' htokens)

/-- The joint in front of the second parenthesis is loose, so that a space that is missing there is
not made up. -/
example : normalize "(sequence (print 1))" = "(sequence (print 1))" ∧
    normalize "(sequence(print 1))" = "(sequence(print 1))" := by decide

end ClosureLang.Canonical
