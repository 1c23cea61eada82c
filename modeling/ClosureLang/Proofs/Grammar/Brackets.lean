import ClosureLang.Proofs.Grammar.Passage
import ClosureLang.Proofs.Text.Encoding

/-! Braces and parentheses in programs. Whatever a rule matches closes what it opens, and nothing
else. -/
namespace ClosureLang.Grammar

/-- What the bytes before an offset say about it. -/
inductive Mode where
  | comment
  /-- In a word, behind its first byte. Digits alone are no word. -/
  | word
  | free
deriving DecidableEq

def Mode.next (m : Mode) (b : UInt8) : Mode :=
  if m = comment then if b = lineFeed then free else comment
  else if b = hash then comment
  else if isIdentStart b || (m = word && isDigitByte b) then word
  else free

/-- In comments brackets do not count. -/
def Mode.weight (m : Mode) (b : UInt8) : Int := if m = comment then 0 else bracket b

def Mode.after (m : Mode) (bs : List UInt8) : Mode := bs.foldl Mode.next m

def depthFrom : Mode → List UInt8 → Int
  | _, [] => 0
  | m, b :: bs => m.weight b + depthFrom (m.next b) bs

def modeAt (src : ByteArray) (p : Nat) : Mode := Mode.free.after (src.data.toList.take p)

/-- How many brackets are open at an offset. -/
def depthAt (src : ByteArray) (p : Nat) : Int := depthFrom .free (src.data.toList.take p)

theorem depthFrom_append (m : Mode) (bs cs : List UInt8) :
    depthFrom m (bs ++ cs) = depthFrom m bs + depthFrom (m.after bs) cs := by
  induction bs generalizing m with
  | nil => simp [depthFrom, Mode.after]
  | cons b bs ih =>
    rw [List.cons_append, depthFrom, depthFrom, ih, Int.add_assoc]
    rfl

variable {src : ByteArray} {p q r : Nat} {b : UInt8}

theorem modeAt_succ (h : src[p]? = some b) : modeAt src (p + 1) = (modeAt src p).next b := by
  simp [modeAt, take_succ h, Mode.after]

theorem depthAt_succ (h : src[p]? = some b) :
    depthAt src (p + 1) = depthAt src p + (modeAt src p).weight b := by
  simp [depthAt, take_succ h, depthFrom_append, depthFrom, modeAt]

/-- No comment goes on at `p`. -/
def Clear (src : ByteArray) (p : Nat) : Prop := p < src.size → modeAt src p ≠ .comment

theorem clear_zero : Clear src 0 := fun _ => by simp [modeAt, Mode.after]

/-- Between `p` and `q` all brackets are closed that were opened there, and no others. -/
structure Level (src : ByteArray) (p q : Nat) : Prop where
  clear : Clear src q
  depth : depthAt src q = depthAt src p
  above : ∀ x, p ≤ x → x ≤ q → depthAt src p ≤ depthAt src x

theorem Level.refl (h : Clear src p) : Level src p p :=
  ⟨h, rfl, fun _ hx hx' => Int.le_of_eq (congrArg _ (Nat.le_antisymm hx hx'))⟩

theorem Level.trans (h : Level src p q) (h' : Level src q r) : Level src p r := by
  refine ⟨h'.clear, h'.depth.trans h.depth, fun x hx hx' => ?_⟩
  obtain hle | hge := Nat.le_total x q
  · exact h.above x hx hle
  · rw [← h.depth]
    exact h'.above x hge hx'

/-- A byte that is no bracket and starts no comment. -/
theorem Level.byte (hp : Clear src p) (hb : src[p]? = some b) (hbracket : bracket b = 0)
    (hhash : b ≠ hash) : Level src p (p + 1) := by
  have hmode := hp (lt_size hb)
  have hdepth : depthAt src (p + 1) = depthAt src p := by
    rw [depthAt_succ hb, Mode.weight, if_neg hmode, hbracket, Int.add_zero]
  refine ⟨fun _ => ?_, hdepth, fun x hx hx' => ?_⟩
  · rw [modeAt_succ hb, Mode.next, if_neg hmode, if_neg hhash]
    split <;> decide
  · obtain rfl | rfl : x = p ∨ x = p + 1 := by omega
    · exact Int.le_refl _
    · exact Int.le_of_eq hdepth.symm

/-- Layout changes nothing, and ends outside comments unless it ends the text. -/
theorem level_layoutLength (comment : Bool) (limit : Nat) (hl : src.size - p ≤ limit)
    (hmode : p < src.size → (modeAt src p = .comment ↔ comment = true)) :
    Clear src (p + layoutLength src comment limit p) ∧
      ∀ x, p ≤ x → x ≤ p + layoutLength src comment limit p → depthAt src x = depthAt src p := by
  induction limit generalizing p comment with
  | zero =>
    refine ⟨fun hlt => ?_, fun x hx hx' => ?_⟩
    · simp only [layoutLength] at hlt
      omega
    · simp only [layoutLength, Nat.add_zero] at hx'
      rw [Nat.le_antisymm hx' hx]
  | succ limit ih =>
    have hstay : Clear src p → Clear src (p + 0) ∧ ∀ x, p ≤ x → x ≤ p + 0 →
        depthAt src x = depthAt src p :=
      fun hp => ⟨hp, fun x hx hx' => congrArg _ (Nat.le_antisymm hx' hx)⟩
    rw [layoutLength]
    cases hb : src[p]? with
    | none =>
      refine hstay fun hlt => ?_
      simp [hlt] at hb
    | some b =>
      have hmode := hmode (lt_size hb)
      have hstep (c : Bool) (hweight : (modeAt src p).weight b = 0)
          (hnext : modeAt src (p + 1) = .comment ↔ c = true) :
          Clear src (p + (layoutLength src c limit (p + 1) + 1)) ∧
            ∀ x, p ≤ x → x ≤ p + (layoutLength src c limit (p + 1) + 1) →
              depthAt src x = depthAt src p := by
        have hdepth : depthAt src (p + 1) = depthAt src p := by
          rw [depthAt_succ hb, hweight, Int.add_zero]
        obtain ⟨hclear, hsame⟩ := ih c (by omega) fun _ => hnext
        rw [show p + (layoutLength src c limit (p + 1) + 1) =
          p + 1 + layoutLength src c limit (p + 1) by omega]
        refine ⟨hclear, fun x hx hx' => ?_⟩
        obtain rfl | hlt := Nat.eq_or_lt_of_le hx
        · rfl
        · rw [hsame x hlt hx', hdepth]
      have hnext := modeAt_succ hb
      simp only
      split
      · rename_i hcomment
        have hmode := hmode.mpr hcomment
        refine hstep _ (by rw [hmode]; rfl) ?_
        rw [hnext, hmode]
        by_cases hfeed : b = lineFeed <;> simp [Mode.next, hfeed]
      · rename_i hcomment
        have hmode : modeAt src p ≠ .comment := fun h => hcomment (hmode.mp h)
        split
        · rename_i hblank
          have hall : ∀ b : UInt8, isBlankByte b = true → bracket b = 0 ∧ b ≠ hash := by
            intro b hb
            simp only [isBlankByte, Bool.or_eq_true, decide_eq_true_eq] at hb
            rcases hb with ((rfl | rfl) | rfl) | rfl <;> decide
          obtain ⟨hbracket, hhash⟩ := hall b hblank
          refine hstep _ (by rw [Mode.weight, if_neg hmode, hbracket]) ?_
          rw [hnext, Mode.next, if_neg hmode, if_neg hhash]
          split <;> decide
        · split
          · rename_i hhash
            subst hhash
            refine hstep _ (by rw [Mode.weight, if_neg hmode]; rfl) ?_
            rw [hnext, Mode.next, if_neg hmode, if_pos rfl]
            decide
          · exact hstay fun _ => hmode

theorem level_layout (hp : Clear src p) : Level src p (layoutEnd src p) := by
  obtain ⟨hclear, hsame⟩ := level_layoutLength false (src.size - p) (Nat.le_refl _)
    fun hlt => ⟨fun hcomment => absurd hcomment (hp hlt), nofun⟩
  exact ⟨hclear, hsame _ (le_layoutEnd src p) (Nat.le_refl _),
    fun x hx hx' => Int.le_of_eq (hsame x hx hx').symm⟩

theorem isFlat_iff {b : UInt8} (h : isFlat b = true) : bracket b = 0 ∧ b ≠ hash := by
  have hflat : ∀ c : UInt8, isFlat c = false → b ≠ c := by
    rintro c hc rfl
    rw [h] at hc
    cases hc
  simp [bracket, hflat _ (show isFlat 0x7b = false by decide),
    hflat _ (show isFlat 0x28 = false by decide), hflat _ (show isFlat 0x7d = false by decide),
    hflat _ (show isFlat 0x29 = false by decide), hflat hash (by decide)]

/-- What stands between an opening and a closing bracket. -/
theorem level_bracketed {o c : UInt8} (hp : Clear src p) (ho : src[p]? = some o)
    (hopen : bracket o = 1) (hinner : Clear src (p + 1) → Level src (p + 1) q)
    (hc : src[q]? = some c) (hclose : bracket c = -1) :
    Level src p (q + 1) := by
  have hhash : ∀ b, bracket b ≠ 0 → b ≠ hash := by
    rintro b hb rfl
    exact hb rfl
  have hnext {m : Mode} {b : UInt8} (hm : m ≠ .comment) (hb : bracket b ≠ 0) :
      m.next b ≠ .comment := by
    rw [Mode.next, if_neg hm, if_neg (hhash b hb)]
    split <;> decide
  have hmode := hp (lt_size ho)
  have hinner := hinner fun _ => by
    rw [modeAt_succ ho]
    exact hnext hmode (by omega)
  have hmode' := hinner.clear (lt_size hc)
  have hup : depthAt src (p + 1) = depthAt src p + 1 := by
    rw [depthAt_succ ho, Mode.weight, if_neg hmode, hopen]
  have hdown : depthAt src (q + 1) = depthAt src p := by
    have hdepth := hinner.depth
    rw [depthAt_succ hc, Mode.weight, if_neg hmode', hclose]
    omega
  refine ⟨fun _ => ?_, hdown, fun x hx hx' => ?_⟩
  · rw [modeAt_succ hc]
    exact hnext hmode' (by omega)
  · obtain rfl | hlt := Nat.eq_or_lt_of_le hx
    · exact Int.le_refl _
    · obtain hle | rfl : x ≤ q ∨ x = q + 1 := by omega
      · have habove := hinner.above x hlt hle
        omega
      · exact Int.le_of_eq hdown.symm

/-- A match closes what it opens, if no comment goes on where it starts. -/
def leveling (src : ByteArray) : Passage src where
  Goes p q := Clear src p → Level src p q
  refl := .refl
  trans h h' hp := (h hp).trans (h' (h hp).clear)
  layout := level_layout
  flat hb h hp := .byte hp hb (isFlat_iff h).1 (isFlat_iff h).2
  bracketed ho hpair hinner hc hp :=
    level_bracketed hp ho (bracket_of_paired hpair).1 hinner hc (bracket_of_paired hpair).2

/-- Every match closes what it opens. -/
theorem level_of_read {n : Nonterminal} {m : Tree × Nat} (hp : p ≤ src.size)
    (h : read src n p = some m) (hclear : Clear src p) : Level src p m.2 :=
  (leveling src).goes_of_read hp h hclear

end ClosureLang.Grammar
