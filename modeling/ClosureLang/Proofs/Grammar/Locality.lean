import ClosureLang.Proofs.Grammar.Following

/-! Syntax errors are local. Nothing behind the first blank or comment after the offset of an error
has a part in it. -/
namespace ClosureLang.Grammar

variable {src : ByteArray} {p q : Nat} {α β : Type}

/-- A match does not end behind the farthest missing token. -/
def Within (stop : α → Option Nat) (x : Parse α) (m : Memo) : Prop :=
  ∀ s, stop (x m).1 = some s → s ≤ (x m).2.farthest

theorem Within.bind {stop : β → Option Nat} {x : Parse α} {f : α → Parse β} {m : Memo}
    (hf : Within stop (f (x m).1) (x m).2) : Within stop (x >>= f) m := hf

theorem Within.result {stop : α → Option Nat} {a : α} {m : Memo} (ha : stop a = some q)
    (hle : q ≤ m.farthest) : Within stop (pure a) m := by
  intro s hs
  obtain rfl : q = s := Option.some.inj (ha.symm.trans hs)
  exact hle

/-- A chain of operations ends where a further operator is missing. -/
theorem within_operations (operand : Rule) (hr : operand ≠ .space ∧ operand ≠ .program)
    (ops : List BinaryOp) (hops : ops ≠ []) (limit : Nat) (t : Tree) (hq : Reached src (p + 1) q)
    (hlimit : src.size < q + limit) (m : Memo) :
    Within (fun v => some v.stop) (operations src (inside src) operand ops limit t q) m := by
  induction limit generalizing t q m with
  | zero =>
    have hle := hq.le
    omega
  | succ limit ih =>
    have hoperation : Follows src src src.size (p + 1) False q (Option.map fun o => o.2.2.stop)
        (operation src (inside src) operand q ops) (operation src (inside src) operand q ops) :=
      follows_operation (r := .expr) rulesFollow operand hr.1 ops hops hq
    refine .bind ?_
    cases ho : (operation src (inside src) operand q ops m).1 with
    | none => exact .result rfl (hoperation.missed not_false m (by rw [ho]; rfl))
    | some o =>
      obtain ⟨op, i, v⟩ := o
      obtain ⟨-, hreached⟩ := hoperation.ends m v.stop (by rw [ho]; rfl)
      have hlt : q < v.stop := (moves_inside.operation operand ops q hr hq.le m _ ho).1
      exact ih _ hreached (by omega) _

/-- Statements end where a further one is missing. -/
theorem within_statements (limit : Nat) (hq : Spot src q) (hlimit : src.size < q + limit)
    (m : Memo) : Within (fun l => some l.2) (statements (inside src) limit q) m := by
  induction limit generalizing q m with
  | zero =>
    have hle := hq.le
    omega
  | succ limit ih =>
    have hstatement : Follows src src src.size (q + 1) False q (Option.map Match.stop)
        (inside src .statement q)
        (inside src .statement q) := follows_inside (by decide) hq.begins (.inr ⟨rfl, by decide⟩)
    refine .bind ?_
    cases ho : (inside src .statement q m).1 with
    | none => exact .result rfl (hstatement.missed not_false m (by rw [ho]; rfl))
    | some v =>
      obtain ⟨-, hreached⟩ := hstatement.ends m v.stop (by rw [ho]; rfl)
      have hlt := hreached.bound_le
      exact ih hreached.toSpot (by omega) _

/-- What a whole text is parsed as ends up to the farthest missing token. -/
theorem within_start (start : Start) (m : Memo) :
    Within (Option.map Match.stop) (inside src start.rule 0) m := by
  have hbegins : Begins src 0 (layoutEnd src 0) := ⟨Nat.zero_le _, clear_zero, rfl⟩
  rw [inside_eq hbegins.le, plain_eq_inside _ hbegins.le]
  cases start with
  | program =>
    show Within (Option.map Match.stop) (programRule src (inside src) 0) m
    rw [programRule, skip_inside hbegins.le, pure_bind]
    have hstatements := within_statements (src.size + 1) hbegins.spot (by omega) m
    exact .bind (.result rfl (hstatements _ rfl))
  | expression =>
    have hand : Follows src src src.size 1 False (layoutEnd src 0) (Option.map Match.stop)
        (inside src .and 0)
        (inside src .and 0) := follows_inside (by decide) hbegins (.inr ⟨rfl, by decide⟩)
    refine .bind ?_
    cases ho : (inside src .and 0 m).1 with
    | none => exact nofun
    | some v =>
      obtain ⟨-, hreached⟩ := hand.ends m v.stop (by rw [ho]; rfl)
      have hoperations := within_operations .and (by decide) [.or] (by decide) (src.size + 1)
        v.node hreached (by omega) (inside src .and 0 m).2
      exact .bind (.result rfl (hoperations _ rfl))

/-- What a new parser answers about a text. -/
def answer (src : ByteArray) (start : Start) : Except SyntaxError Tree :=
  let run := whole src start.rule (.empty src.size)
  verdict src run.2.farthest run.1

theorem parseProgram_eq (src : String) : parseProgram src = answer src.toUTF8 .program := rfl

theorem parseExpression_eq (src : String) :
    parseExpression src = answer src.toUTF8 .expression := rfl

/-- One run of the rule tells the answer. -/
theorem answer_eq (src : ByteArray) (start : Start) :
    answer src start = verdict src (inside src start.rule 0 (.empty 0)).2.farthest
      (inside src start.rule 0 (.empty 0)).1 := by
  have hle : 0 ≤ src.size := Nat.zero_le _
  obtain ⟨hout, hcovers⟩ := covers_whole start.rule (covers_empty src)
  have hfar : (whole src start.rule (.empty src.size)).2.farthest = far src start.rule 0 := by
    simpa using hcovers.farthest
  rw [answer, hout, hfar, value_inside hle, inside_eq hle]
  rfl

/-- The byte at `p` belongs to a token: it is neither a blank nor part of a comment. -/
def InToken (src : ByteArray) (p : Nat) : Prop :=
  ∃ b, src[p]? = some b ∧ isLayoutByte b = false ∧ modeAt src p ≠ .comment

theorem Spot.inToken (h : Spot src p) : p = src.size ∨ InToken src p := by
  obtain heq | hlt := Nat.eq_or_lt_of_le h.le
  · exact .inl heq
  · obtain ⟨hblank, hhash⟩ := h.settled src[p] (by simp [hlt])
    exact .inr ⟨src[p], by simp [hlt], by simp [isLayoutByte, hblank, hhash], h.clear hlt⟩

theorem verdict_of_lt {o : Outcome} {far : Nat}
    (h : ∀ s, o.map Match.stop = some s → s < src.size) : verdict src far o = .error ⟨far⟩ := by
  cases o with
  | none => rfl
  | some m => exact if_neg (Nat.ne_of_lt (h m.stop rfl))

theorem begins_zero (src : ByteArray) : Begins src 0 (layoutEnd src 0) :=
  ⟨Nat.zero_le _, clear_zero, rfl⟩

theorem follows_start (src src' : ByteArray) (w : Nat) (start : Start) :
    Follows src src' w 0 False (layoutEnd src 0) (Option.map Match.stop) (inside src start.rule 0)
      (inside src' start.rule 0) :=
  follows_inside (by cases start <;> decide) (begins_zero src) (.inl (Nat.zero_le _))

/-- Where the text begins, or further right, a token is missing in every parse. -/
theorem start_le_farthest (src : ByteArray) (start : Start) (m : Memo) :
    layoutEnd src 0 ≤ (inside src start.rule 0 m).2.farthest := by
  have hfollows := follows_start src src src.size start
  cases ho : (inside src start.rule 0 m).1 with
  | none => exact hfollows.missed not_false m (by rw [ho]; rfl)
  | some v =>
    have hstop : (inside src start.rule 0 m).1.map Match.stop = some v.stop := by rw [ho]; rfl
    exact Nat.le_trans (hfollows.ends m v.stop hstop).1 (within_start start m v.stop hstop)

theorem spot_farthest (src : ByteArray) (start : Start) :
    Spot src (inside src start.rule 0 (.empty 0)).2.farthest := by
  obtain hzero | hspot := (follows_start src src src.size start).records (.empty 0)
  · -- nothing was recorded, so the first token stands at the start
    have hle := start_le_farthest src start (.empty 0)
    have hbegin : layoutEnd src 0 = (inside src start.rule 0 (.empty 0)).2.farthest := by
      rw [hzero] at hle ⊢
      exact Nat.le_antisymm hle (Nat.zero_le _)
    exact hbegin ▸ (begins_zero src).spot
  · exact hspot

/-- The errors of a parser are local. The offset of one is the end of the text or that of a token,
and the text that follows the next blank or comment behind it plays no part: any text with the same
bytes up to there has the same error. -/
def LocalErrors (bytes : β → ByteArray) (parse : β → Except SyntaxError Tree) : Prop :=
  ∀ src e, parse src = .error e →
    (e.offset = (bytes src).size ∨ InToken (bytes src) e.offset) ∧
    ∀ w src', e.offset ≤ w → Shared (bytes src) (bytes src') w → parse src' = .error e

theorem LocalErrors.comp {γ : Type} {bytes : β → ByteArray} {parse : β → Except SyntaxError Tree}
    (h : LocalErrors bytes parse) (f : γ → β) :
    LocalErrors (fun src => bytes (f src)) (fun src => parse (f src)) := fun src e he =>
  ⟨(h (f src) e he).1, fun w src' => (h (f src) e he).2 w (f src')⟩

theorem local_answer (start : Start) : LocalErrors id (answer · start) := by
  intro src e h
  simp only [answer_eq] at h
  obtain ⟨far⟩ := e
  obtain rfl : far = (inside src start.rule 0 (.empty 0)).2.farthest := verdict_error h
  refine ⟨(spot_farthest src start).inToken, fun w src' hle hw => ?_⟩
  have hstop : ∀ s, (inside src start.rule 0 (.empty 0)).1.map Match.stop = some s → s ≤ w :=
    fun s hs => Nat.le_trans (within_start start (.empty 0) s hs) hle
  obtain ⟨hvalue, hfar⟩ := (follows_start src src' w start).same hw
    (Nat.le_trans (start_le_farthest src start (.empty 0)) hle) (.empty 0) (.empty 0) rfl hle hstop
  simp only [answer_eq, hvalue, hfar]
  exact verdict_of_lt fun s hs => Nat.lt_of_le_of_lt (hstop s hs) hw.lt_size'

/-- The errors of programs and of expressions are local, also in texts that are no valid strings. -/
theorem error_local :
    LocalErrors String.toUTF8 parseProgram ∧ LocalErrors String.toUTF8 parseExpression ∧
      ∀ start, LocalErrors id (answer · start) := by
  have hprogram : parseProgram = fun src => answer src.toUTF8 .program := funext parseProgram_eq
  have hexpression : parseExpression = fun src => answer src.toUTF8 .expression :=
    funext parseExpression_eq
  refine ⟨?_, ?_, local_answer⟩
  · rw [hprogram]
    exact (local_answer .program).comp String.toUTF8
  · rw [hexpression]
    exact (local_answer .expression).comp String.toUTF8

theorem error_local_print :
    parseProgram "print 1 2 ;" = .error ⟨8⟩ ∧
      Shared "print 1 2 ;".toUTF8 "print 1 2 # three".toUTF8 9 ∧ InToken "print 1 2 ;".toUTF8 8 ∧
      parseProgram "print 1 2 # three" = .error ⟨8⟩ := by
  have hshared : Shared "print 1 2 ;".toUTF8 "print 1 2 # three".toUTF8 9 :=
    ⟨by decide +kernel, by decide +kernel⟩
  have hoffset : (parseProgram "print 1 2 ;").casesOn (fun e => some e.offset) (fun _ => none) =
      some 8 := by decide +kernel
  cases h : parseProgram "print 1 2 ;" with
  | ok t =>
    rw [h] at hoffset
    cases hoffset
  | error e =>
    rw [h] at hoffset
    obtain ⟨k⟩ := e
    obtain rfl : k = 8 := Option.some.inj hoffset
    obtain ⟨hplace, hlocal⟩ := error_local.1 _ _ h
    exact ⟨rfl, hshared, hplace.resolve_left (by decide), hlocal 9 _ (by decide) hshared⟩

end ClosureLang.Grammar
