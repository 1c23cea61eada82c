import ClosureLang.Grammar.Parser
import ClosureLang.Proofs.Grammar.Bodies

/-! The table of rule applications changes nothing but the counters: a parser that keeps its table
from one request to the next answers as one that starts afresh. -/
namespace ClosureLang.Grammar

variable {S : Memo → Memo → Prop} {src : ByteArray} {r : Rule} {d d' p : Nat}

/-- Applies rules without looking at the table. -/
def applyPlain (src : ByteArray) : Nat → Rule → Nat → Parse Outcome
  | 0, _, _ => return none
  | depth + 1, r, p => body src (applyPlain src depth) r p

/-- How deep applications can be nested below that of `r` at `p`. -/
def Rule.need (src : ByteArray) (r : Rule) (p : Nat) : Nat := 14 * (src.size - p) + r.rank + 1

theorem rank_lt (r : Rule) : r.rank < 14 := by cases r <;> decide

theorem need_lt_of_rank {r' : Rule} {q : Nat} (hpq : p ≤ q) (h : r'.rank < r.rank) :
    r'.need src q < r.need src p := by
  simp only [Rule.need]
  omega

theorem need_lt_of_lt {r' : Rule} {q : Nat} (hpq : p < q) (hq : q ≤ src.size) :
    r'.need src q < r.need src p := by
  have := rank_lt r'
  simp only [Rule.need]
  omega

theorem need_lt_depthBound (r : Rule) (p : Nat) : r.need src p < depthBound src := by
  have := rank_lt r
  have hall : Rule.all.length = 27 := rfl
  simp only [Rule.need, depthBound, hall]
  omega

/-- Ways of applying rules that are right where there is depth enough make a body right. -/
theorem known_of_depth {apply apply' : Rule → Nat → Parse Outcome} (hd : r.need src p ≤ d + 1)
    (h : ∀ r' q, q ≤ src.size → r'.need src q ≤ d →
      Yields S (apply r' q) (apply' r' q) (reading src r' q)) :
    Known S src apply apply' r.rank p where
  lower r' q hpq hq hr := by
    have : r'.need src q < r.need src p := need_lt_of_rank hpq hr
    exact h r' q hq (by omega)
  ahead r' q hpq hq := by
    have : r'.need src q < r.need src p := need_lt_of_lt hpq hq
    exact h r' q hq (by omega)

theorem yields_applyPlain (hS : Recording S) (hp : p ≤ src.size) (hd : r.need src p ≤ d)
    (hd' : r.need src p ≤ d') :
    Yields S (applyPlain src d r p) (applyPlain src d' r p) (reading src r p) := by
  induction d generalizing d' r p with
  | zero => simp [Rule.need] at hd
  | succ d ih =>
    cases d' with
    | zero => simp [Rule.need] at hd'
    | succ d' =>
      refine yields_body hS r hp ?_
      constructor
      · intro r' q hpq hq hr
        have : r'.need src q < r.need src p := need_lt_of_rank hpq hr
        exact ih hq (by omega) (by omega)
      · intro r' q hpq hq
        have : r'.need src q < r.need src p := need_lt_of_lt hpq hq
        exact ih hq (by omega) (by omega)

theorem eq_of_yields {α : Type} {x y : Parse α} {a : α} (h : Yields Eq x y a) : x = y := by
  funext m
  obtain ⟨h₁, h₂, h₃⟩ := h m m rfl
  exact Prod.ext (h₁.trans h₂.symm) h₃

theorem recording_eq : Recording Eq := fun _ _ _ h => h ▸ rfl

/-- Applies a rule without the table, as deep as it takes. -/
def plain (src : ByteArray) : Rule → Nat → Parse Outcome := applyPlain src (depthBound src)

theorem plain_eq (r : Rule) (hp : p ≤ src.size) : plain src r p = body src (plain src) r p := by
  have hdepth : r.need src p < depthBound src := need_lt_depthBound r p
  obtain ⟨d, hd⟩ : ∃ d, depthBound src = d + 1 := ⟨depthBound src - 1, by omega⟩
  have hbody : plain src r p = body src (applyPlain src d) r p := by
    rw [plain, hd]
    rfl
  rw [hbody]
  refine eq_of_yields (yields_body recording_eq r hp (known_of_depth (d := d) (by omega) ?_))
  intro r' q hq hneed
  exact yields_applyPlain recording_eq hq hneed (by omega)

theorem yields_plain (hS : Recording S) (hp : p ≤ src.size) :
    Yields S (plain src r p) (plain src r p) (reading src r p) :=
  yields_applyPlain hS hp (Nat.le_of_lt (need_lt_depthBound r p))
    (Nat.le_of_lt (need_lt_depthBound r p))

/-- How far the parse gets when a rule is applied. -/
def far (src : ByteArray) (r : Rule) (p : Nat) : Nat := (plain src r p (.empty 0)).2.farthest

theorem farthest_plain (hp : p ≤ src.size) (m : Memo) :
    (plain src r p m).2.farthest = max m.farthest (far src r p) := by
  have hS : Recording fun n n' : Memo => n'.farthest = max m.farthest n.farthest := by
    intro n n' q h
    simp only [Memo.reach, h]
    omega
  have hstart : m.farthest = max m.farthest (Memo.empty 0).farthest := by simp [Memo.empty]
  exact (yields_plain hS hp (.empty 0) m hstart).2.2

/-- What the table of a text may hold: outcomes that the grammar gives, with the missing tokens on
the way to them recorded. -/
structure Sound (src : ByteArray) (m : Memo) : Prop where
  rows : m.rows.size = src.size + 1
  entries : ∀ {r p o}, m.find? r p = some o → o = reading src r p ∧ far src r p ≤ m.farthest

theorem find?_insert (m : Memo) (r r' : Rule) (p p' : Nat) (o : Outcome) (hp : p < m.rows.size) :
    (m.insert r p o).find? r' p' = if p' = p ∧ r' = r then some o else m.find? r' p' := by
  by_cases hpp : p' = p
  · subst hpp
    by_cases hr : r' = r
    · simp [Memo.find?, Memo.insert, hp, hr, Array.getElem_modify]
    · have hbeq : (r' == r) = false := by simpa using hr
      simp [Memo.find?, Memo.insert, hp, hr, Array.getElem_modify, List.lookup_cons, hbeq]
  · have hne : ¬ p = p' := Ne.symm hpp
    simp [Memo.find?, Memo.insert, Array.getElem?_modify, hpp, hne]

theorem find?_lt {m : Memo} {o : Outcome} (h : m.find? r p = some o) : p < m.rows.size := by
  rcases Nat.lt_or_ge p m.rows.size with hp | hp
  · exact hp
  · simp [Memo.find?, hp] at h

theorem sound_empty (src : ByteArray) : Sound src (.empty src.size) where
  rows := by simp [Memo.empty]
  entries {r p o} h := by
    have hp := find?_lt h
    simp only [Memo.empty, Array.size_replicate] at hp
    simp [Memo.find?, Memo.empty, hp] at h

theorem Sound.insert {m : Memo} (hm : Sound src m) (hp : p ≤ src.size)
    (hfar : far src r p ≤ m.farthest) : Sound src (m.insert r p (reading src r p)) where
  rows := by simp [Memo.insert, hm.rows]
  entries {r' p' o} h := by
    rw [find?_insert _ _ _ _ _ _ (by have := hm.rows; omega)] at h
    split at h
    · next heq =>
      obtain ⟨rfl, rfl⟩ := heq
      exact ⟨(Option.some.inj h).symm, hfar⟩
    · exact hm.entries h

/-- A sound table that still has the outcomes of `kept`, next to a parse without the table. -/
structure InStep (src : ByteArray) (kept : Rule → Nat → Prop) (m n : Memo) : Prop where
  sound : Sound src m
  kept : ∀ r p, kept r p → (m.find? r p).isSome
  farthest : m.farthest = n.farthest

variable {kept : Rule → Nat → Prop}

theorem recording_inStep : Recording (InStep src kept) := by
  intro m n p h
  have hle : m.farthest ≤ (m.reach p).farthest := Nat.le_max_left _ _
  refine ⟨⟨h.sound.rows, ?_⟩, h.kept, ?_⟩
  · intro r q o ho
    exact ⟨(h.sound.entries ho).1, Nat.le_trans (h.sound.entries ho).2 hle⟩
  · simp only [Memo.reach, h.farthest]

theorem InStep.hit {m n : Memo} (h : InStep src kept m n) : InStep src kept m.hit n :=
  ⟨⟨h.sound.rows, h.sound.entries⟩, h.kept, h.farthest⟩

theorem InStep.miss {m n : Memo} (h : InStep src kept m n) : InStep src kept m.miss n :=
  ⟨⟨h.sound.rows, h.sound.entries⟩, h.kept, h.farthest⟩

theorem InStep.insert {m n : Memo} (h : InStep src kept m n) (hp : p ≤ src.size)
    (hfar : far src r p ≤ m.farthest) :
    InStep src (fun r' p' => kept r' p' ∨ (r' = r ∧ p' = p))
      (m.insert r p (reading src r p)) n where
  sound := h.sound.insert hp hfar
  farthest := h.farthest
  kept r' p' hk := by
    rw [find?_insert _ _ _ _ _ _ (by have := h.sound.rows; omega)]
    split
    · rfl
    · next hne => exact h.kept r' p' (hk.resolve_right fun heq => hne ⟨heq.2, heq.1⟩)

theorem InStep.mono {kept' : Rule → Nat → Prop} {m n : Memo} (h : InStep src kept m n)
    (hkept : ∀ r p, kept' r p → kept r p) : InStep src kept' m n :=
  ⟨h.sound, fun r p hk => h.kept r p (hkept r p hk), h.farthest⟩

/-- The outcome of `r` at `p` from the table, or else a new one. -/
def throughTable (r : Rule) (p : Nat) (compute : Parse Outcome) : Parse Outcome := do
  match (← get).find? r p with
  | some out =>
    modify Memo.hit
    return out
  | none =>
    modify Memo.miss
    let out ← compute
    modify (·.insert r p out)
    return out

theorem applyMemo_succ :
    applyMemo src (d + 1) r p = throughTable r p (body src (applyMemo src d) r p) := rfl

theorem get_bind {α : Type} (f : Memo → Parse α) (m : Memo) : (get >>= f) m = f m m := rfl

theorem throughTable_hit {compute : Parse Outcome} {m : Memo} {o : Outcome}
    (h : m.find? r p = some o) : throughTable r p compute m = (o, m.hit) := by
  rw [throughTable, get_bind, h]
  rfl

theorem throughTable_miss {compute : Parse Outcome} {m : Memo} (h : m.find? r p = none) :
    throughTable r p compute m =
      ((compute m.miss).1, (compute m.miss).2.insert r p (compute m.miss).1) := by
  rw [throughTable, get_bind, h]
  rfl

/-- One application through the table: it comes to what the grammar says, keeps what the table had
and adds its own outcome. -/
theorem inStep_applyMemo {m n : Memo} (hp : p ≤ src.size) (hd : r.need src p ≤ d)
    (h : InStep src kept m n) :
    (applyMemo src d r p m).1 = reading src r p ∧
    InStep src (fun r' p' => kept r' p' ∨ (r' = r ∧ p' = p))
      (applyMemo src d r p m).2 (plain src r p n).2 := by
  induction d generalizing r p kept m n with
  | zero => simp [Rule.need] at hd
  | succ d ih =>
    have hplain := farthest_plain (r := r) hp n
    cases hfind : m.find? r p with
    | some o =>
      obtain ⟨ho, hfar⟩ := h.sound.entries hfind
      rw [applyMemo_succ, throughTable_hit hfind]
      refine ⟨ho, h.hit.sound, ?_, ?_⟩
      · rintro r' p' (hk | ⟨rfl, rfl⟩)
        · exact h.kept r' p' hk
        · exact Option.isSome_iff_exists.mpr ⟨o, hfind⟩
      · -- whatever a parse without the table would miss here is recorded already
        show m.farthest = _
        have := h.farthest
        omega
    | none =>
      have hbody : Yields (InStep src kept) (body src (applyMemo src d) r p)
          (body src (plain src) r p) (reading src r p) := by
        refine yields_body recording_inStep r hp (known_of_depth hd ?_)
        intro r' q hq hneed m' n' h'
        obtain ⟨hout, hstep⟩ := ih hq hneed h'
        exact ⟨hout, (yields_plain recording_eq hq n' n' rfl).1, hstep.mono fun _ _ => Or.inl⟩
      rw [← plain_eq r hp] at hbody
      obtain ⟨hout, -, hstep⟩ := hbody m.miss n h.miss
      have hfar : far src r p ≤ (body src (applyMemo src d) r p m.miss).2.farthest := by
        have := hstep.farthest
        omega
      simp only [applyMemo_succ, throughTable_miss hfind, hout]
      exact ⟨trivial, hstep.insert hp hfar⟩

/-- What a text can be parsed as. -/
inductive Start where
  | program | expression
deriving DecidableEq

def Start.rule : Start → Rule
  | .program => .program
  | .expression => .expr

/-- A call of a parser. -/
structure Request where
  start : Start
  text : String
deriving DecidableEq

namespace Parser

def serve (P : Parser) (q : Request) : Except SyntaxError Tree × Parser :=
  P.parseAll q.start.rule q.text

/-- The parser after the given requests, of which the first is the latest. -/
def after : List Request → Parser
  | [] => {}
  | q :: past => ((after past).serve q).2

end Parser

/-- The latest requests, as long as they are about `text`. -/
def sinceChange (text : String) (past : List Request) : List Request :=
  past.takeWhile (·.text = text)

/-- The farthest offset a new parser holds after a request. -/
def freshFarthest (q : Request) : Nat := (Parser.serve {} q).2.memo.farthest

/-- A table of `src` from which the rules of `calls` have been applied to the whole text. -/
structure Covers (src : ByteArray) (calls : List Rule) (m : Memo) : Prop where
  sound : Sound src m
  kept : ∀ r ∈ calls, (m.find? r 0).isSome
  farthest : m.farthest = (calls.map (far src · 0)).foldr max 0

theorem covers_empty (src : ByteArray) : Covers src [] (.empty src.size) :=
  ⟨sound_empty src, by simp, rfl⟩

/-- The rule applied to the whole text, from a table of that text. -/
def whole (src : ByteArray) (r : Rule) (m : Memo) : Outcome × Memo :=
  applyMemo src (depthBound src) r 0 m

theorem covers_whole {calls : List Rule} {m : Memo} (r : Rule) (h : Covers src calls m) :
    (whole src r m).1 = reading src r 0 ∧ Covers src (r :: calls) (whole src r m).2 := by
  have hstep : InStep src (fun r p => r ∈ calls ∧ p = 0) m m :=
    ⟨h.sound, fun r p hk => hk.2 ▸ h.kept r hk.1, rfl⟩
  obtain ⟨hout, hnext⟩ :=
    inStep_applyMemo (r := r) (Nat.zero_le _) (Nat.le_of_lt (need_lt_depthBound r 0)) hstep
  refine ⟨hout, hnext.sound, ?_, ?_⟩
  · intro r' hr'
    refine hnext.kept r' 0 ?_
    rcases List.mem_cons.mp hr' with rfl | hmem
    · exact Or.inr ⟨rfl, rfl⟩
    · exact Or.inl ⟨hmem, rfl⟩
  · have hfar : (whole src r m).2.farthest = (plain src r 0 m).2.farthest := hnext.farthest
    rw [hfar, farthest_plain (Nat.zero_le _), h.farthest]
    simp [Nat.max_comm]

/-- The answer to a request, from the outcome of its rule and the farthest missing token. -/
def verdict (src : ByteArray) (farthest : Nat) : Outcome → Except SyntaxError Tree
  | some m => if m.stop = src.size then .ok m.node else .error ⟨farthest⟩
  | none => .error ⟨farthest⟩

theorem verdict_ok {o : Outcome} {far far' : Nat} {t : Tree} :
    verdict src far o = .ok t ↔ verdict src far' o = .ok t := by
  cases o with
  | none => simp [verdict]
  | some m => by_cases h : m.stop = src.size <;> simp [verdict, h]

theorem verdict_error {o : Outcome} {far : Nat} {e : SyntaxError}
    (h : verdict src far o = .error e) : e.offset = far := by
  cases o with
  | none => cases h; rfl
  | some m =>
    simp only [verdict] at h
    split at h
    · cases h
    · cases h; rfl

theorem serve_eq (P : Parser) (q : Request) :
    P.serve q =
      let run := whole q.text.toUTF8 q.start.rule (P.memoFor q.text)
      (verdict q.text.toUTF8 run.2.farthest run.1, ⟨some (q.text, run.2)⟩) := by
  simp only [Parser.serve, Parser.parseAll, StateT.run]
  rfl

/-- The run lemma: what the table of a text holds, after any requests. -/
theorem covers_memoFor (text : String) (past : List Request) :
    Covers text.toUTF8 ((sinceChange text past).map (·.start.rule))
      ((Parser.after past).memoFor text) := by
  induction past with
  | nil => exact covers_empty text.toUTF8
  | cons q past ih =>
    by_cases htext : q.text = text
    · subst htext
      have hsince : sinceChange q.text (q :: past) = q :: sinceChange q.text past := by
        simp [sinceChange]
      rw [hsince]
      simpa [Parser.after, serve_eq, Parser.memoFor] using (covers_whole q.start.rule ih).2
    · have hsince : sinceChange text (q :: past) = [] := by simp [sinceChange, htext]
      rw [hsince]
      simpa [Parser.after, serve_eq, Parser.memoFor, htext] using covers_empty text.toUTF8

theorem freshFarthest_eq (q : Request) : freshFarthest q = far q.text.toUTF8 q.start.rule 0 := by
  have hcovers := (covers_whole q.start.rule (covers_empty q.text.toUTF8)).2.farthest
  simpa [freshFarthest, serve_eq, Parser.memo, Parser.memoFor] using hcovers

theorem max?_cons_foldr (n : Nat) (ns : List Nat) :
    (n :: ns).max? = some (max n (ns.foldr max 0)) := by
  induction ns generalizing n with
  | nil => simp
  | cons k ns ih =>
    have := ih (max n k)
    rw [List.max?_cons'] at this ⊢
    simp only [List.foldl_cons, List.foldr_cons] at this ⊢
    rw [this, Nat.max_assoc]

theorem text_of_mem_sinceChange {q : Request} {text : String} {past : List Request}
    (h : q ∈ sinceChange text past) : q.text = text := by
  have hall : (sinceChange text past).all (·.text = text) = true := List.all_takeWhile
  simpa using List.all_eq_true.mp hall q h

theorem map_freshFarthest_sinceChange (text : String) (past : List Request) :
    (sinceChange text past).map freshFarthest =
      ((sinceChange text past).map (·.start.rule)).map (far text.toUTF8 · 0) := by
  rw [List.map_map]
  refine List.map_congr_left fun q hq => ?_
  rw [freshFarthest_eq, text_of_mem_sinceChange hq]
  rfl

/-- The table of the latest text is the one in use. -/
theorem memoFor_eq_memo {text : String} {past : List Request} (h : sinceChange text past ≠ []) :
    (Parser.after past).memoFor text = (Parser.after past).memo := by
  cases past with
  | nil => exact absurd rfl h
  | cons q past =>
    have htext : q.text = text := by
      by_cases htext : q.text = text
      · exact htext
      · exact absurd (by simp [sinceChange, htext]) h
    simp [Parser.after, serve_eq, Parser.memoFor, Parser.memo, htext]

theorem whole_of_find? {m : Memo} (h : (m.find? r 0).isSome) : (whole src r m).2 = m.hit := by
  obtain ⟨o, ho⟩ := Option.isSome_iff_exists.mp h
  have hdepth : depthBound src = Rule.all.length * (src.size + 1) + 1 := rfl
  rw [whole, hdepth, applyMemo_succ, throughTable_hit ho]

/-- A parser that has served any requests answers as a new one does, up to the offset of its error:
that is the farthest any request about the same text got since the text changed. A request made
before about that text is answered by one look at the table. -/
theorem serve_after (past : List Request) (q : Request) :
    (∀ t, ((Parser.after past).serve q).1 = .ok t ↔ (Parser.serve {} q).1 = .ok t) ∧
    (∀ e, ((Parser.after past).serve q).1 = .error e →
      ((q :: sinceChange q.text past).map freshFarthest).max? = some e.offset) ∧
    (q ∈ sinceChange q.text past →
      ((Parser.after past).serve q).2.memo.hits = (Parser.after past).memo.hits + 1 ∧
      ((Parser.after past).serve q).2.memo.misses = (Parser.after past).memo.misses) := by
  have hcovers := covers_memoFor q.text past
  have hwhole := covers_whole q.start.rule hcovers
  have hfresh := covers_whole q.start.rule (covers_empty q.text.toUTF8)
  refine ⟨?_, ?_, ?_⟩
  · intro t
    have hnew : Parser.memoFor {} q.text = .empty q.text.toUTF8.size := rfl
    simp only [serve_eq, hwhole.1, hnew, hfresh.1]
    exact verdict_ok
  · intro e he
    rw [serve_eq] at he
    rw [verdict_error he, hwhole.2.farthest, List.map_cons, max?_cons_foldr, freshFarthest_eq,
      map_freshFarthest_sinceChange]
    rfl
  · intro hmem
    have hkept := hcovers.kept q.start.rule (List.mem_map_of_mem hmem)
    rw [← memoFor_eq_memo (List.ne_nil_of_mem hmem), serve_eq]
    simp only [Parser.memo, whole_of_find? hkept]
    exact ⟨rfl, rfl⟩

/-! A text parses exactly as the grammar derives it. -/

open Peg

theorem verdict_ofRead {src : ByteArray} {o : Option (Tree × Nat)} {far : Nat} {t : Tree} :
    verdict src far (ofRead o) = .ok t ↔ o = some (t, src.size) := by
  cases o with
  | none => simp [verdict, ofRead]
  | some m =>
    obtain ⟨u, q⟩ := m
    by_cases hq : q = src.size <;> simp [verdict, ofRead, hq]

theorem fresh_ok (start : Start) (src : String) {o : Option (Tree × Nat)} {t : Tree}
    (h : reading src.toUTF8 start.rule 0 = ofRead o) :
    (Parser.serve {} ⟨start, src⟩).1 = .ok t ↔ o = some (t, src.utf8ByteSize) := by
  have hout := (covers_whole start.rule (covers_empty src.toUTF8)).1
  have hnew : Parser.memoFor {} src = .empty src.toUTF8.size := rfl
  simp only [serve_eq, hnew, hout, h]
  exact verdict_ofRead

theorem parseProgram_ok {src : String} {t : Tree} :
    parseProgram src = .ok t ↔ read src.toUTF8 .program 0 = some (t, src.utf8ByteSize) :=
  fresh_ok .program src rfl

theorem parseExpression_ok {src : String} {t : Tree} :
    parseExpression src = .ok t ↔ read src.toUTF8 .expr 0 = some (t, src.utf8ByteSize) :=
  fresh_ok .expression src rfl

/-- A new parser accepts the texts that the grammar matches to their ends, as programs or as
expressions, and returns the tree of the derivation. -/
theorem parse_iff_derivation (src : String) (t : Tree) :
    (parseProgram src = .ok t ↔
      Parses syntaxOf src.toUTF8 (.rule .program) 0 (some (t, src.utf8ByteSize))) ∧
    (parseExpression src = .ok t ↔
      Parses syntaxOf src.toUTF8 (.rule .expr) 0 (some (t, src.utf8ByteSize))) := by
  rw [ranking.parses_iff .program (Nat.zero_le _), ranking.parses_iff .expr (Nat.zero_le _)]
  exact ⟨parseProgram_ok, parseExpression_ok⟩

end ClosureLang.Grammar
