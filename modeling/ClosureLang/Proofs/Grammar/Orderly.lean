import Mathlib.Algebra.Order.BigOperators.Group.List
import Mathlib.Algebra.Order.Group.Nat
import ClosureLang.Proofs.Grammar.Memoization

/-! Parsing ends. No rule is applied outside the text or where it is still being computed, all loops
move on, and the table grows by one outcome with every application that it has no outcome for. -/
namespace ClosureLang.Grammar

variable {src : ByteArray} {apply : Rule → Nat → Parse Outcome} {α β : Type}

/-- From every table, the action gives a value that satisfies `P`. -/
def Gives (x : Parse α) (P : α → Prop) : Prop := ∀ m, P (x m).1

namespace Gives

variable {x : Parse α} {f g : α → Parse β} {P P' : α → Prop} {Q : β → Prop}

theorem done {a : α} (h : P a) : Gives (pure a : Parse α) P := fun _ => h

theorem bind (hx : Gives x P) (hf : ∀ a, P a → Gives (f a) Q) : Gives (x >>= f) Q :=
  fun m => hf _ (hx m) (x m).2

theorem imp (hx : Gives x P) (h : ∀ a, P a → P' a) : Gives x P' := fun m => h _ (hx m)

theorem anything : Gives x fun _ => True := fun _ => trivial

/-- Only the values that an action can give matter behind it. -/
theorem congr (hx : Gives x P) (h : ∀ a, P a → f a = g a) : x >>= f = x >>= g := by
  funext m
  exact congrFun (h _ (hx m)) (x m).2

/-- An action whose failure is that of the whole. -/
theorem orNone {x : Parse (Option α)} {f : Option α → Parse (Option β)} {P : Option α → Prop}
    {Q : Option β → Prop} (hx : Gives x P) (hf : f none = pure none) (hnone : Q none)
    (hsome : ∀ a, P (some a) → Gives (f (some a)) Q) :
    Gives (x >>= f) Q := by
  refine hx.bind fun o ho => ?_
  cases o with
  | none =>
    rw [hf]
    exact .done hnone
  | some a => exact hsome a ho

end Gives

/-- Rules that match no empty text. -/
def Rule.Consumes (r : Rule) : Prop := r ≠ .space ∧ r ≠ .program

instance (r : Rule) : Decidable r.Consumes := inferInstanceAs (Decidable (_ ∧ _))

/-- An outcome at `p` ends in the text and not in front of `p`, and behind `p` if the rule consumes
something. -/
def lands (src : ByteArray) (r : Rule) (p : Nat) : Outcome → Bool
  | none => true
  | some m => p ≤ m.stop && m.stop ≤ src.size && (p < m.stop || ¬ r.Consumes)

/-- If something matches behind `p`, it ends in the text. -/
def Moves (src : ByteArray) (stop : α → Nat) (p : Nat) (o : Option α) : Prop :=
  ∀ a, o = some a → p < stop a ∧ stop a ≤ src.size

/-- Every outcome in the text lands, from every table. -/
def Landing (src : ByteArray) (apply : Rule → Nat → Parse Outcome) : Prop :=
  ∀ r p, p ≤ src.size → Gives (apply r p) fun o => lands src r p o = true

/-- What every loop of the rules does in one round: it ends further right in the text, or is the
last one. So there are no more rounds than bytes, and it does not matter how many more there may be.
The words that are cut out of the text start where blanks end and end where a run of their bytes
does. -/
structure LoopsMove (src : ByteArray) (apply : Rule → Nat → Parse Outcome) : Prop where
  skip : ∀ p, p ≤ src.size → Gives (skip apply p) fun q => p ≤ q ∧ q ≤ src.size
  run : ∀ c p, p ≤ src.size → p ≤ runEnd c src p ∧ runEnd c src p ≤ src.size
  statement : ∀ p, p ≤ src.size → Gives (apply .statement p) (Moves src Match.stop p)
  operation : ∀ operand ops p, operand.Consumes → p ≤ src.size →
    Gives (operation src apply operand p ops) (Moves src (fun o => o.2.2.stop) p)
  call : ∀ p, p ≤ src.size → Gives (parenthesized src apply .expr p) (Moves src (fun c => c.2.2) p)
  comma : ∀ p, p ≤ src.size → Gives (literal src apply p ",") (Moves src Prod.snd p)
  item : ∀ item p, item.Consumes → p ≤ src.size → Gives (apply item p) (Moves src Match.stop p)
  statements : ∀ limit p, p ≤ src.size → src.size < limit →
    statements apply limit p = statements apply (src.size + 1) p
  operations : ∀ operand ops limit node p, operand.Consumes → p ≤ src.size → src.size < limit →
    operations src apply operand ops limit node p =
      operations src apply operand ops (src.size + 1) node p
  calls : ∀ limit node p, p ≤ src.size → src.size < limit →
    calls src apply limit node p = calls src apply (src.size + 1) node p
  commaSeparated : ∀ item limit p, item.Consumes → p ≤ src.size → src.size < limit →
    commaSeparated src apply item limit p = commaSeparated src apply item (src.size + 1) p

section Loops

variable (happly : Landing src apply) {p : Nat}

include happly

theorem gives_apply {r : Rule} (hr : r.Consumes) (hp : p ≤ src.size) :
    Gives (apply r p) (Moves src Match.stop p) := by
  refine (happly r p hp).imp ?_
  rintro _ h m rfl
  simp only [lands, hr, not_true_eq_false, decide_false, Bool.or_false, Bool.and_eq_true,
    decide_eq_true_eq] at h
  exact ⟨h.2, h.1.2⟩

theorem gives_skip (hp : p ≤ src.size) : Gives (skip apply p) fun q => p ≤ q ∧ q ≤ src.size := by
  refine (happly .space p hp).bind fun o ho => .done ?_
  cases o with
  | none => exact ⟨Nat.le_refl p, hp⟩
  | some m =>
    simp only [lands, Bool.and_eq_true, decide_eq_true_eq] at ho
    exact ho.1

theorem gives_literal {s : String} (hs : 0 < s.length) (hp : p ≤ src.size) :
    Gives (literal src apply p s) (Moves src Prod.snd p) := by
  refine (gives_skip happly hp).bind fun start hstart => ?_
  split
  · rename_i hh
    have hend := holds_le hh hstart.2
    rw [String.length_toList] at hend
    refine (gives_skip happly hend).bind fun stop hstop => .done ?_
    rintro _ ⟨⟩
    exact ⟨by dsimp only; omega, hstop.2⟩
  · exact fun _ => nofun

theorem gives_operation {operand : Rule} (hoperand : operand.Consumes) (ops : List BinaryOp)
    (hp : p ≤ src.size) :
    Gives (operation src apply operand p ops) (Moves src (fun o => o.2.2.stop) p) := by
  induction ops with
  | nil => exact .done nofun
  | cons op ops ih =>
    refine (gives_literal happly (symbol_length_pos op) hp).bind fun l hl => ?_
    cases l with
    | none => exact ih
    | some l =>
      obtain ⟨hlt, hsize⟩ := hl l rfl
      refine (gives_apply happly hoperand hsize).bind fun o ho => ?_
      cases o with
      | none => exact ih
      | some rhs =>
        refine .done ?_
        rintro _ ⟨⟩
        obtain ⟨hlt', hsize'⟩ := ho rhs rfl
        exact ⟨Nat.lt_trans hlt hlt', hsize'⟩

theorem gives_commaSeparated {item : Rule} (hitem : item.Consumes) (limit : Nat)
    (hp : p ≤ src.size) :
    Gives (commaSeparated src apply item limit p) fun o =>
      ∀ l, o = some l → p ≤ l.2 ∧ l.2 ≤ src.size := by
  induction limit generalizing p with
  | zero =>
    refine .done ?_
    rintro _ ⟨⟩
    exact ⟨Nat.le_refl p, hp⟩
  | succ limit ih =>
    refine (gives_literal happly (by decide) hp).bind fun l hl => ?_
    cases l with
    | none =>
      refine .done ?_
      rintro _ ⟨⟩
      exact ⟨Nat.le_refl p, hp⟩
    | some l =>
      obtain ⟨hlt, hsize⟩ := hl l rfl
      refine (gives_apply happly hitem hsize).orNone rfl nofun fun m hm => ?_
      obtain ⟨hlt', hsize'⟩ := hm m rfl
      refine (ih hsize').orNone rfl nofun fun rest hrest => .done ?_
      rintro _ ⟨⟩
      obtain ⟨hle, hsize''⟩ := hrest rest rfl
      exact ⟨by dsimp only; omega, hsize''⟩

theorem gives_parenthesized {item : Rule} (hitem : item.Consumes) (hp : p ≤ src.size) :
    Gives (parenthesized src apply item p) (Moves src (fun c => c.2.2) p) := by
  refine (gives_literal happly (by decide) hp).orNone rfl nofun fun l hl => ?_
  obtain ⟨hlt, hsize⟩ := hl l rfl
  refine (gives_apply happly hitem hsize).bind fun o ho => ?_
  cases o with
  | none =>
    refine (gives_literal happly (by decide) hsize).orNone rfl nofun fun r hr => .done ?_
    rintro _ ⟨⟩
    exact ⟨Nat.lt_trans hlt (hr r rfl).1, (hr r rfl).2⟩
  | some first =>
    obtain ⟨hlt', hsize'⟩ := ho first rfl
    refine (gives_commaSeparated happly hitem _ hsize').orNone rfl nofun fun rest hrest => ?_
    obtain ⟨hle, hsize''⟩ := hrest rest rfl
    refine (gives_literal happly (by decide) hsize'').orNone rfl nofun fun r hr => .done ?_
    rintro _ ⟨⟩
    obtain ⟨hlt'', hsize'''⟩ := hr r rfl
    exact ⟨by dsimp only at *; omega, hsize'''⟩

theorem statements_limit {limit limit' : Nat} (hp : p ≤ src.size) (hl : src.size - p < limit)
    (hl' : src.size - p < limit') : statements apply limit p = statements apply limit' p := by
  induction limit generalizing limit' p with
  | zero => omega
  | succ limit ih =>
    obtain ⟨limit', rfl⟩ : ∃ n, limit' = n + 1 := ⟨limit' - 1, by omega⟩
    refine (gives_apply happly (r := .statement) (by decide) hp).congr fun o ho => ?_
    cases o with
    | none => rfl
    | some m =>
      obtain ⟨hlt, hsize⟩ := ho m rfl
      have hrest : statements apply limit m.stop = statements apply limit' m.stop :=
        ih hsize (by omega) (by omega)
      dsimp only
      rw [hrest]

theorem operations_limit {operand : Rule} (hoperand : operand.Consumes) (ops : List BinaryOp)
    {limit limit' : Nat} (node : Tree) (hp : p ≤ src.size) (hl : src.size - p < limit)
    (hl' : src.size - p < limit') :
    operations src apply operand ops limit node p =
      operations src apply operand ops limit' node p := by
  induction limit generalizing limit' p node with
  | zero => omega
  | succ limit ih =>
    obtain ⟨limit', rfl⟩ : ∃ n, limit' = n + 1 := ⟨limit' - 1, by omega⟩
    refine (gives_operation happly hoperand ops hp).congr fun o ho => ?_
    cases o with
    | none => rfl
    | some o =>
      obtain ⟨op, start, rhs⟩ := o
      obtain ⟨hlt, hsize⟩ : p < rhs.stop ∧ rhs.stop ≤ src.size := ho _ rfl
      exact ih _ hsize (by omega) (by omega)

theorem calls_limit {limit limit' : Nat} (node : Tree) (hp : p ≤ src.size)
    (hl : src.size - p < limit) (hl' : src.size - p < limit') :
    calls src apply limit node p = calls src apply limit' node p := by
  induction limit generalizing limit' p node with
  | zero => omega
  | succ limit ih =>
    obtain ⟨limit', rfl⟩ : ∃ n, limit' = n + 1 := ⟨limit' - 1, by omega⟩
    refine (gives_parenthesized happly (by decide) hp).congr fun o ho => ?_
    cases o with
    | none => rfl
    | some c =>
      obtain ⟨start, args, next⟩ := c
      obtain ⟨hlt, hsize⟩ : p < next ∧ next ≤ src.size := ho _ rfl
      exact ih _ hsize (by omega) (by omega)

theorem commaSeparated_limit {item : Rule} (hitem : item.Consumes) {limit limit' : Nat}
    (hp : p ≤ src.size) (hl : src.size - p < limit) (hl' : src.size - p < limit') :
    commaSeparated src apply item limit p = commaSeparated src apply item limit' p := by
  induction limit generalizing limit' p with
  | zero => omega
  | succ limit ih =>
    obtain ⟨limit', rfl⟩ : ∃ n, limit' = n + 1 := ⟨limit' - 1, by omega⟩
    refine (gives_literal happly (by decide) hp).congr fun o ho => ?_
    cases o with
    | none => rfl
    | some l =>
      obtain ⟨hlt, hsize⟩ := ho l rfl
      refine (gives_apply happly hitem hsize).congr fun o ho => ?_
      cases o with
      | none => rfl
      | some m =>
        obtain ⟨hlt', hsize'⟩ := ho m rfl
        have hrest : commaSeparated src apply item limit m.stop =
            commaSeparated src apply item limit' m.stop :=
          ih hsize' (by omega) (by omega)
        dsimp only
        rw [hrest]

/-- Where outcomes land, loops move. -/
theorem loopsMove_of_landing : LoopsMove src apply where
  skip _ := gives_skip happly
  run c _ hp := ⟨Nat.le_add_right .., runEnd_le c hp⟩
  statement _ := gives_apply happly (by decide)
  operation _ ops _ hoperand := gives_operation happly hoperand ops
  call _ := gives_parenthesized happly (by decide)
  comma _ := gives_literal happly (by decide)
  item _ _ hitem := gives_apply happly hitem
  statements _ _ hp hl := statements_limit happly hp (by omega) (by omega)
  operations _ ops _ node _ hoperand hp hl :=
    operations_limit happly hoperand ops node hp (by omega) (by omega)
  calls _ node _ hp hl := calls_limit happly node hp (by omega) (by omega)
  commaSeparated _ _ _ hitem hp hl := commaSeparated_limit happly hitem hp (by omega) (by omega)

end Loops

/-- Applies rules through the table and watches how this is done: `other` takes over where the depth
is used up, where a rule is applied outside the text or while it is being computed at the same
offset, and where an outcome does not land. -/
def applyWatched (src : ByteArray) (other : Rule → Nat → Parse Outcome) :
    Nat → List (Rule × Nat) → Rule → Nat → Parse Outcome
  | 0, _, r, p => other r p
  | depth + 1, underway, r, p =>
    if p ≤ src.size ∧ (r, p) ∉ underway then do
      let out ← throughTable r p (body src (applyWatched src other depth ((r, p) :: underway)) r p)
      if lands src r p out then return out else other r p
    else other r p

section Watching

variable {other : Rule → Nat → Parse Outcome} {underway : List (Rule × Nat)} {r : Rule}
  {p d d' : Nat} {m : Memo} {o : Outcome}

/-- Whatever the table holds, the outcomes of a watched parse land if nothing that takes over
matches. -/
theorem landing_applyWatched (hother : ∀ r p, Gives (other r p) fun o => o = none) :
    Landing src (applyWatched src other d underway) := by
  have hlands : ∀ r p, Gives (other r p) fun o => lands src r p o = true := fun r p =>
    (hother r p).imp fun o ho => ho ▸ rfl
  intro r p _
  cases d with
  | zero => exact hlands r p
  | succ d =>
    rw [applyWatched]
    split
    · refine Gives.bind .anything fun out _ => ?_
      split
      · exact .done ‹_›
      · exact hlands r p
    · exact hlands r p

theorem lands_reading (hp : p ≤ src.size) : lands src r p (reading src r p) = true := by
  cases h : reading src r p with
  | none => rfl
  | some m =>
    obtain ⟨hle, hsize, hlt⟩ := reading_fits hp h
    by_cases hr : r.Consumes
    · simp [lands, hle, hsize, hlt hr]
    · simp [lands, hle, hsize, hr]

/-- What takes over is not run where the outcome lands. -/
theorem landed {x : Parse Outcome} (h : lands src r p (x m).1 = true) :
    (do let out ← x; if lands src r p out then return out else other r p : Parse Outcome)
      m = x m := by
  show (if lands src r p (x m).1 then (return (x m).1 : Parse Outcome) else other r p) (x m).2 = x m
  rw [if_pos h]
  rfl

theorem Memo.size_eq (m : Memo) : m.size = m.rows.toList.flatten.length := by
  have hfold : ∀ (rows : List (List (Rule × Outcome))) n,
      rows.foldl (fun n row => n + row.length) n = n + rows.flatten.length := by
    intro rows
    induction rows with
    | nil => exact fun n => rfl
    | cons row rows ih =>
      intro n
      rw [List.foldl_cons, ih, List.flatten_cons, List.length_append, Nat.add_assoc]
  rw [Memo.size, ← Array.foldl_toList, hfold, Nat.zero_add]

theorem length_flatten_modify {rows : List (List α)} {a : α} (hp : p < rows.length) :
    (rows.modify p (a :: ·)).flatten.length = rows.flatten.length + 1 := by
  induction rows generalizing p with
  | nil => simp at hp
  | cons row rows ih =>
    cases p with
    | zero =>
      simp only [List.modify_zero_cons, List.flatten_cons, List.length_append, List.length_cons]
      omega
    | succ p =>
      simp only [List.modify_succ_cons, List.flatten_cons, List.length_append,
        ih (Nat.lt_of_succ_lt_succ hp)]
      omega

theorem Memo.size_insert (hp : p < m.rows.size) : (m.insert r p o).size = m.size + 1 := by
  rw [Memo.size_eq, Memo.size_eq, Memo.insert, Array.toList_modify]
  exact length_flatten_modify (by simpa using hp)

/-- The outcomes that a table has for an offset. -/
def Memo.row (m : Memo) (p : Nat) : List (Rule × Outcome) := (m.rows[p]?).getD []

theorem row_insert (hp : p < m.rows.size) (q : Nat) :
    (m.insert r p o).row q = if q = p then (r, o) :: m.row q else m.row q := by
  by_cases hq : q = p
  · subst hq
    simp [Memo.row, Memo.insert, Array.getElem_modify, hp]
  · have hne : ¬ p = q := Ne.symm hq
    simp [Memo.row, Memo.insert, Array.getElem?_modify, hq, hne]

/-- A table of `src` while the applications of `underway` are being computed: it holds outcomes that
the grammar gives, each once, and none of those under way. Every application without an outcome has
been counted. -/
structure Orderly (src : ByteArray) (underway : List (Rule × Nat)) (m : Memo) : Prop where
  rows : m.rows.size = src.size + 1
  entries : ∀ {r p o}, m.find? r p = some o → o = reading src r p
  once : ∀ p, ((m.row p).map Prod.fst).Nodup
  pending : ∀ c ∈ underway, m.find? c.1 c.2 = none
  counted : m.misses = m.size + underway.length

theorem orderly_empty (src : ByteArray) : Orderly src [] (.empty src.size) where
  rows := (sound_empty src).rows
  entries h := ((sound_empty src).entries h).1
  once p := by
    by_cases hp : p < src.size + 1 <;> simp [Memo.row, Memo.empty, hp]
  pending := nofun
  counted := by
    rw [Memo.size_eq]
    simp [Memo.empty]

theorem Orderly.hit (h : Orderly src underway m) : Orderly src underway m.hit :=
  ⟨h.rows, h.entries, h.once, h.pending, h.counted⟩

theorem Orderly.reach (h : Orderly src underway m) (p : Nat) : Orderly src underway (m.reach p) :=
  ⟨h.rows, h.entries, h.once, h.pending, h.counted⟩

theorem Orderly.miss (h : Orderly src underway m) (hfind : m.find? r p = none) :
    Orderly src ((r, p) :: underway) m.miss := by
  refine ⟨h.rows, h.entries, h.once, List.forall_mem_cons.mpr ⟨hfind, h.pending⟩, ?_⟩
  show m.misses + 1 = m.size + (underway.length + 1)
  rw [h.counted]
  omega

theorem Orderly.insert (h : Orderly src ((r, p) :: underway) m) (hp : p ≤ src.size)
    (hr : (r, p) ∉ underway) : Orderly src underway (m.insert r p (reading src r p)) := by
  have hsize : p < m.rows.size := h.rows ▸ Nat.lt_succ_of_le hp
  have hnone : m.find? r p = none := h.pending (r, p) List.mem_cons_self
  refine ⟨?_, ?_, fun q => ?_, fun c hc => ?_, ?_⟩
  · simp [Memo.insert, h.rows]
  · intro r' p' o ho
    rw [find?_insert _ _ _ _ _ _ hsize] at ho
    split at ho
    · next heq =>
      obtain ⟨rfl, rfl⟩ := heq
      exact (Option.some.inj ho).symm
    · exact h.entries ho
  · rw [row_insert hsize]
    split
    · next hq =>
      subst hq
      refine List.nodup_cons.mpr ⟨fun hmem => ?_, h.once q⟩
      obtain ⟨e, he, rfl⟩ := List.mem_map.mp hmem
      have hlookup : (m.row q).lookup e.1 = none := hnone
      exact absurd (List.lookup_eq_none_iff.mp hlookup e he) (by simp)
    · exact h.once q
  · rw [find?_insert _ _ _ _ _ _ hsize, if_neg]
    · exact h.pending c (List.mem_cons_of_mem _ hc)
    · rintro ⟨hpos, hrule⟩
      exact hr (by rwa [← hpos, ← hrule])
  · rw [Memo.size_insert hsize]
    show m.misses = _
    rw [h.counted, List.length_cons]
    omega

/-- Two parses with the same orderly table. -/
def Same (src : ByteArray) (underway : List (Rule × Nat)) (m n : Memo) : Prop :=
  m = n ∧ Orderly src underway m

theorem recording_same : Recording (Same src underway) := by
  rintro m _ p ⟨rfl, h⟩
  exact ⟨rfl, h.reach p⟩

/-- Nothing takes over in a parse that is watched, if its rules lead on from those under way. -/
theorem yields_applyWatched (hp : p ≤ src.size) (hd : r.need src p ≤ d) (hd' : r.need src p ≤ d')
    (hunder : ∀ c ∈ underway, r.need src p < c.1.need src c.2) :
    Yields (Same src underway) (applyWatched src other d underway r p) (applyMemo src d' r p)
      (reading src r p) := by
  induction d generalizing d' r p underway with
  | zero => simp [Rule.need] at hd
  | succ d ih =>
    obtain ⟨d', rfl⟩ : ∃ n, d' = n + 1 := ⟨d' - 1, by simp only [Rule.need] at hd'; omega⟩
    have hr : (r, p) ∉ underway := fun hmem => Nat.lt_irrefl _ (hunder _ hmem)
    have hbody : Yields (Same src ((r, p) :: underway))
        (body src (applyWatched src other d ((r, p) :: underway)) r p)
        (body src (applyMemo src d') r p) (reading src r p) := by
      refine yields_body recording_same r hp ⟨fun r' q hpq hq hrank => ?_, fun r' q hpq hq => ?_⟩
      · have hneed : r'.need src q < r.need src p := need_lt_of_rank hpq hrank
        exact ih hq (by omega) (by omega)
          (List.forall_mem_cons.mpr ⟨hneed, fun c hc => Nat.lt_trans hneed (hunder c hc)⟩)
      · have hneed : r'.need src q < r.need src p := need_lt_of_lt hpq hq
        exact ih hq (by omega) (by omega)
          (List.forall_mem_cons.mpr ⟨hneed, fun c hc => Nat.lt_trans hneed (hunder c hc)⟩)
    have htable : Yields (Same src underway)
        (throughTable r p (body src (applyWatched src other d ((r, p) :: underway)) r p))
        (throughTable r p (body src (applyMemo src d') r p)) (reading src r p) := by
      rintro m _ ⟨rfl, h⟩
      cases hfind : m.find? r p with
      | some o =>
        rw [throughTable_hit hfind, throughTable_hit hfind]
        exact ⟨h.entries hfind, h.entries hfind, rfl, h.hit⟩
      | none =>
        obtain ⟨hleft, hright, hsame, horderly⟩ := hbody m.miss m.miss ⟨rfl, h.miss hfind⟩
        rw [throughTable_miss hfind, throughTable_miss hfind, hleft, hright, ← hsame]
        exact ⟨rfl, rfl, rfl, horderly.insert hp hr⟩
    rw [applyWatched, if_pos ⟨hp, hr⟩, applyMemo_succ]
    intro m n hmn
    obtain ⟨hleft, hright, hsame⟩ := htable m n hmn
    rw [landed (hleft ▸ lands_reading hp)]
    exact ⟨hleft, hright, hsame⟩

end Watching

/-- The table of a text after parses from the rules of `past`, the latest first. -/
def tableAfter (src : ByteArray) : List Rule → Memo
  | [] => .empty src.size
  | r :: past => (whole src r (tableAfter src past)).2

variable {r : Rule} {m : Memo}

/-- A parse from an orderly table is watched without effect and leaves an orderly table. -/
theorem whole_orderly (h : Orderly src [] m) (other : Rule → Nat → Parse Outcome) (extra : Nat) :
    applyWatched src other (depthBound src + extra) [] r 0 m = whole src r m ∧
    Orderly src [] (whole src r m).2 := by
  have hneed : r.need src 0 ≤ depthBound src := Nat.le_of_lt (need_lt_depthBound r 0)
  have hyields : Yields (Same src []) (applyWatched src other (depthBound src + extra) [] r 0)
      (applyMemo src (depthBound src) r 0) (reading src r 0) :=
    yields_applyWatched (Nat.zero_le _) (Nat.le_add_right_of_le hneed) hneed fun _ hc =>
      absurd hc List.not_mem_nil
  obtain ⟨hleft, hright, hsame, horderly⟩ := hyields m m ⟨rfl, h⟩
  exact ⟨Prod.ext (hleft.trans hright.symm) hsame, hsame ▸ horderly⟩

theorem orderly_tableAfter (src : ByteArray) (past : List Rule) :
    Orderly src [] (tableAfter src past) := by
  induction past with
  | nil => exact orderly_empty src
  | cons r past ih => exact (whole_orderly ih (fun _ _ => pure none) 0).2

/-- The table of a parser is that of the requests since its text changed. -/
theorem memoFor_after (text : String) (past : List Request) :
    (Parser.after past).memoFor text =
      tableAfter text.toUTF8 ((sinceChange text past).map (·.start.rule)) := by
  induction past with
  | nil => rfl
  | cons q past ih =>
    by_cases htext : q.text = text
    · subst htext
      have hsince : sinceChange q.text (q :: past) = q :: sinceChange q.text past := by
        simp [sinceChange]
      rw [hsince, List.map_cons, tableAfter, ← ih]
      simp [Parser.after, serve_eq, Parser.memoFor]
    · have hsince : sinceChange text (q :: past) = [] := by simp [sinceChange, htext]
      rw [hsince]
      simp [Parser.after, serve_eq, Parser.memoFor, htext, tableAfter]

theorem Orderly.size_le (h : Orderly src [] m) : m.size ≤ Rule.all.length * (src.size + 1) := by
  have hrow : ∀ row ∈ m.rows.toList, row.length ≤ Rule.all.length := by
    intro row hrow
    obtain ⟨p, hp, rfl⟩ := List.mem_iff_getElem.mp hrow
    have honce := h.once p
    have hget : m.row p = m.rows.toList[p] := by
      rw [Array.length_toList] at hp
      simp [Memo.row, hp]
    rw [hget] at honce
    have hsub : (m.rows.toList[p].map Prod.fst) ⊆ Rule.all := fun r _ => by cases r <;> decide
    simpa using honce.length_le_of_subset hsub
  rw [Memo.size_eq, ← h.rows, ← Array.length_toList]
  have hsum :=
    List.sum_le_card_nsmul (m.rows.toList.map List.length) Rule.all.length (by simpa using hrow)
  simpa [Nat.mul_comm] using hsum

/-- Parsing terminates, from any rule and with the table of any earlier parses, such as a parser
holds. Depth beyond the bound changes nothing, nor does anything that takes over where a rule is
applied outside the text or while it is being computed: neither happens. Every round of a loop ends
further right. In the end, each outcome of the table stands for one application that was
computed. -/
theorem parse_ends (src : ByteArray) (past : List Rule) (r : Rule) :
    (∀ text requests, (Parser.after requests).memoFor text =
      tableAfter text.toUTF8 ((sinceChange text requests).map (·.start.rule))) ∧
    (∀ other extra, applyWatched src other (depthBound src + extra) [] r 0 (tableAfter src past) =
      whole src r (tableAfter src past)) ∧
    (∀ depth underway, LoopsMove src (applyWatched src (fun _ _ => return none) depth underway)) ∧
    (∀ p, ((tableAfter src (r :: past)).row p).map Prod.fst |>.Nodup) ∧
    (tableAfter src (r :: past)).misses = (tableAfter src (r :: past)).size ∧
    (tableAfter src (r :: past)).size ≤ 27 * (src.size + 1) := by
  have hafter := orderly_tableAfter src (r :: past)
  refine ⟨memoFor_after,
    fun other extra => (whole_orderly (orderly_tableAfter src past) other extra).1,
    fun depth underway => ?_, hafter.once, hafter.counted, hafter.size_le⟩
  exact loopsMove_of_landing (landing_applyWatched fun _ _ => .done rfl)

end ClosureLang.Grammar
