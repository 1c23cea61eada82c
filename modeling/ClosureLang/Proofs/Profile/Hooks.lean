import ClosureLang.Profile.Annotator
import ClosureLang.Proofs.Profile.Records

/-! What profilers leave to do at the end of calls is done there, for the calls of a run that they
show and for those that they do not show. -/
namespace ClosureLang

theorem Event.closes_iff {a b : Event} :
    a.Closes b ↔ ∃ c c', a = .enter c ∧ b = .leave c' ∧ c.Became c' := by
  constructor
  · intro h
    cases a with
    | step | internalError | leave => exact h.elim
    | enter c =>
      cases b with
      | step | internalError | enter => exact h.elim
      | leave c' => exact ⟨c, c', rfl, rfl, h⟩
  · rintro ⟨c, c', rfl, rfl, hbecame⟩
    exact hbecame

namespace Profile

open Callgrind (Call Traced)

variable {v : View} {events rest : List Event} {calls behind : List Call}

/-! ### Calls -/

/-- The calls of a run that are shown. -/
inductive Called (v : View) : List Event → List Call → Prop where
  | nil : Called v [] []
  | pass {e rest calls} : e.Passes → Called v rest calls → Called v (e :: rest) calls
  | shown {c c' inner rest calls behind} : v.skips c = false → c.Became c' → Called v inner calls →
      Called v rest behind →
      Called v (.enter c :: (inner ++ .leave c' :: rest)) (.made c c' calls :: behind)
  | hidden {c c' inner rest calls behind} : v.skips c = true → c.Became c' → Called v inner calls →
      Called v rest behind →
      Called v (.enter c :: (inner ++ .leave c' :: rest)) (calls ++ behind)

theorem exists_called (v : View) (h : Nested Event.Passes Event.Closes events) :
    ∃ calls, Called v events calls := by
  induction h with
  | nil => exact ⟨[], .nil⟩
  | pass hpass _ ih =>
    obtain ⟨calls, hcalls⟩ := ih
    exact ⟨calls, .pass hpass hcalls⟩
  | pair hcloses _ _ ihinner ih =>
    obtain ⟨c, c', rfl, rfl, hbecame⟩ := Event.closes_iff.mp hcloses
    obtain ⟨calls, hcalls⟩ := ihinner
    obtain ⟨behind, hbehind⟩ := ih
    cases hskips : v.skips c with
    | false => exact ⟨_, .shown hskips hbecame hcalls hbehind⟩
    | true => exact ⟨_, .hidden hskips hbecame hcalls hbehind⟩

theorem Called.nested (h : Called v events calls) : Nested Event.Passes Event.Closes events := by
  induction h with
  | nil => exact .nil
  | pass hpass _ ih => exact .pass hpass ih
  | shown _ hbecame _ _ ihinner ih => exact .pair hbecame ihinner ih
  | hidden _ hbecame _ _ ihinner ih => exact .pair hbecame ihinner ih

/-- A view shows these calls. -/
theorem Called.traced (h : Called v events calls) (active : List Bool) :
    Traced (v.momentsWith active events) calls := by
  induction h generalizing active with
  | nil => exact .nil
  | @pass e rest calls hpass _ ih =>
    cases e with
    | step line => exact ih active
    | internalError message => exact ih active
    | enter c => exact hpass.elim
    | leave c => exact hpass.elim
  | @shown c c' inner rest calls behind hskips hbecame hinner _ ihinner ih =>
    have hmoments := (v.nested_momentsWith hinner.nested (true :: active)).2 (.leave c' :: rest)
    simp only [View.momentsWith, View.moment, hskips, Bool.not_false, Option.toList_some, hmoments]
    exact .shown hbecame (ihinner _) (ih _)
  | @hidden c c' inner rest calls behind hskips _ hinner _ ihinner ih =>
    have hmoments := (v.nested_momentsWith hinner.nested (false :: active)).2 (.leave c' :: rest)
    simp only [View.momentsWith, View.moment, hskips, Bool.not_true, Option.toList_some, hmoments]
    exact .hidden (ihinner _) (ih _)

/-! ### Profilers -/

namespace Profiler

variable {σ : Type} {start : Profiler σ} {Inv : σ → Prop} {R : List Call → σ → σ → Prop} {p q r : σ}
  {hooks : List (Hook σ)} {hook : Hook σ} {c c' : Closure} {inner : List Event}

theorem follow_append (running : List (Hook σ) × σ) :
    start.follow (events ++ rest) running =
      (start.follow events running).bind (start.follow rest) := by
  rw [follow, List.foldlM_append]
  rfl

theorem follow_pass {e : Event} (h : e.Passes) :
    start.follow (e :: rest) (hooks, p) = start.follow rest (hooks, p) := by
  cases e with
  | step line => rfl
  | internalError message => rfl
  | enter c => exact h.elim
  | leave c => exact h.elim

/-- A call, from its start to its end. -/
theorem follow_call (hstart : start c p = some (hook, q))
    (hinner : start.follow inner (hook :: hooks, q) = some (hook :: hooks, r)) :
    start.follow (.enter c :: (inner ++ .leave c' :: rest)) (hooks, p) =
      (hook c' r).bind fun r => start.follow rest (hooks, r) := by
  have henter : ∀ behind,
      start.follow (.enter c :: behind) (hooks, p) = start.follow behind (hook :: hooks, q) := by
    intro behind
    rw [follow, List.foldlM_cons, observe, hstart]
    rfl
  have hleave : start.follow (.leave c' :: rest) (hook :: hooks, r) =
      (hook c' r).bind fun r => start.follow rest (hooks, r) := by
    rw [follow, List.foldlM_cons, observe]
    exact Option.bind_map
  rw [henter, follow_append, hinner]
  exact hleave

/-- What a profiler does for some calls is what it does for each of them. -/
structure Follows (start : Profiler σ) (v : View) (Inv : σ → Prop)
    (R : List Call → σ → σ → Prop) : Prop where
  nil : ∀ p, R [] p p
  append : ∀ {calls behind p q r}, R calls p q → R behind q r → R (calls ++ behind) p r
  keeps : ∀ {calls p q}, R calls p q → Inv p → Inv q
  skipped : ∀ {c p}, Inv p → v.skips c = true → start c p = some (.idle, p)
  shown : ∀ {c p}, Inv p → v.skips c = false → ∃ hook q, start c p = some (hook, q) ∧ Inv q ∧
    ∀ {c' calls r}, R calls q r → ∃ r', hook c' r = some r' ∧ R [.made c c' calls] p r'

theorem follow_shown (hfollows : Follows start v Inv R) (hp : Inv p) (hskips : v.skips c = false)
    (c' : Closure) (calls : List Call) (hooks : List (Hook σ))
    (hinner : ∀ {q}, Inv q →
      ∀ hooks, ∃ r, start.follow inner (hooks, q) = some (hooks, r) ∧ R calls q r) :
    ∃ q,
      (∀ rest, start.follow (.enter c :: (inner ++ .leave c' :: rest)) (hooks, p) =
        start.follow rest (hooks, q)) ∧
      R [.made c c' calls] p q := by
  obtain ⟨hook, q, hstart, hq, hend⟩ := hfollows.shown hp hskips
  obtain ⟨r, hcalls, hr⟩ := hinner hq (hook :: hooks)
  obtain ⟨r', hhook, hcall⟩ := hend hr
  refine ⟨r', fun rest => ?_, hcall⟩
  rw [follow_call hstart hcalls, hhook]
  rfl

theorem follow_hidden (hfollows : Follows start v Inv R) (hp : Inv p) (hskips : v.skips c = true)
    (c' : Closure) (calls : List Call) (hooks : List (Hook σ))
    (hinner : ∀ hooks, ∃ r, start.follow inner (hooks, p) = some (hooks, r) ∧ R calls p r) :
    ∃ q,
      (∀ rest, start.follow (.enter c :: (inner ++ .leave c' :: rest)) (hooks, p) =
        start.follow rest (hooks, q)) ∧
      R calls p q := by
  obtain ⟨r, hcalls, hr⟩ := hinner (.idle :: hooks)
  refine ⟨r, fun rest => ?_, hr⟩
  rw [follow_call (hfollows.skipped hp hskips) hcalls]
  rfl

/-- The run lemma: a profiler ends without a crash, and nothing is left to do. -/
theorem follow_called (hfollows : Follows start v Inv R) (h : Called v events calls) (hp : Inv p)
    (hooks : List (Hook σ)) :
    ∃ q, start.follow events (hooks, p) = some (hooks, q) ∧ R calls p q := by
  induction h generalizing p hooks with
  | nil => exact ⟨p, rfl, hfollows.nil p⟩
  | pass hpass _ ih => simpa only [follow_pass hpass] using ih hp hooks
  | shown hskips _ _ _ ihinner ih =>
    obtain ⟨r, hcall, hr⟩ := follow_shown hfollows hp hskips _ _ hooks fun hq => ihinner hq
    obtain ⟨s, hrest, hs⟩ := ih (hfollows.keeps hr hp) hooks
    exact ⟨s, (hcall _).trans hrest, hfollows.append hr hs⟩
  | hidden hskips _ _ _ ihinner ih =>
    obtain ⟨r, hcall, hr⟩ := follow_hidden hfollows hp hskips _ _ hooks (ihinner hp)
    obtain ⟨s, hrest, hs⟩ := ih (hfollows.keeps hr hp) hooks
    exact ⟨s, (hcall _).trans hrest, hfollows.append hr hs⟩

end Profiler

end Profile

end ClosureLang
