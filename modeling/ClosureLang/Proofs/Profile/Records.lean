import ClosureLang.Proofs.Profile.Settling

/-! What is in the file of a profile in the callgrind format: a record for every call that is shown,
in the order in which the calls end, and names that are written out where they get their numbers. -/
namespace ClosureLang.Profile

/-- What is shown is not skipped. -/
theorem View.shown_of_mem (v : View) {c : Closure} {active : List Bool} {events : List Event}
    (h : .start true c ∈ v.momentsWith active events) : v.skips c = false := by
  induction events generalizing active with
  | nil => cases h
  | cons e events ih =>
    rw [View.momentsWith, List.mem_append] at h
    obtain h | h := h
    · cases e <;> simp [View.moment] at h
      obtain ⟨hshown, rfl⟩ := h
      exact hshown
    · exact ih h

namespace Callgrind

variable {v : View} {ms : List Moment} {names : List String} {p : Callgrind} {s : Sink} {f : Frame}
  {fs : List Frame}

theorem siteOf_label (v : View) (c : Closure) :
    { siteOf v c with name := v.label c } = siteOf v c := by
  unfold siteOf
  split <;> rfl

/-- A call that is shown: its function when it starts and when it ends, and the calls that are made
from it, directly or through calls that are not shown. -/
inductive Call where
  | made (started ended : Closure) (calls : List Call)

/-- What a record says: which function was called, and what was called from there. -/
structure Record where
  site : Site
  callees : List Site

namespace Call

def started : Call → Closure
  | made started _ _ => started

def calls : Call → List Call
  | made _ _ calls => calls

/-- The call as its caller refers to it. -/
def site (v : View) (call : Call) : Site := siteOf v call.started

/-- The record of a call has the name that the function is shown under at the end. -/
def record (v : View) : Call → Record
  | made started ended calls =>
    ⟨{ siteOf v started with name := v.label ended }, calls.map (site v)⟩

mutual

/-- The calls made in the course of a call and the call itself, in the order in which they end. -/
def inOrder : Call → List Call
  | made started ended calls => inOrderAll calls ++ [made started ended calls]

def inOrderAll : List Call → List Call
  | [] => []
  | call :: calls => call.inOrder ++ inOrderAll calls

end

theorem inOrder_made (started ended : Closure) (calls : List Call) :
    (made started ended calls).inOrder = inOrderAll calls ++ [made started ended calls] := rfl

theorem inOrderAll_nil : inOrderAll [] = [] := rfl

theorem inOrderAll_cons (call : Call) (calls : List Call) :
    inOrderAll (call :: calls) = call.inOrder ++ inOrderAll calls := rfl

theorem mem_inOrderAll_cons {call : Call} {started ended : Closure} {inner behind : List Call} :
    call ∈ inOrderAll (made started ended inner :: behind) ↔
      call ∈ inOrderAll inner ∨ call = made started ended inner ∨ call ∈ inOrderAll behind := by
  rw [inOrderAll_cons, inOrder_made, List.append_assoc, List.mem_append, List.mem_append,
    List.mem_singleton]

theorem inOrderAll_append (calls behind : List Call) :
    inOrderAll (calls ++ behind) = inOrderAll calls ++ inOrderAll behind := by
  induction calls with
  | nil => rfl
  | cons call calls ih =>
    rw [List.cons_append, inOrderAll_cons, inOrderAll_cons, ih, List.append_assoc]

theorem mem_inOrderAll_self {call : Call} {calls : List Call} (h : call ∈ calls) :
    call ∈ inOrderAll calls := by
  induction calls with
  | nil => cases h
  | cons first calls ih =>
    rw [inOrderAll_cons, List.mem_append]
    obtain rfl | h := List.mem_cons.mp h
    · left
      cases call
      simp [inOrder_made]
    · exact .inr (ih h)

end Call

/-- The calls that are shown of a run. -/
inductive Traced : List Moment → List Call → Prop where
  | nil : Traced [] []
  | shown {c c' inner rest calls behind} : c.Became c' → Traced inner calls → Traced rest behind →
      Traced (.start true c :: (inner ++ .finish true c' :: rest)) (.made c c' calls :: behind)
  | hidden {c c' inner rest calls behind} : Traced inner calls → Traced rest behind →
      Traced (.start false c :: (inner ++ .finish false c' :: rest)) (calls ++ behind)

/-- Every run has its calls. -/
theorem exists_traced (h : NestedMoments ms) : ∃ calls, Traced ms calls := by
  induction h with
  | nil => exact ⟨[], .nil⟩
  | pass hpass => exact hpass.elim
  | pair hcloses _ _ ihinner ih =>
    obtain ⟨shown, c, c', rfl, rfl, hbecame⟩ := Moment.closes_iff.mp hcloses
    obtain ⟨calls, hcalls⟩ := ihinner
    obtain ⟨behind, hbehind⟩ := ih
    cases shown with
    | true => exact ⟨_, .shown hbecame hcalls hbehind⟩
    | false => exact ⟨_, .hidden hcalls hbehind⟩

/-- Only the name of a function can be another one when a call of it ends. -/
theorem Traced.became {calls : List Call} (h : Traced ms calls) {started ended : Closure}
    {inner : List Call} (hcall : .made started ended inner ∈ Call.inOrderAll calls) :
    started.Became ended := by
  induction h with
  | nil => exact absurd hcall List.not_mem_nil
  | shown hbecame _ _ ihinner ih =>
    rw [Call.mem_inOrderAll_cons] at hcall
    obtain hcall | hcall | hcall := hcall
    · exact ihinner hcall
    · cases hcall
      exact hbecame
    · exact ih hcall
  | hidden _ _ ihinner ih =>
    rw [Call.inOrderAll_append, List.mem_append] at hcall
    exact hcall.elim ihinner ih

/-- The calls made from a call are calls of the run. -/
theorem Traced.mem_inOrderAll {calls : List Call} (h : Traced ms calls) {call callee : Call}
    (hcall : call ∈ Call.inOrderAll calls) (hcallee : callee ∈ call.calls) :
    callee ∈ Call.inOrderAll calls := by
  induction h with
  | nil => exact absurd hcall List.not_mem_nil
  | shown _ _ _ ihinner ih =>
    rw [Call.mem_inOrderAll_cons] at hcall ⊢
    obtain hcall | rfl | hcall := hcall
    · exact .inl (ihinner hcall)
    · exact .inl (Call.mem_inOrderAll_self hcallee)
    · exact .inr (.inr (ih hcall))
  | hidden _ _ ihinner ih =>
    rw [Call.inOrderAll_append, List.mem_append] at hcall ⊢
    exact hcall.imp ihinner ih

/-- Calls that are shown start as such. -/
theorem Traced.start_mem {calls : List Call} (h : Traced ms calls) {started ended : Closure}
    {inner : List Call} (hcall : .made started ended inner ∈ Call.inOrderAll calls) :
    .start true started ∈ ms := by
  induction h with
  | nil => exact absurd hcall List.not_mem_nil
  | shown _ _ _ ihinner ih =>
    rw [Call.mem_inOrderAll_cons] at hcall
    obtain hcall | hcall | hcall := hcall
    · simp [ihinner hcall]
    · cases hcall
      simp
    · simp [ih hcall]
  | hidden _ _ ihinner ih =>
    rw [Call.inOrderAll_append, List.mem_append] at hcall
    obtain hcall | hcall := hcall
    · simp [ihinner hcall]
    · simp [ih hcall]

/-- Functions that have names keep them in the course of a call, so that their records name them as
their callers do. -/
theorem Traced.site_eq {calls : List Call} (h : Traced ms calls) (v : View)
    (hnamed : ∀ c, .start true c ∈ ms → c.name ≠ "") {call : Call}
    (hcall : call ∈ Call.inOrderAll calls) :
    (call.record v).site = call.site v := by
  cases call with | made started ended inner =>
  have hended : ended = started := by
    obtain hsame | ⟨hunnamed, -⟩ := h.became hcall
    · exact hsame
    · exact absurd hunnamed (hnamed started (h.start_mem hcall))
  rw [hended]
  exact siteOf_label v started

/-! ### The lines of a record -/

/-- A line of the file: a text, or a name behind a key. -/
inductive Line where
  | plain (text : String)
  | named (key name : String)

def Line.name? : Line → Option String
  | plain _ => none
  | named _ name => some name

/-- The lines about one call made from a record. -/
def Site.lines (callee : Site) : List Line :=
  [.named "cfl" callee.file, .named "cfn" callee.name, .plain "calls=1 0 0\n",
    .plain (costLine callee.line)]

def Record.lines (r : Record) : List Line :=
  [.named "fl" r.site.file, .named "fn" r.site.name, .plain (costLine r.site.line)] ++
    r.callees.flatMap Site.lines ++ [.plain "\n"]

/-- The text of a line, and the names written so far. -/
def Line.write (names : List String) : Line → String × List String
  | plain text => (text, names)
  | named key name => (key ++ "=" ++ (reference name names).1 ++ "\n", (reference name names).2)

def writeLines : List String → List Line → List String × List String
  | names, [] => ([], names)
  | names, l :: ls =>
    ((l.write names).1 :: (writeLines (l.write names).2 ls).1, (writeLines (l.write names).2 ls).2)

theorem writeLines_nil (names : List String) : writeLines names [] = ([], names) := rfl

theorem writeLines_cons (names : List String) (l : Line) (ls : List Line) :
    writeLines names (l :: ls) =
    ((l.write names).1 :: (writeLines (l.write names).2 ls).1,
      (writeLines (l.write names).2 ls).2) := rfl

theorem writeLines_append (names : List String) (ls ls' : List Line) :
    writeLines names (ls ++ ls') =
    ((writeLines names ls).1 ++ (writeLines (writeLines names ls).2 ls').1,
      (writeLines (writeLines names ls).2 ls').2) := by
  induction ls generalizing names with
  | nil => rfl
  | cons l ls ih => simp only [List.cons_append, writeLines_cons, ih]

theorem length_writeLines (names : List String) (ls : List Line) :
    (writeLines names ls).1.length = ls.length := by
  induction ls generalizing names with
  | nil => rfl
  | cons l ls ih => rw [writeLines_cons, List.length_cons, List.length_cons, ih]

theorem calleeLines_eq (callee : Site) (names : List String) :
    calleeLines callee names = writeLines names (Site.lines callee) := by
  rfl

theorem mapM_calleeLines (callees : List Site) (names : List String) :
    ((callees.mapM calleeLines names).1.flatten, (callees.mapM calleeLines names).2) =
      writeLines names (callees.flatMap Site.lines) := by
  induction callees generalizing names with
  | nil => rfl
  | cons callee callees ih =>
    have hcons : (callee :: callees).mapM calleeLines names =
        ((calleeLines callee names).1 :: (callees.mapM calleeLines (calleeLines callee names).2).1,
          (callees.mapM calleeLines (calleeLines callee names).2).2) := by
      rw [List.mapM_cons]
      rfl
    rw [hcons, List.flatten_cons, List.flatMap_cons, writeLines_append, calleeLines_eq, ← ih]

/-- A record is written line by line. -/
theorem recordLines_eq (r : Record) (names : List String) :
    recordLines r.site r.callees names = writeLines names r.lines := by
  have hcallees :=
    mapM_calleeLines r.callees (reference r.site.name (reference r.site.file names).2).2
  rw [Record.lines, writeLines_append, writeLines_append, Prod.ext_iff]
  simp only [writeLines_nil, writeLines_cons, Line.write, ← hcallees]
  exact ⟨rfl, rfl⟩

/-- The lines of some records. -/
def recordsLines (rs : List Record) : List Line := rs.flatMap Record.lines

theorem recordsLines_append (rs rs' : List Record) :
    recordsLines (rs ++ rs') = recordsLines rs ++ recordsLines rs' :=
  List.flatMap_append

/-! ### Numbers -/

/-- A name is written with its number, and as such only when it gets it. -/
theorem reference_spec (name : String) (names : List String) :
    (∃ i, (reference name names).2[i]? = some name ∧ (reference name names).1 =
      "(" ++ Decimal.natText (i + 1) ++ ")" ++ (if name ∈ names then "" else " " ++ name)) ∧
    (reference name names).2 = names ++ (if name ∈ names then [] else [name]) := by
  unfold reference
  cases hfound : names.idxOf? name with
  | none =>
    have hnew : name ∉ names := List.idxOf?_eq_none_iff.mp hfound
    refine ⟨⟨names.length, by simp, ?_⟩, by rw [if_neg hnew]⟩
    rw [if_neg hnew, ← String.append_assoc]
    simp [String.append_assoc]
  | some i =>
    obtain ⟨hlt, hget, -⟩ := List.idxOf?_eq_some_iff.mp hfound
    have hold : name ∈ names := by
      rw [← hget]
      exact List.getElem_mem hlt
    exact ⟨⟨i, by rw [List.getElem?_eq_getElem hlt, hget], by simp [if_pos hold]⟩,
      by simp [if_pos hold]⟩

theorem write_names (l : Line) (names : List String) :
    (l.write names).2 = names ++ l.name?.toList.filter (fun name => name ∉ names) := by
  cases l with
  | plain text => simp [Line.write, Line.name?]
  | named key name =>
    rw [Line.write, (reference_spec name names).2]
    by_cases hold : name ∈ names <;> simp [Line.name?, hold]

/-- Names keep their numbers. -/
theorem names_isPrefix (names : List String) (ls : List Line) :
    names <+: (writeLines names ls).2 := by
  induction ls generalizing names with
  | nil => exact List.prefix_rfl
  | cons l ls ih =>
    exact (List.prefix_iff_eq_append.mpr (by rw [write_names]; simp)).trans (ih (l.write names).2)

/-- No name has two numbers. -/
theorem nodup_names (ls : List Line) (h : names.Nodup) : (writeLines names ls).2.Nodup := by
  induction ls generalizing names with
  | nil => exact h
  | cons l ls ih =>
    refine ih ?_
    rw [write_names, List.nodup_append]
    refine ⟨h, List.Nodup.sublist List.filter_sublist ?_, fun a ha b hb => ?_⟩
    · cases l.name? <;> simp
    · rintro rfl
      simp [ha] at hb

/-- The names that have numbers are those that the lines mention. -/
theorem mem_names (names : List String) (ls : List Line) (name : String) :
    name ∈ (writeLines names ls).2 ↔ name ∈ names ∨ name ∈ ls.filterMap Line.name? := by
  induction ls generalizing names with
  | nil => simp [writeLines_nil]
  | cons l ls ih =>
    rw [writeLines_cons, ih, write_names, List.mem_append, List.mem_filter, List.filterMap_cons]
    cases l with
    | plain text => simp [Line.name?]
    | named key other => by_cases hold : name ∈ names <;> simp [Line.name?, hold]

/-- The numbers of a file: a line refers to a name by its only number, and introduces it if no line
in front has it. -/
theorem numbered (front behind : List Line) (key name : String) :
    let written := writeLines [] (front ++ .named key name :: behind)
    written.2.Nodup ∧ ∃ i, written.2[i]? = some name ∧
      written.1[front.length]? = some (key ++ "=" ++ ("(" ++ Decimal.natText (i + 1) ++ ")" ++
        (if name ∈ front.filterMap Line.name? then "" else " " ++ name)) ++ "\n") := by
  intro written
  obtain ⟨⟨i, hget, htext⟩, -⟩ := reference_spec name (writeLines [] front).2
  have hnames : written.2 = (writeLines (reference name (writeLines [] front).2).2 behind).2 := by
    rw [show written = _ from writeLines_append ..]
    rfl
  have hline : written.1[front.length]? =
      some (key ++ "=" ++ (reference name (writeLines [] front).2).1 ++ "\n") := by
    rw [show written = _ from writeLines_append ..,
      List.getElem?_append_right (Nat.le_of_eq (length_writeLines ..)), length_writeLines,
      Nat.sub_self]
    rfl
  have hfront : name ∈ (writeLines [] front).2 ↔ name ∈ front.filterMap Line.name? := by
    simp [mem_names]
  refine ⟨nodup_names _ List.nodup_nil, i, ?_, ?_⟩
  · obtain ⟨hlt, hname⟩ := List.getElem?_eq_some_iff.mp hget
    rw [hnames, List.prefix_iff_getElem?.mp (names_isPrefix _ behind) i hlt, hname]
  · simp only [hline, htext, hfront]

/-! ### Without a limit -/

theorem writeAll_unlimited (hs : s.capacity = none) (pieces : List String) :
    s.writeAll pieces = (true, { s with accepted := s.accepted ++ pieces.toArray }) := by
  induction pieces generalizing s with
  | nil => simp [Sink.writeAll]
  | cons piece pieces ih =>
    have hfull : s.isFull = false := by rw [Sink.isFull, hs]
    have hrest := @ih { s with accepted := s.accepted.push piece } hs
    rw [Sink.writeAll, if_neg (by simp [hfull]), hrest]
    simp

/-- A profile whose output has no limit, with its innermost record. -/
structure Writing (p : Callgrind) (s : Sink) (f : Frame) (fs : List Frame) : Prop where
  sink : p.sink = some s
  unlimited : s.capacity = none
  failed : p.failed = false
  frames : p.frames = f :: fs

/-- What some calls write. -/
def written (p : Callgrind) (calls : List Call) : List String × List String :=
  writeLines p.names (recordsLines ((Call.inOrderAll calls).map (Call.record p.view)))

/-- An output behind some calls. -/
def sinkAfter (p : Callgrind) (s : Sink) (calls : List Call) : Sink :=
  { s with accepted := s.accepted ++ (p.written calls).1.toArray }

/-- The innermost record behind some calls. -/
def frameAfter (p : Callgrind) (f : Frame) (calls : List Call) : Frame :=
  { f with callees := f.callees ++ calls.map (Call.site p.view) }

/-- A profile behind some calls. -/
def after (p : Callgrind) (s : Sink) (f : Frame) (fs : List Frame) (calls : List Call) :
    Callgrind :=
  { p with
    names := (p.written calls).2, sink := some (p.sinkAfter s calls),
    frames := p.frameAfter f calls :: fs }

section After

variable {calls behind : List Call} (hp : p.Writing s f fs)

include hp

theorem after_nil : p.after s f fs [] = p := by
  obtain ⟨hsink, -, -, hframes⟩ := hp
  have hnone : p.written [] = ([], p.names) := rfl
  simp [after, hnone, sinkAfter, frameAfter, ← hsink, ← hframes]

theorem Writing.after (calls : List Call) :
    (p.after s f fs calls).Writing (p.sinkAfter s calls) (p.frameAfter f calls) fs :=
  ⟨rfl, hp.unlimited, hp.failed, rfl⟩

omit hp in
theorem after_append :
    (p.after s f fs calls).after (p.sinkAfter s calls) (p.frameAfter f calls) fs behind =
    p.after s f fs (calls ++ behind) := by
  simp only [Callgrind.after, written, sinkAfter, frameAfter, Call.inOrderAll_append,
    List.map_append, recordsLines_append, writeLines_append, List.append_assoc, Array.append_assoc,
    List.append_toArray]

omit hp in
theorem written_made (c c' : Closure) : p.written [.made c c' calls] =
    ((p.written calls).1 ++
      (writeLines (p.written calls).2 (Call.record p.view (.made c c' calls)).lines).1,
      (writeLines (p.written calls).2 (Call.record p.view (.made c c' calls)).lines).2) := by
  simp only [written, Call.inOrderAll_cons, Call.inOrder_made, Call.inOrderAll_nil,
    List.append_nil, List.map_append, List.map_cons, List.map_nil, recordsLines_append,
    writeLines_append]
  simp only [recordsLines, List.flatMap_singleton]

/-- The end of a call writes the innermost record. -/
theorem finish_writing (c : Closure) :
    let lines :=
  writeLines p.names (Record.lines ⟨{ f.site with name := p.view.label c }, f.callees⟩)
    p.finish c = { p with
      names := lines.2, frames := fs,
      sink := some { s with accepted := s.accepted ++ lines.1.toArray } } := by
  intro lines
  have hline : recordLines { f.site with name := p.view.label c } f.callees p.names = lines :=
    recordLines_eq ⟨{ f.site with name := p.view.label c }, f.callees⟩ p.names
  simp only [finish, hp.frames, hp.failed, hp.sink, hline, writeAll_unlimited hp.unlimited,
    Bool.not_true]

/-- The start of a call opens a record. -/
theorem start_writing (c : Closure) : p.start c = { p with
    frames := { site := siteOf p.view c } ::
      { f with callees := f.callees ++ [siteOf p.view c] } :: fs } := by
  simp only [start, push, hp.frames]

theorem Writing.start (c : Closure) : (p.start c).Writing s { site := siteOf p.view c }
    ({ f with callees := f.callees ++ [siteOf p.view c] } :: fs) := by
  rw [start_writing hp]
  exact ⟨hp.sink, hp.unlimited, hp.failed, rfl⟩

/-- A call, from its start to its end. -/
theorem finish_after (c c' : Closure) : ((p.start c).after s { site := siteOf p.view c }
    ({ f with callees := f.callees ++ [siteOf p.view c] } :: fs) calls).finish c' =
      p.after s f fs [.made c c' calls] := by
  rw [finish_writing ((hp.start c).after calls), start_writing hp]
  simp only [Callgrind.after, written_made, sinkAfter, frameAfter, List.map_cons, List.map_nil,
    Call.site, Call.started, Call.record, List.nil_append, ← List.append_toArray,
    Array.append_assoc]
  rfl

end After

/-- The run lemma: behind the calls of a run, their records are written. -/
theorem observe_traced {calls : List Call} (h : Traced ms calls) (hp : p.Writing s f fs) :
    ms.foldl observe p = p.after s f fs calls := by
  induction h generalizing p s f fs with
  | nil => exact (after_nil hp).symm
  | @shown c c' inner rest calls behind _ _ _ ihinner ih =>
    rw [List.foldl_cons, List.foldl_append, List.foldl_cons]
    show rest.foldl observe ((inner.foldl observe (p.start c)).finish c') = _
    rw [ihinner (hp.start c), finish_after hp, ih (hp.after _), after_append]
    rfl
  | @hidden c c' inner rest calls behind _ _ ihinner ih =>
    rw [List.foldl_cons, List.foldl_append, List.foldl_cons]
    show rest.foldl observe (inner.foldl observe p) = _
    rw [ihinner hp, ih (hp.after _), after_append]

/-! ### The whole file -/

/-- The lines of a file between its header and its summary. -/
def fileLines (v : View) (calls : List Call) : List Line :=
  recordsLines
    ((Call.inOrderAll calls).map (Call.record v) ++ [⟨entryPoint, calls.map (Call.site v)⟩])

/-- A profile that starts with its header. -/
def restarted (p : Callgrind) (s : Sink) : Callgrind :=
  { p with
    enabled := true, names := [], frames := [{ site := entryPoint }]
    sink := some { s with accepted := s.accepted ++ header.toArray } }

/-- A profile starts over whether or not it is rejected because it is enabled. -/
theorem enable_unlimited (hsink : p.sink = some s) (hs : s.capacity = none) :
    enable.run p = if p.enabled then .error .alreadyEnabled (p.restarted s)
      else .ok () (p.restarted s) := by
  have hheader := writeAll_unlimited hs header
  cases henabled : p.enabled <;> simp [enable, restarted, push, hsink, hheader, henabled]

/-- The end of a run writes the record of the program. -/
theorem complete_writing (hp : p.Writing s f fs) :
    let lines := writeLines p.names (Record.lines ⟨f.site, f.callees⟩)
    complete.run p = .ok () { p with
      frames := fs, names := lines.2
      sink := some { s with
        accepted := s.accepted ++ (lines.1 ++ summary).toArray, closed := true } } := by
  intro lines
  have hline : recordLines f.site f.callees p.names = lines :=
    recordLines_eq ⟨f.site, f.callees⟩ p.names
  have hall := writeAll_unlimited hp.unlimited (lines.1 ++ summary)
  simp [complete, hp.sink, hp.failed, hp.frames, hline, hall]

/-- What a profile adds to its file from its start to the end of a run: a header, a record for every
call that is shown, in the order in which the calls end, the record of the program, and a summary.
This holds of a start that is rejected, too: names get new numbers, and of earlier calls the program
does not list any. -/
theorem file_restarted {events : List Event} (hs : s.capacity = none) (hfailed : p.failed = false)
    (h : Nested Event.Passes Event.Closes events) :
    ∃ calls q, Traced (p.view.moments events) calls ∧
      complete.run ((p.restarted s).follow events) = .ok () q ∧ q.sink = some { s with
        accepted := s.accepted ++ header.toArray ++
          (writeLines [] (fileLines p.view calls)).1.toArray ++ summary.toArray
        closed := true } := by
  obtain ⟨calls, hcalls⟩ := exists_traced (p.view.nested_moments h)
  have hp :
      (p.restarted s).Writing { s with accepted := s.accepted ++ header.toArray }
        { site := entryPoint } [] :=
    ⟨rfl, hs, hfailed, rfl⟩
  have hfollow : (p.restarted s).follow events = _ := (if_pos rfl).trans (observe_traced hcalls hp)
  refine ⟨calls, _, hcalls,
    (congrArg complete.run hfollow).trans (complete_writing (hp.after calls)), ?_⟩
  simp [fileLines, writeLines_append, recordsLines, written, sinkAfter, frameAfter, restarted,
    Callgrind.after]

/-- The file of a run, whatever its outcome. A record names its function as it is named when the
call ends, and the calls made from it by the names that their functions have when these calls start.
If only functions that have names are shown, these are the names in the records of these calls. -/
theorem file_of_run (fuel : Nat) (options : Options) (t : Tree) (m : Machine) (v : View) :
    ∃ events calls p q, (runWith fuel options t m).2.events.toList = m.events.toList ++ events ∧
      Traced (v.moments events) calls ∧ enable.run { view := v, sink := some {} } = .ok () p ∧
      complete.run (p.follow events) = .ok () q ∧
      q.sink = some {
        accepted := (header ++ (writeLines [] (fileLines v calls)).1 ++ summary).toArray,
        closed := true } ∧
      ((∀ c, v.skips c = false → c.name ≠ "") →
        calls.map (Call.site v) = calls.map (fun callee => (callee.record v).site) ∧
        ∀ call ∈ Call.inOrderAll calls,
          (call.record v).callees = call.calls.map fun callee => (callee.record v).site) := by
  obtain ⟨events, hevents, hnested⟩ := nested_runWith fuel options t m
  obtain ⟨calls, q, hcalls, hcomplete, hq⟩ :=
    file_restarted (p := { view := v }) (s := {}) rfl rfl hnested
  refine ⟨events, calls, _, q, hevents, hcalls,
    (enable_unlimited rfl rfl).trans (if_neg Bool.false_ne_true), hcomplete, by simp [hq],
    fun hskips => ?_⟩
  have hsite : ∀ callee ∈ Call.inOrderAll calls, callee.site v = (callee.record v).site :=
    fun callee hmem =>
      (hcalls.site_eq v (fun c hstart => hskips c (v.shown_of_mem hstart)) hmem).symm
  refine ⟨List.map_congr_left fun callee hmem => hsite callee (Call.mem_inOrderAll_self hmem),
    fun call hcall => ?_⟩
  have hinner : ∀ callee ∈ call.calls, callee.site v = (callee.record v).site := fun callee hmem =>
    hsite callee (hcalls.mem_inOrderAll hcall hmem)
  cases call with | made started ended inner => exact List.map_congr_left hinner

end Callgrind

end ClosureLang.Profile
