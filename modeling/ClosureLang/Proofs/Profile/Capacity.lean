import ClosureLang.Proofs.Profile.Records

/-! Profiles whose output takes only so many pieces. What such an output has accepted is the start
of what one without a limit would have, and the end of the profile reports the failure. -/
namespace ClosureLang.Profile

namespace Sink

variable {s : Sink} {k : Nat}

/-- The output as it would be if it only took `k` pieces. -/
def limited (k : Nat) (s : Sink) : Sink :=
  { s with accepted := (s.accepted.toList.take k).toArray, capacity := some k }

theorem isFull_limited (s : Sink) (k : Nat) :
    (s.limited k).isFull = decide (k ≤ s.accepted.size) := by
  simp only [isFull, limited, List.size_toArray, List.length_take, Array.length_toList,
    decide_eq_decide]
  omega

/-- Pieces that come when the limit is reached already are lost. -/
theorem limited_append (hk : k ≤ s.accepted.size) (pieces : List String) :
    { s with accepted := s.accepted ++ pieces.toArray }.limited k = s.limited k := by
  simp [limited, List.take_append_of_le_length hk]

theorem limited_push (hk : s.accepted.size < k) (piece : String) :
    { s.limited k with accepted := (s.limited k).accepted.push piece } =
      { s with accepted := s.accepted.push piece }.limited k := by
  have htake : s.accepted.toList.take k = s.accepted.toList :=
    List.take_of_length_le (Nat.le_of_lt hk)
  have htake' : (s.accepted.push piece).toList.take k = (s.accepted.push piece).toList :=
    List.take_of_length_le (by rw [Array.length_toList, Array.size_push]; exact hk)
  simp only [limited, htake, htake', Array.toArray_toList]

/-- Writing succeeds as long as all pieces fit. -/
theorem writeAll_limited (hs : s.accepted.size ≤ k) (pieces : List String) :
    (s.limited k).writeAll pieces = (decide (s.accepted.size + pieces.length ≤ k),
      { s with accepted := s.accepted ++ pieces.toArray }.limited k) := by
  induction pieces generalizing s with
  | nil => simp [writeAll, hs]
  | cons piece pieces ih =>
    rw [writeAll, isFull_limited]
    by_cases hk : k ≤ s.accepted.size
    · have hlost : ¬ s.accepted.size + (piece :: pieces).length ≤ k := by
        rw [List.length_cons]
        omega
      rw [if_pos (decide_eq_true hk), decide_eq_false hlost, limited_append hk]
    · rw [if_neg (by simpa using hk), limited_push (Nat.lt_of_not_le hk),
        ih (s := { s with accepted := s.accepted.push piece }) (by simp; omega)]
      simp [Nat.add_assoc, Nat.add_comm 1]

end Sink

namespace Callgrind

variable {k : Nat} {p q p' q' : Callgrind} {s : Sink}

/-- Two profiles of one run: `q` writes to an output without a limit, which is `s` by now, and `p`
to one that takes `k` pieces. The names of `p` count only as long as it has not failed. -/
structure Lags (k : Nat) (s : Sink) (p q : Callgrind) : Prop where
  view : p.view = q.view
  enabled : p.enabled = q.enabled
  frames : p.frames = q.frames
  sink : p.sink = some (s.limited k)
  whole : q.sink = some s
  unlimited : s.capacity = none
  isOpen : s.closed = false
  failed : p.failed = decide (k < s.accepted.size)
  sound : q.failed = false
  names : s.accepted.size ≤ k → p.names = q.names

theorem Lags.start (h : Lags k s p q) (c : Closure) : Lags k s (p.start c) (q.start c) := by
  obtain ⟨view, enabled, frames, sink, whole, unlimited, isOpen, failed, sound, names⟩ := h
  simp only [Callgrind.start, push, view, frames]
  split <;> exact ⟨rfl, enabled, rfl, sink, whole, unlimited, isOpen, failed, sound, names⟩

/-- The step lemma: the end of a call writes the same record to both outputs, as far as it fits. -/
theorem Lags.finish (h : Lags k s p q) (c : Closure) :
    ∃ s', Lags k s' (p.finish c) (q.finish c) := by
  obtain ⟨view, enabled, frames, sink, whole, unlimited, isOpen, failed, sound, names⟩ := h
  cases hframes : q.frames with
  | nil =>
    refine ⟨s, ?_⟩
    rw [show p.finish c = p by simp only [Callgrind.finish, frames, hframes],
      show q.finish c = q by simp only [Callgrind.finish, hframes]]
    exact ⟨view, enabled, frames, sink, whole, unlimited, isOpen, failed, sound, names⟩
  | cons f fs =>
    have hq := finish_writing ⟨whole, unlimited, sound, hframes⟩ c
    -- the lines that `q` writes, of which `p` writes as many as fit
    generalize hlines :
      writeLines q.names (Record.lines ⟨{ f.site with name := q.view.label c }, f.callees⟩) =
        lines at hq
    have hrecord : recordLines { f.site with name := q.view.label c } f.callees q.names = lines :=
      (recordLines_eq ⟨{ f.site with name := q.view.label c }, f.callees⟩ q.names).trans hlines
    refine ⟨{ s with accepted := s.accepted ++ lines.1.toArray }, ?_⟩
    rw [hq]
    by_cases hk : s.accepted.size ≤ k
    · have hp : p.finish c = { p with
          frames := fs, names := lines.2
          sink := some ({ s with accepted := s.accepted ++ lines.1.toArray }.limited k)
          failed := !decide (s.accepted.size + lines.1.length ≤ k) } := by
        rw [decide_eq_false (Nat.not_lt.mpr hk)] at failed
        simp only [Callgrind.finish, frames, hframes, failed, sink, view, names hk, hrecord,
          Sink.writeAll_limited hk]
      rw [hp]
      refine ⟨view, enabled, rfl, rfl, rfl, unlimited, isOpen, ?_, sound, fun _ => rfl⟩
      simp [← decide_not]
    · have hp : p.finish c = { p with frames := fs } := by
        rw [decide_eq_true (Nat.lt_of_not_le hk)] at failed
        simp only [Callgrind.finish, frames, hframes, failed]
      have hmore : k < (s.accepted ++ lines.1.toArray).size := by
        rw [Array.size_append]
        omega
      rw [hp]
      refine ⟨view, enabled, rfl, ?_, rfl, unlimited, isOpen, ?_, sound,
        fun hle => absurd hmore (Nat.not_lt.mpr hle)⟩
      · rw [sink, Sink.limited_append (Nat.le_of_not_le hk)]
      · rw [failed, decide_eq_true (Nat.lt_of_not_le hk), decide_eq_true hmore]

theorem Lags.observe (h : Lags k s p q) (m : Moment) :
    ∃ s', Lags k s' (p.observe m) (q.observe m) := by
  obtain ⟨_ | _, c⟩ | ⟨_ | _, c⟩ := m
  · exact ⟨s, h⟩
  · exact ⟨s, h.start c⟩
  · exact ⟨s, h⟩
  · exact h.finish c

/-- The run lemma: whatever happens, the limited output lags behind the other one. -/
theorem Lags.foldl (h : Lags k s p q) (ms : List Moment) :
    ∃ s', Lags k s' (ms.foldl Callgrind.observe p) (ms.foldl Callgrind.observe q) := by
  induction ms generalizing p q s with
  | nil => exact ⟨s, h⟩
  | cons m ms ih =>
    obtain ⟨s', h'⟩ := h.observe m
    exact ih h'

theorem Lags.follow (h : Lags k s p q) (events : List Event) :
    ∃ s', Lags k s' (p.follow events) (q.follow events) := by
  unfold Callgrind.follow
  rw [h.enabled, h.view]
  split
  · exact h.foldl _
  · exact ⟨s, h⟩

/-- The end of a profile that lags behind: it fails unless everything has fitted. -/
theorem Lags.complete (h : Lags k s p q) (hq : complete.run q = .ok () q') :
    ∃ (pieces : List String) (p' : Callgrind),
    q'.sink = some { accepted := pieces.toArray, closed := true } ∧
    p'.sink = some { accepted := (pieces.take k).toArray, capacity := some k,
                     closed := decide (pieces.length ≤ k) } ∧
    complete.run p = if pieces.length ≤ k then .ok () p' else .error .diskFull p' := by
  obtain ⟨view, enabled, frames, sink, whole, unlimited, isOpen, failed, sound, names⟩ := h
  cases hframes : q.frames with
  | nil => simp [Callgrind.complete, whole, sound, hframes] at hq
  | cons f fs =>
    have hwritten := complete_writing ⟨whole, unlimited, sound, hframes⟩
    generalize hlines : writeLines q.names (Record.lines ⟨f.site, f.callees⟩) = lines at hwritten
    have hrecord : recordLines f.site f.callees q.names = lines :=
      (recordLines_eq ⟨f.site, f.callees⟩ q.names).trans hlines
    obtain rfl : _ = q' := by simpa using hwritten.symm.trans hq
    generalize hpieces : s.accepted.toList ++ (lines.1 ++ summary) = pieces
    have hsize : s.accepted.size + (lines.1 ++ summary).length = pieces.length := by
      simp [← hpieces]
    have haccepted : s.accepted ++ (lines.1 ++ summary).toArray = pieces.toArray := by
      simp [← hpieces]
    by_cases hk : s.accepted.size ≤ k
    · rw [decide_eq_false (Nat.not_lt.mpr hk)] at failed
      have hall := Sink.writeAll_limited hk (lines.1 ++ summary)
      rw [hsize, haccepted] at hall
      refine ⟨pieces, { p with
        frames := fs, names := lines.2
        sink := some { accepted := (pieces.take k).toArray, capacity := some k,
                       closed := decide (pieces.length ≤ k) } },
        by rw [haccepted, unlimited], rfl, ?_⟩
      by_cases hfits : pieces.length ≤ k
      · simp [Callgrind.complete, failed, frames, hframes, sink, names hk, hrecord, hall, hfits]
        exact ⟨rfl, rfl⟩
      · simp [Callgrind.complete, failed, frames, hframes, sink, names hk, hrecord, hall, hfits]
        exact ⟨rfl, rfl⟩
    · rw [decide_eq_true (Nat.lt_of_not_le hk)] at failed
      have hfull : ¬ pieces.length ≤ k := by omega
      have htake : pieces.take k = s.accepted.toList.take k := by
        rw [← hpieces, List.take_append_of_le_length (Nat.le_of_not_le hk)]
      refine ⟨pieces, { p with frames := fs }, by rw [haccepted, unlimited], ?_, ?_⟩
      · rw [sink, Sink.limited, htake, decide_eq_false hfull, isOpen]
      · rw [if_neg hfull]
        simp [Callgrind.complete, failed, frames, hframes]

/-- A profile of a run, from its start to its end. -/
def profile (events : List Event) : Step Unit := do
  enable
  modify (follow events)
  complete

theorem profile_run {events : List Event} (h : enable.run p = .ok () q) :
    (profile events).run p = complete.run (q.follow events) := by
  simp only [EStateM.run] at h
  simp only [profile, EStateM.run, bind, EStateM.bind, h]
  rfl

/-- A limited output that takes the header lags behind from there on. -/
theorem lags_restarted (hk : header.length ≤ k) (v : View) : ∃ p s,
    enable.run { view := v, sink := some { capacity := some k } } = .ok () p ∧
      Lags k s p (restarted { view := v } {}) := by
  have hheader := Sink.writeAll_limited (s := {}) (Nat.zero_le k) header
  refine ⟨{ restarted { view := v } {} with
    sink := some (Sink.limited k { accepted := header.toArray }) },
    { accepted := header.toArray }, ?_, ?_⟩
  · have hempty : Sink.limited k {} = { capacity := some k } := by simp [Sink.limited]
    rw [hempty] at hheader
    simp [enable, restarted, push, hheader, Nat.not_lt.mpr hk]
  · exact ⟨rfl, rfl, rfl, rfl, rfl, rfl, rfl, (decide_eq_false (Nat.not_lt.mpr hk)).symm, rfl,
      fun _ => rfl⟩

/-- The profile of a run, whatever its outcome, whose output fails from the piece with the number
`k` on, counted from zero: it has accepted the first `k` pieces of those that an output without a
limit accepts. The end of the profile reports the failure if there are more than these, and else
that all is well. -/
theorem accepted_of_full_output {k : Nat} (hk : 3 ≤ k) (fuel : Nat) (options : Options) (t : Tree)
    (m : Machine) (v : View) : ∃ (events : List Event) (pieces : List String) (p q : Callgrind),
      (runWith fuel options t m).2.events.toList = m.events.toList ++ events ∧
      (profile events).run { view := v, sink := some {} } = .ok () q ∧
      q.sink = some { accepted := pieces.toArray, closed := true } ∧
      (profile events).run { view := v, sink := some { capacity := some k } } =
        (if pieces.length ≤ k then .ok () p else .error .diskFull p) ∧
      p.sink = some {
        accepted := (pieces.take k).toArray, capacity := some k,
        closed := decide (pieces.length ≤ k) } := by
  obtain ⟨events, hevents, hnested⟩ := nested_runWith fuel options t m
  obtain ⟨calls, q, -, hcomplete, -⟩ :=
    file_restarted (p := { view := v }) (s := {}) rfl rfl hnested
  obtain ⟨p, s, hstart, hlags⟩ := lags_restarted hk v
  obtain ⟨s', hlags'⟩ := hlags.follow events
  obtain ⟨pieces, p', hq, hp, hcomplete'⟩ := hlags'.complete hcomplete
  have hstart' : enable.run { view := v, sink := some {} } = .ok () (restarted { view := v } {}) :=
    (enable_unlimited rfl rfl).trans (if_neg Bool.false_ne_true)
  exact ⟨events, pieces, p', q, hevents, (profile_run hstart').trans hcomplete, hq,
    (profile_run hstart).trans hcomplete', hp⟩

/-- What an output has accepted behind a step. -/
def accepted : EStateM.Result ProfileError Callgrind Unit → List String
  | .ok _ p | .error _ p => (p.sink.map fun s => s.accepted.toList).getD []

/-- The output fails in the record of the only call. -/
theorem accepted_of_full_output_call :
    ∃ t events p, Grammar.parseProgram "func()\x7b\x7d();" = .ok t ∧
    (runWith 9 { calls := true } t {}).2.events.toList = events ∧ 3 ≤ 5 ∧
    (accepted ((profile events).run { view := {}, sink := some {} })).length = 16 ∧
    (profile events).run { view := {}, sink := some { capacity := some 5 } } = .error .diskFull p ∧
    p.sink = some { accepted := (header ++ ["fl=(1) -\n", "fn=(2) <anonymous>\n"]).toArray,
                    capacity := some 5 } := by
  have hcheck : (Grammar.parseProgram "func()\x7b\x7d();").toOption.any (fun t =>
      let whole := accepted
          ((profile (runWith 9 { calls := true } t {}).2.events.toList).run
            { view := {}, sink := some {} })
      decide (whole.length = 16) &&
        decide (whole.take 5 = header ++ ["fl=(1) -\n", "fn=(2) <anonymous>\n"])) = true := by
    decide +kernel
  obtain ⟨t, hparse, hcheck⟩ := Grammar.exists_ok_of_any hcheck
  simp only [Bool.and_eq_true, decide_eq_true_eq] at hcheck
  obtain ⟨events, pieces, p, q, hevents, hwhole, hq, hlimited, hp⟩ :=
    accepted_of_full_output (k := 5) (by decide) 9 { calls := true } t {} {}
  obtain rfl : (runWith 9 { calls := true } t {}).2.events.toList = events := hevents
  simp only [hwhole, accepted, hq, Option.map_some, Option.getD_some] at hcheck
  have hfull : ¬ pieces.length ≤ 5 := by omega
  rw [if_neg hfull] at hlimited
  rw [hcheck.2, decide_eq_false hfull] at hp
  refine ⟨t, _, p, hparse, rfl, by decide, ?_, hlimited, hp⟩
  simp only [hwhole, accepted, hq, Option.map_some, Option.getD_some, hcheck.1]

end Callgrind

end ClosureLang.Profile
