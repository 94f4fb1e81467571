import Mathlib.Data.List.Induction

/-!
# Watch mode

The polling loop of `stc watch` as a step on the mtime seen last and the time of the last
compile. A change that comes too soon after a compile is recorded and not compiled, so the
file may settle on a text that no compile has read; every other change is compiled by the
poll that sees it.
-/

namespace SignalTopology.Watch

/-- The debounce window in milliseconds. -/
def DEBOUNCE_MS : Nat := 200

/-- `Duration::from_millis(DEBOUNCE_MS)`, in nanoseconds. -/
def debounce : Nat := DEBOUNCE_MS * 1000000

variable {M : Type}

/-- What one turn of the loop finds: the clock in nanoseconds, and the mtime of the file if
it can be read. -/
structure Poll (M : Type) where
  now : Nat
  mtime : Option M

/-- The two variables of `watch_file`. -/
structure WatchState (M : Type) where
  lastMtime : Option M := none
  lastCompile : Option Nat := none

section

variable [DecidableEq M]

def mtimeChanged : Option M → Option M → Bool
  | none, some _ => true
  | some prev, some cur => cur ≠ prev
  | _, none => false

/-- One turn of the loop, and whether it compiles the file. What the compile reports has no
part in it. -/
def WatchState.turn (s : WatchState M) (poll : Poll M) : WatchState M × Bool :=
  if mtimeChanged s.lastMtime poll.mtime then
    match s.lastCompile with
    | some t =>
        if poll.now - t < debounce then ({ s with lastMtime := poll.mtime }, false)
        else (⟨poll.mtime, some poll.now⟩, true)
    | none => (⟨poll.mtime, some poll.now⟩, true)
  else (s, false)

/-- The state after the polls, and the polls at which the file was compiled. -/
def watchFile (polls : List (Poll M)) : WatchState M × List (Poll M) :=
  polls.foldl (fun run poll =>
    let next := run.1.turn poll
    (next.1, if next.2 then run.2 ++ [poll] else run.2)) ({}, [])

/-- What one turn does: nothing without a change, else a compile or, inside the window of the
last compile, a record of the mtime. -/
theorem WatchState.turn_cases (s : WatchState M) (poll : Poll M) :
    (s.turn poll = (s, false) ∧ (poll.mtime = none ∨ poll.mtime = s.lastMtime)) ∨
    (∃ m, poll.mtime = some m ∧ s.turn poll = (⟨some m, some poll.now⟩, true)) ∨
    ∃ m t, poll.mtime = some m ∧ s.lastCompile = some t ∧ poll.now - t < debounce ∧
      s.turn poll = (⟨some m, some t⟩, false) := by
  rw [turn]
  cases seen : poll.mtime with
  | none =>
      refine .inl ⟨if_neg ?_, .inl rfl⟩
      cases s.lastMtime <;> simp [mtimeChanged]
  | some m =>
      by_cases changed : mtimeChanged s.lastMtime (some m) = true
      · refine .inr ?_
        rw [if_pos changed]
        cases compiled : s.lastCompile with
        | none => exact .inl ⟨m, rfl, rfl⟩
        | some t =>
            by_cases soon : poll.now - t < debounce
            · exact .inr ⟨m, t, rfl, rfl, soon, if_pos soon⟩
            · exact .inl ⟨m, rfl, if_neg soon⟩
      · refine .inl ⟨if_neg changed, .inr ?_⟩
        cases last : s.lastMtime with
        | none =>
            rw [last] at changed
            exact absurd rfl changed
        | some prev =>
            rw [last] at changed
            simpa [mtimeChanged] using changed

theorem watchFile_append (polls : List (Poll M)) (poll : Poll M) :
    watchFile (polls ++ [poll]) =
      (((watchFile polls).1.turn poll).1,
        if ((watchFile polls).1.turn poll).2 then (watchFile polls).2 ++ [poll]
        else (watchFile polls).2) := by
  rw [watchFile, List.foldl_append]
  rfl

end

/-- Some poll of the window after the compile saw the file at `m`, and since then it has not
been seen at anything else. -/
def Skipped (polls : List (Poll M)) (compile : Poll M) (m : M) : Prop :=
  ∃ front poll back, polls = front ++ poll :: back ∧ poll.mtime = some m ∧
    compile.now < poll.now ∧ poll.now < compile.now + debounce ∧
    ∀ later ∈ back, later.mtime = some m ∨ later.mtime = none

theorem Skipped.append {polls : List (Poll M)} {compile poll : Poll M} {m : M}
    (h : Skipped polls compile m) (same : poll.mtime = some m ∨ poll.mtime = none) :
    Skipped (polls ++ [poll]) compile m := by
  obtain ⟨front, change, back, split, seen, after, within, settled⟩ := h
  refine ⟨front, change, back ++ [poll], by simp [split], seen, after, within, ?_⟩
  exact List.forall_mem_append.mpr ⟨settled, List.forall_mem_singleton.mpr same⟩

/-- What the variables of the loop say about the polls so far. -/
structure Watched (polls : List (Poll M)) (s : WatchState M) (compiles : List (Poll M)) :
    Prop where
  seen : s.lastMtime = (polls.filterMap Poll.mtime).getLast?
  compiled : s.lastCompile = compiles.getLast?.map Poll.now
  past : ∀ compile ∈ compiles, compile ∈ polls
  settled : ∀ m, s.lastMtime = some m →
    ∃ compile, compiles.getLast? = some compile ∧
      (compile.mtime = some m ∨ Skipped polls compile m)

variable [DecidableEq M]

/-- One more poll keeps it, at a later time than all before. -/
theorem Watched.turn {polls compiles : List (Poll M)} {s : WatchState M} {poll : Poll M}
    (h : Watched polls s compiles) (later : ∀ p ∈ polls, p.now < poll.now) :
    Watched (polls ++ [poll]) (s.turn poll).1
      (if (s.turn poll).2 then compiles ++ [poll] else compiles) := by
  obtain ⟨same, seen⟩ | ⟨m, seen, same⟩ | ⟨m, t, seen, compiled, soon, same⟩ := s.turn_cases poll
  · rw [same]
    refine ⟨?_, h.compiled, fun c member => List.mem_append_left _ (h.past c member), ?_⟩
    · rw [List.filterMap_append, List.getLast?_append, ← h.seen]
      rcases seen with none_seen | same_seen
      · simp [none_seen]
      · cases last : s.lastMtime with
        | none => simp [same_seen, last]
        | some m => simp [same_seen, last]
    · intro m last
      obtain ⟨compile, final, settled⟩ := h.settled m last
      refine ⟨compile, final, settled.imp_right fun skipped => skipped.append ?_⟩
      rcases seen with none_seen | same_seen
      · exact .inr none_seen
      · exact .inl (same_seen.trans last)
  · rw [same]
    refine ⟨by simp [seen], by simp, ?_, ?_⟩
    · intro c member
      rcases List.mem_append.mp member with earlier | last
      · exact List.mem_append_left _ (h.past c earlier)
      · exact List.mem_append_right _ last
    · rintro m' ⟨⟩
      exact ⟨poll, by simp, .inl seen⟩
  · rw [same]
    refine ⟨by simp [seen], compiled ▸ h.compiled,
      fun c member => List.mem_append_left _ (h.past c member), ?_⟩
    rintro m' ⟨⟩
    obtain ⟨compile, final, rfl⟩ := Option.map_eq_some_iff.mp (h.compiled.symm.trans compiled)
    have after := later compile (h.past compile (List.mem_of_getLast? final))
    exact ⟨compile, final, .inr ⟨polls, poll, [], rfl, seen, after, by omega, by simp⟩⟩

theorem watchFile_watched {polls : List (Poll M)}
    (increasing : polls.Pairwise fun p q => p.now < q.now) :
    Watched polls (watchFile polls).1 (watchFile polls).2 := by
  induction polls using List.reverseRecOn with
  | nil => exact ⟨rfl, rfl, by simp [watchFile], by simp [watchFile]⟩
  | append_singleton polls poll ih =>
      obtain ⟨before, _, later⟩ := List.pairwise_append.mp increasing
      rw [watchFile_append]
      exact (ih before).turn fun p member => later p member poll (List.mem_singleton.mpr rfl)

/-- When the file has stayed at the mtime `m` for some polls, the last compile read it at
`m`, or the change to `m` came inside the debounce window of that compile. -/
theorem watchFile_settles {polls before stretch : List (Poll M)} {m : M}
    (increasing : polls.Pairwise fun p q => p.now < q.now) (split : polls = before ++ stretch)
    (nonempty : stretch ≠ []) (stayed : ∀ poll ∈ stretch, poll.mtime = some m) :
    ∃ compile, (watchFile polls).2.getLast? = some compile ∧
      (compile.mtime = some m ∨ Skipped polls compile m) := by
  have watched := watchFile_watched increasing
  refine watched.settled m ?_
  obtain ⟨init, last, rfl⟩ : ∃ init last, stretch = init ++ [last] :=
    ⟨_, _, (List.dropLast_concat_getLast nonempty).symm⟩
  have seen := stayed last (by simp)
  rw [watched.seen, split]
  simp [seen]

/-- A file that is saved 100 ms after its first compile and then left alone. -/
def savedTwice : List (Poll Nat) :=
  [⟨0, some 1⟩, ⟨100000000, some 2⟩, ⟨600000000, some 2⟩, ⟨1100000000, some 2⟩]

theorem savedTwice_settles :
    ∃ compile, (watchFile savedTwice).2.getLast? = some compile ∧
      (compile.mtime = some 2 ∨ Skipped savedTwice compile 2) :=
  @watchFile_settles Nat _ savedTwice (savedTwice.take 1) (savedTwice.drop 1) 2
    (by simp [savedTwice]) rfl (by decide) (by simp [savedTwice])

/-- The second save is never compiled: 900 ms after the window the last compile is still the
one of the first save. -/
theorem savedTwice_stale :
    (savedTwice.Pairwise fun p q => p.now < q.now) ∧ savedTwice =
      savedTwice.take 1 ++ savedTwice.drop 1 ∧
    (∀ poll ∈ savedTwice.drop 1, poll.mtime = some 2) ∧
    ∃ compile, (watchFile savedTwice).2.getLast? = some compile ∧
      compile.now + debounce ≤ 1100000000 ∧ compile.mtime ≠ some 2 :=
  ⟨by simp [savedTwice], rfl, by simp [savedTwice], ⟨0, some 1⟩, rfl, by decide, by decide⟩

end SignalTopology.Watch
