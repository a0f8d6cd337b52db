import CompileDriver.Proofs.Host.Schedules
import CompileDriver.Proofs.Queue.Batch

/-! # Batches under a schedule

The workers of a queue run the invocations of a batch in any order and at the same time. What a
compiler does with an invocation decides the outcome of the batch; the schedule decides only in
which order processes are started and entries are added to the operation log.
-/

namespace CompileDriver

open Procedure

def Call.command? : Call → Option Command
  | spawn c => some c
  | _ => none

/-- The answers of a host on which commands end as `respond` tells. -/
def Call.replyBy (respond : Command → Except IoError Output) : (c : Call) → c.Answer
  | spawn c => respond c
  | status _ | makeDirectory _ | create _ | write .. | read _ | list _ => .error .notFound
  | recorded => []
  | record _ | warn _ | say _ => ()

namespace ParallelQueue

variable {h : Host} {respond : Command → Except IoError Output} {limit : Nat} {w : World}
  {q : ParallelQueue} {batch : List Invocation}

/-! ## One invocation -/

/-- The log entry for an invocation, where commands end as `respond` tells. -/
def entryOf (q : ParallelQueue) (respond : Command → Except IoError Output) (i : Invocation) :
    LogEntry :=
  (q.outcome i (respond (q.command i))).1

def failureOf? (q : ParallelQueue) (respond : Command → Except IoError Output) (i : Invocation) :
    Option InvocationFailure :=
  (q.outcome i (respond (q.command i))).2

theorem calls_runOne (respond : Command → Except IoError Output) (q : ParallelQueue)
    (i : Invocation) :
    ∃ said : List String, (q.runOne i).calls (Call.replyBy respond) =
      said.map Call.say ++ [.spawn (q.command i), .record (q.entryOf respond i)] := by
  unfold runOne
  dsimp only
  split
  · exact ⟨[_], rfl⟩
  · exact ⟨[], rfl⟩

theorem result_runOne (q : ParallelQueue) (i : Invocation) :
    (q.runOne i).result (Call.replyBy respond) = q.failureOf? respond i := by
  unfold runOne
  dsimp only
  split <;> rfl

theorem answer_of_mem_calls_runOne (hrespond : ∀ c fs, (h.spawn c fs).1 = respond c)
    {i : Invocation} {c : Call} (hc : c ∈ (q.runOne i).calls (Call.replyBy respond)) (v : World) :
    (h.answer c v).1 = Call.replyBy respond c := by
  obtain ⟨said, hcalls⟩ := calls_runOne respond q i
  rw [hcalls] at hc
  rcases List.mem_append.1 hc with hc | hc
  · obtain ⟨line, -, rfl⟩ := List.mem_map.1 hc
    rfl
  · rcases List.mem_cons.1 hc with rfl | hc
    · exact hrespond _ _
    · rw [List.mem_singleton.1 hc]
      rfl

/-! ## A batch -/

theorem result_runBatch (q : ParallelQueue) (batch : List Invocation) :
    (q.runBatch batch).result (Call.replyBy respond) = batch.filterMap (q.failureOf? respond) := by
  induction batch with
  | nil => rfl
  | cons i is ih =>
    rw [runBatch, result_bind, result_bind, result_runOne, ih]
    cases hi : q.failureOf? respond i with
    | none => rw [List.filterMap_cons_none hi]; rfl
    | some f => rw [List.filterMap_cons_some hi]; rfl

theorem calls_runBatch (q : ParallelQueue) (batch : List Invocation) :
    (q.runBatch batch).calls (Call.replyBy respond) =
      (batch.map q.runOne).flatMap (Procedure.calls (Call.replyBy respond)) := by
  induction batch with
  | nil => rfl
  | cons i is ih =>
    rw [runBatch, calls_bind, calls_bind, ih]
    exact congrArg _ (List.append_nil _)

/-- The workers for a batch, before any of them has begun. -/
def pool (q : ParallelQueue) (h : Host) (batch : List Invocation) (w : World) :
    Pool (Option InvocationFailure) :=
  Pool.start ((q.writeDatabase batch).run h w).2 (batch.map q.runOne)

/-- A batch is run under some schedule, with at most `limit` workers at a time: its result, the
world at the end, and the commands that have been started. The failures are collected in the order
of the batch when all work is finished. -/
inductive Runs (q : ParallelQueue) (h : Host) (limit : Nat) (w : World) :
    List Invocation → Except QueueFailure Unit → World → List Command → Prop where
  | empty : Runs q h limit w [] (.ok ()) w []
  | finished {batch final results} : batch ≠ [] →
      Pool.Reaches h limit (q.pool h batch w) final → final.Finished results →
      Runs q h limit w batch (q.verdict batch (results.filterMap id)) final.world
        (final.calls.filterMap Call.command?)

theorem onCourse_pool (hrespond : ∀ c fs, (h.spawn c fs).1 = respond c) (q : ParallelQueue)
    (batch : List Invocation) (w : World) :
    Pool.OnCourse h (Call.replyBy respond) ((q.writeDatabase batch).run h w).2
      (batch.map q.runOne) (q.pool h batch w) := by
  refine Pool.onCourse_start fun p hp c hc v => ?_
  obtain ⟨i, -, rfl⟩ := List.mem_map.1 hp
  exact answer_of_mem_calls_runOne hrespond hc v

theorem filterMap_command?_calls (respond : Command → Except IoError Output) (q : ParallelQueue)
    (batch : List Invocation) :
    ((batch.map q.runOne).flatMap (Procedure.calls (Call.replyBy respond))).filterMap
      Call.command? = batch.map q.command := by
  induction batch with
  | nil => rfl
  | cons i is ih =>
    obtain ⟨said, hcalls⟩ := calls_runOne respond q i
    have hsaid : (said.map Call.say).filterMap Call.command? = [] := by
      simp [List.filterMap_eq_nil_iff, Call.command?]
    rw [List.map_cons, List.flatMap_cons, List.filterMap_append, ih, hcalls,
      List.filterMap_append, hsaid]
    rfl

theorem flatMap_entries_calls (q : ParallelQueue) (batch : List Invocation) :
    ((batch.map q.runOne).flatMap (Procedure.calls (Call.replyBy respond))).flatMap Call.entries =
      batch.map (q.entryOf respond) := by
  induction batch with
  | nil => rfl
  | cons i is ih =>
    obtain ⟨said, hcalls⟩ := calls_runOne respond q i
    have hsaid : (said.map Call.say).flatMap Call.entries = [] := by
      simp [List.flatMap_eq_nil_iff, Call.entries]
    rw [List.map_cons, List.flatMap_cons, List.flatMap_append, ih, hcalls, List.flatMap_append,
      hsaid]
    rfl

/-- What a batch comes to is decided by its invocations, up to the order of what is started and
recorded. -/
theorem Runs.outcome (hrespond : ∀ c fs, (h.spawn c fs).1 = respond c)
    {r : Except QueueFailure Unit} {w' : World} {commands : List Command}
    (hruns : q.Runs h limit w batch r w' commands) :
    r = q.verdict batch (batch.filterMap (q.failureOf? respond)) ∧
      commands.Perm (batch.map q.command) ∧
      ∃ gained, w'.log = w.log ++ gained ∧ gained.Perm (batch.map (q.entryOf respond)) := by
  cases hruns with
  | empty => exact ⟨rfl, .refl _, [], (List.append_nil _).symm, .refl _⟩
  | @finished _ final results hbatch hrun hdone =>
    have hcourse := (onCourse_pool hrespond q batch w).reaches hrun
    obtain ⟨rfl, hcalls, gained, hlog, hgained⟩ := hcourse.outcome hdone
    rw [log_run_writeDatabase] at hlog
    rw [flatMap_entries_calls] at hgained
    refine ⟨?_, ?_, gained, hlog, hgained⟩
    · have hresult : id ∘ result (Call.replyBy respond) ∘ q.runOne = q.failureOf? respond :=
        funext (result_runOne q)
      rw [List.map_map, List.filterMap_map, hresult]
    · rw [← filterMap_command?_calls respond q batch]
      exact hcalls.filterMap _

/-! ## The outcome of a batch -/

theorem run_runAll_fst (hrespond : ∀ c fs, (h.spawn c fs).1 = respond c) (q : ParallelQueue)
    (batch : List Invocation) (w : World) :
    ((q.runAll batch).run h w).1 =
      q.verdict batch (batch.filterMap (q.failureOf? respond)) := by
  by_cases hbatch : batch = []
  · rw [hbatch]
    rfl
  · have hanswers : ∀ c ∈ (q.runBatch batch).calls (Call.replyBy respond), ∀ v,
        (h.answer c v).1 = Call.replyBy respond c := by
      intro c hc v
      rw [calls_runBatch] at hc
      obtain ⟨p, hp, hc⟩ := List.mem_flatMap.1 hc
      obtain ⟨i, -, rfl⟩ := List.mem_map.1 hp
      exact answer_of_mem_calls_runOne hrespond hc v
    rw [runAll_eq hbatch, run_bind, run_bind, run_done, run_fst_eq_result hanswers,
      result_runBatch]

theorem entryOf_eq (q : ParallelQueue) (respond : Command → Except IoError Output)
    (i : Invocation) : q.entryOf respond i =
      ⟨i.name, shownText q.compiler (respond (q.command i)),
        decide (Succeeded (respond (q.command i)))⟩ :=
  congrArg Prod.fst (outcome_eq q i _)

theorem filterMap_failureOf? (q : ParallelQueue) (respond : Command → Except IoError Output)
    (batch : List Invocation) : batch.filterMap (q.failureOf? respond) =
      (batch.filter fun i => ¬ Succeeded (respond (q.command i))).map fun i =>
        ⟨i.name, failureText q.compiler (respond (q.command i))⟩ := by
  have hfailure : ∀ i, q.failureOf? respond i = if Succeeded (respond (q.command i)) then none
      else some ⟨i.name, failureText q.compiler (respond (q.command i))⟩ :=
    fun i => congrArg Prod.snd (outcome_eq q i _)
  induction batch with
  | nil => rfl
  | cons i is ih =>
    by_cases hi : Succeeded (respond (q.command i))
    · rw [List.filterMap_cons_none (by rw [hfailure, if_pos hi]), ih,
        List.filter_cons_of_neg (by simpa using hi)]
    · rw [List.filterMap_cons_some (by rw [hfailure, if_neg hi]), ih,
        List.filter_cons_of_pos (by simpa using hi)]
      rfl

theorem eq_of_verdict_eq_error {fs : List InvocationFailure} {f : QueueFailure}
    (hf : q.verdict batch fs = .error f) : f = ⟨batch.length, fs, q.logLocation⟩ := by
  cases fs with
  | nil => cases hf
  | cons => exact (Except.error.inj hf).symm

/-- A queue for which the locations of the log have been set one after the other. -/
def located (q : ParallelQueue) (locations : List Path) : ParallelQueue :=
  locations.foldl (fun q p => queue.setLogLocation p q) q

theorem located_eq (q : ParallelQueue) (locations : List Path) :
    q.located locations =
      { q with logLocation := locations.getLast?.or q.logLocation } := by
  induction locations generalizing q with
  | nil => rfl
  | cons p ps ih =>
    refine (ih { q with logLocation := some p }).trans ?_
    cases ps with
    | nil => rfl
    | cons p' ps =>
      rw [List.getLast?_cons_cons, List.getLast?_cons]
      rfl

/-- Every schedule of a batch comes to its end, and all come to the same: each command has been
started once, the log has one entry for each invocation, and the failures are those of the batch in
its order. -/
theorem located_runs_outcome (hrespond : ∀ c fs, (h.spawn c fs).1 = respond c)
    (hlimit : 0 < limit) (q : ParallelQueue) (locations : List Path) (batch : List Invocation)
    (w : World) :
    let answer := fun i : Invocation => respond ⟨q.compiler, i.arguments, some i.workingDirectory⟩
    (∀ now, Pool.Reaches h limit ((q.located locations).pool h batch w) now →
      ∃ final results, Pool.Reaches h limit now final ∧ final.Finished results) ∧
    ∀ r w' commands, (q.located locations).Runs h limit w batch r w' commands →
      r = (((q.located locations).runAll batch).run h w).1 ∧
      commands.Perm (batch.map fun i => ⟨q.compiler, i.arguments, some i.workingDirectory⟩) ∧
      (∃ entries, w'.log = w.log ++ entries ∧ entries.Perm (batch.map fun i =>
        ⟨i.name, shownText q.compiler (answer i), decide (Succeeded (answer i))⟩)) ∧
      (r = .ok () ↔ ∀ i ∈ batch, Succeeded (answer i)) ∧
      ∀ f, r = .error f →
        f.total = batch.length ∧
        f.failures = ((batch.filter fun i => ¬ Succeeded (answer i)).map fun i =>
          ⟨i.name, failureText q.compiler (answer i)⟩) ∧
        f.logLocation = locations.getLast?.or q.logLocation := by
  intro answer
  have hq := located_eq q locations
  generalize q.located locations = q' at hq
  subst hq
  constructor
  · exact fun now _ => now.exists_finished hlimit
  · intro r w' commands hruns
    obtain ⟨hr, hcommands, entries, hlog, hentries⟩ := hruns.outcome hrespond
    have hfailures := filterMap_failureOf? { q with
      logLocation := locations.getLast?.or q.logLocation } respond batch
    refine ⟨hr.trans (run_runAll_fst hrespond _ batch w).symm, hcommands,
      ⟨entries, hlog, ?_⟩, ?_, ?_⟩
    · refine hentries.trans (List.Perm.of_eq (List.map_congr_left fun i _ => ?_))
      exact entryOf_eq _ respond i
    · rw [hr, verdict_eq_ok_iff, hfailures, List.map_eq_nil_iff, List.filter_eq_nil_iff]
      simp only [decide_eq_true_eq, not_not]
      rfl
    · intro f hf
      rw [eq_of_verdict_eq_error (hr.symm.trans hf), hfailures]
      exact ⟨rfl, rfl, rfl⟩

/-- The second run overtakes the first: the log is in the other order, the failures are not. -/
theorem located_runs_outcome_overtaking :
    let respond : Command → Except IoError Output := fun c =>
      if c.arguments = ["a.c"] then .ok ⟨some 1, .empty, "\n bad\n".toUTF8⟩ else .error .notFound
    let h : Host := ⟨["r"], fun c fs => (respond c, fs)⟩
    let q : ParallelQueue := located ⟨⟨"/cc"⟩, some 2, false, none, none⟩ [⟨"/old"⟩, ⟨"/log"⟩]
    let batch : List Invocation :=
      [⟨"compiling a.c", ⟨"/r"⟩, ["a.c"], ⟨"/r/a.c"⟩, ⟨"/r/a.o"⟩⟩,
        ⟨"compiling b.c", ⟨"/b"⟩, ["b.c"], ⟨"/r/b.c"⟩, ⟨"/r/b.o"⟩⟩]
    let unstarted := "failed to spawn `/cc`: No such file or directory (os error 2)"
    ∃ f w' commands, q.Runs h 2 ⟨FileSystem.empty, [], []⟩ batch (.error f) w' commands ∧
      commands = [⟨⟨"/cc"⟩, ["a.c"], some ⟨"/r"⟩⟩, ⟨⟨"/cc"⟩, ["b.c"], some ⟨"/b"⟩⟩] ∧
      w'.log = [⟨"compiling b.c", unstarted, false⟩, ⟨"compiling a.c", "\n bad\n", false⟩] ∧
      f.total = 2 ∧
      f.failures = [⟨"compiling a.c", "compiler exited with status 1 (bad)"⟩,
        ⟨"compiling b.c", unstarted⟩] ∧
      f.logLocation = some ⟨"/log"⟩ := by
  intro respond h q batch unstarted
  obtain ⟨final, hfinal, hfinished, hcommands, hlog⟩ :
      ∃ final, (q.pool h batch ⟨FileSystem.empty, [], []⟩).follow h 2
          [0, 0, 1, 1, 1, 1, 1, 1, 0, 0, 0, 0] = some final ∧
        final.Finished (batch.map (q.failureOf? respond)) ∧
        final.calls.filterMap Call.command? =
          [⟨⟨"/cc"⟩, ["a.c"], some ⟨"/r"⟩⟩, ⟨⟨"/cc"⟩, ["b.c"], some ⟨"/b"⟩⟩] ∧
        final.world.log =
          [⟨"compiling b.c", unstarted, false⟩, ⟨"compiling a.c", "\n bad\n", false⟩] := by
    refine ⟨_, rfl, rfl, rfl, ?_⟩
    decide +kernel
  have hruns := Runs.finished (by decide) (Pool.reaches_of_follow hfinal) hfinished
  obtain ⟨htotal, hfailures, hlocation⟩ := ((located_runs_outcome (fun _ _ => rfl) (by decide)
    ⟨⟨"/cc"⟩, some 2, false, none, none⟩ [⟨"/old"⟩, ⟨"/log"⟩] batch
    ⟨FileSystem.empty, [], []⟩).2 _ _ _ hruns).2.2.2.2 _ rfl
  refine ⟨_, _, _, hruns, hcommands, hlog, htotal, hfailures.trans ?_, hlocation⟩
  decide +kernel

end ParallelQueue

end CompileDriver
