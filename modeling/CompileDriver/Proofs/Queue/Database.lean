import CompileDriver.Proofs.Host.Steps
import CompileDriver.Proofs.Json.Reader
import CompileDriver.Proofs.Queue.Schedules

/-! # The compilation database of a batch

The database that a queue writes describes the commands that it starts for the batch. It is there
before the first of them. If it cannot be written, the batch is run like one without a database.
-/

namespace CompileDriver

open Procedure

variable {α : Type} {h : Host} {limit : Nat} {w w' : World}

/-! ## Commands that are started -/

/-- Whatever it is answered, the procedure starts the commands `cs`, in this order. -/
def Procedure.Starts : Procedure α → List Command → Prop
  | done _, cs => cs = []
  | call c next, cs => ∃ rest, cs = c.command?.toList ++ rest ∧ ∀ r, (next r).Starts rest

namespace Worker

variable {x y : Worker α} {asked : List Call} {cs : List Command}

/-- The work that is left starts the commands `cs`, apart from one that has been asked for. -/
def Starts : Worker α → List Command → Prop
  | waiting p, cs | running p, cs => p.Starts cs
  | asking _ next, cs => ∀ r, (next r).Starts cs
  | finished _, cs => cs = []

theorem Starts.step (hx : x.Starts cs) (hstep : Step h w x w' y asked) :
    ∃ rest, cs = asked.filterMap Call.command? ++ rest ∧ y.Starts rest := by
  cases hstep with
  | begin => exact ⟨cs, rfl, hx⟩
  | @ask c next =>
    obtain ⟨rest, rfl, hrest⟩ := hx
    refine ⟨rest, ?_, hrest⟩
    cases hc : c.command? <;> simp [hc]
  | answer => exact ⟨cs, rfl, hx _⟩
  | finish => exact ⟨cs, rfl, hx⟩

end Worker

namespace Pool

variable {pool next final : Pool α} {cs : List Command}

/-- The commands that are left for the workers. -/
inductive Owe : List (Worker α) → List Command → Prop where
  | nil : Owe [] []
  | cons {x xs cs ds} : x.Starts cs → Owe xs ds → Owe (x :: xs) (cs ++ ds)

theorem Owe.middle {before after : List (Worker α)} {x : Worker α}
    (howe : Owe (before ++ x :: after) cs) :
    ∃ own others, x.Starts own ∧ cs.Perm (own ++ others) ∧
      ∀ y own', y.Starts own' →
        ∃ cs', Owe (before ++ y :: after) cs' ∧ cs'.Perm (own' ++ others) := by
  induction before generalizing cs with
  | nil =>
    cases howe with
    | cons hx hafter =>
      exact ⟨_, _, hx, .refl _, fun y own' hy => ⟨_, .cons hy hafter, .refl _⟩⟩
  | cons z before ih =>
    cases howe with
    | @cons _ _ zs _ hz hrest =>
      obtain ⟨own, others, hown, hcs, hreplace⟩ := ih hrest
      refine ⟨own, zs ++ others, hown, ?_, fun y own' hy => ?_⟩
      · exact (hcs.append_left zs).trans (List.perm_append_comm_assoc _ _ _)
      · obtain ⟨cs', hcs', hperm⟩ := hreplace y own' hy
        exact ⟨_, .cons hz hcs', (hperm.append_left zs).trans (List.perm_append_comm_assoc _ _ _)⟩

/-- A step takes a command from what is owed to what has been asked for. -/
theorem Owe.step (howe : Owe pool.workers cs) (hstep : Step h limit pool next) :
    ∃ cs', Owe next.workers cs' ∧
      (pool.calls.filterMap Call.command? ++ cs).Perm
        (next.calls.filterMap Call.command? ++ cs') := by
  obtain ⟨before, x, y, after, asked, hworkers, hnext, hcalls, hworker⟩ := hstep.exists_worker
  rw [hworkers] at howe
  obtain ⟨own, others, hown, hcs, hreplace⟩ := howe.middle
  obtain ⟨rest, rfl, hrest⟩ := hown.step hworker
  obtain ⟨cs', hcs', hperm⟩ := hreplace y rest hrest
  rw [hnext, hcalls]
  refine ⟨cs', hcs', ?_⟩
  rw [List.filterMap_append, List.append_assoc]
  rw [List.append_assoc] at hcs
  exact (hcs.trans (hperm.symm.append_left _)).append_left _

theorem Owe.reaches (howe : Owe pool.workers cs) (hrun : Reaches h limit pool next) :
    ∃ cs', Owe next.workers cs' ∧
      (pool.calls.filterMap Call.command? ++ cs).Perm
        (next.calls.filterMap Call.command? ++ cs') := by
  induction hrun with
  | refl => exact ⟨cs, howe, .refl _⟩
  | tail _ hstep ih =>
    obtain ⟨ds, hds, hperm⟩ := ih
    obtain ⟨cs', hcs', hperm'⟩ := hds.step hstep
    exact ⟨cs', hcs', hperm.trans hperm'⟩

theorem Owe.eq_nil_of_finished {rs : List α} (howe : Owe (rs.map .finished) cs) : cs = [] := by
  induction rs generalizing cs with
  | nil =>
    cases howe
    rfl
  | cons r rs ih =>
    cases howe with
    | cons hr hrs => rw [hr, ih hrs, List.append_nil]

/-- Under every schedule that finishes the work, all commands have been started once. -/
theorem Owe.perm_of_finished {ps : List (Procedure α)} {rs : List α}
    (howe : Owe (start w ps).workers cs) (hrun : Reaches h limit (start w ps) final)
    (hdone : final.Finished rs) : (final.calls.filterMap Call.command?).Perm cs := by
  obtain ⟨cs', hcs', hperm⟩ := howe.reaches hrun
  rw [hdone] at hcs'
  rw [hcs'.eq_nil_of_finished, List.append_nil] at hperm
  exact hperm.symm

end Pool

namespace ParallelQueue

variable {q : ParallelQueue} {batch : List Invocation} {p : Path} {r : Except QueueFailure Unit}
  {commands : List Command}

theorem starts_runOne (q : ParallelQueue) (i : Invocation) :
    (q.runOne i).Starts [q.command i] := by
  unfold runOne
  dsimp only
  split
  · exact ⟨_, rfl, fun _ => ⟨[], rfl, fun _ => ⟨[], rfl, fun _ => rfl⟩⟩⟩
  · exact ⟨[], rfl, fun _ => ⟨[], rfl, fun _ => rfl⟩⟩

theorem owe_pool (q : ParallelQueue) (h : Host) (batch : List Invocation) (w : World) :
    Pool.Owe (q.pool h batch w).workers (batch.map q.command) := by
  rw [pool, Pool.start, List.map_map]
  induction batch with
  | nil => exact .nil
  | cons i is ih => exact .cons (x := .waiting (q.runOne i)) (starts_runOne q i) ih

/-- Every schedule of a batch starts the command of each invocation once. -/
theorem Runs.commands_perm (hruns : q.Runs h limit w batch r w' commands) :
    commands.Perm (batch.map q.command) := by
  cases hruns with
  | empty => exact .refl _
  | finished _ hrun hdone => exact (owe_pool q h batch w).perm_of_finished hrun hdone

/-! ## The database -/

def withoutDatabase (q : ParallelQueue) : ParallelQueue := { q with database := none }

theorem callsOnly_runOne (q : ParallelQueue) (i : Invocation) (h : Host) :
    (q.runOne i).CallsOnly fun c =>
      c.command? = none → ∀ w, (h.answer c w).2.files = w.files := by
  unfold runOne
  dsimp only
  split
  · exact ⟨fun _ _ => rfl, fun _ => ⟨nofun, fun _ => ⟨fun _ _ => rfl, fun _ => trivial⟩⟩⟩
  · exact ⟨nofun, fun _ => ⟨fun _ _ => rfl, fun _ => trivial⟩⟩

theorem files_of_reaches_pool {now : Pool (Option InvocationFailure)}
    (hrun : Pool.Reaches h limit (q.pool h batch w) now)
    (hnone : now.calls.filterMap Call.command? = []) :
    now.world.files = ((q.writeDatabase batch).run h w).2.files := by
  rw [List.filterMap_eq_nil_iff] at hnone
  have hps : ∀ p ∈ batch.map q.runOne, p.CallsOnly fun c =>
      c.command? = none → ∀ w, (h.answer c w).2.files = w.files := by
    intro p hp
    obtain ⟨i, -, rfl⟩ := List.mem_map.1 hp
    exact callsOnly_runOne q i h
  exact Pool.Reaches.rel (R := fun v v' => v'.files = v.files) hps (fun _ => rfl)
    (fun _ _ _ huv hvw => hvw.trans huv) hrun fun c hc hkeeps => hkeeps (hnone c hc)

theorem run_writeDatabase_of_ok (hdatabase : q.database = some p)
    (hwrite : (CompilationDatabase.write p q.compiler batch).run h w = (.ok (), w')) :
    (q.writeDatabase batch).run h w = ((), w') := by
  rw [writeDatabase, hdatabase]
  dsimp only
  rw [run_bind, hwrite]
  rfl

theorem parse?_contents (compiler : Path) (batch : List Invocation) :
    Json.parse? (CompilationDatabase.contents compiler batch) =
      some (.array (batch.map fun i => .object [("directory", .text i.workingDirectory.text),
        ("file", .text i.source.text),
        ("arguments", .array ((compiler.text :: i.arguments).map .text)),
        ("output", .text i.output.text)])) := by
  rw [CompilationDatabase.contents, Json.parse?_render, List.map_map]
  rfl

theorem runs_withoutDatabase (hbatch : batch ≠ [])
    (hruns : q.Runs h limit w batch r w' commands) :
    q.withoutDatabase.Runs h limit ((q.writeDatabase batch).run h w).2 batch r w' commands := by
  cases hruns with
  | empty => exact absurd rfl hbatch
  | @finished _ final results _ hrun hdone =>
    have hverdict : q.verdict batch (results.filterMap id) =
        q.withoutDatabase.verdict batch (results.filterMap id) := by
      cases results.filterMap id <;> rfl
    rw [hverdict]
    exact .finished hbatch hrun hdone

theorem Runs.eq_withoutDatabase {respond : Command → Except IoError Output}
    (hrespond : ∀ c fs, (h.spawn c fs).1 = respond c)
    (hruns : q.Runs h limit w batch r w' commands) :
    r = ((q.withoutDatabase.runAll batch).run h w).1 := by
  rw [(hruns.outcome hrespond).1, run_runAll_fst hrespond]
  have hfailures : q.failureOf? respond = q.withoutDatabase.failureOf? respond := by
    funext i
    exact congrArg Prod.snd ((outcome_eq q i _).trans (outcome_eq q.withoutDatabase i _).symm)
  rw [hfailures]
  cases batch.filterMap (q.withoutDatabase.failureOf? respond) <;> rfl

/-- A database that is written for a batch with invocations describes each of them, in the order of
the batch, as it is started, and it is in place until the first command is started. Whether it can
be written decides neither which commands are started nor the result. An empty batch leaves the
database as it is. -/
theorem database_describes_batch (q : ParallelQueue) (p : Path) (batch : List Invocation)
    (h : Host) (limit : Nat) (w : World) (hdatabase : q.database = some p) :
    (batch = [] → (q.runAll batch).run h w = (.ok (), w)) ∧
    (batch ≠ [] → ((CompilationDatabase.write p q.compiler batch).run h w).1 = .ok () →
      ∀ now, Pool.Reaches h limit (q.pool h batch w) now →
        now.calls.filterMap Call.command? = [] →
        ∃ text : String, now.world.files.read h.directory p = .ok text.toUTF8 ∧
          Json.parse? text = some (.array (batch.map fun i => .object [
            ("directory", .text i.workingDirectory.text), ("file", .text i.source.text),
            ("arguments", .array ((q.compiler.text :: i.arguments).map .text)),
            ("output", .text i.output.text)]))) ∧
    (∀ i v, ((q.runOne i).started h v).map Prod.fst =
      [⟨q.compiler, i.arguments, some i.workingDirectory⟩]) ∧
    ∀ r w' commands, q.Runs h limit w batch r w' commands →
      commands.Perm (batch.map fun i => ⟨q.compiler, i.arguments, some i.workingDirectory⟩) ∧
      (batch ≠ [] → ({ q with database := none } : ParallelQueue).Runs h limit
        ((q.writeDatabase batch).run h w).2 batch r w' commands) ∧
      ∀ respond : Command → Except IoError Output, (∀ c fs, (h.spawn c fs).1 = respond c) →
        r = ((({ q with database := none } : ParallelQueue).runAll batch).run h w).1 := by
  refine ⟨?_, ?_, ?_, ?_⟩
  · rintro rfl
    rfl
  · intro hbatch hwrite now hrun hnone
    have hwritten := run_eq_of_fst hwrite
    rw [files_of_reaches_pool hrun hnone, run_writeDatabase_of_ok hdatabase hwritten]
    exact ⟨_, read_of_run_writeText hwritten, parse?_contents q.compiler batch⟩
  · intro i v
    rw [(run_runOne q i h v).2.2]
    rfl
  · intro r w' commands hruns
    exact ⟨hruns.commands_perm, fun hbatch => runs_withoutDatabase hbatch hruns,
      fun respond hrespond => hruns.eq_withoutDatabase hrespond⟩

/-- A line break and a quotation mark in the arguments reach the database. The second process is
started while the first is running. -/
theorem database_describes_batch_quoted :
    let q : ParallelQueue := { compiler := ⟨"/cc"⟩, database := some ⟨"db.json"⟩ }
    let batch : List Invocation :=
      [⟨"compiling a.c", ⟨"/r"⟩, ["-DX=\"\n\"", "a.c"], ⟨"/r/a.c"⟩, ⟨"/r/a.o"⟩⟩,
        ⟨"compiling b.c", ⟨"/b"⟩, ["b.c"], ⟨"/r/b.c"⟩, ⟨"/r/b.o"⟩⟩]
    let h : Host := ⟨["r"], fun _ fs => (.ok ⟨some 0, .empty, .empty⟩, fs)⟩
    let w : World := { files := FileSystem.empty.putDirectories ["r"] }
    (∃ text : String, (q.pool h batch w).world.files.read ["r"] ⟨"db.json"⟩ = .ok text.toUTF8 ∧
      Json.parse? text = some (.array [
        .object [("directory", .text "/r"), ("file", .text "/r/a.c"),
          ("arguments", .array [.text "/cc", .text "-DX=\"\n\"", .text "a.c"]),
          ("output", .text "/r/a.o")],
        .object [("directory", .text "/b"), ("file", .text "/r/b.c"),
          ("arguments", .array [.text "/cc", .text "b.c"]), ("output", .text "/r/b.o")]])) ∧
    ∃ w' commands, q.Runs h 2 w batch (.ok ()) w' commands ∧
      commands.Perm [⟨⟨"/cc"⟩, ["-DX=\"\n\"", "a.c"], some ⟨"/r"⟩⟩,
        ⟨⟨"/cc"⟩, ["b.c"], some ⟨"/b"⟩⟩] := by
  intro q batch h w
  obtain ⟨-, hwritten, -, hruns⟩ := database_describes_batch q ⟨"db.json"⟩ batch h 2 w rfl
  refine ⟨hwritten (by decide) rfl _ .refl rfl, ?_⟩
  obtain ⟨final, hfinal, hfinished⟩ :
      ∃ final, (q.pool h batch w).follow h 2 [0, 0, 1, 1, 1, 1, 1, 1, 0, 0, 0, 0] = some final ∧
        final.Finished [none, none] :=
    ⟨_, rfl, rfl⟩
  have hrun := Runs.finished (by decide) (Pool.reaches_of_follow hfinal) hfinished
  exact ⟨_, _, hrun, (hruns _ _ _ hrun).1⟩

/-- The database of an earlier batch stays when an empty one is run. -/
theorem database_stays_after_empty_batch :
    let earlier : Invocation :=
      ⟨"compiling a.c", ⟨"/r"⟩, ["-c", "a.c"], ⟨"/r/a.c"⟩, ⟨"/r/a.o"⟩⟩
    let q : ParallelQueue := { compiler := ⟨"/cc"⟩, database := some ⟨"db.json"⟩ }
    let text := CompilationDatabase.contents q.compiler [earlier]
    let h : Host := ⟨["r"], fun _ fs => (.error .notFound, fs)⟩
    let w : World := {
      files := (FileSystem.empty.putDirectories ["r"]).put ["r", "db.json"]
        (.file ⟨text.toUTF8, false⟩) }
    ((CompilationDatabase.write ⟨"db.json"⟩ q.compiler []).run h w).1 = .ok () ∧
      ((q.runAll []).run h w).2.files.read ["r"] ⟨"db.json"⟩ = .ok text.toUTF8 ∧
      Json.parse? text ≠ some (.array []) := by
  intro earlier q text h w
  refine ⟨?_, ?_, ?_⟩
  · rfl
  · rfl
  · rw [parse?_contents]
    simp

end ParallelQueue

end CompileDriver
