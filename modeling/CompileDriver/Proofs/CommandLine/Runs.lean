import CompileDriver.CommandLine.Run
import CompileDriver.Proofs.Queue.Attempts
import CompileDriver.Proofs.Request.Spec

/-! # Runs of the command line

Until a request is ready to be compiled, a run only looks at files. Once there is a plan, the
batch may be run under any schedule that the queue allows. The program that carries out the batch in
order follows one of them.
-/

namespace CompileDriver

open Procedure

theorem Request.looking_load (p : Path) : (Request.load p).CallsOnly Call.IsLooking :=
  ((looking_readFile p).mapError _).andThen fun _ => trivial

namespace ToolchainConfig

theorem looking_loadOrDefault (p : Path) : (loadOrDefault p).CallsOnly Call.IsLooking := by
  have hload : (load p).CallsOnly Call.IsLooking :=
    ((looking_readFile p).mapError _).andThen fun _ => trivial
  refine (looking_pathExists p).bind fun _ => CallsOnly.ite (hload.bind fun r => ?_) (.done _)
  rcases r with e | c
  · exact ⟨trivial, fun _ => trivial⟩
  · trivial

theorem looking_loadMerged (user : Option Path) (project : Path) :
    (loadMerged user project).CallsOnly Call.IsLooking := by
  refine CallsOnly.bind ?_ fun _ => (looking_loadOrDefault project).bind fun _ => trivial
  cases user with
  | none => trivial
  | some p => exact looking_loadOrDefault p

end ToolchainConfig

namespace Executable

theorem looking_firstExecutable (ps : List Path) :
    (firstExecutable ps).CallsOnly Call.IsLooking := by
  induction ps with
  | nil => trivial
  | cons p ps ih =>
    have hp : (isExecutable p).CallsOnly Call.IsLooking := ⟨trivial, fun _ => trivial⟩
    exact hp.bind fun _ => CallsOnly.ite (.done _) ih

theorem looking_findAny? (env : Environment) (names : List Path) :
    (findAny? env names).CallsOnly Call.IsLooking := by
  induction names with
  | nil => trivial
  | cons name names ih =>
    refine (looking_firstExecutable _).bind fun found => ?_
    cases found with
    | none => exact ih
    | some p => trivial

end Executable

namespace CommandLine

theorem looking_chooseCompiler (env : Environment) (a : Arguments) (config : ToolchainConfig) :
    (chooseCompiler env a config).CallsOnly Call.IsLooking := by
  unfold chooseCompiler
  split
  · trivial
  · refine (Executable.looking_findAny? env _).bind fun found => ?_
    cases found <;> trivial

theorem looking_prepare (env : Environment) (a : Arguments) :
    (prepare env a).CallsOnly Call.IsLooking := by
  unfold prepare
  dsimp only
  split
  · trivial
  · refine ((Request.looking_load _).mapError _).andThen fun r => ?_
    refine (ToolchainConfig.looking_loadMerged _ _).bind fun config => ?_
    refine (looking_chooseCompiler env a config).andThen fun compiler => ?_
    refine CallsOnly.andThen (.done _) fun family => ?_
    exact ((Request.looking_toSpec _ _).mapError _).andThen fun _ => .done _

end CommandLine

/-! ## Runs of `compile` -/

def World.tell (w : World) (ns : List Notice) : World := { w with notices := w.notices ++ ns }

theorem World.tell_tell (w : World) (ns ms : List Notice) :
    (w.tell ns).tell ms = w.tell (ns ++ ms) :=
  congrArg (World.mk w.files w.log) (List.append_assoc ..)

namespace CommandLine

open ParallelQueue (Runs Succeeded entries failures)

def Prepared.plan (env : Environment) (p : Prepared) :
    Procedure (Except PlanFailure (List Invocation)) :=
  Plan.make env.workingDirectory p.family p.options p.spec

def Prepared.queue (a : Arguments) (p : Prepared) : ParallelQueue :=
  { queueFor a p with logLocation := some p.spec.logLocation }

def report (s : Spec) (r : Except CompileFailure Bool) : Procedure (Except Chain String) :=
  (saveLog s.logLocation).bind fun () =>
    match r with
    | .ok didWork => call (.say (summary s didWork)) fun () => done (.ok "")
    | .error f => done (.error f.chain)

/-- A run of `compile` in which the batch is run under some schedule: how it ends, in which world,
and the commands in the order in which they have been started. -/
inductive CompileRuns (env : Environment) (a : Arguments) (h : Host) (cores : Nat) (w : World) :
    Outcome × World → List Command → Prop where
  | unprepared {c v} : (prepare env a).run h w = (.error c, v) →
      CompileRuns env a h cores w ((conclude (done (.error c))).run h v) []
  | unplanned {p v f u} : (prepare env a).run h w = (.ok p, v) →
      (p.plan env).run h v = (.error f, u) →
      CompileRuns env a h cores w ((conclude (report p.spec (.error (.plan f)))).run h u) []
  | queued {p v is u r after commands} : (prepare env a).run h w = (.ok p, v) →
      (p.plan env).run h v = (.ok is, u) →
      (p.queue a).Runs h ((p.queue a).limit cores) u is r after commands →
      CompileRuns env a h cores w
        ((conclude (report p.spec (Plan.outcome p.spec r))).run h after) commands

variable {h : Host} {env : Environment} {args : List String} {a : Arguments} {p : Prepared}
  {cores : Nat} {files : FileSystem} {u v w after : World} {is : List Invocation}
  {r : Except QueueFailure Unit} {out : Outcome × World} {commands : List Command}
  {started : List (Command × Except IoError Output)}

@[simp] theorem Prepared.queue_compiler : (p.queue a).compiler = p.compiler := rfl

theorem limit_queue_pos (p : Prepared) (hcores : 0 < cores) : 0 < (p.queue a).limit cores :=
  ParallelQueue.limit_withJobs_pos (queueFor a p) a.jobs hcores

/-! ## Saving the log -/

def saveNotices : Except WriteFailure Unit → List Notice
  | .ok () => []
  | .error e => [.warning ("failed to write operation log: " ++ e.chain.message)]

/-- Write the entries of a log, if there are any. -/
def writeLog (l : Path) (log : List LogEntry) : Procedure Unit :=
  if log = [] then done ()
  else
    (writeText l (OperationLog.render log)).bind fun
      | .ok () => done ()
      | .error e => ask (.warn ("failed to write operation log: " ++ e.chain.message))

theorem run_saveLog (l : Path) (h : Host) (w : World) :
    (saveLog l).run h w = (writeLog l w.log).run h w :=
  rfl

theorem run_writeLog {l : Path} {log : List LogEntry} (hlog : log ≠ []) :
    (writeLog l log).run h w =
      let saved := (writeText l (OperationLog.render log)).run h w
      ((), saved.2.tell (saveNotices saved.1)) := by
  rw [writeLog, if_neg hlog, run_bind]
  rcases (writeText l (OperationLog.render log)).run h w with ⟨e | _, v⟩
  · rfl
  · dsimp only
    rw [World.tell, saveNotices, List.append_nil]
    rfl

theorem callsOnly_writeLog (l : Path) (log : List LogEntry) :
    (writeLog l log).CallsOnly fun c => ¬ c.IsSpawn := by
  refine CallsOnly.ite (.done _) (CallsOnly.bind ?_ fun r => ?_)
  · exact (callsOnly_writeText l _).mono fun c hc => hc.isPlanning.not_isSpawn
  · rcases r with e | _
    · exact ⟨id, fun _ => trivial⟩
    · trivial

theorem callsOnly_saveLog (l : Path) : (saveLog l).CallsOnly fun c => ¬ c.IsSpawn :=
  ⟨id, callsOnly_writeLog l⟩

theorem callsOnly_report (s : Spec) (r : Except CompileFailure Bool) :
    (report s r).CallsOnly fun c => ¬ c.IsSpawn := by
  refine (callsOnly_saveLog s.logLocation).bind fun _ => ?_
  rcases r with f | didWork
  · trivial
  · exact ⟨id, fun _ => trivial⟩

/-! ## The run in order -/

def compilePrepared (env : Environment) (a : Arguments) (p : Prepared) :
    Procedure (Except Chain String) :=
  (Plan.execute env.workingDirectory p.family p.options p.spec ParallelQueue.queue
    (queueFor a p)).bind fun (r, _) => report p.spec r

theorem run_eq_conclude (hargs : Arguments.parse args = .ok a) (haction : a.action = .compile) :
    run env args = conclude ((prepare env a).andThen (compilePrepared env a)) := by
  rw [run, hargs]
  dsimp only
  rw [haction]
  rfl

theorem run_conclude (q : Procedure (Except Chain String)) (w : World) :
    (conclude q).run h w = match (q.run h w).1 with
      | .ok stdout => (⟨0, stdout⟩, (q.run h w).2)
      | .error c => (⟨1, ""⟩, (q.run h w).2.tell [.line ("error: " ++ c.message)]) := by
  rw [conclude, run_bind]
  cases (q.run h w).1 <;> rfl

theorem run_conclude_congr {q q' : Procedure (Except Chain String)} (hq : q.run h v = q'.run h w) :
    (conclude q).run h v = (conclude q').run h w := by
  rw [run_conclude, run_conclude, hq]

theorem started_conclude (q : Procedure (Except Chain String)) (w : World) :
    (conclude q).started h w = q.started h w := by
  rw [conclude, started_bind]
  cases (q.run h w).1 <;> exact List.append_nil _

theorem started_prepare (env : Environment) (a : Arguments) (h : Host) (w : World) :
    (prepare env a).started h w = [] :=
  ((looking_prepare env a).mono fun _ => Call.IsLooking.not_isSpawn).started_eq_nil w

theorem callsOnly_plan (p : Prepared) : (p.plan env).CallsOnly Call.IsPlanning :=
  Plan.callsOnly_make

theorem started_plan (env : Environment) (p : Prepared) (h : Host) (w : World) :
    (p.plan env).started h w = [] :=
  ((callsOnly_plan p).mono fun _ => Call.IsPlanning.not_isSpawn).started_eq_nil w

theorem run_queue (q : ParallelQueue) (is : List Invocation) (w : World) :
    (ParallelQueue.queue.runAll is q).run h w =
      ((((q.runAll is).run h w).1, q), ((q.runAll is).run h w).2) := by
  rw [ParallelQueue.queue, run_bind]
  rfl

theorem started_queue (q : ParallelQueue) (is : List Invocation) (w : World) :
    (ParallelQueue.queue.runAll is q).started h w = (q.runAll is).started h w := by
  rw [ParallelQueue.queue, started_bind]
  exact List.append_nil _

theorem run_compilePrepared_of_error {f : PlanFailure}
    (hplan : (p.plan env).run h v = (.error f, u)) :
    (compilePrepared env a p).run h v = (report p.spec (.error (.plan f))).run h u ∧
      (compilePrepared env a p).started h v = [] := by
  have hstarted := started_plan env p h v
  rw [Prepared.plan] at hstarted hplan
  constructor
  · rw [compilePrepared, run_bind, Plan.run_execute_of_make_error hplan]
  · rw [compilePrepared, started_bind, (callsOnly_report _ _).started_eq_nil, List.append_nil,
      Plan.execute, started_bind, hplan, hstarted]
    rfl

theorem run_compilePrepared_of_ok (hplan : (p.plan env).run h v = (.ok is, u)) :
    let answered := ((p.queue a).runAll is).run h u
    (compilePrepared env a p).run h v =
        (report p.spec (Plan.outcome p.spec answered.1)).run h answered.2 ∧
      (compilePrepared env a p).started h v = ((p.queue a).runAll is).started h u := by
  have hstarted := started_plan env p h v
  rw [Prepared.plan] at hstarted hplan
  constructor
  · rw [compilePrepared, run_bind, Plan.run_execute_of_make hplan, Plan.run_submit, run_queue]
    rfl
  · rw [compilePrepared, started_bind, (callsOnly_report _ _).started_eq_nil, List.append_nil,
      Plan.execute, started_bind, hplan, hstarted, List.nil_append]
    change ((ParallelQueue.queue.runAll is (p.queue a)).bind _).started h u = _
    rw [started_bind, started_queue, run_queue]
    rcases ((p.queue a).runAll is).run h u with ⟨f | _, w'⟩ <;> exact List.append_nil _

section

variable (hargs : Arguments.parse args = .ok a) (haction : a.action = .compile)

include hargs haction

theorem run_of_prepare_error {c : Chain} (hprepare : (prepare env a).run h w = (.error c, v)) :
    (run env args).run h w = (conclude (done (.error c))).run h v ∧
      (run env args).started h w = [] := by
  have hstarted := started_prepare env a h w
  rw [run_eq_conclude hargs haction, run_conclude, started_conclude, andThen, run_bind,
    started_bind, hstarted, hprepare]
  exact ⟨rfl, rfl⟩

theorem run_of_prepare_ok (hprepare : (prepare env a).run h w = (.ok p, v)) :
    (run env args).run h w = (conclude (compilePrepared env a p)).run h v ∧
      (run env args).started h w = (compilePrepared env a p).started h v := by
  have hstarted := started_prepare env a h w
  rw [run_eq_conclude hargs haction, run_conclude, run_conclude, started_conclude, andThen,
    run_bind, started_bind, hstarted, hprepare]
  exact ⟨rfl, rfl⟩

/-- A run in which the commands are run one after the other is one of the runs. -/
theorem compileRuns_run (hcores : 0 < cores) :
    CompileRuns env a h cores w ((run env args).run h w)
      (((run env args).started h w).map Prod.fst) := by
  rcases hprepare : (prepare env a).run h w with ⟨c | p, v⟩
  · obtain ⟨hrun, hstarted⟩ := run_of_prepare_error hargs haction hprepare
    rw [hrun, hstarted]
    exact .unprepared hprepare
  obtain ⟨hrun, hstarted⟩ := run_of_prepare_ok hargs haction hprepare
  rw [hrun, hstarted]
  rcases hplan : (p.plan env).run h v with ⟨f | is, u⟩
  · obtain ⟨hreport, hnone⟩ := run_compilePrepared_of_error (a := a) hplan
    rw [run_conclude_congr hreport, hnone]
    exact .unplanned hprepare hplan
  · obtain ⟨hreport, hall⟩ := run_compilePrepared_of_ok (a := a) hplan
    rw [run_conclude_congr hreport, hall]
    exact .queued hprepare hplan (ParallelQueue.runs_runAll (limit_queue_pos p hcores) _ is u)

end

/-! ## The run in a given order -/

/-- The run in which the workers go on as `ks` tells, if it comes to a batch and all finish. -/
def follow (env : Environment) (a : Arguments) (h : Host) (cores : Nat) (w : World)
    (ks : List Nat) : Option ((Outcome × World) × List Command) :=
  match (prepare env a).run h w with
  | (.error _, _) => none
  | (.ok p, v) =>
    match (p.plan env).run h v with
    | (.error _, _) | (.ok [], _) => none
    | (.ok (i :: is), u) =>
      ((p.queue a).follow h ((p.queue a).limit cores) u (i :: is) ks).map fun (r, after, commands) =>
        ((conclude (report p.spec (Plan.outcome p.spec r))).run h after, commands)

theorem compileRuns_of_follow {ks : List Nat}
    (hfollow : follow env a h cores w ks = some (out, commands)) :
    CompileRuns env a h cores w out commands := by
  unfold follow at hfollow
  split at hfollow
  · cases hfollow
  · next p v hprepare =>
    split at hfollow
    · cases hfollow
    · cases hfollow
    · next i is u hplan =>
      obtain ⟨⟨r, after, commands'⟩, hbatch, hout⟩ := Option.map_eq_some_iff.1 hfollow
      obtain ⟨rfl, rfl⟩ := Prod.mk.inj hout
      exact .queued hprepare hplan (ParallelQueue.runs_of_follow (List.cons_ne_nil i is) hbatch)

end CommandLine

end CompileDriver
