import CompileDriver.Proofs.CommandLine.Runs
import CompileDriver.Proofs.Queue.Database

/-! # Compiling a request

A run starts no compiler and leaves no log before there is a plan, and changes no file before the
request is ready. After that, whatever becomes of the invocations and in whatever order they end,
the log has a block for each.
-/

namespace CompileDriver.CommandLine

open Procedure

open ParallelQueue (Runs Succeeded entries failures)

variable {h : Host} {env : Environment} {args : List String} {a : Arguments} {p : Prepared}
  {cores : Nat} {files : FileSystem} {u v w after : World} {is : List Invocation}
  {r : Except QueueFailure Unit} {out : Outcome × World} {commands : List Command}
  {started : List (Command × Except IoError Output)}

/-! ## The log -/

/-- What the process of an invocation has printed, or why there was none. The standard error starts
on a line of its own. -/
def shown (compiler : Path) : Except IoError Output → String
  | .ok o =>
    let printed := Text.decodeLossy o.stdout
    let complaints := Text.decodeLossy o.stderr
    let onOneLine := printed ≠ "" ∧ complaints ≠ "" ∧ printed.toList.getLast? ≠ some '\n'
    printed ++ (if onOneLine then "\n" else "") ++ complaints
  | .error e => "failed to spawn `" ++ compiler.text ++ "`: " ++ e.message

/-- The block of an invocation in the log: its name with its outcome, its output up to the last
character that is not blank, and an empty line. -/
def block (compiler : Path) (i : Invocation) (r : Except IoError Output) : String :=
  let output := String.ofList (Text.trimEnd (shown compiler r).toList)
  i.name ++ (if Succeeded r then " successful.\n" else " failed.\n") ++
    (if output = "" then "" else output ++ "\n") ++ "\n"

/-- The text is a log with one block for each invocation, in any order. -/
def IsLog (compiler : Path) (is : List Invocation)
    (started : List (Command × Except IoError Output)) (text : String) : Prop :=
  ∃ blocks, blocks.Perm (List.zipWith (fun i c => block compiler i c.2) is started) ∧
    text = String.join blocks

theorem shownText_eq (compiler : Path) (r : Except IoError Output) :
    ParallelQueue.shownText compiler r = shown compiler r := by
  rcases r with e | o
  · rfl
  · unfold ParallelQueue.shownText shown Output.combine
    generalize Text.decodeLossy o.stdout = printed
    generalize Text.decodeLossy o.stderr = complaints
    dsimp only
    split
    · rfl
    · rw [String.append_empty]

theorem render_entry (compiler : Path) (i : Invocation) (r : Except IoError Output) :
    LogEntry.render ⟨i.name, ParallelQueue.shownText compiler r, decide (Succeeded r)⟩ =
      block compiler i r := by
  rw [LogEntry.render, shownText_eq, block]
  by_cases hr : Succeeded r
  · rw [decide_eq_true hr, if_pos hr]
    simp only [String.append_assoc]
    rfl
  · rw [decide_eq_false hr, if_neg hr]
    simp only [String.append_assoc]
    rfl

theorem isLog_render {compiler : Path} {log : List LogEntry}
    (hlog : log.Perm (entries compiler is started)) :
    IsLog compiler is started (OperationLog.render log) := by
  refine ⟨log.map LogEntry.render, ?_, rfl⟩
  have hblocks : (entries compiler is started).map LogEntry.render =
      List.zipWith (fun i c => block compiler i c.2) is started := by
    rw [entries, List.map_zipWith]
    simp only [render_entry]
  rw [← hblocks]
  exact hlog.map _

/-! ## What a run reports -/

/-- The run has failed with the message of `c`, and done nothing else since the world was `w`. -/
def FailsWith (c : Chain) (w : World) (out : Outcome × World) : Prop :=
  out = (⟨1, ""⟩, w.tell [.line ("error: " ++ c.message)])

def lastLine (p : Prepared) (is : List Invocation)
    (started : List (Command × Except IoError Output)) : String :=
  let n := p.spec.sources.length
  let failed := failures p.compiler is started
  if ∀ c ∈ started, Succeeded c.2 then
    if n = 0 then "    Nothing to compile" else "    Finished " ++ n.repr ++ " file(s)"
  else "error: " ++ (failed.length.repr ++ " of " ++ n.repr ++ " compiler invocation(s) failed" ++
    String.join (failed.map fun f =>
      "\n  " ++ f.name ++ ": " ++ String.ofList (Text.trimEnd f.message.toList)) ++
    ("\nsee the complete log at: " ++ p.spec.logLocation.text))

/-- After the batch its log has been saved, and then the last line has been told. A log that could
be saved is the file of which that line tells. -/
def SavesLog (h : Host) (p : Prepared) (is : List Invocation)
    (started : List (Command × Except IoError Output)) (after w : World) : Prop :=
  ∃ log, IsLog p.compiler is started log ∧
    let saved := (writeText p.spec.logLocation log).run h after
    w = saved.2.tell (saveNotices saved.1 ++ [.line (lastLine p is started)]) ∧
    (saved.1 = .ok () →
      w.files.read h.directory p.spec.logLocation = .ok log.toUTF8 ∧
      ∃ x, w.files.status h.directory p.spec.logLocation = .ok (.file x))

/-- What a run of `compile` on the files `files` reports if its commands have ended as `started`
tells, in the order of the sources. -/
structure Reports (env : Environment) (a : Arguments) (h : Host) (cores : Nat) (files : FileSystem)
    (out : Outcome × World) (commands : List Command)
    (started : List (Command × Except IoError Output)) : Prop where
  stdout : out.1.stdout = ""
  code : out.1.code ≠ 0 → out.1.code = 1
  code_eq_zero_iff : out.1.code = 0 ↔
    (∃ p v is u, (prepare env a).run h { files } = (.ok p, v) ∧
      (p.plan env).run h v = (.ok is, u)) ∧ ∀ c ∈ started, Succeeded c.2
  answered : ∀ c ∈ started, h.Answers c
  commands_perm : commands.Perm (started.map Prod.fst)
  unprepared : ∀ c v, (prepare env a).run h { files } = (.error c, v) →
    commands = [] ∧ v.files = files ∧ FailsWith c v out
  unplanned : ∀ p v f u, (prepare env a).run h { files } = (.ok p, v) →
    (p.plan env).run h v = (.error f, u) → v.files = files ∧ commands = [] ∧ FailsWith f.chain u out
  planned : ∀ p v is u, (prepare env a).run h { files } = (.ok p, v) →
    (p.plan env).run h v = (.ok is, u) →
    v.files = files ∧
    is.map Invocation.source = p.spec.sources.map (Path.absolute env.workingDirectory) ∧
    (started.map Prod.fst = is.map fun i => ⟨p.compiler, i.arguments, some i.workingDirectory⟩) ∧
    (p.spec.sources = [] → out.2 = u.tell [.line "    Nothing to compile"]) ∧
    (p.spec.sources ≠ [] → ∃ r after,
      (p.queue a).Runs h ((p.queue a).limit cores) u is r after commands ∧
      SavesLog h p is started after out.2)

theorem run_conclude_report_ok (s : Spec) (didWork : Bool) :
    (conclude (report s (.ok didWork))).run h w =
      (⟨0, ""⟩, ((writeLog s.logLocation w.log).run h w).2.tell [.line (summary s didWork)]) := by
  rw [run_conclude, report, run_bind, run_saveLog]
  rfl

theorem run_conclude_report_error (s : Spec) (f : CompileFailure) :
    (conclude (report s (.error f))).run h w = (⟨1, ""⟩,
      ((writeLog s.logLocation w.log).run h w).2.tell [.line ("error: " ++ f.chain.message)]) := by
  rw [run_conclude, report, run_bind, run_saveLog]
  rfl

theorem source_of_run_plan (hplan : (p.plan env).run h v = (.ok is, u)) :
    is.map Invocation.source = p.spec.sources.map (Path.absolute env.workingDirectory) := by
  obtain ⟨shared, rfl⟩ := Plan.exists_planned_of_run_make hplan
  rw [List.map_map]
  rfl

theorem length_of_run_plan (hplan : (p.plan env).run h v = (.ok is, u)) :
    is.length = p.spec.sources.length := by
  rw [← List.length_map Invocation.source, source_of_run_plan hplan, List.length_map]

theorem log_of_prepare (hprepare : (prepare env a).run h { files } = (.ok p, v)) :
    v.files = files ∧ ((p.plan env).run h v).2.log = [] := by
  obtain ⟨-, hfiles, hlog⟩ := (looking_prepare env a).run_looking (h := h) { files }
  rw [hprepare] at hfiles hlog
  exact ⟨hfiles, ((callsOnly_plan p).run_log v).trans hlog⟩

theorem summary_eq (s : Spec) : summary s (!s.sources.isEmpty) =
    if s.sources.length = 0 then "    Nothing to compile"
    else "    Finished " ++ s.sources.length.repr ++ " file(s)" := by
  cases hsources : s.sources with
  | nil => rfl
  | cons source sources =>
    rw [List.length_cons, if_neg (Nat.succ_ne_zero _), summary, hsources]
    rfl

theorem run_conclude_of_accounts (haccounts : (p.queue a).Accounts h u is r after started)
    (hlength : is.length = p.spec.sources.length) :
    (conclude (report p.spec (Plan.outcome p.spec r))).run h after =
      (⟨if ∀ c ∈ started, Succeeded c.2 then 0 else 1, ""⟩,
        ((writeLog p.spec.logLocation after.log).run h after).2.tell
          [.line (lastLine p is started)]) := by
  have hnil := ParallelQueue.failures_eq_nil_iff p.compiler haccounts.length_started
  have hresult := haccounts.result
  rw [Prepared.queue_compiler] at hresult
  rw [lastLine, ← summary_eq]
  by_cases hall : ∀ c ∈ started, Succeeded c.2
  · rw [hresult, ParallelQueue.verdict_eq_ok_iff.2 (hnil.2 hall), Plan.outcome,
      run_conclude_report_ok, if_pos hall, if_pos hall]
  · rw [hresult, ParallelQueue.verdict_of_ne_nil (mt hnil.1 hall), Plan.outcome,
      run_conclude_report_error, if_neg hall, if_neg hall, ← hlength]
    rfl

theorem run_conclude_of_empty {limit : Nat} (hlog : u.log = []) (hsources : p.spec.sources = [])
    (hruns : (p.queue a).Runs h limit u [] r after commands) :
    (conclude (report p.spec (Plan.outcome p.spec r))).run h after =
      (⟨0, ""⟩, u.tell [.line "    Nothing to compile"]) := by
  cases hruns with
  | empty =>
    rw [Plan.outcome, run_conclude_report_ok, summary_eq, hlog, hsources]
    rfl
  | finished hbatch => exact absurd rfl hbatch

theorem savesLog_of_accounts (hlog : u.log = [])
    (haccounts : (p.queue a).Accounts h u is r after started)
    (hlength : is.length = p.spec.sources.length) (hsources : p.spec.sources ≠ []) :
    SavesLog h p is started after
      ((conclude (report p.spec (Plan.outcome p.spec r))).run h after).2 := by
  obtain ⟨gained, hgained, hperm⟩ := haccounts.log
  rw [hlog, List.nil_append] at hgained
  rw [Prepared.queue_compiler] at hperm
  have hne : gained ≠ [] := by
    rw [← List.length_pos_iff, hperm.length_eq,
      ParallelQueue.length_entries p.compiler haccounts.length_started, hlength]
    exact List.length_pos_iff.2 hsources
  rw [run_conclude_of_accounts haccounts hlength, hgained, run_writeLog hne, World.tell_tell]
  refine ⟨OperationLog.render gained, isLog_render hperm, rfl, fun hsaved => ?_⟩
  have hread := read_of_run_writeText (run_eq_of_fst hsaved)
  exact ⟨hread, FileSystem.exists_status_of_read hread⟩

theorem reports_of_unprepared {c : Chain}
    (hprepare : (prepare env a).run h { files } = (.error c, v)) :
    Reports env a h cores files ((conclude (done (.error c))).run h v) [] [] := by
  have hfiles := ((looking_prepare env a).run_looking (h := h) { files }).2.1
  rw [hprepare] at hfiles
  constructor
  case stdout => rfl
  case code => exact fun _ => rfl
  case code_eq_zero_iff =>
    refine iff_of_false Nat.one_ne_zero ?_
    rintro ⟨⟨p, v, is, u, hp, -⟩, -⟩
    cases hprepare.symm.trans hp
  case answered => exact nofun
  case commands_perm => exact .refl _
  case unprepared =>
    intro c' v' hprepare'
    obtain ⟨⟨⟩, rfl⟩ := Prod.mk.inj (hprepare.symm.trans hprepare')
    exact ⟨rfl, hfiles, rfl⟩
  case unplanned => exact fun _ _ _ _ hp => nomatch hprepare.symm.trans hp
  case planned => exact fun _ _ _ _ hp => nomatch hprepare.symm.trans hp

section

variable (hprepare : (prepare env a).run h { files } = (.ok p, v))

include hprepare

theorem reports_of_unplanned {f : PlanFailure} (hplan : (p.plan env).run h v = (.error f, u)) :
    Reports env a h cores files ((conclude (report p.spec (.error (.plan f)))).run h u) [] [] := by
  obtain ⟨hfiles, hlog⟩ := log_of_prepare hprepare
  rw [hplan] at hlog
  rw [run_conclude_report_error, hlog]
  constructor
  case stdout => rfl
  case code => exact fun _ => rfl
  case code_eq_zero_iff =>
    refine iff_of_false Nat.one_ne_zero ?_
    rintro ⟨⟨p', v', is, u', hp, hplan'⟩, -⟩
    obtain ⟨⟨⟩, rfl⟩ := Prod.mk.inj (hprepare.symm.trans hp)
    cases hplan.symm.trans hplan'
  case answered => exact nofun
  case commands_perm => exact .refl _
  case unprepared => exact fun _ _ hp => nomatch hprepare.symm.trans hp
  case unplanned =>
    intro p' v' f' u' hp hplan'
    obtain ⟨⟨⟩, rfl⟩ := Prod.mk.inj (hprepare.symm.trans hp)
    obtain ⟨⟨⟩, rfl⟩ := Prod.mk.inj (hplan.symm.trans hplan')
    exact ⟨hfiles, rfl, rfl⟩
  case planned =>
    intro p' v' is u' hp hplan'
    obtain ⟨⟨⟩, rfl⟩ := Prod.mk.inj (hprepare.symm.trans hp)
    cases hplan.symm.trans hplan'

theorem reports_of_accounts (hplan : (p.plan env).run h v = (.ok is, u))
    (hruns : (p.queue a).Runs h ((p.queue a).limit cores) u is r after commands)
    (haccounts : (p.queue a).Accounts h u is r after started) :
    Reports env a h cores files
      ((conclude (report p.spec (Plan.outcome p.spec r))).run h after) commands started := by
  obtain ⟨hfiles, hlog⟩ := log_of_prepare hprepare
  have hlength := length_of_run_plan hplan
  rw [hplan] at hlog
  have hout := run_conclude_of_accounts haccounts hlength
  have hsaves := savesLog_of_accounts hlog haccounts hlength
  have hnothing (hsources : p.spec.sources = []) :
      ((conclude (report p.spec (Plan.outcome p.spec r))).run h after).2 =
        u.tell [.line "    Nothing to compile"] := by
    obtain rfl : is = [] := List.length_eq_zero_iff.1 (by rw [hlength, hsources]; rfl)
    rw [run_conclude_of_empty hlog hsources hruns]
  generalize (conclude (report p.spec (Plan.outcome p.spec r))).run h after = out at *
  have hcode : out.1 = ⟨if ∀ c ∈ started, Succeeded c.2 then 0 else 1, ""⟩ := by rw [hout]
  have hzero : out.1.code = 0 ↔ ∀ c ∈ started, Succeeded c.2 := by
    rw [hcode]
    exact ite_eq_left_iff.trans (by simp)
  constructor
  case stdout => rw [hcode]
  case code =>
    intro hne
    rw [hcode, if_neg (mt hzero.2 hne)]
  case code_eq_zero_iff =>
    exact hzero.trans (and_iff_right ⟨p, v, is, u, hprepare, hplan⟩).symm
  case answered => exact haccounts.answered
  case commands_perm =>
    rw [haccounts.commands]
    exact hruns.commands_perm
  case unprepared => exact fun _ _ hp => nomatch hprepare.symm.trans hp
  case unplanned =>
    intro p' v' f u' hp hplan'
    obtain ⟨⟨⟩, rfl⟩ := Prod.mk.inj (hprepare.symm.trans hp)
    cases hplan.symm.trans hplan'
  case planned =>
    intro p' v' is' u' hp hplan'
    obtain ⟨⟨⟩, rfl⟩ := Prod.mk.inj (hprepare.symm.trans hp)
    obtain ⟨⟨⟩, rfl⟩ := Prod.mk.inj (hplan.symm.trans hplan')
    exact ⟨hfiles, source_of_run_plan hplan, haccounts.commands, hnothing,
      fun hsources => ⟨r, after, hruns, hsaves hsources⟩⟩

end

/-- The run in order reports what has become of the commands that it has started. -/
theorem reports_run (hargs : Arguments.parse args = .ok a) (haction : a.action = .compile)
    (hcores : 0 < cores) :
    Reports env a h cores files ((run env args).run h { files })
      (((run env args).started h { files }).map Prod.fst)
      ((run env args).started h { files }) := by
  rcases hprepare : (prepare env a).run h { files } with ⟨c | p, v⟩
  · obtain ⟨hrun, hstarted⟩ := run_of_prepare_error hargs haction hprepare
    rw [hrun, hstarted]
    exact reports_of_unprepared hprepare
  obtain ⟨hrun, hstarted⟩ := run_of_prepare_ok hargs haction hprepare
  rw [hrun, hstarted]
  rcases hplan : (p.plan env).run h v with ⟨f | is, u⟩
  · obtain ⟨hreport, hnone⟩ := run_compilePrepared_of_error (a := a) hplan
    rw [run_conclude_congr hreport, hnone]
    exact reports_of_unplanned hprepare hplan
  · obtain ⟨hreport, hall⟩ := run_compilePrepared_of_ok (a := a) hplan
    rw [run_conclude_congr hreport, hall]
    exact reports_of_accounts hprepare hplan
      (ParallelQueue.runs_runAll (limit_queue_pos p hcores) _ is u)
      (ParallelQueue.accounts_runAll _ is h u)

/-- What a run of `compile` comes to, however the commands end that it starts and whichever of them
overtake others: the run in order is one of the runs, and each of them reports what has become of
its commands. -/
theorem run_compile_outcome (hargs : Arguments.parse args = .ok a) (haction : a.action = .compile)
    (env : Environment) (h : Host) (hcores : 0 < cores) (files : FileSystem) :
    let ran := (run env args).run h { files }
    let started := (run env args).started h { files }
    CompileRuns env a h cores { files } ran (started.map Prod.fst) ∧
    Reports env a h cores files ran (started.map Prod.fst) started ∧
    ∀ out commands, CompileRuns env a h cores { files } out commands →
      ∃ started, Reports env a h cores files out commands started := by
  refine ⟨compileRuns_run hargs haction hcores, reports_run hargs haction hcores, ?_⟩
  intro out commands hruns
  cases hruns with
  | unprepared hprepare => exact ⟨[], reports_of_unprepared hprepare⟩
  | unplanned hprepare hplan => exact ⟨[], reports_of_unplanned hprepare hplan⟩
  | queued hprepare hplan hbatch =>
    obtain ⟨started, haccounts⟩ := hbatch.exists_accounts
    exact ⟨started, reports_of_accounts hprepare hplan hbatch haccounts⟩

/-- Of two commands the second overtakes the first, which fails. -/
theorem run_compile_outcome_overtaking :
    let files := (((FileSystem.empty.putDirectories ["r"]).put ["r", "Compile.toml"]
      (.file ⟨"sources=[\"a.c\",\"b.c\"]".toUTF8, false⟩)).put ["r", "a.c"]
        (.file ⟨.empty, false⟩)).put ["r", "b.c"] (.file ⟨.empty, false⟩)
    let env : Environment := { workingDirectory := ⟨"/r"⟩, home := ⟨"/home"⟩ }
    let h : Host := ⟨["r"], fun c fs =>
      (if "/r/a.c" ∈ c.arguments then .ok ⟨some 1, .empty, "a.c:1: error\n".toUTF8⟩
      else .ok ⟨some 0, "note".toUTF8, "unused\n\n".toUTF8⟩, fs)⟩
    let a : Arguments :=
      ⟨.compile, false, ⟨"Compile.toml"⟩, some ⟨"/cc"⟩, none, false, some 2, false⟩
    Arguments.parse ["compile", "--compiler", "/cc", "--jobs", "2"] = .ok a ∧
    ∃ out commands, CompileRuns env a h 8 { files } out commands ∧ out.1 = ⟨1, ""⟩ ∧
      commands.map Command.arguments = [["-c", "-x", "c", "/r/a.c", "-o", "/r/build/obj/a.o"],
        ["-c", "-x", "c", "/r/b.c", "-o", "/r/build/obj/b.o"]] ∧
      out.2.notices = [.line ("error: 1 of 2 compiler invocation(s) failed" ++
        "\n  compiling a.c: compiler exited with status 1 (a.c:1: error)" ++
        "\nsee the complete log at: /r/build/tmp/output.txt")] ∧
      out.2.files.read ["r"] ⟨"/r/build/tmp/output.txt"⟩ =
        .ok ("compiling b.c successful.\nnote\nunused\n\n" ++
          "compiling a.c failed.\na.c:1: error\n\n").toUTF8 := by
  intro files env h a
  have hargs : Arguments.parse ["compile", "--compiler", "/cc", "--jobs", "2"] = .ok a := by
    decide +kernel
  have hseen : (follow env a h 8 { files } [0, 0, 1, 1, 1, 1, 1, 1, 0, 0, 0, 0]).map (fun o =>
      (o.1.1.code, o.2.map Command.arguments, o.1.2.notices,
        o.1.2.files.read ["r"] ⟨"/r/build/tmp/output.txt"⟩)) = some (1,
      [["-c", "-x", "c", "/r/a.c", "-o", "/r/build/obj/a.o"],
        ["-c", "-x", "c", "/r/b.c", "-o", "/r/build/obj/b.o"]],
      [.line ("error: 1 of 2 compiler invocation(s) failed" ++
        "\n  compiling a.c: compiler exited with status 1 (a.c:1: error)" ++
        "\nsee the complete log at: /r/build/tmp/output.txt")],
      .ok ("compiling b.c successful.\nnote\nunused\n\n" ++
        "compiling a.c failed.\na.c:1: error\n\n").toUTF8) := by
    decide +kernel
  have haction : a.action = .compile := rfl
  -- The run is not to be evaluated once more.
  clear_value files env h a
  obtain ⟨⟨out, commands⟩, hfollow, hout⟩ := Option.map_eq_some_iff.1 hseen
  simp only [Prod.mk.injEq] at hout
  obtain ⟨hcode, hcommands, hnotices, hlog⟩ := hout
  have hruns := compileRuns_of_follow hfollow
  obtain ⟨-, -, hreports⟩ := run_compile_outcome hargs haction env h (Nat.succ_pos 7) files
  obtain ⟨started, hreport⟩ := hreports out commands hruns
  refine ⟨hargs, out, commands, hruns, ?_, hcommands, hnotices, hlog⟩
  exact congrArg₂ Outcome.mk hcode hreport.stdout

end CompileDriver.CommandLine
