import CompileDriver.Proofs.Host.Answers
import CompileDriver.Proofs.Plan.Success

/-! # Plans and queues

A queue is asked for nothing unless there is a complete plan. Then it is told where the log lies and
given the whole plan, once each and in this order, and its answer decides the outcome. Planning
itself leaves the operation log as it is.
-/

namespace CompileDriver

open Procedure

namespace Queue

variable {σ : Type}

inductive Event where
  | logLocation (p : Path)
  | batch (is : List Invocation)
deriving DecidableEq

/-- The same queue, which also keeps what it is asked, in order. -/
def recording (queue : Queue σ) : Queue (σ × List Event) where
  setLogLocation p state := (queue.setLogLocation p state.1, state.2 ++ [.logLocation p])
  runAll is state :=
    (queue.runAll is state.1).bind fun r => done (r.1, r.2, state.2 ++ [.batch is])

end Queue

namespace Call

/-- Calls that planning makes. -/
def IsPlanning : Call → Prop
  | warn _ => True
  | c => c.IsFile

theorem IsPlanning.not_isSpawn {c : Call} (hc : c.IsPlanning) : ¬ c.IsSpawn := by
  cases c <;> first | exact hc.elim | exact id

theorem IsFile.isPlanning {c : Call} (hc : c.IsFile) : c.IsPlanning := by
  cases c <;> first | exact hc | trivial

end Call

namespace Procedure

variable {α : Type} {h : Host}

theorem log_answer_of_isPlanning {c : Call} (hc : c.IsPlanning) (w : World) :
    (h.answer c w).2.log = w.log := by
  cases c <;> first | exact hc.elim | simp [Host.answer]

theorem CallsOnly.run_log {q : Procedure α} (hq : q.CallsOnly Call.IsPlanning) (w : World) :
    (q.run h w).2.log = w.log :=
  hq.run_rel (R := fun w w' => w'.log = w.log) (fun _ => rfl)
    (fun _ _ _ huv hvw => hvw.trans huv) (fun _ hc w => log_answer_of_isPlanning hc w) w

end Procedure

namespace Plan

variable {σ : Type} {h : Host} {w w' : World} {cwd : Path} {family : Family} {options : Options}
  {s : Spec} {shared : List String}

theorem callsOnly_make : (make cwd family options s).CallsOnly Call.IsPlanning :=
  (callsOnly_assemble.mono fun _ => Call.IsFile.isPlanning).andThen fun _ =>
    callsOnly_invocations_of (fun _ => trivial) fun _ _ _ _ _ _ => ⟨trivial, trivial⟩

def submit {σ : Type} (s : Spec) (queue : Queue σ) (is : List Invocation) (state : σ) :
    Procedure (Except CompileFailure Bool × σ) :=
  (queue.runAll is (queue.setLogLocation s.logLocation state)).bind fun
    | (.ok (), state) => done (.ok !s.sources.isEmpty, state)
    | (.error f, state) => done (.error (.execution f), state)

theorem run_execute_of_make {σ : Type} {h : Host} {w w' : World} {is : List Invocation}
    (his : (make cwd family options s).run h w = (.ok is, w')) (queue : Queue σ) (state : σ) :
    (execute cwd family options s queue state).run h w = (submit s queue is state).run h w' := by
  rw [execute, run_bind, his]
  rfl

theorem run_execute_of_make_error {w' : World} {e : PlanFailure}
    (he : (make cwd family options s).run h w = (.error e, w')) (queue : Queue σ) (state : σ) :
    (execute cwd family options s queue state).run h w = ((.error (.plan e), state), w') := by
  rw [execute, run_bind, he]
  rfl

/-- What the answer of a queue to a whole plan makes of the specification. -/
def outcome (s : Spec) : Except QueueFailure Unit → Except CompileFailure Bool
  | .ok () => .ok !s.sources.isEmpty
  | .error f => .error (.execution f)

theorem run_submit (queue : Queue σ) (is : List Invocation) (state : σ) :
    (submit s queue is state).run h w =
      let answered := (queue.runAll is (queue.setLogLocation s.logLocation state)).run h w
      ((outcome s answered.1.1, answered.1.2), answered.2) := by
  rw [submit, run_bind]
  rcases (queue.runAll is (queue.setLogLocation s.logLocation state)).run h w with
    ⟨⟨f | _, state'⟩, w'⟩ <;> rfl

theorem run_recording (queue : Queue σ) (is : List Invocation) (p : Path) (state : σ) :
    (queue.recording.runAll is (queue.recording.setLogLocation p (state, []))).run h w =
      let answered := (queue.runAll is (queue.setLogLocation p state)).run h w
      ((answered.1.1, answered.1.2, [.logLocation p, .batch is]), answered.2) := by
  rw [Queue.recording, run_bind]
  rfl

/-- A queue gets the whole plan or nothing. -/
theorem execute_all_or_nothing (queue : Queue σ) (state : σ) (h : Host) (w : World) (cwd : Path)
    (family : Family) (options : Options) (s : Spec) :
    let ran := (execute cwd family options s queue.recording (state, [])).run h w
    (execute cwd family options s queue state).run h w = ((ran.1.1, ran.1.2.1), ran.2) ∧
    (∀ e v, (make cwd family options s).run h w = (.error e, v) →
      ran = ((.error (.plan e), state, []), v) ∧
        (CompileFailure.plan e).isFatalBeforeQueue = true ∧ v.log = w.log) ∧
    (∀ is v, (make cwd family options s).run h w = (.ok is, v) →
      let answered := (queue.runAll is (queue.setLogLocation s.logLocation state)).run h v
      is.map Invocation.source = s.sources.map (Path.absolute cwd) ∧ v.log = w.log ∧
        ran.1.2 = (answered.1.2, [.logLocation s.logLocation, .batch is]) ∧ ran.2 = answered.2 ∧
        match answered.1.1 with
        | .ok () => ran.1.1 = .ok !s.sources.isEmpty
        | .error f => ran.1.1 = .error (.execution f) ∧
            (CompileFailure.execution f).isFatalBeforeQueue = false) := by
  intro ran
  have hlog : ((make cwd family options s).run h w).2.log = w.log := callsOnly_make.run_log w
  rcases hmake : (make cwd family options s).run h w with ⟨e | is, v⟩
  · have hran : ran = ((.error (.plan e), state, []), v) := run_execute_of_make_error hmake _ _
    rw [hmake] at hlog
    refine ⟨by rw [run_execute_of_make_error hmake, hran], ?_, nofun⟩
    rintro _ _ ⟨⟩
    exact ⟨hran, rfl, hlog⟩
  · have hran : ran = (submit s queue.recording is (state, [])).run h v :=
      run_execute_of_make hmake _ _
    rw [run_submit, run_recording] at hran
    rw [hmake] at hlog
    refine ⟨by rw [run_execute_of_make hmake, run_submit, hran], nofun, ?_⟩
    rintro _ _ ⟨⟩ answered
    obtain ⟨shared, rfl⟩ := exists_planned_of_run_make hmake
    have houtcome : ran.1.1 = outcome s answered.1.1 := by rw [hran]
    refine ⟨by rw [List.map_map]; rfl, hlog, by rw [hran], by rw [hran], ?_⟩
    rw [houtcome]
    rcases answered.1.1 with f | _
    · exact ⟨rfl, rfl⟩
    · rfl

/-- Of two sources, the second has an object file with too long a path, or the queue fails. -/
theorem execute_all_or_nothing_two_runs :
    let h : Host := ⟨["r"], fun _ fs => (.error .notFound, fs)⟩
    let w : World :=
      { files := FileSystem.empty.putDirectories ["r"], log := [⟨"compiling x.c", "", true⟩] }
    let s : Spec := {
      sources := [⟨"a.c"⟩, ⟨"deep/down/b.c"⟩]
      objectDirectory := ⟨"out"⟩
      tempDirectory := ⟨"tmp"⟩
      logLocation := ⟨"out/log.txt"⟩ }
    let queue : Queue Unit :=
      ⟨fun _ => id, fun is state => done (.error ⟨is.length, [], none⟩, state)⟩
    let ran (limit : Option Nat) :=
      (execute ⟨"/r"⟩ .gcc { pathLimit := limit } s queue.recording ((), [])).run h w
    (∃ e v, (make ⟨"/r"⟩ .gcc { pathLimit := some 12 } s).run h w = (.error e, v) ∧
      ran (some 12) = ((.error (.plan e), (), []), v) ∧ v.log = w.log) ∧
    (∃ is v, (make ⟨"/r"⟩ .gcc { pathLimit := none } s).run h w = (.ok is, v) ∧
      is.map Invocation.source = [⟨"/r/a.c"⟩, ⟨"/r/deep/down/b.c"⟩] ∧
      (ran none).1 =
        (.error (.execution ⟨2, [], none⟩), (), [.logLocation ⟨"out/log.txt"⟩, .batch is])) := by
  intro h w s queue ran
  obtain ⟨-, herror, -⟩ :=
    execute_all_or_nothing queue () h w ⟨"/r"⟩ .gcc { pathLimit := some 12 } s
  obtain ⟨-, -, hok⟩ := execute_all_or_nothing queue () h w ⟨"/r"⟩ .gcc { pathLimit := none } s
  obtain ⟨e, he⟩ := run_eq_error_of_toOption (h := h) (w := w)
    (p := make ⟨"/r"⟩ .gcc { pathLimit := some 12 } s) (by decide +kernel)
  have his := run_eq_ok_of_toOption (h := h) (w := w)
    (p := make ⟨"/r"⟩ .gcc { pathLimit := none } s)
    (a := s.sources.map (planned ⟨"/r"⟩ .gcc s ["-c", "-x", "c"])) (by decide +kernel)
  obtain ⟨hran, -, hlog⟩ := herror _ _ he
  obtain ⟨-, -, hevents, -, hresult, -⟩ := hok _ _ his
  constructor
  · exact ⟨e, _, he, hran, hlog⟩
  · refine ⟨_, _, his, by decide +kernel, ?_⟩
    have hfree : ran none =
        (execute ⟨"/r"⟩ .gcc { pathLimit := none } s queue.recording ((), [])).run h w := rfl
    -- Rewritten first, or else the projections run the whole program.
    rw [hfree]
    exact Prod.ext hresult hevents

end Plan

end CompileDriver
