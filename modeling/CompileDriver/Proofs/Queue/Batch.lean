import CompileDriver.Proofs.Host.Answers
import CompileDriver.Proofs.Plan.Submission
import CompileDriver.Proofs.Queue.Outcomes

/-! # Batches one after the other

A queue starts the command of each invocation once, and the log gains an entry for each. What
becomes of a command may depend on the files and change them.
-/

namespace CompileDriver.ParallelQueue

open Procedure

variable {h : Host} {q : ParallelQueue} {batch : List Invocation}

/-- The entries for invocations of which the commands have become what `started` tells. -/
def entries (program : Path) (batch : List Invocation)
    (started : List (Command × Except IoError Output)) : List LogEntry :=
  List.zipWith (fun i c => ⟨i.name, shownText program c.2, decide (Succeeded c.2)⟩) batch started

def failures (program : Path) (batch : List Invocation)
    (started : List (Command × Except IoError Output)) : List InvocationFailure :=
  ((batch.zip started).filter fun x => ¬ Succeeded x.2.2).map fun x =>
    ⟨x.1.name, failureText program x.2.2⟩

theorem length_entries (program : Path) {started : List (Command × Except IoError Output)}
    (hstarted : started.length = batch.length) :
    (entries program batch started).length = batch.length := by
  rw [entries, List.length_zipWith, hstarted, Nat.min_self]

theorem failures_eq_nil_iff (program : Path) {started : List (Command × Except IoError Output)}
    (hstarted : started.length = batch.length) :
    failures program batch started = [] ↔ ∀ c ∈ started, Succeeded c.2 := by
  rw [failures, List.map_eq_nil_iff, List.filter_eq_nil_iff]
  simp only [decide_eq_true_eq, not_not]
  constructor
  · intro hall c hc
    have hzip : (batch.zip started).map Prod.snd = started :=
      List.map_snd_zip (Nat.le_of_eq hstarted)
    rw [← hzip] at hc
    obtain ⟨x, hx, rfl⟩ := List.mem_map.1 hc
    exact hall x hx
  · intro hall x hx
    exact hall x.2 (List.of_mem_zip hx).2

theorem failures_cons (q : ParallelQueue) (i : Invocation) (r : Except IoError Output)
    (batch : List Invocation) (started : List (Command × Except IoError Output)) :
    failures q.compiler (i :: batch) ((q.command i, r) :: started) =
      (q.outcome i r).2.toList ++ failures q.compiler batch started := by
  rw [outcome_eq, failures, List.zip_cons_cons]
  by_cases hr : Succeeded r
  · rw [List.filter_cons_of_neg (by simpa using hr), if_pos hr]
    rfl
  · rw [List.filter_cons_of_pos (by simpa using hr), if_neg hr]
    rfl

theorem entries_cons (q : ParallelQueue) (i : Invocation) (r : Except IoError Output)
    (batch : List Invocation) (started : List (Command × Except IoError Output)) :
    entries q.compiler (i :: batch) ((q.command i, r) :: started) =
      (q.outcome i r).1 :: entries q.compiler batch started := by
  rw [outcome_eq]
  rfl

/-! ## Running a batch -/

theorem run_runOne (q : ParallelQueue) (i : Invocation) (h : Host) (w : World) :
    let r := (h.spawn (q.command i) w.files).1
    ((q.runOne i).run h w).1 = (q.outcome i r).2 ∧
      ((q.runOne i).run h w).2.log = w.log ++ [(q.outcome i r).1] ∧
      (q.runOne i).started h w = [(q.command i, r)] := by
  unfold runOne
  dsimp only
  split <;> exact ⟨rfl, rfl, rfl⟩

theorem run_runBatch (q : ParallelQueue) (batch : List Invocation) (h : Host) (w : World) :
    let started := (q.runBatch batch).started h w
    ((q.runBatch batch).run h w).1 = failures q.compiler batch started ∧
      ((q.runBatch batch).run h w).2.log = w.log ++ entries q.compiler batch started ∧
      started.map Prod.fst = batch.map q.command := by
  induction batch generalizing w with
  | nil => exact ⟨rfl, (List.append_nil _).symm, rfl⟩
  | cons i is ih =>
    obtain ⟨hfailure, hlog, hstarted⟩ := run_runOne q i h w
    obtain ⟨hfailures, hlogs, hcommands⟩ := ih ((q.runOne i).run h w).2
    dsimp only
    rw [runBatch, started_bind, started_bind, run_bind, run_bind, hstarted, run_done]
    dsimp only
    rw [List.singleton_append, started, List.append_nil]
    refine ⟨?_, ?_, congrArg (q.command i :: ·) hcommands⟩
    · rw [failures_cons, hfailure, hfailures]
    · rw [entries_cons, hlogs, hlog, List.append_assoc, List.singleton_append]

/-- What a batch comes to with the given failures. -/
def verdict (q : ParallelQueue) (batch : List Invocation) :
    List InvocationFailure → Except QueueFailure Unit
  | [] => .ok ()
  | fs => .error ⟨batch.length, fs, q.logLocation⟩

theorem runAll_eq (hbatch : batch ≠ []) :
    q.runAll batch = (q.writeDatabase batch).bind fun () =>
      (q.runBatch batch).bind fun fs => done (q.verdict batch fs) := by
  rw [runAll, if_neg hbatch]
  congr
  funext _
  congr
  funext fs
  cases fs <;> rfl

theorem verdict_of_ne_nil {fs : List InvocationFailure} (hfs : fs ≠ []) :
    q.verdict batch fs = .error ⟨batch.length, fs, q.logLocation⟩ := by
  cases fs with
  | nil => exact absurd rfl hfs
  | cons => rfl

theorem verdict_eq_ok_iff {fs : List InvocationFailure} :
    q.verdict batch fs = .ok () ↔ fs = [] := by
  cases fs with
  | nil => exact iff_of_true rfl rfl
  | cons => exact iff_of_false nofun nofun

theorem callsOnly_writeDatabase (q : ParallelQueue) (batch : List Invocation) :
    (q.writeDatabase batch).CallsOnly Call.IsPlanning := by
  unfold writeDatabase
  split
  · trivial
  · next p hp =>
    refine ((callsOnly_writeText p _).mono fun _ => Call.IsFile.isPlanning).bind fun r => ?_
    cases r with
    | ok => trivial
    | error e => exact ⟨trivial, fun _ => trivial⟩

theorem log_run_writeDatabase (q : ParallelQueue) (batch : List Invocation) (w : World) :
    ((q.writeDatabase batch).run h w).2.log = w.log :=
  (callsOnly_writeDatabase q batch).run_log w

theorem started_writeDatabase (q : ParallelQueue) (batch : List Invocation) (w : World) :
    (q.writeDatabase batch).started h w = [] :=
  ((callsOnly_writeDatabase q batch).mono fun _ => Call.IsPlanning.not_isSpawn).started_eq_nil w

theorem run_runAll (q : ParallelQueue) (batch : List Invocation) (h : Host) (w : World) :
    let started := (q.runAll batch).started h w
    ((q.runAll batch).run h w).1 = q.verdict batch (failures q.compiler batch started) ∧
      ((q.runAll batch).run h w).2.log = w.log ++ entries q.compiler batch started ∧
      started.map Prod.fst = batch.map q.command := by
  by_cases hbatch : batch = []
  · rw [hbatch]
    exact ⟨rfl, (List.append_nil _).symm, rfl⟩
  · obtain ⟨hfailures, hlog, hstarted⟩ :=
      run_runBatch q batch h ((q.writeDatabase batch).run h w).2
    dsimp only
    rw [runAll_eq hbatch, started_bind, started_bind, run_bind, run_bind, run_done,
      started_writeDatabase]
    dsimp only
    rw [List.nil_append, started, List.append_nil]
    refine ⟨congrArg (q.verdict batch) hfailures, ?_, hstarted⟩
    rw [hlog, log_run_writeDatabase]

end CompileDriver.ParallelQueue
