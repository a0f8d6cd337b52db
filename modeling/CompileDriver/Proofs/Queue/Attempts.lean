import CompileDriver.Proofs.Host.Traces
import CompileDriver.Proofs.Queue.Schedules

/-! # What becomes of a batch on any host

What a command comes to may depend on the files, and so on the commands that have been run before
it. Whatever the host answers, a batch under a schedule accounts for exactly these answers. A queue
that runs its batch in order follows one of the schedules.
-/

namespace CompileDriver

open Procedure

variable {α : Type} {h : Host} {limit cores : Nat} {w w' : World}

/-- What has become of a command is an answer of the host to it. -/
def Host.Answers (h : Host) (c : Command × Except IoError Output) : Prop :=
  ∃ fs, (h.spawn c.1 fs).1 = c.2

theorem Procedure.answers_of_mem_started {p : Procedure α} {c : Command × Except IoError Output}
    (hc : c ∈ p.started h w) : h.Answers c := by
  induction p generalizing w with
  | done a => cases hc
  | call c' next ih =>
    cases c' with
    | spawn command =>
      rcases List.mem_cons.1 hc with rfl | hc
      · exact ⟨w.files, rfl⟩
      · exact ih _ hc
    | _ => exact ih _ hc

theorem Procedure.filterMap_command?_asked (p : Procedure α) (w : World) :
    (p.asked h w).filterMap Call.command? = (p.started h w).map Prod.fst := by
  induction p generalizing w with
  | done a => rfl
  | call c next ih =>
    cases c with
    | spawn command => exact congrArg (command :: ·) (ih _ _)
    | _ => exact ih _ _

namespace ParallelQueue

variable {q : ParallelQueue} {i : Invocation} {batch : List Invocation}
  {r : Except QueueFailure Unit} {commands : List Command}

theorem limit_withJobs_pos (q : ParallelQueue) (jobs : Option Nat) (hcores : 0 < cores) :
    0 < (q.withJobs jobs).limit cores := by
  cases jobs with
  | none => exact hcores
  | some n =>
    cases n with
    | zero => exact hcores
    | succ n => exact Nat.succ_pos n

/-! ## One invocation -/

theorem ends_runOne {t : List Exchange} {a : Option InvocationFailure}
    (hends : (q.runOne i).Ends t a) :
    ∃ r, ⟨.spawn (q.command i), r⟩ ∈ t ∧ a = (q.outcome i r).2 ∧
      t.flatMap Exchange.entries = [(q.outcome i r).1] := by
  unfold runOne at hends
  dsimp only at hends
  split at hends
  · obtain ⟨_, _, rfl, r, _, rfl, _, _, rfl, rfl, rfl⟩ := hends
    exact ⟨r, by simp, rfl, rfl⟩
  · obtain ⟨r, _, rfl, _, _, rfl, rfl, rfl⟩ := hends
    exact ⟨r, by simp, rfl, rfl⟩

/-! ## A batch -/

theorem exists_started_of_end {es : List (List Exchange × Option InvocationFailure)}
    (hes : Pool.End (batch.map fun i => .waiting (q.runOne i)) es)
    (hanswers : ∀ e ∈ es.flatMap Prod.fst, ∃ w, (h.answer e.1 w).1 = e.2) :
    ∃ started, started.map Prod.fst = batch.map q.command ∧ (∀ c ∈ started, h.Answers c) ∧
      (es.map Prod.snd).filterMap id = failures q.compiler batch started ∧
      (es.flatMap Prod.fst).flatMap Exchange.entries = entries q.compiler batch started := by
  induction batch generalizing es with
  | nil =>
    cases hes
    exact ⟨[], rfl, nofun, rfl, rfl⟩
  | cons i is ih =>
    cases hes with
    | @cons _ _ t a es hi his =>
      obtain ⟨r, hspawn, rfl, hentry⟩ := ends_runOne hi
      rw [List.flatMap_cons, List.forall_mem_append] at hanswers
      obtain ⟨started, hcommands, hanswered, hfailures, hentries⟩ := ih his hanswers.2
      obtain ⟨w, hw⟩ := hanswers.1 _ hspawn
      refine ⟨(q.command i, r) :: started, ?_, ?_, ?_, ?_⟩
      · rw [List.map_cons, List.map_cons, hcommands]
      · exact List.forall_mem_cons.2 ⟨⟨w.files, hw⟩, hanswered⟩
      · rw [failures_cons, List.map_cons, ← hfailures]
        cases (q.outcome i r).2 <;> rfl
      · rw [entries_cons, List.flatMap_cons, List.flatMap_append, hentry, hentries,
          List.singleton_append]

/-- What has become of the commands of a batch decides its result and, up to their order, the
entries that the log gains. -/
structure Accounts (q : ParallelQueue) (h : Host) (w : World) (batch : List Invocation)
    (r : Except QueueFailure Unit) (w' : World)
    (started : List (Command × Except IoError Output)) : Prop where
  commands : started.map Prod.fst = batch.map q.command
  answered : ∀ c ∈ started, h.Answers c
  result : r = q.verdict batch (failures q.compiler batch started)
  log : ∃ gained, w'.log = w.log ++ gained ∧ gained.Perm (entries q.compiler batch started)

theorem Accounts.length_started {r : Except QueueFailure Unit}
    {started : List (Command × Except IoError Output)}
    (haccounts : q.Accounts h w batch r w' started) : started.length = batch.length := by
  rw [← List.length_map Prod.fst, haccounts.commands, List.length_map]

theorem Runs.exists_accounts (hruns : q.Runs h limit w batch r w' commands) :
    ∃ started, q.Accounts h w batch r w' started := by
  cases hruns with
  | empty => exact ⟨[], rfl, nofun, rfl, [], (List.append_nil _).symm, .refl _⟩
  | @finished _ final results hbatch hrun hdone =>
    obtain ⟨es, hes, rfl, ⟨gained, hlog, hgained⟩, hanswers⟩ := hrun.exists_answered hdone
    rw [pool, Pool.start, List.map_map] at hes
    obtain ⟨started, hcommands, hanswered, hfailures, hentries⟩ :=
      exists_started_of_end hes hanswers
    refine ⟨started, hcommands, hanswered, ?_, gained, ?_, ?_⟩
    · rw [hfailures]
    · rw [hlog, ← log_run_writeDatabase q batch w]
      rfl
    · rw [← hentries]
      exact hgained

/-! ## In order -/

theorem accounts_runAll (q : ParallelQueue) (batch : List Invocation) (h : Host) (w : World) :
    let ran := (q.runAll batch).run h w
    q.Accounts h w batch ran.1 ran.2 ((q.runAll batch).started h w) := by
  obtain ⟨hresult, hlog, hcommands⟩ := run_runAll q batch h w
  exact ⟨hcommands, fun c hc => answers_of_mem_started hc, hresult, _, hlog, .refl _⟩

theorem reaches_runBatch (hlimit : 0 < limit) (q : ParallelQueue) (batch : List Invocation)
    (v : World) (results : List (Option InvocationFailure)) (calls : List Call) :
    ∃ results' calls', Pool.Reaches h limit
        ⟨v, results.map .finished ++ batch.map fun i => .waiting (q.runOne i), calls⟩
        ⟨((q.runBatch batch).run h v).2, (results ++ results').map .finished, calls ++ calls'⟩ ∧
      results'.filterMap id = ((q.runBatch batch).run h v).1 ∧
      calls'.filterMap Call.command? = ((q.runBatch batch).started h v).map Prod.fst := by
  induction batch generalizing v results calls with
  | nil =>
    refine ⟨[], [], ?_, rfl, rfl⟩
    rw [List.map_nil, List.append_nil, List.append_nil, List.append_nil]
    exact .refl
  | cons i is ih =>
    obtain ⟨results', calls', hrest, hresults, hcalls⟩ := ih ((q.runOne i).run h v).2
      (results ++ [((q.runOne i).run h v).1]) (calls ++ (q.runOne i).asked h v)
    refine ⟨((q.runOne i).run h v).1 :: results', (q.runOne i).asked h v ++ calls', ?_, ?_, ?_⟩
    · have hidle : (results.map Worker.finished ++
          is.map fun i => Worker.waiting (q.runOne i)).countP Worker.isBusy = 0 := by
        simp [List.countP_eq_zero, Worker.isBusy]
      rw [List.map_append, List.append_assoc] at hrest
      rw [List.append_cons results, ← List.append_assoc calls, runBatch, run_bind, run_bind]
      refine .head (.begin (hidle.trans_lt hlimit)) ?_
      exact (Pool.reaches_finished (q.runOne i) v _ _ calls).trans hrest
    · rw [runBatch, run_bind, run_bind, ← hresults]
      cases ((q.runOne i).run h v).1 <;> rfl
    · rw [List.filterMap_append, filterMap_command?_asked, hcalls, runBatch, started_bind,
        started_bind, List.map_append]
      exact congrArg _ (congrArg _ (List.append_nil _).symm)

/-- Running a batch in order is one of its schedules. -/
theorem runs_runAll (hlimit : 0 < limit) (q : ParallelQueue) (batch : List Invocation)
    (w : World) :
    let ran := (q.runAll batch).run h w
    q.Runs h limit w batch ran.1 ran.2 (((q.runAll batch).started h w).map Prod.fst) := by
  by_cases hbatch : batch = []
  · rw [hbatch]
    exact .empty
  · obtain ⟨results, calls, hrun, hresults, hcalls⟩ :=
      reaches_runBatch (h := h) hlimit q batch ((q.writeDatabase batch).run h w).2 [] []
    have hpool : q.pool h batch w = ⟨((q.writeDatabase batch).run h w).2,
        batch.map fun i => .waiting (q.runOne i), []⟩ := by
      rw [pool, Pool.start, List.map_map]
      rfl
    have hstarted : (q.runAll batch).started h w =
        (q.runBatch batch).started h ((q.writeDatabase batch).run h w).2 := by
      rw [runAll_eq hbatch, started_bind, started_bind, started_writeDatabase, List.nil_append]
      exact List.append_nil _
    rw [hstarted, ← hcalls, runAll_eq hbatch, run_bind, run_bind, run_done, ← hresults]
    rw [List.map_nil, List.nil_append, ← hpool] at hrun
    exact .finished hbatch hrun rfl

/-! ## In a given order -/

/-- The run of a batch in which the workers go on as `ks` tells, if all of them finish. -/
def follow (q : ParallelQueue) (h : Host) (limit : Nat) (w : World) (batch : List Invocation)
    (ks : List Nat) : Option (Except QueueFailure Unit × World × List Command) :=
  ((q.pool h batch w).follow h limit ks).bind fun final =>
    let results := final.workers.filterMap Worker.outcome?
    if final.workers.map Worker.outcome? = results.map some then
      some (q.verdict batch (results.filterMap id), final.world,
        final.calls.filterMap Call.command?)
    else none

theorem runs_of_follow {ks : List Nat} (hbatch : batch ≠ [])
    (hfollow : q.follow h limit w batch ks = some (r, w', commands)) :
    q.Runs h limit w batch r w' commands := by
  obtain ⟨final, hfinal, hresults⟩ := Option.bind_eq_some_iff.1 hfollow
  dsimp only at hresults
  split at hresults
  · next hdone =>
    obtain ⟨rfl, rfl, rfl⟩ : _ ∧ _ ∧ _ := by simpa using hresults
    exact .finished hbatch (Pool.reaches_of_follow hfinal) (Pool.finished_iff.2 hdone)
  · cases hresults

end ParallelQueue

end CompileDriver
