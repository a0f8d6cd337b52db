import CompileDriver.Proofs.Host.Answers
import Mathlib.Data.Set.List
import Mathlib.Logic.Relation

/-! # Schedules

Workers carry out procedures in one world, each one call at a time and in any order. Where the
answers to their calls do not depend on the world, every schedule leads to the same results, the
same calls and the same entries of the operation log; it decides only about their order.
-/

namespace CompileDriver

variable {α : Type} {h : Host} {reply : (c : Call) → c.Answer} {limit : Nat}

def Call.entries : Call → List LogEntry
  | record e => [e]
  | _ => []

theorem log_answer (c : Call) (w : World) : (h.answer c w).2.log = w.log ++ c.entries := by
  cases c with
  | makeDirectory p | create p | write p data =>
    simp only [Host.answer, World.update, Call.entries, List.append_nil]
    split <;> rfl
  | record e => rfl
  | status | read | list | spawn | recorded | warn | say => exact (List.append_nil _).symm

inductive Worker (α : Type) where
  | waiting (p : Procedure α)
  | running (p : Procedure α)
  /-- A call has been made and is not answered yet. -/
  | asking (c : Call) (next : c.Answer → Procedure α)
  | finished (a : α)

namespace Worker

def isBusy : Worker α → Bool
  | running _ | asking .. => true
  | waiting _ | finished _ => false

/-- The result of a worker that has finished. -/
def outcome? : Worker α → Option α
  | finished a => some a
  | waiting _ | running _ | asking .. => none

def result (reply : (c : Call) → c.Answer) : Worker α → α
  | waiting p | running p => p.result reply
  | asking c next => (next (reply c)).result reply
  | finished a => a

/-- The calls that are still to be made. -/
def toAsk (reply : (c : Call) → c.Answer) : Worker α → List Call
  | waiting p | running p => p.calls reply
  | asking c next => (next (reply c)).calls reply
  | finished _ => []

/-- The calls that are still to be answered. -/
def toAnswer (reply : (c : Call) → c.Answer) : Worker α → List Call
  | waiting p | running p => p.calls reply
  | asking c next => c :: (next (reply c)).calls reply
  | finished _ => []

end Worker

/-- Workers in a world, and the calls that they have made so far. -/
structure Pool (α : Type) where
  world : World
  workers : List (Worker α)
  calls : List Call

namespace Pool

variable {ps : List (Procedure α)} {w : World} {pool next : Pool α} {rs : List α}

def start (w : World) (ps : List (Procedure α)) : Pool α := ⟨w, ps.map .waiting, []⟩

/-- One worker begins, makes a call, gets its answer, or finishes. At most `limit` are busy. -/
inductive Step (h : Host) (limit : Nat) : Pool α → Pool α → Prop where
  | begin {w before after calls p} :
      (before ++ after).countP Worker.isBusy < limit →
      Step h limit ⟨w, before ++ .waiting p :: after, calls⟩
        ⟨w, before ++ .running p :: after, calls⟩
  | ask {w before after calls c next} :
      Step h limit ⟨w, before ++ .running (.call c next) :: after, calls⟩
        ⟨w, before ++ .asking c next :: after, calls ++ [c]⟩
  | answer {w before after calls c next} :
      Step h limit ⟨w, before ++ .asking c next :: after, calls⟩
        ⟨(h.answer c w).2, before ++ .running (next (h.answer c w).1) :: after, calls⟩
  | finish {w before after calls a} :
      Step h limit ⟨w, before ++ .running (.done a) :: after, calls⟩
        ⟨w, before ++ .finished a :: after, calls⟩

/-- Some schedule leads from one pool to the other. -/
abbrev Reaches (h : Host) (limit : Nat) : Pool α → Pool α → Prop :=
  Relation.ReflTransGen (Step h limit)

/-- The step of the worker at place `k`, if it can take one. -/
def advance (h : Host) (limit : Nat) (pool : Pool α) (k : Nat) : Option (Pool α) :=
  let before := pool.workers.take k
  match pool.workers.drop k with
  | .waiting p :: after =>
    if (before ++ after).countP Worker.isBusy < limit then
      some ⟨pool.world, before ++ .running p :: after, pool.calls⟩
    else none
  | .running (.call c next) :: after =>
    some ⟨pool.world, before ++ .asking c next :: after, pool.calls ++ [c]⟩
  | .asking c next :: after =>
    some ⟨(h.answer c pool.world).2,
      before ++ .running (next (h.answer c pool.world).1) :: after, pool.calls⟩
  | .running (.done a) :: after => some ⟨pool.world, before ++ .finished a :: after, pool.calls⟩
  | .finished _ :: _ | [] => none

theorem step_of_advance {k : Nat} (hnext : pool.advance h limit k = some next) :
    Step h limit pool next := by
  obtain ⟨w, workers, calls⟩ := pool
  have hsplit := List.take_append_drop k workers
  unfold advance at hnext
  dsimp only at hnext
  split at hnext
  · next p after hafter =>
    split at hnext
    · next hroom =>
      rw [← hsplit, hafter, ← Option.some.inj hnext]
      exact .begin hroom
    · cases hnext
  · next c k after hafter =>
    rw [← hsplit, hafter, ← Option.some.inj hnext]
    exact .ask
  · next c k after hafter =>
    rw [← hsplit, hafter, ← Option.some.inj hnext]
    exact .answer
  · next a after hafter =>
    rw [← hsplit, hafter, ← Option.some.inj hnext]
    exact .finish
  · cases hnext
  · cases hnext

def follow (h : Host) (limit : Nat) : Pool α → List Nat → Option (Pool α)
  | pool, [] => some pool
  | pool, k :: ks => (pool.advance h limit k).bind fun next => follow h limit next ks

theorem reaches_of_follow {ks : List Nat} (hnext : pool.follow h limit ks = some next) :
    Reaches h limit pool next := by
  induction ks generalizing pool with
  | nil =>
    rw [Option.some.inj hnext]
  | cons k ks ih =>
    obtain ⟨middle, hstep, hnext⟩ := Option.bind_eq_some_iff.1 hnext
    exact (ih hnext).head (step_of_advance hstep)

/-- All work is finished, with the results `rs` in the order in which it was given. -/
def Finished (pool : Pool α) (rs : List α) : Prop := pool.workers = rs.map .finished

theorem finished_iff : pool.Finished rs ↔ pool.workers.map Worker.outcome? = rs.map some := by
  rw [Finished]
  generalize pool.workers = workers
  induction workers generalizing rs with
  | nil => cases rs <;> simp
  | cons x workers ih =>
    cases rs with
    | nil => simp
    | cons a rs =>
      simp only [List.map_cons, List.cons_eq_cons, ih]
      cases x <;> simp [Worker.outcome?]

theorem exists_finished_of_follow (ks : List Nat)
    (hks : (pool.follow h limit ks).map (fun p => p.workers.map Worker.outcome?) =
      some (rs.map some)) : ∃ final, Reaches h limit pool final ∧ final.Finished rs := by
  obtain ⟨final, hfinal, hrs⟩ := Option.map_eq_some_iff.1 hks
  exact ⟨final, reaches_of_follow hfinal, finished_iff.2 hrs⟩

/-- What holds under every schedule: nothing has been lost and nothing done twice. -/
structure OnCourse (h : Host) (reply : (c : Call) → c.Answer) (w : World)
    (ps : List (Procedure α)) (pool : Pool α) : Prop where
  results : pool.workers.map (Worker.result reply) = ps.map (Procedure.result reply)
  calls : (pool.calls ++ pool.workers.flatMap (Worker.toAsk reply)).Perm
    (ps.flatMap (Procedure.calls reply))
  log : ∃ gained, pool.world.log = w.log ++ gained ∧
    (gained ++ (pool.workers.flatMap (Worker.toAnswer reply)).flatMap Call.entries).Perm
      ((ps.flatMap (Procedure.calls reply)).flatMap Call.entries)
  replies : ∀ x ∈ pool.workers, ∀ c ∈ x.toAnswer reply, ∀ v, (h.answer c v).1 = reply c

theorem onCourse_start
    (hps : ∀ p ∈ ps, ∀ c ∈ p.calls reply, ∀ v, (h.answer c v).1 = reply c) :
    OnCourse h reply w ps (start w ps) where
  results := by
    rw [start, List.map_map]
    rfl
  calls := by
    rw [start, List.nil_append, List.flatMap_map]
    exact List.Perm.refl _
  log := by
    refine ⟨[], (List.append_nil _).symm, ?_⟩
    rw [start, List.nil_append, List.flatMap_map]
    exact List.Perm.refl _
  replies := by
    intro x hx
    obtain ⟨p, hp, rfl⟩ := List.mem_map.1 hx
    exact hps p hp

theorem OnCourse.replace {before after : List (Worker α)} {x y : Worker α} {v v' : World}
    {calls : List Call} (asked answered : List Call)
    (hpool : OnCourse h reply w ps ⟨v, before ++ x :: after, calls⟩)
    (hresult : x.result reply = y.result reply)
    (hask : x.toAsk reply = asked ++ y.toAsk reply)
    (hanswer : x.toAnswer reply = answered ++ y.toAnswer reply)
    (hlog : v'.log = v.log ++ answered.flatMap Call.entries) :
    OnCourse h reply w ps ⟨v', before ++ y :: after, calls ++ asked⟩ := by
  obtain ⟨hresults, hcalls, ⟨gained, hgained, hentries⟩, hreplies⟩ := hpool
  constructor
  · rw [← hresults, List.map_append, List.map_append, List.map_cons, List.map_cons, hresult]
  · refine List.Perm.trans ?_ hcalls
    simp only [List.flatMap_append, List.flatMap_cons, hask, List.append_assoc]
    exact (List.perm_append_comm_assoc _ _ _).append_left calls
  · refine ⟨gained ++ answered.flatMap Call.entries, ?_, List.Perm.trans ?_ hentries⟩
    · rw [hlog, hgained, List.append_assoc]
    · simp only [List.flatMap_append, List.flatMap_cons, hanswer, List.append_assoc]
      exact (List.perm_append_comm_assoc _ _ _).append_left gained
  · intro z hz c hc
    rcases List.mem_append.1 hz with hz | hz
    · exact hreplies z (List.mem_append_left _ hz) c hc
    · rcases List.mem_cons.1 hz with rfl | hz
      · refine hreplies x (by simp) c ?_
        rw [hanswer]
        exact List.mem_append_right answered hc
      · exact hreplies z (by simp [hz]) c hc

theorem OnCourse.step (hpool : OnCourse h reply w ps pool) (hstep : Step h limit pool next) :
    OnCourse h reply w ps next := by
  cases hstep with
  | @begin v before after calls p hroom =>
    rw [← List.append_nil calls]
    exact hpool.replace [] [] rfl rfl rfl (List.append_nil _).symm
  | @ask v before after calls c next =>
    exact hpool.replace [c] [] rfl rfl rfl (List.append_nil _).symm
  | @answer v before after calls c next =>
    have hc : (h.answer c v).1 = reply c :=
      hpool.replies (.asking c next) (by simp) c List.mem_cons_self v
    rw [hc, ← List.append_nil calls]
    refine hpool.replace [] [c] rfl rfl rfl ?_
    rw [log_answer, List.flatMap_singleton]
  | @finish v before after calls a =>
    rw [← List.append_nil calls]
    exact hpool.replace [] [] rfl rfl rfl (List.append_nil _).symm

theorem OnCourse.reaches (hpool : OnCourse h reply w ps pool) (hrun : Reaches h limit pool next) :
    OnCourse h reply w ps next := by
  induction hrun with
  | refl => exact hpool
  | tail _ hstep ih => exact ih.step hstep

/-- What a pool has come to when all its work is finished. -/
theorem OnCourse.outcome (hpool : OnCourse h reply w ps pool)
    (hdone : pool.Finished rs) :
    rs = ps.map (Procedure.result reply) ∧
      pool.calls.Perm (ps.flatMap (Procedure.calls reply)) ∧
      ∃ gained, pool.world.log = w.log ++ gained ∧
        gained.Perm ((ps.flatMap (Procedure.calls reply)).flatMap Call.entries) := by
  obtain ⟨hresults, hcalls, ⟨gained, hlog, hentries⟩, -⟩ := hpool
  rw [Finished] at hdone
  have hresult : Worker.result reply ∘ .finished = (id : α → α) := rfl
  have hask : ∀ rs : List α, (rs.map Worker.finished).flatMap (Worker.toAsk reply) = [] :=
    fun rs => by simp [List.flatMap_eq_nil_iff, Worker.toAsk]
  have hanswer : ∀ rs : List α, (rs.map Worker.finished).flatMap (Worker.toAnswer reply) = [] :=
    fun rs => by simp [List.flatMap_eq_nil_iff, Worker.toAnswer]
  rw [hdone, List.map_map, hresult, List.map_id] at hresults
  rw [hdone, hask, List.append_nil] at hcalls
  rw [hdone, hanswer, List.flatMap_nil, List.append_nil] at hentries
  exact ⟨hresults, hcalls, gained, hlog, hentries⟩

/-! ## Schedules come to an end -/

theorem exists_step_or_finished (hlimit : 0 < limit) (pool : Pool α) :
    (∃ next, Step h limit pool next) ∨ ∃ rs, pool.Finished rs := by
  obtain ⟨w, workers, calls⟩ := pool
  by_cases hbusy : ∃ x ∈ workers, x.isBusy = true
  · left
    obtain ⟨x, hx, hbusy⟩ := hbusy
    obtain ⟨before, after, rfl⟩ := List.append_of_mem hx
    cases x with
    | running p =>
      cases p with
      | done a => exact ⟨_, .finish⟩
      | call c next => exact ⟨_, .ask⟩
    | asking c next => exact ⟨_, .answer⟩
    | waiting p | finished a => cases hbusy
  · by_cases hwaiting : ∃ p, .waiting p ∈ workers
    · left
      obtain ⟨p, hp⟩ := hwaiting
      obtain ⟨before, after, rfl⟩ := List.append_of_mem hp
      refine ⟨_, .begin ?_⟩
      have hidle : (before ++ after).countP Worker.isBusy = 0 := by
        rw [List.countP_eq_zero]
        intro x hx hxbusy
        refine hbusy ⟨x, ?_, hxbusy⟩
        rcases List.mem_append.1 hx with hx | hx
        · exact List.mem_append_left _ hx
        · exact List.mem_append_right _ (List.mem_cons_of_mem _ hx)
      omega
    · right
      have hrange : workers ∈ Set.range (List.map Worker.finished) := by
        rw [Set.range_list_map]
        intro x hx
        cases x with
        | finished a => exact ⟨a, rfl⟩
        | waiting p => exact absurd ⟨p, hx⟩ hwaiting
        | running p => exact absurd ⟨_, hx, rfl⟩ hbusy
        | asking c next => exact absurd ⟨_, hx, rfl⟩ hbusy
      obtain ⟨rs, hrs⟩ := hrange
      exact ⟨rs, hrs.symm⟩

/-- A worker that has begun can go on alone until it has finished, as if there were no other. -/
theorem reaches_finished (p : Procedure α) (v : World) (before after : List (Worker α))
    (calls : List Call) : Reaches h limit ⟨v, before ++ .running p :: after, calls⟩
      ⟨(p.run h v).2, before ++ .finished (p.run h v).1 :: after, calls ++ p.asked h v⟩ := by
  induction p generalizing v calls with
  | done a =>
    rw [Procedure.asked, List.append_nil]
    exact .single .finish
  | call c next ih =>
    rw [Procedure.asked, List.append_cons calls]
    exact ((ih _ (h.answer c v).2 (calls ++ [c])).head .answer).head .ask

theorem Step.exists_reaches_finished (hstep : Step h limit pool next) :
    ∃ v before x after calls a, pool.workers = before ++ x :: after ∧ x.outcome? = none ∧
      Reaches h limit pool ⟨v, before ++ .finished a :: after, calls⟩ := by
  cases hstep with
  | @begin v before after calls p hroom =>
    exact ⟨_, before, _, after, _, _, rfl, rfl,
      (reaches_finished p v before after calls).head (.begin hroom)⟩
  | @ask v before after calls c next =>
    exact ⟨_, before, _, after, _, _, rfl, rfl, reaches_finished (.call c next) v before after _⟩
  | @answer v before after calls c next =>
    exact ⟨_, before, _, after, _, _, rfl, rfl,
      (reaches_finished (next (h.answer c v).1) _ before after calls).head .answer⟩
  | @finish v before after calls a =>
    exact ⟨v, before, _, after, calls, a, rfl, rfl, .single .finish⟩

theorem exists_finished_alone (hlimit : 0 < limit) (p : Procedure α) (v : World) :
    ∃ final, Reaches h limit (start v [p]) final ∧ final.Finished [(p.run h v).1] := by
  have hbegin : Step h limit (start v [p]) ⟨v, [] ++ .running p :: [], []⟩ :=
    @Step.begin α h limit v [] [] [] p hlimit
  exact ⟨_, (reaches_finished p v [] [] []).head hbegin, rfl⟩

/-- Whatever has been scheduled so far, the work can be finished. -/
theorem exists_finished (hlimit : 0 < limit) (pool : Pool α) :
    ∃ final rs, Reaches h limit pool final ∧ final.Finished rs := by
  induction hn : pool.workers.countP (fun x => x.outcome?.isNone) using Nat.strongRecOn
    generalizing pool with
  | ind n ih =>
    rcases exists_step_or_finished (h := h) hlimit pool with ⟨next, hstep⟩ | ⟨rs, hrs⟩
    · obtain ⟨v, before, x, after, calls, a, hworkers, hx, hrun⟩ := hstep.exists_reaches_finished
      have hless : (before ++ .finished a :: after).countP (fun x => x.outcome?.isNone) < n := by
        have hfinished : (Worker.finished a).outcome? = some a := rfl
        rw [← hn, hworkers, List.countP_append, List.countP_append,
          List.countP_cons_of_neg (by simp [hfinished]), List.countP_cons_of_pos (by simp [hx])]
        exact Nat.lt_succ_self _
      obtain ⟨final, rs, hrest, hrs⟩ := ih _ hless ⟨v, _, calls⟩ rfl
      exact ⟨final, rs, hrun.trans hrest, hrs⟩
    · exact ⟨pool, rs, .refl, hrs⟩

end Pool

end CompileDriver
