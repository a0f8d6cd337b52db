import CompileDriver.Proofs.Host.Schedules
import Mathlib.Logic.Hydra

/-! # Steps of workers

A step of a schedule is a step of one of its workers, which leaves the others as they are. What the
calls that have been made respect holds between the world at the start and the world at any time. As
each step brings one worker further, no schedule goes on for ever.
-/

namespace CompileDriver

variable {α : Type} {h : Host} {limit : Nat} {P : Call → Prop} {w w' : World}
  {calls asked : List Call}

namespace Worker

variable {x y : Worker α}

/-- One step of a worker, from one world to the other, and the calls that it makes. -/
inductive Step (h : Host) : World → Worker α → World → Worker α → List Call → Prop where
  | begin {w p} : Step h w (.waiting p) w (.running p) []
  | ask {w c next} : Step h w (.running (.call c next)) w (.asking c next) [c]
  | answer {w c next} :
      Step h w (.asking c next) (h.answer c w).2 (.running (next (h.answer c w).1)) []
  | finish {w a} : Step h w (.running (.done a)) w (.finished a) []

/-- The work makes only calls for which `P` holds, and those that wait for their answers are among
the calls made so far. -/
def CallsOnly (P : Call → Prop) (calls : List Call) : Worker α → Prop
  | waiting p | running p => p.CallsOnly P
  | asking c next => c ∈ calls ∧ P c ∧ ∀ r, (next r).CallsOnly P
  | finished _ => True

theorem CallsOnly.append (hx : x.CallsOnly P calls) (asked : List Call) :
    x.CallsOnly P (calls ++ asked) := by
  cases x with
  | asking c next => exact ⟨List.mem_append_left _ hx.1, hx.2⟩
  | waiting p | running p | finished a => exact hx

theorem CallsOnly.step (hx : x.CallsOnly P calls) (hstep : Step h w x w' y asked) :
    y.CallsOnly P (calls ++ asked) := by
  cases hstep with
  | begin => exact hx
  | ask => exact ⟨List.mem_append_right _ List.mem_cons_self, hx⟩
  | answer => exact hx.2.2 _
  | finish => trivial

/-- A step changes the world only by the answer to a call. -/
theorem CallsOnly.step_rel {R : World → World → Prop} (hrefl : ∀ w, R w w)
    (hcall : ∀ c ∈ calls, P c → ∀ v, R v (h.answer c v).2) (hx : x.CallsOnly P calls)
    (hstep : Step h w x w' y asked) : R w w' := by
  cases hstep with
  | answer => exact hcall _ hx.1 hx.2.1 _
  | begin | ask | finish => exact hrefl _

end Worker

namespace Pool

variable {ps : List (Procedure α)} {pool next now : Pool α}

theorem Step.exists_worker (hstep : Step h limit pool next) :
    ∃ before x y after asked, pool.workers = before ++ x :: after ∧
      next.workers = before ++ y :: after ∧ next.calls = pool.calls ++ asked ∧
      Worker.Step h pool.world x next.world y asked := by
  cases hstep with
  | begin => exact ⟨_, _, _, _, [], rfl, rfl, (List.append_nil _).symm, .begin⟩
  | ask => exact ⟨_, _, _, _, [_], rfl, rfl, rfl, .ask⟩
  | answer => exact ⟨_, _, _, _, [], rfl, rfl, (List.append_nil _).symm, .answer⟩
  | finish => exact ⟨_, _, _, _, [], rfl, rfl, (List.append_nil _).symm, .finish⟩

theorem Reaches.callsOnly (hps : ∀ p ∈ ps, p.CallsOnly P)
    (hrun : Reaches h limit (start w ps) now) :
    ∀ x ∈ now.workers, x.CallsOnly P now.calls := by
  induction hrun with
  | refl =>
    intro x hx
    obtain ⟨p, hp, rfl⟩ := List.mem_map.1 hx
    exact hps p hp
  | tail _ hstep ih =>
    obtain ⟨before, x, y, after, asked, hworkers, hnext, hcalls, hworker⟩ := hstep.exists_worker
    rw [hworkers] at ih
    rw [hnext, hcalls]
    intro z hz
    rcases List.mem_append.1 hz with hz | hz
    · exact (ih z (List.mem_append_left _ hz)).append asked
    · rcases List.mem_cons.1 hz with rfl | hz
      · exact (ih x (by simp)).step hworker
      · exact (ih z (by simp [hz])).append asked

theorem Reaches.rel {R : World → World → Prop} (hps : ∀ p ∈ ps, p.CallsOnly P)
    (hrefl : ∀ w, R w w) (htrans : ∀ u v w, R u v → R v w → R u w)
    (hrun : Reaches h limit (start w ps) now)
    (hcall : ∀ c ∈ now.calls, P c → ∀ v, R v (h.answer c v).2) : R w now.world := by
  induction hrun with
  | refl => exact hrefl w
  | tail hrun hstep ih =>
    obtain ⟨before, x, y, after, asked, hworkers, -, hcalls, hworker⟩ := hstep.exists_worker
    rw [hcalls] at hcall
    have hbefore := fun c hc => hcall c (List.mem_append_left asked hc)
    have hx := Reaches.callsOnly hps hrun x (by simp [hworkers])
    exact htrans _ _ _ (ih hbefore) (hx.step_rel hrefl hbefore hworker)

end Pool

/-! ## Schedules cannot go on for ever -/

/-- The worker `y` comes from a step of the worker `x`, in some world. -/
def Worker.Follows (h : Host) (y x : Worker α) : Prop := ∃ w w' asked, Step h w x w' y asked

namespace Worker

theorem acc_finished (h : Host) (a : α) : Acc (Follows h) (.finished a) := by
  refine ⟨_, ?_⟩
  rintro y ⟨w, w', asked, ⟨⟩⟩

theorem acc_asking {c : Call} {next : c.Answer → Procedure α}
    (hnext : ∀ r, Acc (Follows h) (.running (next r))) : Acc (Follows h) (.asking c next) := by
  refine ⟨_, ?_⟩
  rintro y ⟨w, w', asked, ⟨⟩⟩
  exact hnext _

theorem acc_running (h : Host) (p : Procedure α) : Acc (Follows h) (.running p) := by
  induction p with
  | done a =>
    refine ⟨_, ?_⟩
    rintro y ⟨w, w', asked, ⟨⟩⟩
    exact acc_finished h a
  | call c next ih =>
    refine ⟨_, ?_⟩
    rintro y ⟨w, w', asked, ⟨⟩⟩
    exact acc_asking ih

theorem wellFounded_follows (h : Host) :
    WellFounded (Follows h : Worker α → Worker α → Prop) := by
  refine ⟨fun x => ⟨_, ?_⟩⟩
  rintro y ⟨w, w', asked, hstep⟩
  cases hstep with
  | begin | answer => exact acc_running h _
  | ask => exact acc_asking fun r => acc_running h _
  | finish => exact acc_finished h _

end Worker

/-- Each step replaces one worker by one that has less to do. -/
theorem Pool.wellFounded_step (h : Host) (limit : Nat) :
    WellFounded fun next pool : Pool α => Step h limit pool next := by
  refine Subrelation.wf (fun {next pool} hstep => ?_)
    (InvImage.wf (fun pool : Pool α => (pool.workers : Multiset (Worker α)))
      (Worker.wellFounded_follows h).cutExpand)
  obtain ⟨before, x, y, after, asked, hx, hy, -, hworker⟩ := Step.exists_worker hstep
  refine ⟨{y}, x, ?_, ?_⟩
  · intro z hz
    rw [Multiset.mem_singleton.1 hz]
    exact ⟨_, _, _, hworker⟩
  · change (next.workers : Multiset (Worker α)) + {x} = pool.workers + {y}
    rw [hx, hy, ← Multiset.coe_add, ← Multiset.coe_add, ← Multiset.cons_coe, ← Multiset.cons_coe,
      ← Multiset.singleton_add, ← Multiset.singleton_add]
    ac_rfl

end CompileDriver
