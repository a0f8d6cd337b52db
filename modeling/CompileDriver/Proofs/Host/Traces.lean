import CompileDriver.Proofs.Host.Steps

/-! # What workers have been answered

However the answers of a host depend on the files, a worker that finishes has made its calls one
after the other and has been answered each of them. The operation log gains the entries of all these
calls, in the order in which they have been answered.
-/

namespace CompileDriver

variable {α : Type} {h : Host} {limit : Nat} {w w' : World} {a : α}

abbrev Exchange : Type := (c : Call) × c.Answer

abbrev Exchange.entries (e : Exchange) : List LogEntry := e.1.entries

/-- Answered in this way, the procedure makes these calls and returns `a`. -/
def Procedure.Ends : Procedure α → List Exchange → α → Prop
  | done b, t, a => t = [] ∧ b = a
  | call c next, t, a => ∃ r rest, t = ⟨c, r⟩ :: rest ∧ (next r).Ends rest a

namespace Worker

variable {x y : Worker α} {asked : List Call} {t : List Exchange}

/-- What is left to be answered is answered in this way, and comes to `a`. -/
def Ends : Worker α → List Exchange → α → Prop
  | waiting p, t, a | running p, t, a => p.Ends t a
  | asking c next, t, a => ∃ r rest, t = ⟨c, r⟩ :: rest ∧ (next r).Ends rest a
  | finished b, t, a => t = [] ∧ b = a

theorem Ends.of_step (hy : y.Ends t a) (hstep : Step h w x w' y asked) :
    ∃ answered, x.Ends (answered ++ t) a ∧
      w'.log = w.log ++ answered.flatMap Exchange.entries ∧
      ∀ e ∈ answered, (h.answer e.1 w).1 = e.2 := by
  cases hstep with
  | begin => exact ⟨[], hy, (List.append_nil _).symm, nofun⟩
  | ask => exact ⟨[], hy, (List.append_nil _).symm, nofun⟩
  | @answer c next =>
    refine ⟨[⟨c, (h.answer c w).1⟩], ⟨_, _, rfl, hy⟩, ?_, ?_⟩
    · rw [log_answer, List.flatMap_singleton]
    · intro e he
      rw [List.mem_singleton.1 he]
  | finish => exact ⟨[], hy, (List.append_nil _).symm, nofun⟩

end Worker

namespace Pool

variable {pool next final : Pool α} {rs : List α}

/-- What is left to be answered to each of the workers, and what they come to. -/
inductive End : List (Worker α) → List (List Exchange × α) → Prop where
  | nil : End [] []
  | cons {x xs t a es} : x.Ends t a → End xs es → End (x :: xs) ((t, a) :: es)

theorem End.finished (rs : List α) : End (rs.map .finished) (rs.map fun a => ([], a)) := by
  induction rs with
  | nil => exact .nil
  | cons a rs ih => exact .cons ⟨rfl, rfl⟩ ih

theorem End.middle {before after : List (Worker α)} {y : Worker α}
    {es : List (List Exchange × α)} (hes : End (before ++ y :: after) es) :
    ∃ fs t a gs, es = fs ++ (t, a) :: gs ∧ y.Ends t a ∧
      ∀ x t', x.Ends t' a → End (before ++ x :: after) (fs ++ (t', a) :: gs) := by
  induction before generalizing es with
  | nil =>
    cases hes with
    | cons hy hafter => exact ⟨[], _, _, _, rfl, hy, fun x t' hx => .cons hx hafter⟩
  | cons z before ih =>
    cases hes with
    | cons hz hrest =>
      obtain ⟨fs, t, a, gs, rfl, hy, hreplace⟩ := ih hrest
      exact ⟨_ :: fs, t, a, gs, rfl, hy, fun x t' hx => .cons hz (hreplace x t' hx)⟩

/-- From `pool` on, the workers are answered as `es` tells until they have come to `rs`. Each answer
is one of the host, and the log gains the entries of all of them. -/
structure Answered (h : Host) (pool final : Pool α) (rs : List α) (es : List (List Exchange × α)) :
    Prop where
  left : End pool.workers es
  results : es.map Prod.snd = rs
  log : ∃ gained, final.world.log = pool.world.log ++ gained ∧
    gained.Perm ((es.flatMap Prod.fst).flatMap Exchange.entries)
  answers : ∀ e ∈ es.flatMap Prod.fst, ∃ w, (h.answer e.1 w).1 = e.2

theorem Answered.of_finished (hdone : pool.Finished rs) :
    Answered h pool pool rs (rs.map fun a => ([], a)) := by
  have hnone : (rs.map fun a => (([] : List Exchange), a)).flatMap Prod.fst = [] := by
    simp [List.flatMap_eq_nil_iff]
  constructor
  case left =>
    rw [hdone]
    exact End.finished rs
  case results =>
    rw [List.map_map]
    exact List.map_id rs
  case log =>
    rw [hnone]
    exact ⟨[], (List.append_nil _).symm, .refl _⟩
  case answers =>
    rw [hnone]
    exact nofun

theorem Answered.of_step {es : List (List Exchange × α)} (hes : Answered h next final rs es)
    (hstep : Step h limit pool next) : ∃ es, Answered h pool final rs es := by
  obtain ⟨before, x, y, after, asked, hworkers, hnext, -, hworker⟩ := hstep.exists_worker
  have hleft := hes.left
  rw [hnext] at hleft
  obtain ⟨fs, t, a, gs, rfl, hy, hreplace⟩ := hleft.middle
  obtain ⟨answered, hx, hentries, hanswered⟩ := hy.of_step hworker
  obtain ⟨gained, hlog, hgained⟩ := hes.log
  have hperm : ((fs ++ (answered ++ t, a) :: gs).flatMap Prod.fst).Perm
      (answered ++ (fs ++ (t, a) :: gs).flatMap Prod.fst) := by
    simp only [List.flatMap_append, List.flatMap_cons, List.append_assoc]
    exact List.perm_append_comm_assoc _ _ _
  refine ⟨fs ++ (answered ++ t, a) :: gs, ?_⟩
  constructor
  case left =>
    rw [hworkers]
    exact hreplace x _ hx
  case results => rw [← hes.results, List.map_append, List.map_append, List.map_cons, List.map_cons]
  case log =>
    refine ⟨answered.flatMap Exchange.entries ++ gained, ?_, ?_⟩
    · rw [hlog, hentries, List.append_assoc]
    · refine (hgained.append_left _).trans ?_
      rw [← List.flatMap_append]
      exact (hperm.flatMap_right _).symm
  case answers =>
    intro e he
    rcases List.mem_append.1 (hperm.mem_iff.1 he) with hnew | hold
    · exact ⟨_, hanswered e hnew⟩
    · exact hes.answers e hold

/-- Under every schedule that finishes the work, each worker has been answered its calls, and the
log has gained the entries of all of them. -/
theorem Reaches.exists_answered (hrun : Reaches h limit pool final) (hdone : final.Finished rs) :
    ∃ es, Answered h pool final rs es := by
  -- backwards from the end, where it is known that nothing is left to be answered
  induction hrun using Relation.ReflTransGen.head_induction_on with
  | refl => exact ⟨_, .of_finished hdone⟩
  | head hstep _ ih =>
    obtain ⟨es, hes⟩ := ih
    exact hes.of_step hstep

end Pool

end CompileDriver
