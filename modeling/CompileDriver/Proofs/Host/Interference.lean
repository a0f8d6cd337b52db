import CompileDriver.Proofs.Host.Steps

/-! # Procedures among others

While a procedure runs, others may change the world before each of its calls and after the last one.
Under every schedule a worker returns what its procedure can return among the changes that the calls
of the other workers make. Whether that is what the procedure returns alone can be shown step by
step, from one related pair of worlds to the next.
-/

namespace CompileDriver

/-- What others may do to the world between the calls of a procedure. -/
structure Interference where
  changes : World → World → Prop
  refl : ∀ w, changes w w
  trans : ∀ {u v w}, changes u v → changes v w → changes u w

/-- The same value, or failures of which `T` says that the first may be reported as the second. -/
inductive AgreesUpTo {ε α : Type} (T : ε → ε → Prop) : Except ε α → Except ε α → Prop where
  | ok (a : α) : AgreesUpTo T (.ok a) (.ok a)
  | error {e e' : ε} : T e e' → AgreesUpTo T (.error e) (.error e')

namespace AgreesUpTo

variable {ε δ α β : Type} {T : ε → ε → Prop} {U : δ → δ → Prop} {r r' r'' : Except ε α}

theorem refl (hT : ∀ e, T e e) (r : Except ε α) : AgreesUpTo T r r := by
  cases r with
  | ok a => exact .ok a
  | error e => exact .error (hT e)

theorem trans (hT : ∀ e e' e'', T e e' → T e' e'' → T e e'') (h : AgreesUpTo T r r')
    (h' : AgreesUpTo T r' r'') : AgreesUpTo T r r'' := by
  cases h with
  | ok a => exact h'
  | error he =>
    cases h' with
    | error he' => exact .error (hT _ _ _ he he')

theorem mono {U : ε → ε → Prop} (h : AgreesUpTo T r r') (hT : ∀ e e', T e e' → U e e') :
    AgreesUpTo U r r' := by
  cases h with
  | ok a => exact .ok a
  | error he => exact .error (hT _ _ he)

theorem mapError {f : ε → δ} (h : AgreesUpTo T r r') (hf : ∀ e e', T e e' → U (f e) (f e')) :
    AgreesUpTo U (r.mapError f) (r'.mapError f) := by
  cases h with
  | ok a => exact .ok a
  | error he => exact .error (hf _ _ he)

theorem eq_ok_iff {a : α} (h : AgreesUpTo T r r') : r = .ok a ↔ r' = .ok a := by
  cases h with
  | ok b => exact Iff.rfl
  | error he => exact iff_of_false nofun nofun

end AgreesUpTo

namespace Procedure

variable {α β ε δ : Type} {h : Host} {E R : Interference} {P : Call → Prop} {u v w w' : World}
  {p : Procedure α} {a : α}

/-- The procedure, begun in the world `w`, can return `a` and come to the world `w'` while others
change the world before each of its calls and after the last. -/
def RunsAmong (h : Host) (E : Interference) : Procedure α → World → α → World → Prop
  | done b, w, a, w' => a = b ∧ E.changes w w'
  | call c next, w, a, w' => ∃ v, E.changes w v ∧
    RunsAmong h E (next (h.answer c v).1) (h.answer c v).2 a w'

namespace RunsAmong

theorem before (hv : E.changes v w) (hp : p.RunsAmong h E w a w') : p.RunsAmong h E v a w' := by
  cases p with
  | done b => exact ⟨hp.1, E.trans hv hp.2⟩
  | call c next =>
    obtain ⟨u, hu, hnext⟩ := hp
    exact ⟨u, E.trans hv hu, hnext⟩

theorem after (hp : p.RunsAmong h E w a v) (hv : E.changes v w') : p.RunsAmong h E w a w' := by
  induction p generalizing w with
  | done b => exact ⟨hp.1, E.trans hp.2 hv⟩
  | call c next ih =>
    obtain ⟨u, hu, hnext⟩ := hp
    exact ⟨u, hu, ih _ hnext⟩

theorem run (p : Procedure α) (w : World) :
    p.RunsAmong h E w (p.run h w).1 (p.run h w).2 := by
  induction p generalizing w with
  | done a => exact ⟨rfl, E.refl w⟩
  | call c next ih => exact ⟨w, E.refl w, ih _ _⟩

theorem exists_of_bind {f : α → Procedure β} {b : β}
    (hp : (p.bind f).RunsAmong h E w b w') :
    ∃ a v, p.RunsAmong h E w a v ∧ (f a).RunsAmong h E v b w' := by
  induction p generalizing w with
  | done a => exact ⟨a, w, ⟨rfl, E.refl w⟩, hp⟩
  | call c next ih =>
    obtain ⟨u, hu, hnext⟩ := hp
    obtain ⟨a, v, ha, hb⟩ := ih _ hnext
    exact ⟨a, v, ⟨u, hu, ha⟩, hb⟩

theorem bind {f : α → Procedure β} {b : β} (hp : p.RunsAmong h E w a v)
    (hf : (f a).RunsAmong h E v b w') : (p.bind f).RunsAmong h E w b w' := by
  induction p generalizing w with
  | done a =>
    obtain ⟨rfl, hv⟩ := hp
    exact hf.before hv
  | call c next ih =>
    obtain ⟨u, hu, hnext⟩ := hp
    exact ⟨u, hu, ih _ hnext⟩

/-- What both the others and the calls of the procedure respect holds from start to end. -/
theorem rel (hcalls : p.CallsOnly P) (hcall : ∀ c, P c → ∀ v, R.changes v (h.answer c v).2)
    (hothers : ∀ v v', E.changes v v' → R.changes v v') (hp : p.RunsAmong h E w a w') :
    R.changes w w' := by
  induction p generalizing w with
  | done b => exact hothers _ _ hp.2
  | call c next ih =>
    obtain ⟨v, hv, hnext⟩ := hp
    exact R.trans (hothers _ _ hv) (R.trans (hcall c hcalls.1 v) (ih _ (hcalls.2 _) hnext))

end RunsAmong

/-! ## Alone and among others -/

/-- Begun alone in a world and among others in a second one, where `pre` holds between the two, the
procedure returns the same, up to failures that `T` relates. If it succeeds, `post` holds between
the worlds at the end. -/
def Withstands (h : Host) (E : Interference) (T : ε → ε → Prop) (pre : World → World → Prop)
    (p : Procedure (Except ε α)) (post : World → World → Prop) : Prop :=
  ∀ u v r v', pre u v → p.RunsAmong h E v r v' →
    AgreesUpTo T (p.run h u).1 r ∧ ∀ a, r = .ok a → post (p.run h u).2 v'

namespace Withstands

variable {T : ε → ε → Prop} {U : δ → δ → Prop} {pre pre' mid post post' : World → World → Prop}

theorem mono {U : ε → ε → Prop} {p : Procedure (Except ε α)} (hp : p.Withstands h E T pre post)
    (hpre : ∀ u v, pre' u v → pre u v) (hT : ∀ e e', T e e' → U e e')
    (hpost : ∀ u v, post u v → post' u v) : p.Withstands h E U pre' post' := by
  intro u v r v' huv hrun
  obtain ⟨hagrees, hr⟩ := hp u v r v' (hpre u v huv) hrun
  exact ⟨hagrees.mono hT, fun a ha => hpost _ _ (hr a ha)⟩

theorem done (b : α) (hpost : ∀ u v v', pre u v → E.changes v v' → post u v') :
    Withstands h E T pre (done (.ok b)) post := by
  rintro u v r v' hpre ⟨rfl, hv⟩
  exact ⟨.ok b, fun _ _ => hpost u v v' hpre hv⟩

theorem failed {e : ε} (he : T e e) :
    Withstands h E T pre (Procedure.done (.error e : Except ε α)) post := by
  rintro u v r v' - ⟨rfl, -⟩
  exact ⟨.error he, nofun⟩

theorem andThen {p : Procedure (Except ε α)} {f : α → Procedure (Except ε β)}
    (hp : p.Withstands h E T pre mid) (hf : ∀ a, (f a).Withstands h E T mid post) :
    (p.andThen f).Withstands h E T pre post := by
  intro u v r v' hpre hrun
  obtain ⟨x, v₁, hx, hr⟩ := hrun.exists_of_bind
  obtain ⟨hagrees, hmid⟩ := hp u v x v₁ hpre hx
  rw [Procedure.andThen, run_bind]
  generalize p.run h u = alone at hagrees hmid
  obtain ⟨x', u₁⟩ := alone
  cases hagrees with
  | ok a => exact hf a u₁ v₁ r v' (hmid a rfl) hr
  | error he =>
    obtain ⟨rfl, -⟩ := hr
    refine ⟨.error he, ?_⟩
    rintro b ⟨⟩

theorem mapError {p : Procedure (Except ε α)} {f : ε → δ} (hp : p.Withstands h E T pre post)
    (hf : ∀ e e', T e e' → U (f e) (f e')) : (p.mapError f).Withstands h E U pre post := by
  intro u v r v' hpre hrun
  obtain ⟨x, v₁, hx, rfl, hv'⟩ := hrun.exists_of_bind
  obtain ⟨hagrees, hpost⟩ := hp u v x v' hpre (hx.after hv')
  rw [run_mapError]
  refine ⟨hagrees.mapError hf, fun a ha => ?_⟩
  cases x with
  | ok b => exact hpost b rfl
  | error e => cases ha

end Withstands

end Procedure

/-! ## Workers among others -/

namespace Worker

variable {α : Type} {h : Host} {P : Call → Prop} {w w' : World} {asked : List Call}
  {x y : Worker α}

def rest : Worker α → Procedure α
  | waiting p | running p => p
  | asking c next => .call c next
  | finished a => .done a

theorem Step.rest_cases (hstep : Step h w x w' y asked) :
    (y.rest = x.rest ∧ w' = w) ∨
      ∃ c next, x.rest = .call c next ∧ y.rest = next (h.answer c w).1 ∧ w' = (h.answer c w).2 := by
  cases hstep with
  | begin | ask | finish => exact Or.inl ⟨rfl, rfl⟩
  | answer => exact Or.inr ⟨_, _, rfl, rfl, rfl⟩

theorem Step.callsOnly_rest (hstep : Step h w x w' y asked) (hx : x.rest.CallsOnly P) :
    y.rest.CallsOnly P := by
  rcases hstep.rest_cases with ⟨hy, -⟩ | ⟨c, next, hcall, hy, -⟩
  · rwa [hy]
  · rw [hcall] at hx
    rw [hy]
    exact hx.2 _

theorem Step.changes {E : Interference} (hstep : Step h w x w' y asked)
    (hx : x.rest.CallsOnly P) (hcall : ∀ c, P c → ∀ v, E.changes v (h.answer c v).2) :
    E.changes w w' := by
  rcases hstep.rest_cases with ⟨-, rfl⟩ | ⟨c, next, hnext, -, rfl⟩
  · exact E.refl w'
  · rw [hnext] at hx
    exact hcall c hx.1 w

theorem Step.runsAmong {E : Interference} {a : α} {v : World} (hstep : Step h w x w' y asked)
    (hy : y.rest.RunsAmong h E w' a v) : x.rest.RunsAmong h E w a v := by
  rcases hstep.rest_cases with ⟨hrest, rfl⟩ | ⟨c, next, hcall, hrest, rfl⟩
  · rwa [hrest] at hy
  · rw [hrest] at hy
    rw [hcall]
    exact ⟨w, E.refl w, hy⟩

end Worker

namespace Pool

variable {α : Type} {h : Host} {E : Interference} {limit : ℕ} {P : Call → Prop}
  {pool next final : Pool α} {rs : List α}

theorem Step.exists_index (hstep : Step h limit pool next) :
    ∃ k x y asked, pool.workers[k]? = some x ∧ next.workers = pool.workers.set k y ∧
      Worker.Step h pool.world x next.world y asked := by
  obtain ⟨before, x, y, after, asked, hx, hy, -, hworker⟩ := hstep.exists_worker
  refine ⟨before.length, x, y, asked, ?_, ?_, hworker⟩
  · simp [hx]
  · simp [hx, hy]

/-- Under every schedule, a worker returns what it can return among the changes that the calls of
the other workers make. -/
theorem Reaches.runsAmong (hcall : ∀ c, P c → ∀ v, E.changes v (h.answer c v).2)
    (hrun : Reaches h limit pool final) (hfinal : final.Finished rs) {i : ℕ} {x : Worker α}
    (hx : pool.workers[i]? = some x)
    (hothers : ∀ j y, j ≠ i → pool.workers[j]? = some y → y.rest.CallsOnly P) :
    ∃ a, rs[i]? = some a ∧ x.rest.RunsAmong h E pool.world a final.world := by
  induction hrun using Relation.ReflTransGen.head_induction_on generalizing x with
  | refl =>
    rw [hfinal, List.getElem?_map] at hx
    obtain ⟨a, ha, rfl⟩ := Option.map_eq_some_iff.1 hx
    exact ⟨a, ha, rfl, E.refl _⟩
  | head hstep _ ih =>
    obtain ⟨k, y, z, asked, hy, hnext, hworker⟩ := hstep.exists_index
    obtain ⟨hk, -⟩ := List.getElem?_eq_some_iff.1 hy
    rw [hnext] at ih
    by_cases hki : k = i
    · subst hki
      obtain rfl : x = y := Option.some.inj (hx.symm.trans hy)
      obtain ⟨a, ha, hrest⟩ := ih (List.getElem?_set_self hk) fun j y hj hy => by
        rw [List.getElem?_set_ne hj.symm] at hy
        exact hothers j y hj hy
      exact ⟨a, ha, hworker.runsAmong hrest⟩
    · -- another worker has changed the world
      have hbusy := hothers k y hki hy
      obtain ⟨a, ha, hrest⟩ := ih ((List.getElem?_set_ne hki).trans hx) fun j x' hj hx' => by
        by_cases hjk : k = j
        · subst hjk
          rw [List.getElem?_set_self hk] at hx'
          exact Option.some.inj hx' ▸ hworker.callsOnly_rest hbusy
        · rw [List.getElem?_set_ne hjk] at hx'
          exact hothers j x' hj hx'
      exact ⟨a, ha, hrest.before (hworker.changes hbusy hcall)⟩

theorem Reaches.runsAmong_start {ps : List (Procedure α)} {p : Procedure α} {w : World} {i : ℕ}
    {a : α} (hcall : ∀ c, P c → ∀ v, E.changes v (h.answer c v).2)
    (hrun : Reaches h limit (start w ps) final) (hfinal : final.Finished rs)
    (hp : ps[i]? = some p) (ha : rs[i]? = some a) (hothers : ∀ q ∈ ps.eraseIdx i, q.CallsOnly P) :
    p.RunsAmong h E w a final.world := by
  have hx : (start w ps).workers[i]? = some (.waiting p) := by
    rw [start, List.getElem?_map, hp, Option.map_some]
  obtain ⟨b, hb, hamong⟩ := hrun.runsAmong hcall hfinal hx fun j y hj hy => by
    rw [start, List.getElem?_map] at hy
    obtain ⟨q, hq, rfl⟩ := Option.map_eq_some_iff.1 hy
    exact hothers q (List.mem_eraseIdx_iff_getElem?.2 ⟨j, hj, hq⟩)
  rw [ha] at hb
  cases hb
  exact hamong

theorem Reaches.length_workers (hrun : Reaches h limit pool final) :
    final.workers.length = pool.workers.length := by
  induction hrun with
  | refl => rfl
  | tail _ hstep ih =>
    obtain ⟨k, x, y, asked, -, hnext, -⟩ := hstep.exists_index
    rw [hnext, List.length_set, ih]

end Pool

end CompileDriver
