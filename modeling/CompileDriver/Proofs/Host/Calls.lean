import CompileDriver.Host.World
import Mathlib.Control.Monad.Basic

/-! # Calls of procedures

Which calls a procedure can make, whatever it is answered, bounds what its runs can change: a
relation between worlds that each of these calls respects holds between the start and the end of
every run. The lemmas on runs take a procedure that can fail apart into its steps.
-/

namespace CompileDriver.Procedure

variable {α β ε δ : Type} {P : Call → Prop} {h : Host} {w w' : World}

/-- Every call that the procedure can make satisfies `P`. -/
def CallsOnly (P : Call → Prop) : Procedure α → Prop
  | done _ => True
  | call c next => P c ∧ ∀ r, CallsOnly P (next r)

theorem CallsOnly.done (a : α) : (done a).CallsOnly P := trivial

theorem CallsOnly.bind {p : Procedure α} {f : α → Procedure β} (hp : p.CallsOnly P)
    (hf : ∀ a, (f a).CallsOnly P) : (p.bind f).CallsOnly P := by
  induction p with
  | done a => exact hf a
  | call c next ih => exact ⟨hp.1, fun r => ih r (hp.2 r)⟩

theorem CallsOnly.andThen {p : Procedure (Except ε α)} {f : α → Procedure (Except ε β)}
    (hp : p.CallsOnly P) (hf : ∀ a, (f a).CallsOnly P) : (p.andThen f).CallsOnly P :=
  hp.bind fun
    | .ok a => hf a
    | .error _ => trivial

theorem CallsOnly.mapError {p : Procedure (Except ε α)} (f : ε → δ) (hp : p.CallsOnly P) :
    (p.mapError f).CallsOnly P :=
  hp.bind fun _ => trivial

theorem CallsOnly.mono {Q : Call → Prop} {p : Procedure α} (hp : p.CallsOnly P)
    (hPQ : ∀ c, P c → Q c) : p.CallsOnly Q := by
  induction p with
  | done a => trivial
  | call c next ih => exact ⟨hPQ c hp.1, fun r => ih r (hp.2 r)⟩

theorem CallsOnly.ite {c : Prop} [Decidable c] {p q : Procedure α} (hp : p.CallsOnly P)
    (hq : q.CallsOnly P) : (if c then p else q).CallsOnly P := by
  split
  · exact hp
  · exact hq

/-- What each call respects, the run respects. -/
theorem CallsOnly.run_rel {R : World → World → Prop} {p : Procedure α} (hp : p.CallsOnly P)
    (hrefl : ∀ w, R w w) (htrans : ∀ u v w, R u v → R v w → R u w)
    (hcall : ∀ c, P c → ∀ w, R w (h.answer c w).2) (w : World) : R w (p.run h w).2 := by
  induction p generalizing w with
  | done a => exact hrefl w
  | call c next ih => exact htrans _ _ _ (hcall c hp.1 w) (ih _ (hp.2 _) _)

theorem run_andThen_eq_ok {p : Procedure (Except ε α)} {f : α → Procedure (Except ε β)} {b : β} :
    (p.andThen f).run h w = (.ok b, w') ↔
      ∃ a v, p.run h w = (.ok a, v) ∧ (f a).run h v = (.ok b, w') := by
  rw [andThen, run_bind]
  rcases p.run h w with ⟨e | a, v⟩
  · simp
  · constructor
    · exact fun hb => ⟨a, v, rfl, hb⟩
    · rintro ⟨_, _, ⟨⟩, hb⟩
      exact hb

theorem run_mapError_eq_ok {p : Procedure (Except ε α)} {f : ε → δ} {a : α} :
    (p.mapError f).run h w = (.ok a, w') ↔ p.run h w = (.ok a, w') := by
  rw [mapError, run_bind]
  rcases p.run h w with ⟨e | b, v⟩
  · change (Except.error (f e), v) = (.ok a, w') ↔ _
    simp
  · change (Except.ok b, v) = (.ok a, w') ↔ _
    simp

theorem run_andThen_eq_error {p : Procedure (Except ε α)} {f : α → Procedure (Except ε β)} {e : ε} :
    (p.andThen f).run h w = (.error e, w') ↔
      p.run h w = (.error e, w') ∨
        ∃ a v, p.run h w = (.ok a, v) ∧ (f a).run h v = (.error e, w') := by
  rw [andThen, run_bind]
  rcases p.run h w with ⟨e' | a, v⟩
  · simp
  · constructor
    · exact fun he => Or.inr ⟨a, v, rfl, he⟩
    · rintro (⟨⟨⟩⟩ | ⟨_, _, ⟨⟩, he⟩)
      exact he

theorem run_mapError_eq_error {p : Procedure (Except ε α)} {f : ε → δ} {d : δ} :
    (p.mapError f).run h w = (.error d, w') ↔ ∃ e, p.run h w = (.error e, w') ∧ f e = d := by
  rw [mapError, run_bind]
  rcases p.run h w with ⟨e | a, v⟩
  · change (Except.error (f e), v) = (.error d, w') ↔ _
    constructor
    · rintro ⟨⟩
      exact ⟨e, rfl, rfl⟩
    · rintro ⟨_, ⟨⟩, rfl⟩
      rfl
  · change (Except.ok a, v) = (.error d, w') ↔ _
    simp

theorem run_mapError {p : Procedure (Except ε α)} {f : ε → δ} :
    (p.mapError f).run h w = ((p.run h w).1.mapError f, (p.run h w).2) := by
  rw [mapError, run_bind, run_done]

theorem run_andThen_done {p : Procedure (Except ε α)} {f : α → β} :
    (p.andThen fun a => done (.ok (f a))).run h w = ((p.run h w).1.map f, (p.run h w).2) := by
  rw [andThen, run_bind]
  rcases p.run h w with ⟨e | a, v⟩ <;> rfl

theorem run_eq_of_fst {p : Procedure α} {a : α} (ha : (p.run h w).1 = a) :
    p.run h w = (a, (p.run h w).2) := by
  rw [← ha]

theorem run_eq_ok_of_toOption {p : Procedure (Except ε α)} {a : α}
    (ha : (p.run h w).1.toOption = some a) : p.run h w = (.ok a, (p.run h w).2) := by
  generalize p.run h w = r at ha ⊢
  rcases r with ⟨e | b, v⟩ <;> cases ha
  rfl

theorem run_eq_error_of_toOption {p : Procedure (Except ε α)}
    (hp : (p.run h w).1.toOption = none) : ∃ e, p.run h w = (.error e, (p.run h w).2) := by
  generalize p.run h w = r at hp ⊢
  rcases r with ⟨e | b, v⟩
  · exact ⟨e, rfl⟩
  · cases hp

end CompileDriver.Procedure
