import CompileDriver.Proofs.Host.Calls

/-! # Confined procedures

A procedure is confined to some calls and some results if, whatever it is answered, it makes no
other calls and has no other results. One that names only absolute paths runs alike in all working
directories.
-/

namespace CompileDriver

/-- What a procedure that can fail returns if it does not fail. -/
def InSuccess {ε α : Type} (Q : α → Prop) : Except ε α → Prop
  | .ok a => Q a
  | .error _ => True

namespace Procedure

variable {α β ε δ : Type} {P : Call → Prop} {Q R : α → Prop} {S : β → Prop} {h h' : Host}

/-- Whatever it is answered, the procedure makes only calls in `P`, and its result lies in `Q`. -/
def Confined (P : Call → Prop) (Q : α → Prop) : Procedure α → Prop
  | done a => Q a
  | call c next => P c ∧ ∀ r, (next r).Confined P Q

theorem Confined.callsOnly {p : Procedure α} (hp : p.Confined P Q) : p.CallsOnly P := by
  induction p with
  | done a => trivial
  | call c next ih => exact ⟨hp.1, fun r => ih r (hp.2 r)⟩

theorem CallsOnly.confined {p : Procedure α} (hp : p.CallsOnly P) (hQ : ∀ a, Q a) :
    p.Confined P Q := by
  induction p with
  | done a => exact hQ a
  | call c next ih => exact ⟨hp.1, fun r => ih r (hp.2 r)⟩

namespace Confined

theorem bind {p : Procedure α} {f : α → Procedure β} (hp : p.Confined P Q)
    (hf : ∀ a, Q a → (f a).Confined P S) : (p.bind f).Confined P S := by
  induction p with
  | done a => exact hf a hp
  | call c next ih => exact ⟨hp.1, fun r => ih r (hp.2 r)⟩

theorem andThen {p : Procedure (Except ε α)} {f : α → Procedure (Except ε β)}
    (hp : p.Confined P (InSuccess Q)) (hf : ∀ a, Q a → (f a).Confined P (InSuccess S)) :
    (p.andThen f).Confined P (InSuccess S) :=
  hp.bind fun
    | .ok a => hf a
    | .error _ => fun _ => trivial

theorem mapError {p : Procedure (Except ε α)} (f : ε → δ) (hp : p.Confined P (InSuccess Q)) :
    (p.mapError f).Confined P (InSuccess Q) :=
  hp.bind fun
    | .ok _ => id
    | .error _ => fun _ => trivial

theorem ite {c : Prop} [Decidable c] {p q : Procedure α} (hp : c → p.Confined P Q)
    (hq : ¬ c → q.Confined P Q) : (if c then p else q).Confined P Q := by
  split
  · exact hp ‹c›
  · exact hq ‹¬ c›

theorem run_fst {p : Procedure α} (hp : p.Confined P Q) (w : World) : Q (p.run h w).1 := by
  induction p generalizing w with
  | done a => exact hp
  | call c next ih => exact ih _ (hp.2 _) _

/-- What a procedure goes on with matters only for the results that it can have. -/
theorem andThen_congr {p : Procedure (Except ε α)} {f g : α → Procedure (Except ε β)}
    (hp : p.Confined P (InSuccess Q)) (hfg : ∀ a, Q a → f a = g a) : p.andThen f = p.andThen g := by
  induction p with
  | done r =>
    cases r with
    | ok a => exact hfg a hp
    | error e => rfl
  | call c next ih => exact congrArg (call c) (funext fun r => ih r (hp.2 r))

end Confined

end Procedure

def Call.IsAbsolute : Call → Prop
  | status p | makeDirectory p | create p | write p _ | read p | list p => p.isAbsolute = true
  | spawn _ => False
  | record _ | recorded | warn _ | say _ => True

variable {α : Type} {h h' : Host}

theorem answer_eq_of_isAbsolute {c : Call} (hc : c.IsAbsolute) (h h' : Host) (w : World) :
    h.answer c w = h'.answer c w := by
  have hstart {p : Path} (hp : p.isAbsolute = true) (cwd : Location) :
      FileSystem.startOf cwd p = [] :=
    if_pos hp
  cases c with
  | status p => simp only [Host.answer, FileSystem.status, FileSystem.find, hstart hc]
  | makeDirectory p =>
    simp only [Host.answer, FileSystem.makeDirectory, hstart hc]
    rfl
  | create p =>
    simp only [Host.answer, FileSystem.create, hstart hc]
    rfl
  | write p data =>
    simp only [Host.answer, FileSystem.write, FileSystem.find, hstart hc]
    rfl
  | read p => simp only [Host.answer, FileSystem.read, FileSystem.find, hstart hc]
  | list p => simp only [Host.answer, FileSystem.list, FileSystem.find, hstart hc]
  | spawn c => exact hc.elim
  | record | recorded | warn | say => rfl

theorem Procedure.CallsOnly.run_eq {p : Procedure α} (hp : p.CallsOnly Call.IsAbsolute)
    (h h' : Host) (w : World) : p.run h w = p.run h' w := by
  induction p generalizing w with
  | done a => rfl
  | call c next ih =>
    rw [run, run, answer_eq_of_isAbsolute hp.1 h h']
    exact ih _ (hp.2 _) _

end CompileDriver
