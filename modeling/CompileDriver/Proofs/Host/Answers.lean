import CompileDriver.Proofs.Host.Calls

/-! # What procedures are answered

The result of a procedure follows from the answers to its calls. A procedure that only looks at
files changes none, and it has the same result in all worlds with these files. Commands are started
one after the other, in the order of the calls. Two procedures with answers of their own are
compared call by call.
-/

namespace CompileDriver

variable {α β : Type} {h : Host} {w w' : World}

namespace Call

def IsLooking : Call → Prop
  | status _ | read _ | list _ | warn _ | say _ => True
  | _ => False

/-- Calls that look at files, but not at their contents. -/
def IsShallow : Call → Prop
  | read _ => False
  | c => c.IsLooking

theorem IsShallow.isLooking {c : Call} (hc : c.IsShallow) : c.IsLooking := by
  cases c <;> first | exact hc | trivial

def IsSpawn : Call → Prop
  | spawn _ => True
  | _ => False

theorem IsLooking.not_isSpawn {c : Call} (hc : c.IsLooking) : ¬ c.IsSpawn := by
  cases c <;> first | exact hc.elim | exact id

end Call

namespace Procedure

variable {ε δ : Type} {P : Call → Prop} {reply reply' : (c : Call) → c.Answer}

/-- The result of a procedure whose calls are answered by `reply`. -/
def result (reply : (c : Call) → c.Answer) : Procedure α → α
  | done a => a
  | call c next => result reply (next (reply c))

/-- The calls of a procedure whose calls are answered by `reply`. -/
def calls (reply : (c : Call) → c.Answer) : Procedure α → List Call
  | done _ => []
  | call c next => c :: calls reply (next (reply c))

theorem result_bind (p : Procedure α) (f : α → Procedure β) :
    (p.bind f).result reply = (f (p.result reply)).result reply := by
  induction p with
  | done a => rfl
  | call c next ih => exact ih (reply c)

theorem result_andThen (p : Procedure (Except ε α)) (f : α → Procedure (Except ε β)) :
    (p.andThen f).result reply = p.result reply >>= fun a => (f a).result reply := by
  rw [andThen, result_bind]
  cases p.result reply <;> rfl

theorem result_andThen_eq_ok {p : Procedure (Except ε α)} {f : α → Procedure (Except ε β)} {b : β} :
    (p.andThen f).result reply = .ok b ↔
      ∃ a, p.result reply = .ok a ∧ (f a).result reply = .ok b := by
  rw [andThen, result_bind]
  cases p.result reply with
  | error e => simp [result]
  | ok a => simp

theorem result_mapError_eq_ok {p : Procedure (Except ε α)} {f : ε → δ} {a : α} :
    (p.mapError f).result reply = .ok a ↔ p.result reply = .ok a := by
  rw [mapError, result_bind]
  cases p.result reply <;> simp [result, Except.mapError]

theorem CallsOnly.result_congr {p : Procedure α} (hp : p.CallsOnly P)
    (hreply : ∀ c, P c → reply' c = reply c) : p.result reply' = p.result reply := by
  induction p with
  | done a => rfl
  | call c next ih =>
    rw [result, result, hreply c hp.1]
    exact ih _ (hp.2 _)

theorem calls_bind (p : Procedure α) (f : α → Procedure β) :
    (p.bind f).calls reply = p.calls reply ++ (f (p.result reply)).calls reply := by
  induction p with
  | done a => rfl
  | call c next ih => exact congrArg (c :: ·) (ih (reply c))

theorem run_fst_eq_result {p : Procedure α}
    (hp : ∀ c ∈ p.calls reply, ∀ w, (h.answer c w).1 = reply c) (w : World) :
    (p.run h w).1 = p.result reply := by
  induction p generalizing w with
  | done a => rfl
  | call c next ih =>
    obtain ⟨hc, hnext⟩ := List.forall_mem_cons.1 hp
    rw [run, hc w]
    exact ih (reply c) hnext _

/-! ## Looking at files -/

end Procedure

/-- The answers in a world with the files `fs`, to calls for which nothing else matters. -/
def Host.seen (h : Host) (fs : FileSystem) (c : Call) : c.Answer := (h.answer c ⟨fs, [], []⟩).1

theorem answer_of_isLooking {c : Call} (hc : c.IsLooking) (w : World) :
    (h.answer c w).1 = h.seen w.files c ∧ (h.answer c w).2.files = w.files ∧
      (h.answer c w).2.log = w.log := by
  cases c <;> first | exact hc.elim | exact ⟨rfl, rfl, rfl⟩

namespace Procedure

theorem CallsOnly.run_looking {p : Procedure α} (hp : p.CallsOnly Call.IsLooking) (w : World) :
    (p.run h w).1 = p.result (h.seen w.files) ∧ (p.run h w).2.files = w.files ∧
      (p.run h w).2.log = w.log := by
  induction p generalizing w with
  | done a => exact ⟨rfl, rfl, rfl⟩
  | call c next ih =>
    obtain ⟨hanswer, hfiles, hlog⟩ := answer_of_isLooking (h := h) hp.1 w
    obtain ⟨hresult, hsame, hkept⟩ := ih (h.answer c w).1 (hp.2 _) (h.answer c w).2
    rw [hfiles] at hresult
    refine ⟨hresult.trans ?_, hsame.trans hfiles, hkept.trans hlog⟩
    rw [result, hanswer]

/-! ## Started commands -/

/-- The commands that a run starts, each with what became of it. -/
def started (h : Host) : Procedure α → World → List (Command × Except IoError Output)
  | done _, _ => []
  | call (.spawn c) next, w =>
    (c, (h.spawn c w.files).1) ::
      started h (next (h.spawn c w.files).1) (h.answer (.spawn c) w).2
  | call c next, w => started h (next (h.answer c w).1) (h.answer c w).2

/-- The calls that a run makes. -/
def asked (h : Host) : Procedure α → World → List Call
  | done _, _ => []
  | call c next, w => c :: asked h (next (h.answer c w).1) (h.answer c w).2

theorem started_call {c : Call} {next : c.Answer → Procedure α} (hc : ¬ c.IsSpawn) :
    (call c next).started h w = (next (h.answer c w).1).started h (h.answer c w).2 := by
  cases c <;> first | exact absurd trivial hc | rfl

theorem started_bind (p : Procedure α) (f : α → Procedure β) (w : World) :
    (p.bind f).started h w =
      p.started h w ++ (f (p.run h w).1).started h (p.run h w).2 := by
  induction p generalizing w with
  | done a => rfl
  | call c next ih =>
    cases c with
    | spawn c => exact congrArg (_ :: ·) (ih _ _)
    | _ => exact ih _ _

theorem CallsOnly.started_eq_nil {p : Procedure α} (hp : p.CallsOnly fun c => ¬ c.IsSpawn)
    (w : World) : p.started h w = [] := by
  induction p generalizing w with
  | done a => rfl
  | call c next ih =>
    rw [started_call hp.1]
    exact ih _ (hp.2 _) _

end Procedure

/-! ## Two procedures in step

Two procedures that get answers of their own are compared call by call. What they come to is related
as long as neither makes a call that is left out of the comparison.
-/

namespace Procedure

variable {α α' β β' : Type} {reply reply' : (c : Call) → c.Answer} {P : Call → Prop}
  {R : α → α' → Prop} {S : β → β' → Prop} {p p' : Procedure α} {q q' : Procedure α'}

/-- The results of two procedures, answered by `reply` and by `reply'`, are related unless one of
them makes a call outside of `P`. -/
def InStep (reply reply' : (c : Call) → c.Answer) (P : Call → Prop) (R : α → α' → Prop)
    (p : Procedure α) (q : Procedure α') : Prop :=
  (∀ c ∈ p.calls reply, P c) → (∀ c ∈ q.calls reply', P c) → R (p.result reply) (q.result reply')

theorem InStep.done {a : α} {b : α'} (h : R a b) :
    InStep reply reply' P R (.done a) (.done b) :=
  fun _ _ => h

theorem InStep.call {c d : Call} {next : c.Answer → Procedure α} {next' : d.Answer → Procedure α'}
    (h : P c → P d → InStep reply reply' P R (next (reply c)) (next' (reply' d))) :
    InStep reply reply' P R (.call c next) (.call d next') := by
  intro hp hq
  obtain ⟨hc, hnext⟩ := List.forall_mem_cons.1 hp
  obtain ⟨hd, hnext'⟩ := List.forall_mem_cons.1 hq
  exact h hc hd hnext hnext'

theorem InStep.bind {f : α → Procedure β} {g : α' → Procedure β'}
    (h : InStep reply reply' P R p q)
    (hfg : ∀ a b, R a b → InStep reply reply' P S (f a) (g b)) :
    InStep reply reply' P S (p.bind f) (q.bind g) := by
  intro hp hq
  rw [calls_bind, List.forall_mem_append] at hp hq
  rw [result_bind, result_bind]
  exact hfg _ _ (h hp.1 hq.1) hp.2 hq.2

theorem InStep.swap (h : InStep reply' reply P (fun b a => R a b) q p) :
    InStep reply reply' P R p q :=
  fun hp hq => h hq hp

theorem InStep.call_left {c : Call} {next : c.Answer → Procedure α}
    (h : P c → InStep reply reply' P R (next (reply c)) q) :
    InStep reply reply' P R (.call c next) q := by
  intro hp hq
  obtain ⟨hc, hnext⟩ := List.forall_mem_cons.1 hp
  exact h hc hnext hq

theorem InStep.ite {b : Bool} (ht : b = true → InStep reply reply' P R p q)
    (hf : b = false → InStep reply reply' P R p' q') :
    InStep reply reply' P R (if b then p else p') (if b then q else q') := by
  cases b with
  | true => exact ht rfl
  | false => exact hf rfl

end Procedure

end CompileDriver
