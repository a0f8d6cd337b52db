import CompileDriver.Proofs.FileSystem.Directories
import CompileDriver.Queue

/-! # Outcomes of invocations

An invocation succeeds if its process exits with status zero. Of any other process it is told how it
ended, with the first line that is not blank of its standard output, or else of its standard error.
-/

namespace CompileDriver

namespace Text

variable {s t : List Char}

def firstLine? (ls : List (List Char)) : Option (List Char) := ls.find? fun l => !l.all isBlank

theorem firstLine?_append (ks ls : List (List Char)) :
    firstLine? (ks ++ ls) = (firstLine? ks).or (firstLine? ls) :=
  List.find?_append

theorem lines_append_lineFeed (s t : List Char) : lines (s ++ '\n' :: t) = lines s ++ lines t :=
  pieces_append '\n' s t

theorem firstLine?_lines_nil : firstLine? (lines []) = none := rfl

theorem firstLine?_lines_append (hs : s.getLast? = some '\n') :
    firstLine? (lines (s ++ t)) = firstLine? (lines s ++ lines t) := by
  obtain ⟨r, rfl⟩ := List.getLast?_eq_some_iff.1 hs
  have hr : lines (r ++ ['\n']) = lines r ++ lines [] := lines_append_lineFeed r []
  rw [List.append_assoc, List.singleton_append, lines_append_lineFeed, hr, firstLine?_append,
    firstLine?_append, firstLine?_append, firstLine?_lines_nil, Option.or_none]

end Text

namespace Output

variable {o : Output}

/-- The lines of the standard output, then those of the standard error. -/
def lines (o : Output) : List (List Char) :=
  Text.lines (Text.decodeLossy o.stdout).toList ++ Text.lines (Text.decodeLossy o.stderr).toList

theorem firstLine?_text (o : Output) :
    Text.firstLine? (Text.lines o.text.toList) = Text.firstLine? o.lines := by
  unfold text combine lines
  generalize Text.decodeLossy o.stdout = out
  generalize Text.decodeLossy o.stderr = err
  dsimp only
  split
  · rw [String.toList_append, String.toList_append, List.append_assoc]
    exact congrArg Text.firstLine? (Text.lines_append_lineFeed out.toList err.toList)
  · next h =>
    rw [String.toList_append]
    by_cases hout : out = ""
    · subst hout
      rw [Text.firstLine?_append]
      rfl
    by_cases herr : err = ""
    · subst herr
      rw [Text.firstLine?_append]
      have hnone : Text.firstLine? (Text.lines "".toList) = none := rfl
      rw [hnone, Option.or_none]
      exact congrArg (fun s => Text.firstLine? (Text.lines s)) (List.append_nil _)
    · have hlast : out.toList.getLast? = some '\n' := by
        by_contra hlast
        exact h ⟨hout, herr, hlast⟩
      exact Text.firstLine?_lines_append hlast

def ending (o : Output) : String :=
  match o.code with
  | some n => "compiler exited with status " ++ n.repr
  | none => "compiler terminated by signal"

theorem failureMessage_eq (o : Output) :
    o.failureMessage = match Text.firstLine? o.lines with
      | some line => o.ending ++ " (" ++ String.ofList (Text.trim line) ++ ")"
      | none => o.ending := by
  rw [← firstLine?_text, failureMessage]
  unfold firstLine? Text.firstLine? ending
  cases (Text.lines o.text.toList).find? fun l => !l.all Text.isBlank <;> rfl

end Output

namespace ParallelQueue

variable {q : ParallelQueue} {i : Invocation} {r : Except IoError Output}

/-- The process was started and has exited with status zero. -/
def Succeeded : Except IoError Output → Prop
  | .ok o => o.code = some 0
  | .error _ => False

instance : DecidablePred Succeeded
  | .ok o => inferInstanceAs (Decidable (o.code = some 0))
  | .error _ => inferInstanceAs (Decidable False)

/-- What is told of an invocation that has not succeeded. -/
def failureText (program : Path) : Except IoError Output → String
  | .ok o =>
    match Text.firstLine? o.lines with
    | some line => o.ending ++ " (" ++ String.ofList (Text.trim line) ++ ")"
    | none => o.ending
  | .error e => "failed to spawn `" ++ program.text ++ "`: " ++ e.message

/-- What an invocation has printed, or why it was not started. -/
def shownText (program : Path) : Except IoError Output → String
  | .ok o => Output.combine o.stdout o.stderr
  | .error e => "failed to spawn `" ++ program.text ++ "`: " ++ e.message

theorem spawnFailure_message (program : Path) (e : IoError) :
    (spawnFailure program e).message =
      "failed to spawn `" ++ program.text ++ "`: " ++ e.message := by
  have hcolon : "`: " = "`" ++ ": " := rfl
  rw [hcolon, ← String.append_assoc]
  exact String.intercalate_cons_cons

theorem outcome_eq (q : ParallelQueue) (i : Invocation) (r : Except IoError Output) :
    q.outcome i r = (⟨i.name, shownText q.compiler r, decide (Succeeded r)⟩,
      if Succeeded r then none else some ⟨i.name, failureText q.compiler r⟩) := by
  cases r with
  | error e =>
    rw [outcome, spawnFailure_message, if_neg (id : ¬ Succeeded (.error e)),
      decide_eq_false (id : ¬ Succeeded (.error e))]
    rfl
  | ok o =>
    by_cases ho : Succeeded (.ok o)
    · have hsuccess : o.isSuccess = true := beq_iff_eq.2 ho
      rw [outcome, if_pos hsuccess, if_pos ho, decide_eq_true ho]
      rfl
    · have hfailure : ¬ o.isSuccess = true := fun h => ho (beq_iff_eq.1 h)
      rw [outcome, if_neg hfailure, if_neg ho, decide_eq_false ho, Output.failureMessage_eq]
      rfl

end ParallelQueue

end CompileDriver
