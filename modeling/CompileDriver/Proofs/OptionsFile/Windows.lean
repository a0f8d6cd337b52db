import CompileDriver.Proofs.OptionsFile.Reader

/-! # Options files by the rules of Windows

Backslashes before a double quote count in pairs, and an odd one makes the quote literal; all
other backslashes are literal. What is written by these rules is what is read.
-/

namespace CompileDriver.OptionsFile.Windows

def isSeparator (c : Char) : Bool := c = ' ' || c = '\t' || c = '\r' || c = '\n'

structure State where
  /-- How many backslashes have just been read, whose meaning is still open. -/
  backslashes : Nat := 0
  quoted : Bool := false
  /-- The argument so far without these backslashes, if one has begun. -/
  argument : Option (List Char) := none

namespace State

/-- The argument so far, when as many backslashes are added to it. -/
def argumentWith (s : State) (backslashes : Nat) : List Char :=
  s.argument.getD [] ++ List.replicate backslashes '\\'

/-- The argument that ends here. Open backslashes are literal. -/
def finish (s : State) : Option (List Char) :=
  s.argument.map fun _ => s.argumentWith s.backslashes

end State

def step (s : State) (c : Char) : State × Option (List Char) :=
  if c = '\\' then
    ({ s with backslashes := s.backslashes + 1, argument := some (s.argumentWith 0) }, none)
  else if c = '"' then
    let a := s.argumentWith (s.backslashes / 2)
    if s.backslashes % 2 = 0 then (⟨0, !s.quoted, some a⟩, none)
    else (⟨0, s.quoted, some (a ++ ['"'])⟩, none)
  else if !s.quoted && isSeparator c then ({}, s.finish)
  else (⟨0, s.quoted, some (s.argumentWith s.backslashes ++ [c])⟩, none)

def reader : ArgumentReader State where
  start := {}
  step := step
  finish := State.finish

variable {a text : List Char} {q : Bool} {n : Nat}

theorem step_backslash :
    reader.step ⟨n, q, some a⟩ '\\' = (⟨n + 1, q, some a⟩, none) := by
  simp [reader, step, State.argumentWith]

theorem read_backslashes (m : Nat) :
    reader.read ⟨m, q, some a⟩ (List.replicate n '\\' ++ text) =
      reader.read ⟨m + n, q, some a⟩ text := by
  induction n generalizing m with
  | zero => rfl
  | succ n ih =>
    rw [List.replicate_succ, List.cons_append, ArgumentReader.read_of_step step_backslash, ih,
      Nat.add_right_comm, Nat.add_assoc]

theorem read_even_quote :
    reader.read ⟨0, q, some a⟩ (List.replicate (2 * n) '\\' ++ '"' :: text) =
      reader.read ⟨0, !q, some (a ++ List.replicate n '\\')⟩ text := by
  have hstep : reader.step ⟨2 * n, q, some a⟩ '"' =
      (⟨0, !q, some (a ++ List.replicate n '\\')⟩, none) := by
    simp [reader, step, State.argumentWith]
  rw [read_backslashes, Nat.zero_add, ArgumentReader.read_of_step hstep]

theorem read_odd_quote :
    reader.read ⟨0, q, some a⟩ (List.replicate (2 * n + 1) '\\' ++ '"' :: text) =
      reader.read ⟨0, q, some (a ++ List.replicate n '\\' ++ ['"'])⟩ text := by
  have hstep : reader.step ⟨2 * n + 1, q, some a⟩ '"' =
      (⟨0, q, some (a ++ List.replicate n '\\' ++ ['"'])⟩, none) := by
    have hhalf : (2 * n + 1) / 2 = n := by omega
    simp [reader, step, State.argumentWith, hhalf]
  rw [read_backslashes, Nat.zero_add, ArgumentReader.read_of_step hstep]

theorem step_literal {c : Char} (hslash : c ≠ '\\') (hquote : c ≠ '"')
    (hsep : q = true ∨ isSeparator c = false) (a : Option (List Char)) :
    reader.step ⟨n, q, a⟩ c =
      (⟨0, q, some (a.getD [] ++ List.replicate n '\\' ++ [c])⟩, none) := by
  rcases hsep with rfl | hsep <;> simp [reader, step, State.argumentWith, *]

theorem step_lineFeed :
    reader.step ⟨n, false, some a⟩ '\n' = (reader.start, some (a ++ List.replicate n '\\')) := by
  simp [reader, step, isSeparator, State.finish, State.argumentWith]

/-- Between double quotes the escaped text is read as what it stands for. -/
theorem read_escapeRuns (s : List Char) :
    reader.read ⟨0, true, some a⟩ (Quoting.escapeRuns n s ++ '"' :: text) =
      reader.read ⟨0, false, some (a ++ List.replicate n '\\' ++ s)⟩ text := by
  induction s generalizing n a with
  | nil => rw [Quoting.escapeRuns, read_even_quote, List.append_nil, Bool.not_true]
  | cons c s ih =>
    by_cases hslash : c = '\\'
    · rw [Quoting.escapeRuns, if_pos hslash, ih, List.replicate_succ', hslash]
      simp
    by_cases hquote : c = '"'
    · rw [Quoting.escapeRuns, if_neg hslash, if_pos hquote, List.append_assoc, List.cons_append,
        read_odd_quote, ih, hquote]
      simp
    · have hstep := step_literal (n := n) hslash hquote (Or.inl rfl) (some a)
      rw [Quoting.escapeRuns, if_neg hslash, if_neg hquote, List.append_assoc, read_backslashes,
        Nat.zero_add, List.cons_append, ArgumentReader.read_of_step hstep, ih]
      simp

theorem not_isSeparator_of_not_isSpecial {c : Char} (h : Quoting.windows.isSpecial c = false) :
    c ≠ '"' ∧ isSeparator c = false := by
  refine ⟨?_, Bool.eq_false_iff.2 fun hsep => ?_⟩
  · rintro rfl
    simp [Quoting.isSpecial] at h
  · simp only [isSeparator, Bool.or_eq_true, decide_eq_true_eq] at hsep
    rcases hsep with ((rfl | rfl) | rfl) | rfl <;> simp [Quoting.isSpecial, Text.isBlank] at h

/-- An argument without special characters is read up to the end of its line, and backslashes at
its end are literal. -/
theorem read_plain {s : List Char} (hs : ∀ c ∈ s, Quoting.windows.isSpecial c = false) :
    reader.read ⟨n, false, some a⟩ (s ++ '\n' :: text) =
      (a ++ List.replicate n '\\' ++ s) :: reader.read reader.start text := by
  induction s generalizing n a with
  | nil =>
    rw [List.append_nil, List.nil_append, ArgumentReader.read_of_step_some step_lineFeed]
  | cons c s ih =>
    have hs' : ∀ d ∈ s, Quoting.windows.isSpecial d = false :=
      fun d hd => hs d (List.mem_cons_of_mem c hd)
    by_cases hslash : c = '\\'
    · rw [List.cons_append, hslash, ArgumentReader.read_of_step step_backslash, ih hs',
        List.replicate_succ']
      simp
    · obtain ⟨hquote, hsep⟩ := not_isSeparator_of_not_isSpecial (hs c List.mem_cons_self)
      have hstep := step_literal (n := n) (q := false) hslash hquote (Or.inr hsep) (some a)
      rw [List.cons_append, ArgumentReader.read_of_step hstep, ih hs']
      simp

theorem read_quoteChars (arg text : List Char) :
    reader.read reader.start (Quoting.windows.quoteChars arg ++ '\n' :: text) =
      arg :: reader.read reader.start text := by
  by_cases h : arg = [] ∨ arg.any Quoting.windows.isSpecial
  · rw [Quoting.quoteChars, if_pos h, Quoting.escaped, List.cons_append, List.cons_append,
      ArgumentReader.read_of_step (t := ⟨0, true, some []⟩) rfl, List.append_assoc,
      List.singleton_append, read_escapeRuns, ArgumentReader.read_of_step_some step_lineFeed]
    simp
  · rw [Quoting.quoteChars, if_neg h]
    rw [not_or] at h
    obtain ⟨hne, hplain⟩ := h
    have hplain : ∀ c ∈ arg, Quoting.windows.isSpecial c = false := by simpa using hplain
    cases arg with
    | nil => exact absurd rfl hne
    | cons c arg =>
      -- the first character begins the argument
      have hfirst : reader.step reader.start c = reader.step ⟨0, false, some []⟩ c := by
        obtain ⟨hquote, hsep⟩ := not_isSeparator_of_not_isSpecial (hplain c List.mem_cons_self)
        simp [reader, step, State.argumentWith, hquote, hsep]
      have hread : reader.read reader.start ((c :: arg) ++ '\n' :: text) =
          reader.read ⟨0, false, some []⟩ ((c :: arg) ++ '\n' :: text) := by
        simp only [List.cons_append, ArgumentReader.read, hfirst]
      rw [hread, read_plain hplain]
      simp

theorem reads : reader.Reads .windows where
  finish_start := rfl
  read_line := read_quoteChars

/-- An options file by the rules of Windows is read as the arguments it was written for. -/
theorem arguments_contents_windows (args : List String) :
    reader.arguments (contents .windows args) = args ∧
      ∀ (h : Host) (w w' : World) (cwd tempDir p : Path),
        (write cwd .windows args tempDir).run h w = (.ok p, w') →
          w'.files.read h.directory p = .ok (contents .windows args).toUTF8 :=
  ⟨reads.arguments_contents args,
    fun _ _ _ _ _ _ hw => (run_write_eq_ok hw).2.2⟩

/-- Backslashes at the end of a line, before quotes and before other characters. -/
theorem arguments_contents_windows_special :
    let args := ["C:\\", "", "\\a b\\\\", "\\\"", "\t\n"]
    let text := "C:\\\n\"\"\n\"\\a b\\\\\\\\\"\n\"\\\\\\\"\"\n\"\t\n\"\n"
    reader.arguments text = args ∧
      ∃ w', (write ⟨"/"⟩ .windows args ⟨"/t"⟩).run ⟨[], fun _ fs => (.error .notFound, fs)⟩
          { files := .empty } = (.ok ⟨"/t/options.txt"⟩, w') ∧
        w'.files.read [] ⟨"/t/options.txt"⟩ = .ok text.toUTF8 := by
  intro args text
  have htext : contents .windows args = text := by decide +kernel
  have hw := Procedure.run_eq_ok_of_toOption (p := write ⟨"/"⟩ .windows args ⟨"/t"⟩)
    (a := ⟨"/t/options.txt"⟩) (h := ⟨[], fun _ fs => (.error .notFound, fs)⟩)
    (w := { files := .empty }) (by decide +kernel)
  obtain ⟨hread, hfile⟩ := arguments_contents_windows args
  rw [htext] at hread
  exact ⟨hread, _, hw, htext ▸ hfile _ _ _ _ _ _ hw⟩

example : reader.arguments "a\\\\\"b c\\d\\\" e\" \"\"\tf\\\\" =
    ["a\\b c\\d\" e", "", "f\\\\"] := by
  decide +kernel

end CompileDriver.OptionsFile.Windows
