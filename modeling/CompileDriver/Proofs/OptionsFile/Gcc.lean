import CompileDriver.Proofs.OptionsFile.Reader

/-! # Options files by the rules of GCC

A character behind a backslash is taken as it is, in quotes and outside. Quotes of either kind
keep blanks and quotes of the other kind. What is written by these rules is what is read.
-/

namespace CompileDriver.OptionsFile.Gcc

def isSeparator (c : Char) : Bool := c = ' ' || ('\t' ≤ c && c ≤ '\r')

structure State where
  /-- The last character was a backslash that counts. -/
  escaped : Bool := false
  /-- The quote that has been opened. -/
  quote : Option Char := none
  /-- The argument so far, if one has begun. -/
  argument : Option (List Char) := none

namespace State

def begin (s : State) : State := { s with argument := some (s.argument.getD []) }

def take (s : State) (c : Char) : State :=
  { s with escaped := false, argument := some (s.argument.getD [] ++ [c]) }

end State

def step (s : State) (c : Char) : State × Option (List Char) :=
  if s.escaped then (s.take c, none)
  else if c = '\\' then ({ s.begin with escaped := true }, none)
  else match s.quote with
    | some q => if c = q then ({ s with quote := none }, none) else (s.take c, none)
    | none =>
      if c = '"' ∨ c = '\'' then ({ s.begin with quote := some c }, none)
      else if isSeparator c then ({}, s.argument)
      else (s.take c, none)

def reader : ArgumentReader State where
  start := {}
  step := step
  finish := State.argument

theorem isBlank_of_isSeparator {c : Char} (h : isSeparator c = true) : Text.isBlank c = true := by
  simp only [isSeparator, Bool.or_eq_true, decide_eq_true_eq, Bool.and_eq_true] at h
  rcases h with rfl | ⟨hlow, hhigh⟩
  · rfl
  · have hlow : 9 ≤ c.toNat := hlow
    have hhigh : c.toNat ≤ 13 := hhigh
    simp [Text.isBlank, hlow, hhigh]

theorem step_of_not_isSpecial (a : Option (List Char)) {c : Char}
    (hc : Quoting.gcc.isSpecial c = false) :
    reader.step { argument := a } c = ({ argument := some (a.getD [] ++ [c]) }, none) := by
  simp only [Quoting.isSpecial, Bool.or_eq_false_iff, beq_eq_false_iff_ne] at hc
  obtain ⟨⟨⟨hblank, hdouble⟩, hsingle⟩, hslash⟩ := hc
  have hsep : ¬ isSeparator c = true := fun h => by
    simp [isBlank_of_isSeparator h] at hblank
  simp [reader, step, State.take, hslash, hdouble, hsingle, hsep]

theorem read_plain {s : List Char} (hs : ∀ c ∈ s, Quoting.gcc.isSpecial c = false)
    (a text : List Char) :
    reader.read { argument := some a } (s ++ text) =
      reader.read { argument := some (a ++ s) } text := by
  induction s generalizing a with
  | nil => simp
  | cons c s ih =>
    have hc := step_of_not_isSpecial (some a) (hs c List.mem_cons_self)
    rw [List.cons_append, ArgumentReader.read_of_step hc, Option.getD_some,
      ih (fun d hd => hs d (List.mem_cons_of_mem c hd)), List.append_assoc, List.singleton_append]

/-- Between double quotes the escaped text is read as what it stands for. -/
theorem read_escape (s a text : List Char) :
    reader.read { quote := some '"', argument := some a } (Quoting.escape s ++ text) =
      reader.read { quote := some '"', argument := some (a ++ s) } text := by
  induction s generalizing a with
  | nil => simp [Quoting.escape]
  | cons c s ih =>
    have htake : reader.read { quote := some '"', argument := some (a ++ [c]) }
        (Quoting.escape s ++ text) =
        reader.read { quote := some '"', argument := some (a ++ c :: s) } text := by
      rw [ih, List.append_assoc, List.singleton_append]
    by_cases hc : c = '"' ∨ c = '\\'
    · rw [Quoting.escape, if_pos hc, List.cons_append, List.cons_append,
        ArgumentReader.read_of_step (t := ⟨true, some '"', some a⟩) rfl,
        ArgumentReader.read_of_step (t := ⟨false, some '"', some (a ++ [c])⟩) rfl, htake]
    · have hstep : reader.step { quote := some '"', argument := some a } c =
          ({ quote := some '"', argument := some (a ++ [c]) }, none) := by
        rw [not_or] at hc
        simp [reader, step, hc.1, hc.2, State.take]
      rw [Quoting.escape, if_neg hc, List.cons_append, ArgumentReader.read_of_step hstep, htake]

theorem read_quoteChars (arg text : List Char) :
    reader.read reader.start (Quoting.gcc.quoteChars arg ++ '\n' :: text) =
      arg :: reader.read reader.start text := by
  by_cases h : arg = [] ∨ arg.any Quoting.gcc.isSpecial
  · rw [Quoting.quoteChars, if_pos h, Quoting.escaped, List.cons_append, List.cons_append,
      ArgumentReader.read_of_step (t := { quote := some '"', argument := some [] }) rfl,
      List.append_assoc, read_escape, List.singleton_append,
      ArgumentReader.read_of_step (t := { argument := some ([] ++ arg) }) rfl]
    exact ArgumentReader.read_of_step_some rfl text
  · rw [Quoting.quoteChars, if_neg h]
    rw [not_or] at h
    obtain ⟨hne, hplain⟩ := h
    have hplain : ∀ c ∈ arg, Quoting.gcc.isSpecial c = false := by simpa using hplain
    cases arg with
    | nil => exact absurd rfl hne
    | cons c arg =>
      have hc := step_of_not_isSpecial none (hplain c List.mem_cons_self)
      rw [List.cons_append, ArgumentReader.read_of_step (s := reader.start) hc,
        read_plain (fun d hd => hplain d (List.mem_cons_of_mem c hd))]
      exact ArgumentReader.read_of_step_some rfl text

theorem reads : reader.Reads .gcc where
  finish_start := rfl
  read_line := read_quoteChars

/-- An options file by the rules of GCC is read as the arguments it was written for. -/
theorem arguments_contents_gcc (args : List String) :
    reader.arguments (contents .gcc args) = args ∧
      ∀ (h : Host) (w w' : World) (cwd tempDir p : Path),
        (write cwd .gcc args tempDir).run h w = (.ok p, w') →
          w'.files.read h.directory p = .ok (contents .gcc args).toUTF8 :=
  ⟨reads.arguments_contents args,
    fun _ _ _ _ _ _ hw => (run_write_eq_ok hw).2.2⟩

/-- Blanks, a line feed, quotes of both kinds, backslashes, and an empty argument. -/
theorem arguments_contents_gcc_special :
    let args := ["-c", "", "-DX=\"it's\"", "C:\\a b\\", "\n\u2003'"]
    let text := "-c\n\"\"\n\"-DX=\\\"it's\\\"\"\n\"C:\\\\a b\\\\\"\n\"\n\u2003'\"\n"
    reader.arguments text = args ∧
      ∃ w', (write ⟨"/"⟩ .gcc args ⟨"/t"⟩).run ⟨[], fun _ fs => (.error .notFound, fs)⟩
          { files := .empty } = (.ok ⟨"/t/options.txt"⟩, w') ∧
        w'.files.read [] ⟨"/t/options.txt"⟩ = .ok text.toUTF8 := by
  intro args text
  have htext : contents .gcc args = text := by decide +kernel
  have hw := Procedure.run_eq_ok_of_toOption (p := write ⟨"/"⟩ .gcc args ⟨"/t"⟩)
    (a := ⟨"/t/options.txt"⟩) (h := ⟨[], fun _ fs => (.error .notFound, fs)⟩)
    (w := { files := .empty }) (by decide +kernel)
  obtain ⟨hread, hfile⟩ := arguments_contents_gcc args
  rw [htext] at hread
  exact ⟨hread, _, hw, htext ▸ hfile _ _ _ _ _ _ hw⟩

example : reader.arguments " a\\ b'\"c' \"d\\\"\te'\"\r\n''f\\" = ["a b\"c", "d\"\te'", "f"] := by
  decide +kernel

end CompileDriver.OptionsFile.Gcc
