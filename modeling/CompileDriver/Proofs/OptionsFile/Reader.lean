import CompileDriver.OptionsFile
import CompileDriver.Proofs.FileSystem.Directories

/-! # Options files on disk

Writing an options file changes nothing but files. One that has been written lies where its
location says, and there the arguments can be read.
-/

namespace CompileDriver

namespace OptionsFile

open Procedure

variable {h : Host} {w w' : World} {cwd p tempDir : Path} {q : Quoting} {args : List String}

theorem callsOnly_write_of {P : Call → Prop}
    (hdir : ∀ p ∈ tempDir :: tempDir.parents, P (.status p) ∧ P (.makeDirectory p))
    (hcreate : P (.create (location cwd tempDir)))
    (hwrite : ∀ data, P (.write (location cwd tempDir) data)) :
    (write cwd q args tempDir).CallsOnly P :=
  (callsOnly_createDirectories_of hdir).andThen fun _ =>
    (callsOnly_writeFile_of hcreate (hwrite _)).andThen fun _ => trivial

theorem callsOnly_write : (write cwd q args tempDir).CallsOnly Call.IsFile :=
  callsOnly_write_of (fun _ _ => ⟨trivial, trivial⟩) trivial fun _ => trivial

theorem run_write_eq_ok (hw : (write cwd q args tempDir).run h w = (.ok p, w')) :
    p = location cwd tempDir ∧ w'.notices = w.notices ∧
      w'.files.read h.directory p = .ok (contents q args).toUTF8 := by
  have hcalls : (write cwd q args tempDir).CallsOnly Call.IsFile := callsOnly_write
  have hnotices := hcalls.run_notices (h := h) w
  rw [hw] at hnotices
  obtain ⟨_, v, -, hw⟩ := run_andThen_eq_ok.1 hw
  obtain ⟨_, v', hwrite, hw⟩ := run_andThen_eq_ok.1 hw
  cases hw
  exact ⟨rfl, hnotices, read_of_run_writeFile hwrite⟩

end OptionsFile

/-! ## Readers of options files

A reader takes an options file apart into arguments, one character at a time. A file that holds
quoted arguments, one a line, is read back if every line is, whatever comes after it.
-/

/-- A machine that takes a text apart into arguments. Its states have type `σ`. -/
structure ArgumentReader (σ : Type) where
  start : σ
  /-- The state after a character, and the argument that the character ends. -/
  step : σ → Char → σ × Option (List Char)
  /-- The argument that the end of the text ends. -/
  finish : σ → Option (List Char)

namespace ArgumentReader

variable {σ : Type} (r : ArgumentReader σ)

def read (s : σ) : List Char → List (List Char)
  | [] => (r.finish s).toList
  | c :: text => (r.step s c).2.toList ++ read (r.step s c).1 text

def arguments (text : String) : List String :=
  (r.read r.start text.toList).map String.ofList

/-- The reader takes back each line that is written by the rules `q`, whatever comes after it. -/
structure Reads (q : Quoting) : Prop where
  finish_start : r.finish r.start = none
  read_line (arg text : List Char) :
    r.read r.start (q.quoteChars arg ++ '\n' :: text) = arg :: r.read r.start text

variable {r}

theorem read_of_step {s t : σ} {c : Char} (h : r.step s c = (t, none)) (text : List Char) :
    r.read s (c :: text) = r.read t text := by
  simp [read, h]

theorem read_of_step_some {s t : σ} {c : Char} {a : List Char} (h : r.step s c = (t, some a))
    (text : List Char) : r.read s (c :: text) = a :: r.read t text := by
  simp [read, h]

theorem toList_contents (q : Quoting) (args : List String) :
    (OptionsFile.contents q args).toList =
      args.flatMap fun a => q.quoteChars a.toList ++ ['\n'] := by
  simp [OptionsFile.contents, String.toList_join, List.flatMap_map, Quoting.quote]

/-- A reader that takes back each line takes back the whole file. -/
theorem Reads.arguments_contents {q : Quoting} (hr : r.Reads q) (args : List String) :
    r.arguments (OptionsFile.contents q args) = args := by
  rw [arguments, toList_contents]
  induction args with
  | nil => simp [read, hr.finish_start]
  | cons a args ih =>
    rw [List.flatMap_cons, List.append_assoc, List.singleton_append, hr.read_line, List.map_cons,
      ih, String.ofList_toList]

end ArgumentReader

end CompileDriver
