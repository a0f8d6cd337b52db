/-! # Readers

A reader takes something from the start of a text and returns it with the rest, or refuses.
-/

namespace CompileDriver.Text

/-- What is read, with the rest of the text. -/
abbrev Reader (α : Type) := List Char → Option (α × List Char)

namespace Reader

variable {α β : Type}

/-- Read as often as possible, at most `n` times. -/
def upTo (item : Reader α) : Nat → List Char → List α × List Char
  | 0, s => ([], s)
  | n + 1, s =>
    match item s with
    | some (a, s) =>
      let (as, s) := upTo item n s
      (a :: as, s)
    | none => ([], s)

def many (item : Reader α) (s : List Char) : List α × List Char := upTo item s.length s

def takeWhile (p : Char → Bool) (s : List Char) : List Char × List Char :=
  (s.takeWhile p, s.dropWhile p)

def one (p : Char → Bool) : Reader Char
  | c :: s => if p c then some (c, s) else none
  | [] => none

def word : List Char → Reader Unit
  | [], s => some ((), s)
  | c :: w, d :: s => if c = d then word w s else none
  | _ :: _, [] => none

def exactly (p : Char → Bool) : Nat → Reader (List Char)
  | 0, s => some ([], s)
  | n + 1, s => do
    let (c, s) ← one p s
    let (cs, s) ← exactly p n s
    some (c :: cs, s)

/-- Items with separators between them, at most `n`; a separator that no item follows is left. -/
def separatedUpTo (separator : Reader Unit) (item : Reader α) : Nat → List Char →
    List α × List Char
  | 0, s => ([], s)
  | n + 1, s =>
    match item s with
    | none => ([], s)
    | some (a, s) =>
      match separator s with
      | none => ([a], s)
      | some ((), r) =>
        match separatedUpTo separator item n r with
        | ([], _) => ([a], s)
        | (as, r) => (a :: as, r)

def separated (separator : Reader Unit) (item : Reader α) (s : List Char) : List α × List Char :=
  separatedUpTo separator item (s.length + 1) s

def taken (s rest : List Char) : String := String.ofList (s.take (s.length - rest.length))

end Reader

end CompileDriver.Text
