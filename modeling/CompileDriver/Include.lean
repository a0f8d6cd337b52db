import CompileDriver.FileSystem.Files

/-! # Include directives

The headers that a source names in its `#include` and `#import` lines, in their order. A line
counts whatever follows its header; macros and conditionals are not looked at.
-/

namespace CompileDriver.Include

/-! ## Removal of comments

Block comments are removed first, each leaving its line feeds, and then whatever stands from
two slashes to the end of a line. A block comment that is not closed stays.
-/

def isClosed : List Char → Bool
  | '*' :: '/' :: _ => true
  | _ :: s => isClosed s
  | [] => false

/-- Remove the block comments; `inside` tells whether one is open, and then it will be closed. -/
def removeBlocks : (inside : Bool) → List Char → List Char
  | _, [] => []
  | false, '/' :: '*' :: s => if isClosed s then removeBlocks true s else '/' :: '*' :: s
  | false, c :: s => c :: removeBlocks false s
  | true, '*' :: '/' :: s => removeBlocks false s
  | true, c :: s => if c = '\n' then c :: removeBlocks true s else removeBlocks true s

/-- Remove the line comments; `inside` tells whether one is open. -/
def removeLineComments : (inside : Bool) → List Char → List Char
  | _, [] => []
  | false, '/' :: '/' :: s => removeLineComments true s
  | false, c :: s => c :: removeLineComments false s
  | true, c :: s => if c = '\n' then c :: removeLineComments false s else removeLineComments true s

/-- The text that is searched for directives. -/
def withoutComments (s : List Char) : List Char := removeLineComments false (removeBlocks false s)

/-! ## Include directives -/

def skipSpaces (s : List Char) : List Char := s.dropWhile fun c => c == ' ' || c == '\t'

def after? : List Char → List Char → Option (List Char)
  | [], s => some s
  | _ :: _, [] => none
  | w :: word, c :: s => if w = c then after? word s else none

/-- The header before the delimiter `close`; it may not be empty. -/
def header? (close : Char) (s : List Char) : Option String :=
  match Text.cutAt close s with
  | some (h, _) => if h = [] then none else some (String.ofList (Text.trim h))
  | none => none

/-- The header between double quotes or angle brackets at the start of a text. -/
def delimited? : List Char → Option String
  | '"' :: s => header? '"' s
  | '<' :: s => header? '>' s
  | _ => none

def directive? (line : List Char) : Option String := do
  let s ← after? ['#'] (skipSpaces line)
  let s := skipSpaces s
  let s ← after? "include".toList s <|> after? "import".toList s
  delimited? (skipSpaces s)

def scan (source : String) : List String :=
  (Text.lines (withoutComments source.toList)).filterMap directive?

def scanFile (p : Path) : Procedure (Except ReadFailure (List String)) :=
  (Procedure.readText p).andThen fun s => .done (.ok (scan s))

end CompileDriver.Include
