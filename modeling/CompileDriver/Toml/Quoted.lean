import CompileDriver.Text.Reader

/-! # Gaps and strings in TOML

What stands between the values of a document, and the values that are strings.
-/

namespace CompileDriver.Toml

open Text Text.Reader

/-! ## Between the values of a TOML document

Blanks, comments and ends of lines.
-/

def skipBlanks (s : List Char) : List Char := s.dropWhile fun c => c == ' ' || c == '\t'

def newline : Reader Unit
  | '\n' :: s => some ((), s)
  | '\r' :: '\n' :: s => some ((), s)
  | _ => none

def isCommentChar (c : Char) : Bool := c == '\t' || (0x20 ≤ c.toNat && c.toNat ≤ 0x7F) || 0x80 ≤ c.toNat

def skipComment : List Char → List Char
  | '#' :: s => s.dropWhile isCommentChar
  | s => s

/-- Read what may follow on a line after its last value: blanks, a comment, and its end. -/
def lineEnd (s : List Char) : Option (List Char) :=
  match skipComment (skipBlanks s) with
  | [] => some []
  | s => (newline s).map (·.2)

def gapItem : Reader Unit
  | [] => none
  | c :: s =>
    if c = ' ' ∨ c = '\t' then some ((), s)
    else if c = '#' then newline (s.dropWhile isCommentChar)
    else newline (c :: s)

def skipGap (s : List Char) : List Char := (Reader.many gapItem s).2

/-! ## Strings in TOML

The four forms of strings: between double quotes, with escapes, and between single quotes,
without; each on one line or, between three quotes, on several.
-/

def isPlain (c : Char) : Bool :=
  c == '\t' || (0x20 ≤ c.toNat && c.toNat ≤ 0x7E && c != '"' && c != '\\') || 0x80 ≤ c.toNat

def isLiteral (c : Char) : Bool :=
  c == '\t' || (0x20 ≤ c.toNat && c.toNat ≤ 0x7E && c != '\'') || 0x80 ≤ c.toNat

def hexValue? (c : Char) : Option Nat :=
  if '0' ≤ c ∧ c ≤ '9' then some (c.toNat - '0'.toNat)
  else if 'a' ≤ c ∧ c ≤ 'f' then some (c.toNat - 'a'.toNat + 10)
  else if 'A' ≤ c ∧ c ≤ 'F' then some (c.toNat - 'A'.toNat + 10)
  else none

def valueInBase (base : Nat) (digits : List Char) : Nat :=
  digits.foldl (fun n c => n * base + (hexValue? c).getD 0) 0

def codePoint (n : Nat) (s : List Char) : Option (Char × List Char) := do
  let (digits, s) ← exactly (fun c => (hexValue? c).isSome) n s
  let value := valueInBase 16 digits
  if value.isValidChar then some (Char.ofNat value, s) else none

def escaped : Reader Char
  | 'b' :: s => some (Char.ofNat 0x08, s)
  | 'f' :: s => some (Char.ofNat 0x0C, s)
  | 'n' :: s => some ('\n', s)
  | 'r' :: s => some ('\r', s)
  | 't' :: s => some ('\t', s)
  | '"' :: s => some ('"', s)
  | '\\' :: s => some ('\\', s)
  | 'u' :: s => codePoint 4 s
  | 'U' :: s => codePoint 8 s
  | _ => none

def basicChar : Reader Char
  | '\\' :: s => escaped s
  | s => one isPlain s

/-- The end of a line in a string is a line feed. -/
def lineFeed (s : List Char) : Option (List Char × List Char) :=
  (newline s).map fun (_, s) => (['\n'], s)

def blankOrNewline (s : List Char) : Option (Unit × List Char) :=
  match s with
  | ' ' :: s | '\t' :: s => some ((), s)
  | s => newline s

/-- A backslash at the end of a line, with all blanks and ends of lines that follow. -/
def joinedLines : Reader (List Char)
  | '\\' :: s => do
    let ((), s) ← newline (skipBlanks s)
    some ([], (many blankOrNewline s).2)
  | _ => none

def innerQuotes (quote : Char) (s : List Char) : Option (List Char × List Char) :=
  let (quotes, rest) := takeWhile (· == quote) s
  if quotes.length = 1 ∨ quotes.length = 2 then some (quotes, rest) else none

/-- Three closing quotes, before which up to two may belong to the string. -/
def closingQuotes (quote : Char) (s : List Char) : Option (List Char × List Char) :=
  let (quotes, rest) := takeWhile (· == quote) s
  if 3 ≤ quotes.length ∧ quotes.length ≤ 5 then some (quotes.drop 3, rest) else none

def basicPart (s : List Char) : Option (List Char × List Char) :=
  joinedLines s <|> ((basicChar s).map fun (c, s) => ([c], s)) <|> lineFeed s <|> innerQuotes '"' s

def literalPart (s : List Char) : Option (List Char × List Char) :=
  ((one isLiteral s).map fun (c, s) => ([c], s)) <|> lineFeed s <|> innerQuotes '\'' s

/-- The rest of a string between three quotes. An end of line right at its start is left out. -/
def manyLines (part : Reader (List Char)) (quote : Char) (s : List Char) :
    Option (String × List Char) := do
  let s := ((newline s).map (·.2)).getD s
  let (parts, s) := many part s
  let (quotes, s) ← closingQuotes quote s
  some (String.ofList (parts.flatten ++ quotes), s)

def oneLine (char : Reader Char) (quote : Char) (s : List Char) : Option (String × List Char) := do
  let (cs, s) := many char s
  let ((), s) ← word [quote] s
  some (String.ofList cs, s)

/-- A string on one line, as it may also stand for a key. -/
def quotedLine : Reader String
  | '"' :: s => oneLine basicChar '"' s
  | '\'' :: s => oneLine (one isLiteral) '\'' s
  | _ => none

def quoted : Reader String
  | '"' :: '"' :: '"' :: s => manyLines basicPart '"' s
  | '\'' :: '\'' :: '\'' :: s => manyLines literalPart '\'' s
  | s => quotedLine s

end CompileDriver.Toml
