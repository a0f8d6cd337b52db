import CompileDriver.Text.Basic
import CompileDriver.Text.Reader

/-! # Tokens of shell scripts

A script is read into words, operators and redirections. A word remembers which of its
characters are quoted and where parameters are to be put in.
-/

namespace CompileDriver.Script

open Text Text.Reader

inductive Piece where
  | char (c : Char) (isQuoted : Bool)
  /-- A pair of quotes, which makes a word even if nothing is between them. -/
  | quotes
  | parameter (name : String) (isQuoted : Bool)
deriving DecidableEq, Repr

abbrev Word := List Piece

/-- What is done with an open file. -/
inductive Direction where
  | output
  | append
  | input
  | copy
deriving DecidableEq, Repr

inductive Token where
  | word (w : Word)
  | operator (s : String)
  | redirection (stream : Option Nat) (d : Direction)
deriving DecidableEq, Repr

def isNameStart (c : Char) : Bool := c.isAlpha || c == '_'

def isNameChar (c : Char) : Bool := c.isAlphanum || c == '_'

def parameterName : Reader String
  | [] => none
  | c :: s =>
    if c = Char.ofNat 0x7B then
      let (name, s) := takeWhile (· != Char.ofNat 0x7D) s
      (word [Char.ofNat 0x7D] s).map fun (_, s) => (String.ofList name, s)
    else if c.isDigit ∨ "@*#?$!-".toList.contains c then some (String.singleton c, s)
    else if isNameStart c then
      let (name, s) := takeWhile isNameChar (c :: s)
      some (String.ofList name, s)
    else none

/-- A dollar sign with the parameter after it, or by itself. -/
def dollar (isQuoted : Bool) (s : List Char) : Piece × List Char :=
  match parameterName s with
  | some (name, s) => (.parameter name isQuoted, s)
  | none => (.char '$' isQuoted, s)

def innerPiece : Reader (List Piece)
  | '"' :: _ => none
  | '\\' :: '\n' :: s => some ([], s)
  | '\\' :: c :: s =>
    if c = '"' ∨ c = '\\' ∨ c = '$' ∨ c.toNat = 0x60 then some ([.char c true], s)
    else some ([.char '\\' true, .char c true], s)
  | '$' :: s => some ([(dollar true s).1], (dollar true s).2)
  | c :: s => some ([.char c true], s)
  | [] => none

def isBreak (c : Char) : Bool := " \t\n;&|()<>".toList.contains c

def piece : Reader (List Piece)
  | '\'' :: s => do
    let (inner, s) := takeWhile (· != '\'') s
    let ((), s) ← word ['\''] s
    some (.quotes :: inner.map (.char · true), s)
  | '"' :: s => do
    let (inner, s) := many innerPiece s
    let ((), s) ← word ['"'] s
    some (.quotes :: inner.flatten, s)
  | '\\' :: '\n' :: s => some ([], s)
  | '\\' :: c :: s => some ([.char c true], s)
  | '$' :: s => some ([(dollar false s).1], (dollar false s).2)
  | c :: s => if isBreak c then none else some ([.char c false], s)
  | [] => none

def direction : Reader Direction
  | '>' :: '>' :: s => some (.append, s)
  | '>' :: '&' :: s => some (.copy, s)
  | '>' :: s => some (.output, s)
  | '<' :: s => some (.input, s)
  | _ => none

def operators : List String := ["&&", "||", ";;", ";", "(", ")", "|", "&", "\n"]

def operator (s : List Char) : Option (Token × List Char) :=
  operators.findSome? fun o => (word o.toList s).map fun (_, s) => (.operator o, s)

def redirection (s : List Char) : Option (Token × List Char) :=
  let (digits, rest) := takeWhile Char.isDigit s
  (direction rest).map fun (d, rest) =>
    (.redirection (natural? digits) d, rest)

/-- Skip blanks, continued lines and a comment. -/
def skipBlanks : List Char → List Char
  | '\\' :: '\n' :: s => skipBlanks s
  | ' ' :: s => skipBlanks s
  | '\t' :: s => skipBlanks s
  | '#' :: s => s.dropWhile (· != '\n')
  | s => s

def token (s : List Char) : Option (Token × List Char) :=
  redirection s <|> operator s <|>
    match many piece s with
    | ([], _) => none
    | (ps, s) => some (.word ps.flatten, s)

def tokens? (s : List Char) : Option (List Token) :=
  match many (fun s => (token s).map fun (t, s) => (t, skipBlanks s)) (skipBlanks s) with
  | (ts, []) => some ts
  | _ => none

end CompileDriver.Script
