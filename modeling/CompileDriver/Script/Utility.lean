import CompileDriver.FileSystem.Walk
import CompileDriver.Text.Basic
import CompileDriver.Text.Reader

/-! # Utilities for scripts

What `echo`, `printf` and `test` do with their arguments. Texts are written as UTF-8; an escape
sequence can stand for any byte.
-/

namespace CompileDriver.Script

open Text Text.Reader

def joinBytes (parts : List ByteArray) : ByteArray := parts.foldl (· ++ ·) .empty

def byte (n : Nat) : ByteArray := ⟨#[n.toUInt8]⟩

/-- The byte that a letter after a backslash stands for. -/
def letterByte? : Char → Option Nat
  | 'a' => some 7
  | 'b' => some 8
  | 't' => some 9
  | 'n' => some 10
  | 'v' => some 11
  | 'f' => some 12
  | 'r' => some 13
  | '\\' => some 92
  | _ => none

def octal (s : List Char) : Nat × List Char :=
  let digits := (s.take 3).takeWhile fun c => '0' ≤ c && c ≤ '7'
  (digits.foldl (fun n c => 8 * n + (c.toNat - '0'.toNat)) 0, s.drop digits.length)

def escaped (c : Char) : ByteArray :=
  match letterByte? c with
  | some n => byte n
  | none => ("\\" ++ String.singleton c).toUTF8

namespace Echo

def part : Reader ByteArray
  | '\\' :: '0' :: s => some (byte (octal s).1, (octal s).2)
  | '\\' :: 'c' :: _ => none
  | '\\' :: c :: s => some (escaped c, s)
  | c :: s => some ((String.singleton c).toUTF8, s)
  | [] => none

def expand (s : String) : ByteArray × Bool :=
  let (parts, rest) := many part s.toList
  (joinBytes parts, rest.isEmpty)

/-- What `echo` writes when it is a command of the shell. -/
def inShell (args : List String) : ByteArray :=
  let isOpen := args.head? == some "-n"
  let (text, isWhole) := expand (String.intercalate " " (if isOpen then args.tail else args))
  if isOpen || !isWhole then text else text ++ "\n".toUTF8

def isOption (arg : String) : Bool :=
  match arg.toList with
  | '-' :: c :: s => (c :: s).all "neE".toList.contains
  | _ => false

/-- What `echo` writes when it is a program. -/
def asProgram (args : List String) : ByteArray :=
  let options := (args.takeWhile isOption).flatMap String.toList
  let text := String.intercalate " " (args.dropWhile isOption)
  let (bytes, isWhole) :=
    if (options.filter "eE".toList.contains).getLast? = some 'e' then expand text
    else (text.toUTF8, true)
  if options.contains 'n' || !isWhole then bytes else bytes ++ "\n".toUTF8

end Echo

namespace Printf

inductive Part where
  | text (b : ByteArray)
  /-- A place for an argument. -/
  | field (kind : Char)

def part : Reader Part
  | '%' :: '%' :: s => some (.text "%".toUTF8, s)
  | '%' :: kind :: s => some (.field kind, s)
  | '\\' :: c :: s =>
    if '0' ≤ c ∧ c ≤ '7' then some (.text (byte (octal (c :: s)).1), (octal (c :: s)).2)
    else some (.text (escaped c), s)
  | c :: s => some (.text (String.singleton c).toUTF8, s)
  | [] => none

def field (kind : Char) (arg : String) : ByteArray :=
  if kind = 's' then arg.toUTF8
  else if kind = 'b' then (Echo.expand arg).1
  else if kind = 'c' then (String.ofList (arg.toList.take 1)).toUTF8
  else if kind = 'd' ∨ kind = 'i' ∨ kind = 'u' then (toString ((integer? arg.toList).getD 0)).toUTF8
  else .empty

/-- Put arguments into a format, as far as there are any; the rest of them is left. -/
def fill : List Part → List String → ByteArray × List String
  | [], args => (.empty, args)
  | .text b :: parts, args => (b ++ (fill parts args).1, (fill parts args).2)
  | .field kind :: parts, args =>
    (field kind (args.headD "") ++ (fill parts args.tail).1, (fill parts args.tail).2)

/-- Use a format until no arguments are left, at most `n` times more. -/
def repeated (parts : List Part) : (n : Nat) → List String → ByteArray
  | 0, args => (fill parts args).1
  | n + 1, args =>
    let (b, rest) := fill parts args
    if rest.isEmpty || rest.length == args.length then b else b ++ repeated parts n rest

def run (format : String) (args : List String) : ByteArray :=
  repeated (many part format.toList).1 args.length args

end Printf

namespace Test

/-- Whether a condition on one argument holds; none if there is no such condition. -/
def unary? (status : String → Option PathStatus) (operator arg : String) : Option Bool :=
  match operator with
  | "-n" => some (arg ≠ "")
  | "-z" => some (arg = "")
  | "-e" | "-r" | "-w" => some (status arg).isSome
  | "-f" => some (match status arg with | some (.file _) => true | _ => false)
  | "-d" => some (status arg = some .directory)
  | "-x" => some (match status arg with | some (.file executable) => executable | s => s.isSome)
  | _ => none

def binary? (a operator b : String) : Option Bool :=
  let numbers (p : Int → Int → Bool) : Option Bool := do
    some (p (← integer? a.toList) (← integer? b.toList))
  match operator with
  | "=" => some (a = b)
  | "!=" => some (a ≠ b)
  | "-eq" => numbers (· == ·)
  | "-ne" => numbers (· != ·)
  | "-lt" => numbers (· < ·)
  | "-le" => numbers (· ≤ ·)
  | "-gt" => numbers (· > ·)
  | "-ge" => numbers (· ≥ ·)
  | _ => none

/-- Whether the condition that the arguments of `test` make holds; none if they make no condition.
-/
def holds? (status : String → Option PathStatus) : List String → Option Bool
  | [] => some false
  | [a] => some (a ≠ "")
  | ["!", a] => some (a = "")
  | [o, a] => unary? status o a
  | ["!", o, a] => binary? "!" o a <|> (unary? status o a).map (!·)
  | [a, o, b] => binary? a o b
  | ["!", a, o, b] => (binary? a o b).map (!·)
  | _ => none

def statusOf : Option Bool → Nat
  | some true => 0
  | some false => 1
  | none => 2

end Test

end CompileDriver.Script
