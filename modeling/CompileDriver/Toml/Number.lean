import CompileDriver.Toml.Quoted

/-! # Numbers, dates and times in TOML

Numbers are read within their bounds. Dates and times are checked against the calendar and kept as
they are written.
-/

namespace CompileDriver.Toml

open Text Text.Reader

/-! ## Numbers in TOML

Integers in four bases within 64 bits, and floating-point numbers, which are only checked and
not computed.
-/

/-- A digit, or an underscore and a digit. -/
def moreDigits (p : Char → Bool) : Reader Char
  | '_' :: s => one p s
  | s => one p s

def digits (p : Char → Bool) (s : List Char) : Option (List Char × List Char) := do
  let (c, s) ← one p s
  let (cs, s) := many (moreDigits p) s
  some (c :: cs, s)

def sign : List Char → Bool × List Char
  | '+' :: s => (false, s)
  | '-' :: s => (true, s)
  | s => (false, s)

/-- Decimal digits without zeros in front. -/
def decimal : Reader (List Char)
  | '0' :: s => some (['0'], s)
  | s => digits Char.isDigit s

/-- An integer is kept within 64 bits. -/
def inRange (n : Int) : Option Int :=
  if -9223372036854775808 ≤ n ∧ n < 9223372036854775808 then some n else none

def based (base : Nat) (p : Char → Bool) (s : List Char) : Option (Int × List Char) := do
  let (cs, s) ← digits p s
  some (← inRange (valueInBase base cs), s)

def integer : Reader Int
  | '0' :: 'x' :: s => based 16 (fun c => (hexValue? c).isSome) s
  | '0' :: 'o' :: s => based 8 (fun c => '0' ≤ c && c ≤ '7') s
  | '0' :: 'b' :: s => based 2 (fun c => c == '0' || c == '1') s
  | s => do
    let (negative, s) := sign s
    let (cs, s) ← decimal s
    let n : Int := valueInBase 10 cs
    some (← inRange (if negative then -n else n), s)

/-- Whether `m * 10 ^ e` is too large for 64-bit floating point: it reaches the middle between
the largest number and the next power of two. -/
def overflows (m : Nat) (e : Int) : Bool :=
  if m = 0 then false
  else
    let magnitude := (Nat.toDigits 10 m).length + e
    if magnitude < 300 then false
    else if 400 < magnitude then true
    else
      let bound := (Nat.pow 2 54 - 1) * Nat.pow 2 970
      if 0 ≤ e then bound ≤ m * Nat.pow 10 e.toNat else bound * Nat.pow 10 (-e).toNat ≤ m

def fraction : Reader (List Char)
  | '.' :: s => digits Char.isDigit s
  | _ => none

def exponent : List Char → Option (Int × List Char)
  | c :: s =>
    if c = 'e' ∨ c = 'E' then do
      let (negative, s) := sign s
      let (cs, s) ← digits Char.isDigit s
      let n : Int := valueInBase 10 cs
      some (if negative then -n else n, s)
    else none
  | [] => none

/-- A number with a fraction, a power of ten or both. A positive one may not be too large. -/
def plainFloat (s : List Char) : Option (Unit × List Char) := do
  let (negative, s) := sign s
  let (whole, s) ← decimal s
  let (part, e, s) ← match fraction s with
    | some (part, s) =>
      match exponent s with
      | some (e, s) => some (part, e, s)
      | none => some (part, 0, s)
    | none => (exponent s).map fun (e, s) => ([], e, s)
  if !negative ∧ overflows (valueInBase 10 (whole ++ part)) (e - part.length) then none
  else some ((), s)

def specialFloat (s : List Char) : Option (Unit × List Char) :=
  let (_, s) := sign s
  word "inf".toList s <|> word "nan".toList s

def float (s : List Char) : Option (String × List Char) := do
  let ((), rest) ← plainFloat s <|> specialFloat s
  some (taken s rest, rest)

/-! ## Dates and times in TOML

A date, a time of day, or a date with a time and perhaps an offset. They are checked against the
calendar and kept as they are written.
-/

def fixed (n low high : Nat) (s : List Char) : Option (Nat × List Char) := do
  let (cs, s) ← exactly Char.isDigit n s
  let value := cs.foldl (fun v c => v * 10 + (c.toNat - '0'.toNat)) 0
  if low ≤ value ∧ value ≤ high then some (value, s) else none

def isLeapYear (year : Nat) : Bool := year % 4 == 0 && (year % 100 != 0 || year % 400 == 0)

def daysInMonth (year month : Nat) : Nat :=
  if month = 2 then (if isLeapYear year then 29 else 28)
  else if month = 4 ∨ month = 6 ∨ month = 9 ∨ month = 11 then 30
  else 31

def date (s : List Char) : Option (Unit × List Char) := do
  let (year, s) ← fixed 4 0 9999 s
  let ((), s) ← word ['-'] s
  let (month, s) ← fixed 2 1 12 s
  let ((), s) ← word ['-'] s
  let (_, s) ← fixed 2 1 (daysInMonth year month) s
  some ((), s)

def skipSecondFraction : List Char → List Char
  | '.' :: s => if (s.takeWhile Char.isDigit).isEmpty then '.' :: s else s.dropWhile Char.isDigit
  | s => s

def time (s : List Char) : Option (Unit × List Char) := do
  let (_, s) ← fixed 2 0 23 s
  let ((), s) ← word [':'] s
  let (_, s) ← fixed 2 0 59 s
  let ((), s) ← word [':'] s
  let (_, s) ← fixed 2 0 60 s
  some ((), skipSecondFraction s)

def offset : List Char → Option (Unit × List Char)
  | c :: s =>
    if c = 'Z' ∨ c = 'z' then some ((), s)
    else if c = '+' ∨ c = '-' then do
      let (_, s) ← fixed 2 0 23 s
      let ((), s) ← word [':'] s
      let (_, s) ← fixed 2 0 59 s
      some ((), s)
    else none
  | [] => none

def skipTime (s : List Char) : List Char :=
  match s with
  | c :: r =>
    if c = 'T' ∨ c = 't' ∨ c = ' ' then
      match time r with
      | some ((), r) => ((offset r).map (·.2)).getD r
      | none => s
    else s
  | [] => []

def moment (s : List Char) : Option (String × List Char) := do
  let rest ← ((date s).map fun (_, s) => skipTime s) <|> ((time s).map (·.2))
  some (taken s rest, rest)

end CompileDriver.Toml
