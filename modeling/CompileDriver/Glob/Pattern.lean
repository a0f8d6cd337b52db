import CompileDriver.Text.Basic

/-! # Glob patterns

A pattern is read into tokens: characters, `?` for one character, `*` for any number of them,
classes between brackets, and `**` for any number of directories, which must stand between
slashes. There is no escaping.
-/

namespace CompileDriver.Glob

inductive Token where
  | char (c : Char)
  | anyChar
  | anyText
  /-- Any number of directories. -/
  | anyDirectories
  /-- A character in one of the ranges. -/
  | oneOf (ranges : List (Char × Char))
  /-- A character in none of the ranges. -/
  | noneOf (ranges : List (Char × Char))
deriving DecidableEq, Repr

inductive Mistake where
  | tooManyStars
  | starsInsideName
  | badClass
deriving DecidableEq, Repr

def Mistake.message : Mistake → String
  | tooManyStars => "wildcards are either regular `*` or recursive `**`"
  | starsInsideName => "recursive wildcards must form a single path component"
  | badClass => "invalid range pattern"

structure PatternError where
  position : Nat
  mistake : Mistake
deriving DecidableEq, Repr

def PatternError.message (e : PatternError) : String :=
  "Pattern syntax error near position " ++ e.position.repr ++ ": " ++ e.mistake.message

/-- The ranges of a class; a character by itself is a range of one. -/
def ranges : List Char → List (Char × Char)
  | a :: '-' :: b :: s => (a, b) :: ranges s
  | a :: s => (a, a) :: ranges s
  | [] => []

/-- Read a class after its bracket: the token, and how many characters it takes. The first
character belongs to the class even if it is a bracket. -/
def readClass : List Char → Option (Token × Nat)
  | '!' :: c :: s =>
    (Text.cutAt ']' s).map fun (inner, _) => (.noneOf (ranges (c :: inner)), inner.length + 3)
  | ['!'] => none
  | c :: s =>
    (Text.cutAt ']' s).map fun (inner, _) => (.oneOf (ranges (c :: inner)), inner.length + 2)
  | [] => none

/-- Read the tokens of a text, of which `skip` characters belong to the token before. The
position and the character before are those of the whole pattern. -/
def readTokens (position : Nat) (before : Option Char) :
    (skip : Nat) → List Char → Except PatternError (List Token)
  | _, [] => .ok []
  | skip + 1, c :: s => readTokens (position + 1) (some c) skip s
  | 0, c :: s =>
    let token (t : Token) (skip : Nat) :=
      (readTokens (position + 1) (some c) skip s).map (t :: ·)
    if c = '?' then token .anyChar 0
    else if c = '*' then
      match s with
      | '*' :: '*' :: _ => .error ⟨position + 2, .tooManyStars⟩
      | ['*'] =>
        if before.isNone ∨ before = some '/' then token .anyDirectories 1
        else .error ⟨position - 1, .starsInsideName⟩
      | '*' :: next :: _ =>
        if before.isNone ∨ before = some '/' then
          if next = '/' then token .anyDirectories 2
          else .error ⟨position + 2, .starsInsideName⟩
        else .error ⟨position - 1, .starsInsideName⟩
      | _ => token .anyText 0
    else if c = '[' then
      match readClass s with
      | some (t, taken) => token t taken
      | none => .error ⟨position, .badClass⟩
    else token (.char c) 0

def tokens (s : List Char) : Except PatternError (List Token) := readTokens 0 none 0 s

def inRanges (rs : List (Char × Char)) (c : Char) : Bool := rs.any fun r => r.1 ≤ c && c ≤ r.2

def Token.accepts : Token → Char → Bool
  | char d, c => d == c
  | oneOf rs, c => inRanges rs c
  | noneOf rs, c => !inRanges rs c
  | _, _ => true

/-- A text and the texts that remain as its characters are dropped. -/
def suffixes : List Char → List (List Char)
  | [] => [[]]
  | c :: s => (c :: s) :: suffixes s

def tokensMatch : List Token → List Char → Bool
  | [], s => s.isEmpty
  | t :: ts, s =>
    match t with
    | .anyText | .anyDirectories => (suffixes s).any (tokensMatch ts)
    | t =>
      match s with
      | c :: s => t.accepts c && tokensMatch ts s
      | [] => false

def Token.char? : Token → Option Char
  | char c => some c
  | _ => none

/-- The text that tokens spell, if they are all characters. -/
def literal? (ts : List Token) : Option String := (ts.mapM Token.char?).map String.ofList

/-- The tokens of each part of a pattern between slashes. A slash at the end starts no part, and
a pattern that is only the root has one empty part. -/
def parts (s : List Char) : Except PatternError (List (List Token)) :=
  let rest := if s.head? = some '/' then s.tail else s
  if rest = [] then .ok [[]]
  else
    let names := Text.pieces '/' rest
    (if names.getLast? = some [] then names.dropLast else names).mapM tokens

end CompileDriver.Glob
