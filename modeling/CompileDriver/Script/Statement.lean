import CompileDriver.Script.Token

/-! # Statements of shell scripts

A script is a statement: a simple command, statements joined by `;`, `&&` and `||`, a loop, a
condition, a choice or a subshell. Pipelines, functions and arithmetic are not part of it.
-/

namespace CompileDriver.Script

structure Redirection where
  /-- The stream that is redirected. -/
  stream : Nat
  direction : Direction
  target : Word
deriving DecidableEq, Repr

inductive Statement where
  /-- Nothing, with success. -/
  | skip
  | simple (words : List Word)
  | first (a b : Statement)
  /-- The second statement only if the first succeeds. -/
  | both (a b : Statement)
  /-- The second statement only if the first fails. -/
  | either (a b : Statement)
  | negate (a : Statement)
  | forEach (name : String) (words : List Word) (body : Statement)
  /-- The body as long as the condition succeeds. Without a turn the status is kept. -/
  | loop (condition body : Statement)
  | branch (condition yes no : Statement)
  /-- A body if a word has one of several forms, otherwise the remaining choices. -/
  | choose (subject : Word) (forms : List Word) (body others : Statement)
  | subshell (body : Statement)
  | redirected (body : Statement) (r : Redirection)
deriving Repr

/-- The text of a word that is not quoted and has no parameters. -/
def plain? (w : Word) : Option String :=
  (w.mapM fun p => match p with
    | Piece.char c false => some c
    | _ => none).map String.ofList

def startsWith (s : String) : List Token → Bool
  | .word w :: _ => plain? w == some s
  | _ => false

def keyword (s : String) : List Token → Option (List Token)
  | .word w :: ts => if plain? w = some s then some ts else none
  | _ => none

def symbol (s : String) : List Token → Option (List Token)
  | .operator o :: ts => if o = s then some ts else none
  | _ => none

def skipNewlines : List Token → List Token
  | .operator "\n" :: ts => skipNewlines ts
  | ts => ts

def closingWords : List String :=
  ["do", "done", "then", "elif", "else", "fi", "esac", String.singleton (Char.ofNat 0x7D)]

def isEnd : List Token → Bool
  | [] => true
  | .operator o :: _ => o == ")" || o == ";;"
  | ts => closingWords.any (startsWith · ts)

def wordsOf : List Token → List Word × List Token
  | .word w :: ts =>
    let (ws, ts) := wordsOf ts
    (w :: ws, ts)
  | ts => ([], ts)

/-- The forms before the closing parenthesis of a choice. -/
def formsOf : List Token → Option (List Word × List Token)
  | .word w :: .operator "|" :: ts => (formsOf ts).map fun (ws, ts) => (w :: ws, ts)
  | .word w :: .operator ")" :: ts => some ([w], ts)
  | _ => none

def simpleParts : List Token → List Word × List Redirection × List Token
  | .word w :: ts =>
    let (ws, rs, ts) := simpleParts ts
    (w :: ws, rs, ts)
  | .redirection stream d :: .word w :: ts =>
    let (ws, rs, ts) := simpleParts ts
    (ws, ⟨stream.getD (if d = .input then 0 else 1), d, w⟩ :: rs, ts)
  | ts => ([], [], ts)

/-- A statement with redirections, the first of which is made first. -/
def redirect (c : Statement) (rs : List Redirection) : Statement := rs.foldr (fun r c => .redirected c r) c

def separator (ts : List Token) : Option (List Token) := symbol ";" ts <|> symbol "\n" ts

mutual

/-- Statements up to the end of a list. At most `n` of them are nested. -/
def listOf : (n : Nat) → List Token → Option (Statement × List Token)
  | 0, _ => none
  | n + 1, ts =>
    let ts := skipNewlines ts
    if isEnd ts then some (.skip, ts)
    else do
      let (c, ts) ← chainOf n ts
      match (separator ts).map skipNewlines with
      | some ts =>
        if isEnd ts then some (c, ts)
        else
          let (d, ts) ← listOf n ts
          some (.first c d, ts)
      | none => if isEnd ts then some (c, ts) else none

/-- Statements joined by `&&` and `||`. -/
def chainOf : (n : Nat) → List Token → Option (Statement × List Token)
  | 0, _ => none
  | n + 1, ts => do
    let (c, ts) ← statementOf n ts
    chainFrom n c ts

def chainFrom : (n : Nat) → Statement → List Token → Option (Statement × List Token)
  | 0, _, _ => none
  | n + 1, c, ts =>
    match ts with
    | .operator "&&" :: ts => do
      let (d, ts) ← statementOf n (skipNewlines ts)
      chainFrom n (.both c d) ts
    | .operator "||" :: ts => do
      let (d, ts) ← statementOf n (skipNewlines ts)
      chainFrom n (.either c d) ts
    | ts => some (c, ts)

def statementOf : (n : Nat) → List Token → Option (Statement × List Token)
  | 0, _ => none
  | n + 1, ts =>
    let finish : Statement × List Token → Option (Statement × List Token) := fun (c, ts) =>
      let (ws, rs, ts) := simpleParts ts
      if ws.isEmpty then some (redirect c rs, ts) else none
    if startsWith "!" ts then do
      let (c, ts) ← statementOf n (← keyword "!" ts)
      some (.negate c, ts)
    else if startsWith "for" ts then do
      let ts ← keyword "for" ts
      match ts with
      | .word w :: ts =>
        let name ← plain? w
        let (ws, ts) ← match keyword "in" ts with
          | some ts =>
            let (ws, ts) := wordsOf ts
            (separator ts).map fun ts => (ws, ts)
          | none => some ([[.parameter "@" true]], (separator ts).getD ts)
        let (body, ts) ← listOf n (← keyword "do" (skipNewlines ts))
        finish (.forEach name ws body, ← keyword "done" ts)
      | _ => none
    else if startsWith "while" ts then do
      let (condition, ts) ← listOf n (← keyword "while" ts)
      let (body, ts) ← listOf n (← keyword "do" ts)
      finish (.first .skip (.loop condition body), ← keyword "done" ts)
    else if startsWith "if" ts then do
      finish (← branchOf n (← keyword "if" ts))
    else if startsWith "case" ts then do
      let ts ← keyword "case" ts
      match ts with
      | .word w :: ts => finish (← choicesOf n w (← keyword "in" (skipNewlines ts)))
      | _ => none
    else if startsWith (String.singleton (Char.ofNat 0x7B)) ts then do
      let (body, ts) ← listOf n (← keyword (String.singleton (Char.ofNat 0x7B)) ts)
      finish (body, ← keyword (String.singleton (Char.ofNat 0x7D)) ts)
    else if (symbol "(" ts).isSome then do
      let (body, ts) ← listOf n (← symbol "(" ts)
      finish (.subshell body, ← symbol ")" ts)
    else
      let (ws, rs, ts) := simpleParts ts
      if ws.isEmpty && rs.isEmpty then none else some (redirect (.simple ws) rs, ts)

def branchOf : (n : Nat) → List Token → Option (Statement × List Token)
  | 0, _ => none
  | n + 1, ts => do
    let (condition, ts) ← listOf n ts
    let (yes, ts) ← listOf n (← keyword "then" ts)
    if startsWith "elif" ts then
      let (no, ts) ← branchOf n (← keyword "elif" ts)
      some (.branch condition yes no, ts)
    else if startsWith "else" ts then
      let (no, ts) ← listOf n (← keyword "else" ts)
      some (.branch condition yes no, ← keyword "fi" ts)
    else some (.branch condition yes .skip, ← keyword "fi" ts)

def choicesOf : (n : Nat) → Word → List Token → Option (Statement × List Token)
  | 0, _, _ => none
  | n + 1, subject, ts =>
    let ts := skipNewlines ts
    match keyword "esac" ts with
    | some ts => some (.skip, ts)
    | none => do
      let (forms, ts) ← formsOf ((symbol "(" ts).getD ts)
      let (body, ts) ← listOf n ts
      match symbol ";;" ts with
      | some ts =>
        let (others, ts) ← choicesOf n subject ts
        some (.choose subject forms body others, ts)
      | none => some (.choose subject forms body .skip, ← keyword "esac" ts)

end

def parse? (s : String) : Option Statement := do
  let ts ← tokens? s.toList
  match ← listOf (4 * ts.length + 4) ts with
  | (c, []) => some c
  | _ => none

end CompileDriver.Script
