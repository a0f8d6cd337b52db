import CompileDriver.Toml.Number
import CompileDriver.Toml.Value

/-! # TOML documents

A document is read into its lines, which are then put together to one table. A document that is
not TOML, or whose lines contradict each other, is refused as a whole.
-/

namespace CompileDriver.Toml

open Text Text.Reader

/-- How deep arrays and inline tables may be nested, and how many keys a dotted key may have. -/
def depthLimit : Nat := 79

def isBareKeyChar (c : Char) : Bool := c.isAlphanum || c == '_' || c == '-'

def simpleKey (s : List Char) : Option (String × List Char) :=
  match s with
  | '"' :: _ | '\'' :: _ => quotedLine s
  | _ =>
    let (cs, rest) := takeWhile isBareKeyChar s
    if cs = [] then none else some (String.ofList cs, rest)

def spacedKey (s : List Char) : Option (String × List Char) := do
  let (k, s) ← simpleKey (skipBlanks s)
  some (k, skipBlanks s)

def dottedKey (s : List Char) : Option ((List String × String) × List Char) := do
  let (ks, s) := separated (word ['.']) spacedKey s
  let last ← ks.getLast?
  if ks.length ≤ depthLimit then some ((ks.dropLast, last), s) else none

structure Pair where
  path : List String
  key : String
  value : Value

def pair (value : Reader Value) (s : List Char) : Option (Pair × List Char) := do
  let ((path, key), s) ← dottedKey s
  let ((), s) ← word ['='] s
  let (v, s) ← value (skipBlanks s)
  some (⟨path, key, v⟩, s)

def arrayRest (value : Reader Value) (s : List Char) : Option (Value × List Char) := do
  let item : Reader Value := fun s => do
    let (v, s) ← value (skipGap s)
    some (v, skipGap s)
  let (items, s) := separated (word [',']) item s
  let s := if items.isEmpty then s else ((word [','] s).map (·.2)).getD s
  let ((), s) ← word [']'] (skipGap s)
  some (.array false items, s)

/-- The table that pairs make up. -/
def Entries.ofPairs (ps : List Pair) : Option Entries :=
  ps.foldlM (fun es p => es.setDotted p.path p.key p.value) []

def inlineRest (value : Reader Value) (s : List Char) : Option (Value × List Char) := do
  let item : Reader Pair := fun s => do
    let (p, s) ← pair value s
    some (p, skipBlanks s)
  let (ps, s) := separated (word [',']) item s
  let ((), s) ← word [Char.ofNat 0x7D] (skipBlanks s)
  some (.table .inline (← Entries.ofPairs ps), s)

def scalar (s : List Char) : Option (Value × List Char) :=
  match s with
  | 't' :: _ => (word "true".toList s).map fun (_, s) => (.boolean true, s)
  | 'f' :: _ => (word "false".toList s).map fun (_, s) => (.boolean false, s)
  | _ =>
    ((quoted s).map fun (t, s) => (.string t, s)) <|>
      ((moment s).map fun (t, s) => (.moment t, s)) <|>
      ((float s).map fun (t, s) => (.float t, s)) <|>
      ((integer s).map fun (n, s) => (.integer n, s))

/-- A value in which at most `depth` arrays and inline tables are nested. -/
def value : (depth : Nat) → Reader Value
  | 0, s => scalar s
  | depth + 1, s =>
    match s with
    | '[' :: s => arrayRest (value depth) s
    | c :: r => if c = Char.ofNat 0x7B then inlineRest (value depth) r else scalar s
    | [] => none

inductive Line where
  | blank
  | pair (p : Pair)
  /-- The header of a table. -/
  | table (path : List String) (key : String)
  /-- The header of a table in an array of tables. -/
  | arrayTable (path : List String) (key : String)

def line (s : List Char) : Option (Line × List Char) :=
  match s with
  | '#' :: _ => (lineEnd s).map fun s => (.blank, s)
  | '\n' :: _ | '\r' :: _ => (newline s).map fun (_, s) => (.blank, s)
  | '[' :: '[' :: s => do
    let ((path, key), s) ← dottedKey s
    let ((), s) ← word "]]".toList s
    some (.arrayTable path key, ← lineEnd s)
  | '[' :: s => do
    let ((path, key), s) ← dottedKey s
    let ((), s) ← word [']'] s
    some (.table path key, ← lineEnd s)
  | [] => none
  | _ => do
    let (p, s) ← pair (value depthLimit) s
    some (.pair p, ← lineEnd s)

def lines? (s : List Char) : Option (List Line) :=
  let item : Reader Line := fun s => (line s).map fun (l, s) => (l, skipBlanks s)
  match many item (skipBlanks s) with
  | (ls, []) => some ls
  | _ => none

/-- A document that is being put together: the whole table, and the path of the table to which
the next pairs belong. -/
structure Draft where
  root : Entries
  current : List String

def Draft.add (d : Draft) : Line → Option Draft
  | .blank => some d
  | .pair p => do
    let root ← d.root.changeBelow d.current fun es => es.setDotted p.path p.key p.value
    some { d with root }
  | .table path key => do
    let root ← d.root.changeBelow path fun es => es.openTable key
    some ⟨root, path ++ [key]⟩
  | .arrayTable path key => do
    let root ← d.root.changeBelow path fun es => es.openArrayTable key
    some ⟨root, path ++ [key]⟩

def parse? (text : String) : Option Entries := do
  let s := match text.toList with
    | '\uFEFF' :: s => s
    | s => s
  let ls ← lines? s
  let d ← ls.foldlM Draft.add ⟨[], []⟩
  some d.root

/-! ## Settings from TOML

A setting is taken from a table by its key. A key that is missing leaves the default; a value of
another type is refused.
-/

namespace Value

def string? : Value → Option String
  | string s => some s
  | _ => none

def boolean? : Value → Option Bool
  | boolean b => some b
  | _ => none

def natural? : Value → Option Nat
  | integer n => if 0 ≤ n then some n.toNat else none
  | _ => none

def strings? : Value → Option (List String)
  | array _ items => items.mapM string?
  | _ => none

/-- A table whose values are lists of strings. -/
def stringLists? : Value → Option (List (String × List String))
  | table _ entries => entries.mapM fun e => e.2.strings?.map (e.1, ·)
  | _ => none

def isEmptyContainer : Value → Bool
  | array _ items => items.isEmpty
  | table _ entries => entries.isEmpty
  | _ => false

/-- One of several choices: a string, or a table whose key is the choice and whose value holds
nothing. Only a table with a header may have more keys. -/
def choice? : Value → Option String
  | string s => some s
  | table origin ((key, v) :: others) =>
    if (origin ≠ .inline ∨ others.isEmpty) ∧ v.isEmptyContainer then some key else none
  | _ => none

end Value

def Entries.setting {α : Type} (es : Entries) (key : String) (read : Value → Option α)
    (default : α) : Option α :=
  match es.get? key with
  | none => some default
  | some v => read v

def Entries.setting? {α : Type} (es : Entries) (key : String) (read : Value → Option α) :
    Option (Option α) :=
  es.setting key (fun v => (read v).map some) none

end CompileDriver.Toml
