/-! # TOML values

The values of a TOML document, and the rules by which its lines may add to them: a table can be
opened once, a key can be set once, and dotted keys only reach into tables that dotted keys made.
-/

namespace CompileDriver.Toml

inductive Origin where
  /-- By its own header. -/
  | header
  /-- By the header of a table below it. -/
  | implied
  /-- By a dotted key. -/
  | dotted
  /-- As a value between braces. -/
  | inline
deriving DecidableEq, Repr

inductive Value where
  | string (s : String)
  | integer (n : Int)
  | boolean (b : Bool)
  /-- A floating-point number, as it is written. -/
  | float (text : String)
  /-- A date, a time or both, as it is written. -/
  | moment (text : String)
  /-- A list of values; headers add tables to it if it is open. -/
  | array (isOpen : Bool) (items : List Value)
  | table (origin : Origin) (entries : List (String × Value))

abbrev Entries := List (String × Value)

namespace Entries

def get? (es : Entries) (key : String) : Option Value := List.lookup key es

def replace (es : Entries) (key : String) (v : Value) : Entries :=
  es.map fun e => if e.1 = key then (key, v) else e

def erase (es : Entries) (key : String) : Entries := es.filter fun e => e.1 ≠ key

/-- Change the table that a path leads to. Tables that are missing on the way are made. Dotted
keys do not lead into tables that have a header of their own. -/
def changeAt (dotted : Bool) (change : Origin → Entries → Option Entries) :
    List String → Origin → Entries → Option Entries
  | [], origin, es => change origin es
  | key :: path, _, es =>
    match es.get? key with
    | none =>
      let origin := if dotted then .dotted else .implied
      (changeAt dotted change path origin []).map fun sub => es ++ [(key, .table origin sub)]
    | some (.table origin sub) =>
      if origin = .inline ∨ dotted ∧ origin = .header then none
      else (changeAt dotted change path origin sub).map fun sub => es.replace key (.table origin sub)
    | some (.array true items) =>
      match items.getLast? with
      | some (.table origin sub) =>
        (changeAt dotted change path origin sub).map fun sub =>
          es.replace key (.array true (items.dropLast ++ [.table origin sub]))
      | _ => none
    | some _ => none

/-- Change the table that the path of a header leads to. -/
def changeBelow (es : Entries) (path : List String) (change : Entries → Option Entries) :
    Option Entries :=
  changeAt false (fun _ sub => change sub) path .header es

def set (es : Entries) (key : String) (v : Value) : Option Entries :=
  if (es.get? key).isSome then none else some (es ++ [(key, v)])

def setDotted (es : Entries) (path : List String) (key : String) (v : Value) : Option Entries :=
  if path = [] then es.set key v
  else changeAt true (fun origin sub => if origin = .dotted then sub.set key v else none)
    path .header es

/-- Open the table of a header; one that was only implied so far keeps what it holds. -/
def openTable (es : Entries) (key : String) : Option Entries :=
  match es.get? key with
  | none => some (es ++ [(key, .table .header [])])
  | some (.table .implied sub) => some (es.erase key ++ [(key, .table .header sub)])
  | some _ => none

/-- Open one more table in the array of tables of a header. -/
def openArrayTable (es : Entries) (key : String) : Option Entries :=
  match es.get? key with
  | none => some (es ++ [(key, .array true [.table .header []])])
  | some (.array true items) =>
    some (es.replace key (.array true (items ++ [.table .header []])))
  | some _ => none

end Entries

end CompileDriver.Toml
