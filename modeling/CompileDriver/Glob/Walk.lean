import CompileDriver.Glob.Pattern
import CompileDriver.Host.Procedure

/-! # Paths that match a pattern

A pattern is followed part by part: a part without wildcards names one entry, any other part
is compared with all entries of a directory. The paths come in the order in which directories
are read, each directory in increasing order.
-/

namespace CompileDriver.Glob

open Procedure

structure Place where
  path : Path
  isDirectory : Bool

/-- A place with the parts that have still to be matched, starting with its own name; without
parts it has been matched. -/
inductive Item where
  | place (p : Place) (parts : List (List Token))
  | unreadable (p : Path) (e : IoError)

inductive Finding where
  | found (p : Path)
  | unreadable (p : Path) (e : IoError)

def isRecursive (part : List Token) : Bool := part.contains .anyDirectories

/-- The entry `name` of a directory. In the working directory it is known by its name alone. -/
def entry (directory : Path) (name : String) : Path :=
  if directory.same ⟨"."⟩ then ⟨name⟩ else directory / name

/-- The items that come from matching parts below a place. -/
def itemsBelow : List (List Token) → Place → Procedure (List Item)
  | [], place => done [.place place []]
  | part :: parts, place =>
    match literal? part with
    | some name =>
      let next := entry place.path name
      call (.status next) fun r =>
        let isStep := name = "." ∨ name = ".."
        let isThere := if isStep then place.isDirectory else r.toOption.isSome
        if isThere then itemsBelow parts ⟨next, r.toOption == some .directory⟩ else done []
    | none =>
      if place.isDirectory then
        call (.list place.path) fun
          | .error e => done [.unreadable place.path e]
          | .ok names =>
            let inside := (names.mergeSort fun a b => a.1 ≤ b.1).map fun (name, isDirectory) =>
              Item.place ⟨entry place.path name, isDirectory⟩ (part :: parts)
            let step (name : String) : Procedure (List Item) :=
              if part.head? = some (.char '.') ∧ tokensMatch part name.toList then
                let next := place.path / name
                call (.status next) fun r =>
                  itemsBelow parts ⟨next, r.toOption == some .directory⟩
              else done []
            (step ".").bind fun here => (step "..").bind fun up =>
              done (up ++ here ++ inside)
      else done []

def collect (visit : Item → Procedure (List Finding)) : List Item → Procedure (List Finding)
  | [] => done []
  | item :: items =>
    (visit item).bind fun first => (collect visit items).bind fun others => done (first ++ others)

/-- What an item yields. Going down `depth` times is enough if that is more than the number of
parts and of the names that a path can have. -/
def visit (onlyDirectories : Bool) : (depth : Nat) → Item → Procedure (List Finding)
  | 0, _ => done []
  | _ + 1, .unreadable p e => done [.unreadable p e]
  | _ + 1, .place p [] => done (if onlyDirectories && !p.isDirectory then [] else [.found p.path])
  | depth + 1, .place p (part :: parts) =>
    let matchName : List (List Token) → Procedure (List Finding)
      | [] => done []
      | part :: parts =>
        match p.path.fileName? with
        | none => done []
        | some name =>
          if !tokensMatch part name.toList then done []
          else if parts.isEmpty then
            done (if onlyDirectories && !p.isDirectory then [] else [.found p.path])
          else (itemsBelow parts p).bind (collect (visit onlyDirectories depth))
    if isRecursive part then
      let parts := parts.dropWhile isRecursive
      if p.isDirectory then
        (itemsBelow (part :: parts) p).bind fun inside =>
          (if parts.isEmpty then done [.found p.path] else matchName parts).bind fun first =>
            (collect (visit onlyDirectories depth) inside).bind fun others =>
              done (first ++ others)
      else matchName parts
    else matchName (part :: parts)

def findings (pattern : Path) : Except PatternError (Procedure (List Finding)) := do
  let s := pattern.text.toList
  let _ ← tokens s
  let parts ← parts s
  let start : Path := if pattern.isAbsolute then ⟨"/"⟩ else ⟨"."⟩
  .ok <| (isDirectory start).bind fun isDirectory =>
    (itemsBelow parts ⟨start, isDirectory⟩).bind <|
      collect (visit pattern.endsInSlash (FileSystem.longestPath + parts.length))

end CompileDriver.Glob
