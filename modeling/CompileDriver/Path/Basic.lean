import CompileDriver.Text.Basic

/-! # Paths

A path keeps the spelling it was built with. Its components decide whether two paths are the
same place and which comes first; everything that is printed is the spelling.
-/

namespace CompileDriver

/-! ## Components of paths

A path is compared by its components: the root, a leading `.`, the steps `..`, and names.
They are ordered in this sequence, and names by their characters.
-/

inductive Component where
  | root
  | here
  | parent
  | name (s : String)
deriving DecidableEq, Repr

namespace Component

def text : Component → String
  | root => "/"
  | here => "."
  | parent => ".."
  | name s => s

def rank : Component → Nat
  | root => 0
  | here => 1
  | parent => 2
  | name _ => 3

instance : Ord Component := ⟨compareLex (compareOn rank) (compareOn text)⟩

/-- What a piece between two slashes stands for; an empty piece and `.` stand for nothing. -/
def ofPiece? (piece : String) : Option Component :=
  if piece = "" ∨ piece = "." then none
  else if piece = ".." then some parent
  else some (name piece)

def name? : Component → Option String
  | name s => some s
  | _ => none

end Component

/-! ## Paths -/

structure Path where
  text : String
deriving DecidableEq, Repr, Inhabited

namespace Path

/-- What comes before the first piece of a path. -/
inductive Start where
  | root
  | here
  | bare
deriving DecidableEq, Repr

def Start.components : Start → List Component
  | root => [.root]
  | here => [.here]
  | bare => []

def piecesOf (s : List Char) : List String := (Text.pieces '/' s).map String.ofList

/-- The start of a path and the pieces between the slashes after it. -/
def split (p : Path) : Start × List String :=
  match p.text.toList with
  | '/' :: s => (.root, piecesOf s)
  | ['.'] => (.here, [])
  | '.' :: '/' :: s => (.here, piecesOf s)
  | s => (.bare, piecesOf s)

def unsplit : Start → List String → Path
  | .root, ps => ⟨"/" ++ String.intercalate "/" ps⟩
  | .here, [] => ⟨"."⟩
  | .here, ps => ⟨"./" ++ String.intercalate "/" ps⟩
  | .bare, ps => ⟨String.intercalate "/" ps⟩

def components (p : Path) : List Component :=
  p.split.1.components ++ p.split.2.filterMap Component.ofPiece?

/-- Whether two paths have the same components. -/
def same (p q : Path) : Bool := p.components == q.components

def le (p q : Path) : Bool := (compare p.components q.components).isLE

def isAbsolute (p : Path) : Bool := p.text.toList.head? == some '/'

def endsInSlash (p : Path) : Bool := p.text.toList.getLast? == some '/'

/-- Put `q` below `p`: an absolute `q` stands for itself. -/
def join (p q : Path) : Path :=
  if q.isAbsolute then q
  else if p.text = "" ∨ p.endsInSlash then ⟨p.text ++ q.text⟩
  else ⟨p.text ++ "/" ++ q.text⟩

instance : HDiv Path String Path := ⟨fun p s => p.join ⟨s⟩⟩

def isTrivial (piece : String) : Bool := (Component.ofPiece? piece).isNone

/-- The shorter and shorter paths that remain as the pieces, given last to first, are dropped. -/
def parentsFrom (start : Start) : List String → List Path
  | [] => if start = .here then [⟨""⟩] else []
  | piece :: before =>
    if isTrivial piece then parentsFrom start before
    else unsplit start (before.dropWhile isTrivial).reverse :: parentsFrom start before

/-- The path without its last component, without its last two, and so on. -/
def parents (p : Path) : List Path := parentsFrom p.split.1 p.split.2.reverse

/-- The path without its last component, if it has one other than the root. -/
def parent? (p : Path) : Option Path := p.parents.head?

/-- The last component, if it is a name. -/
def fileName? (p : Path) : Option String := p.components.getLast?.bind Component.name?

/-- The part of a file name before its last dot. A name whose only dot is its first character
is a stem as a whole. -/
def stemOf (fileName : String) : String :=
  match Text.cutAt '.' fileName.toList.reverse with
  | some (_, before) => if before = [] then fileName else String.ofList before.reverse
  | none => fileName

def stem? (p : Path) : Option String := p.fileName?.map stemOf

/-- The last component as a text; a path that ends in no name is shown as a whole. -/
def displayName (p : Path) : String := p.fileName?.getD p.text

/-- Put `fileName` in the place of the last component if that is a name, else below the path. -/
def withFileName (p : Path) (fileName : String) : Path :=
  match p.fileName? with
  | some _ => (p.parent?.getD p) / fileName
  | none => p / fileName

/-- The components that follow `root` in `p`, if `p` lies below `root` or is the same. -/
def below? (p root : Path) : Option (List Component) :=
  if root.components <+: p.components then some (p.components.drop root.components.length)
  else none

/-- The path as seen from the working directory `cwd`, without looking at any file. Exactly two
leading slashes and a last slash are kept; the empty path stays empty. -/
def absolute (cwd p : Path) : Path :=
  if p.text = "" then p
  else
    let full :=
      match p.components with
      | .root :: cs =>
        let twoSlashes := "//".toList <+: p.text.toList ∧ ¬ "///".toList <+: p.text.toList
        place cs ⟨if twoSlashes then "//" else "/"⟩
      | .here :: cs => place cs cwd
      | cs => place cs cwd
    if p.endsInSlash then full / "" else full
where
  /-- Put components one after the other below a path. -/
  place (cs : List Component) (base : Path) : Path := cs.foldl (fun q c => q / c.text) base

end Path

end CompileDriver
