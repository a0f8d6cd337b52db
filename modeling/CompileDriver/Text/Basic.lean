/-! # Texts

Texts are trimmed, read as decimal numbers and cut at separators, as lists of characters. Bytes are
read as texts.
-/

namespace CompileDriver.Text

/-! ## Blank characters

Blank characters are those with the Unicode property White_Space. Trimming removes a
longest run of them from the start or the end of a text.
-/

/-- The characters with the Unicode property White_Space. -/
def isBlank (c : Char) : Bool :=
  let n := c.toNat
  (0x09 ≤ n && n ≤ 0x0D) || n == 0x20 || n == 0x85 || n == 0xA0 || n == 0x1680 ||
    (0x2000 ≤ n && n ≤ 0x200A) || n == 0x2028 || n == 0x2029 || n == 0x202F ||
    n == 0x205F || n == 0x3000

def trimStart (s : List Char) : List Char := s.dropWhile isBlank

def trimEnd (s : List Char) : List Char := (s.reverse.dropWhile isBlank).reverse

def trim (s : List Char) : List Char := trimEnd (trimStart s)

/-! ## Decimal numbers

Numbers as people write them: decimal digits and nothing else, or a sign in front of them.
-/

def natural? (s : List Char) : Option Nat :=
  if s ≠ [] ∧ s.all Char.isDigit then
    some (s.foldl (fun n c => 10 * n + (c.toNat - '0'.toNat)) 0)
  else none

/-- The number that decimal digits spell, perhaps behind a sign. -/
def integer? : List Char → Option Int
  | '-' :: s => (natural? s).map fun n => -(n : Int)
  | '+' :: s => (natural? s).map fun n => (n : Int)
  | s => (natural? s).map fun n => (n : Int)

/-! ## Cutting texts at a character

`pieces sep s` is the list of the texts between the occurrences of `sep` in `s`. There is
always at least one piece, and joining the pieces with `sep` gives the text back.
-/

def consFirst (c : Char) : List (List Char) → List (List Char)
  | [] => [[c]]
  | p :: ps => (c :: p) :: ps

def pieces (sep : Char) : List Char → List (List Char)
  | [] => [[]]
  | c :: s => if c = sep then [] :: pieces sep s else consFirst c (pieces sep s)

def joinPieces (sep : Char) : List (List Char) → List Char
  | [] => []
  | [p] => p
  | p :: ps => p ++ sep :: joinPieces sep ps

theorem pieces_ne_nil (sep : Char) (s : List Char) : pieces sep s ≠ [] := by
  cases s with
  | nil => simp [pieces]
  | cons c s =>
    by_cases h : c = sep
    · simp [pieces, h]
    · cases hp : pieces sep s <;> simp [pieces, h, hp, consFirst]

theorem joinPieces_consFirst (sep c : Char) {ps : List (List Char)} (h : ps ≠ []) :
    joinPieces sep (consFirst c ps) = c :: joinPieces sep ps := by
  cases ps with
  | nil => exact absurd rfl h
  | cons p ps => cases ps <;> simp [consFirst, joinPieces]

theorem joinPieces_pieces (sep : Char) (s : List Char) : joinPieces sep (pieces sep s) = s := by
  induction s with
  | nil => rfl
  | cons c s ih =>
    by_cases h : c = sep
    · subst h
      cases hp : pieces c s with
      | nil => exact absurd hp (pieces_ne_nil c s)
      | cons p ps =>
        rw [hp] at ih
        rw [pieces, if_pos rfl, hp]
        exact congrArg (c :: ·) ih
    · rw [pieces, if_neg h, joinPieces_consFirst sep c (pieces_ne_nil sep s), ih]

theorem consFirst_append (c : Char) {ps : List (List Char)} (h : ps ≠ []) (qs : List (List Char)) :
    consFirst c (ps ++ qs) = consFirst c ps ++ qs := by
  cases ps with
  | nil => exact absurd rfl h
  | cons => rfl

theorem pieces_append (sep : Char) (a b : List Char) :
    pieces sep (a ++ sep :: b) = pieces sep a ++ pieces sep b := by
  induction a with
  | nil => simp [pieces]
  | cons c a ih =>
    by_cases h : c = sep
    · simp [pieces, h, ih]
    · simp [pieces, h, ih, consFirst_append c (pieces_ne_nil _ _)]

theorem pieces_of_not_mem {sep : Char} {s : List Char} (h : sep ∉ s) : pieces sep s = [s] := by
  induction s with
  | nil => rfl
  | cons c s ih =>
    have hc : c ≠ sep := fun hc => h (hc ▸ List.mem_cons_self)
    have hs : sep ∉ s := fun hs => h (List.mem_cons_of_mem c hs)
    rw [pieces, if_neg hc, ih hs, consFirst]

theorem not_mem_of_mem_pieces {sep : Char} {p s : List Char} (h : p ∈ pieces sep s) : sep ∉ p := by
  induction s generalizing p with
  | nil => simp_all [pieces]
  | cons c s ih =>
    by_cases hc : c = sep
    · rw [pieces, if_pos hc] at h
      rcases List.mem_cons.1 h with rfl | h
      · exact List.not_mem_nil
      · exact ih h
    · rw [pieces, if_neg hc] at h
      cases hps : pieces sep s with
      | nil => exact absurd hps (pieces_ne_nil sep s)
      | cons q qs =>
        rw [hps] at h ih
        rcases List.mem_cons.1 h with rfl | h
        · have hq : sep ∉ q := ih List.mem_cons_self
          simp [hq, Ne.symm hc]
        · exact ih (List.mem_cons_of_mem q h)

def lines (s : List Char) : List (List Char) := pieces '\n' s

def cutAt (sep : Char) : List Char → Option (List Char × List Char)
  | [] => none
  | c :: s => if c = sep then some ([], s) else (cutAt sep s).map fun (a, b) => (c :: a, b)

/-! ## Reading bytes as text

`decode?` reads bytes that are UTF-8 and refuses all others. `decodeLossy` reads any bytes:
each maximal part that starts a character but does not finish it becomes one U+FFFD, and so
does each byte that can start no character.
-/

def decode? (data : ByteArray) : Option String := String.fromUTF8? data

/-- The number of bytes that follow `lead`, and the bounds of the first of them. -/
def leadBounds (lead : UInt8) : Option (Nat × UInt8 × UInt8) :=
  if 0xC2 ≤ lead && lead ≤ 0xDF then some (1, 0x80, 0xBF)
  else if lead == 0xE0 then some (2, 0xA0, 0xBF)
  else if lead == 0xED then some (2, 0x80, 0x9F)
  else if 0xE1 ≤ lead && lead ≤ 0xEF then some (2, 0x80, 0xBF)
  else if lead == 0xF0 then some (3, 0x90, 0xBF)
  else if 0xF1 ≤ lead && lead ≤ 0xF3 then some (3, 0x80, 0xBF)
  else if lead == 0xF4 then some (3, 0x80, 0x8F)
  else none

/-- A character that has been started: bytes still owed, bounds of the next one, and the
value read so far. -/
structure Partial where
  owed : Nat
  low : UInt8
  high : UInt8
  value : Nat

/-- What a byte between two characters does: it is a character, starts one, or is replaced. -/
def startCharacter (b : UInt8) : Option Char × Option Partial :=
  if b < 0x80 then (some (Char.ofNat b.toNat), none)
  else match leadBounds b with
    | some (owed, low, high) =>
      let bits := if owed = 1 then b.toNat % 32 else if owed = 2 then b.toNat % 16 else b.toNat % 8
      (none, some ⟨owed, low, high, bits⟩)
    | none => (some '\uFFFD', none)

/-- Read `data` after the unfinished character `p`, if there is one. -/
def decodeFrom : Option Partial → List UInt8 → List Char
  | none, [] => []
  | some _, [] => ['\uFFFD']
  | none, b :: data =>
    match startCharacter b with
    | (some c, p) => c :: decodeFrom p data
    | (none, p) => decodeFrom p data
  | some p, b :: data =>
    if p.low ≤ b && b ≤ p.high then
      let value := p.value * 64 + b.toNat % 64
      if p.owed = 1 then Char.ofNat value :: decodeFrom none data
      else decodeFrom (some ⟨p.owed - 1, 0x80, 0xBF, value⟩) data
    else
      match startCharacter b with
      | (some c, q) => '\uFFFD' :: c :: decodeFrom q data
      | (none, q) => '\uFFFD' :: decodeFrom q data

/-- Read any bytes as text, with U+FFFD where they are not UTF-8. -/
def decodeLossy (data : ByteArray) : String := String.ofList (decodeFrom none data.data.toList)

end CompileDriver.Text
