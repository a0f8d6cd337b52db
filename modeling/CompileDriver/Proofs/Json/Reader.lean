import CompileDriver.CompilationDatabase
import Mathlib.Data.List.Basic

/-! # Reading JSON

JSON documents made of texts, arrays and objects. A document is cut into tokens, and the tokens are
read from left to right with what is still open on a stack. What is written for a list of records is
read as an array of objects with the same fields.
-/

namespace CompileDriver.Json

inductive Value where
  | text (s : String)
  | array (elements : List Value)
  /-- Fields with their names, in the order in which they stand. -/
  | object (fields : List (String × Value))

inductive Token where
  | text (s : String)
  | openArray
  | closeArray
  | openObject
  | closeObject
  | comma
  | colon
deriving DecidableEq

/-! ## Tokens -/

def hexValue? (c : Char) : Option Nat :=
  if '0' ≤ c ∧ c ≤ '9' then some (c.toNat - '0'.toNat)
  else if 'a' ≤ c ∧ c ≤ 'f' then some (c.toNat - 'a'.toNat + 10)
  else if 'A' ≤ c ∧ c ≤ 'F' then some (c.toNat - 'A'.toNat + 10)
  else none

/-- The character with a number of four hexadecimal digits. Numbers that stand for half a character
are refused. -/
def numbered? (a b c d : Char) : Option Char := do
  let n := 0x1000 * (← hexValue? a) + 0x100 * (← hexValue? b) + 0x10 * (← hexValue? c) +
    (← hexValue? d)
  if n.isValidChar then some (Char.ofNat n) else none

/-- The character for which a backslash stands together with `c`. -/
def escaped? (c : Char) : Option Char :=
  match c with
  | '"' => some '"'
  | '\\' => some '\\'
  | '/' => some '/'
  | 'b' => some (Char.ofNat 0x08)
  | 'f' => some (Char.ofNat 0x0C)
  | 'n' => some '\n'
  | 'r' => some '\r'
  | 't' => some '\t'
  | _ => none

mutual

def tokens? : List Char → Option (List Token)
  | [] => some []
  | c :: s =>
    match c with
    | '[' => (tokens? s).map (.openArray :: ·)
    | ']' => (tokens? s).map (.closeArray :: ·)
    | '\x7b' => (tokens? s).map (.openObject :: ·)
    | '\x7d' => (tokens? s).map (.closeObject :: ·)
    | ',' => (tokens? s).map (.comma :: ·)
    | ':' => (tokens? s).map (.colon :: ·)
    | ' ' | '\n' | '\r' | '\t' => tokens? s
    | '"' => textTokens? [] s
    | _ => none

/-- The tokens that follow inside a text of which `read` has been read. -/
def textTokens? (read : List Char) : List Char → Option (List Token)
  | [] => none
  | c :: s =>
    if c = '"' then (tokens? s).map (.text (String.ofList read) :: ·)
    else if c = '\\' then escapedTokens? read s
    else if c.toNat < 0x20 then none
    else textTokens? (read ++ [c]) s

/-- The tokens that follow behind a backslash inside a text. -/
def escapedTokens? (read : List Char) : List Char → Option (List Token)
  | 'u' :: a :: b :: c :: d :: s =>
    (numbered? a b c d).bind fun x => textTokens? (read ++ [x]) s
  | c :: s => (escaped? c).bind fun x => textTokens? (read ++ [x]) s
  | [] => none

end

/-! ## Values -/

inductive Frame where
  | elements (read : List Value)
  | members (read : List (String × Value)) (name : String)

mutual

/-- Read a value, and then what is around it. -/
def readValue? (outer : List Frame) : List Token → Option Value
  | .text s :: ts => readAfter? (.text s) outer ts
  | .openArray :: .closeArray :: ts => readAfter? (.array []) outer ts
  | .openArray :: ts => readValue? (.elements [] :: outer) ts
  | .openObject :: .closeObject :: ts => readAfter? (.object []) outer ts
  | .openObject :: .text name :: .colon :: ts => readValue? (.members [] name :: outer) ts
  | _ => none

def readAfter? (v : Value) : List Frame → List Token → Option Value
  | [], [] => some v
  | .elements read :: outer, .comma :: ts => readValue? (.elements (read ++ [v]) :: outer) ts
  | .elements read :: outer, .closeArray :: ts => readAfter? (.array (read ++ [v])) outer ts
  | .members read name :: outer, .comma :: .text next :: .colon :: ts =>
    readValue? (.members (read ++ [(name, v)]) next :: outer) ts
  | .members read name :: outer, .closeObject :: ts =>
    readAfter? (.object (read ++ [(name, v)])) outer ts
  | _, _ => none

end

def parse? (s : String) : Option Value := (tokens? s.toList).bind (readValue? [])

/-! ## Texts that are written -/

/-- The tokens of `s` are `ts`, whatever comes behind it. -/
def Lexes (s : String) (ts : List Token) : Prop :=
  ∀ rest, tokens? (s.toList ++ rest) = (tokens? rest).map (ts ++ ·)

namespace Lexes

variable {s t : String} {ts us : List Token}

theorem append (hs : Lexes s ts) (ht : Lexes t us) : Lexes (s ++ t) (ts ++ us) := by
  intro rest
  rw [String.toList_append, List.append_assoc, hs, ht, Option.map_map]
  congr 1
  funext rest
  exact (List.append_assoc ..).symm

theorem tokens?_eq (hs : Lexes s ts) : tokens? s.toList = some ts := by
  have h := hs []
  rw [List.append_nil] at h
  rw [h, tokens?, Option.map_some, List.append_nil]

end Lexes

theorem lexes_lineFeed : Lexes "\n" [] := fun rest => by
  simp [tokens?]

theorem lexes_indent (level : Nat) : Lexes (indent level) [] := by
  intro rest
  unfold indent
  generalize 2 * level = n
  induction n with
  | zero => simp
  | succ n ih => simpa [List.replicate_succ, tokens?] using ih

theorem hexValue?_hexDigit {n : Nat} (hn : n < 16) : hexValue? (hexDigit n) = some n := by
  revert n
  decide

theorem textTokens?_backslash {read rest : List Char} {c x : Char} (hc : c ≠ 'u')
    (hx : escaped? c = some x) :
    textTokens? read ('\\' :: c :: rest) = textTokens? (read ++ [x]) rest := by
  rw [textTokens?, if_neg (by decide), if_pos rfl, escapedTokens?.eq_2 _ _ _ (by simp [hc]), hx]
  rfl

theorem textTokens?_numbered {read rest : List Char} {a b c d x : Char}
    (hx : numbered? a b c d = some x) :
    textTokens? read ('\\' :: 'u' :: a :: b :: c :: d :: rest) =
      textTokens? (read ++ [x]) rest := by
  rw [textTokens?, if_neg (by decide), if_pos rfl, escapedTokens?, hx]
  rfl

theorem numbered?_control {c : Char} (hc : c.toNat < 0x20) :
    numbered? '0' '0' (hexDigit (c.toNat / 16)) (hexDigit (c.toNat % 16)) = some c := by
  have hzero : hexValue? '0' = some 0 := by decide
  have hnumber : 16 * (c.toNat / 16) + c.toNat % 16 = c.toNat := Nat.div_add_mod ..
  have hvalid : c.toNat.isValidChar := Or.inl (by omega)
  have hhigh : hexValue? (hexDigit (c.toNat / 16)) = some (c.toNat / 16) :=
    hexValue?_hexDigit (by omega)
  have hlow : hexValue? (hexDigit (c.toNat % 16)) = some (c.toNat % 16) :=
    hexValue?_hexDigit (by omega)
  simp [numbered?, hzero, hhigh, hlow, hnumber, hvalid]

theorem textTokens?_escapeChar (read : List Char) (c : Char) (rest : List Char) :
    textTokens? read (escapeChar c ++ rest) = textTokens? (read ++ [c]) rest := by
  unfold escapeChar
  split
  · exact textTokens?_backslash (by decide) rfl
  · exact textTokens?_backslash (by decide) rfl
  · exact textTokens?_backslash (by decide) rfl
  · exact textTokens?_backslash (by decide) rfl
  · exact textTokens?_backslash (by decide) rfl
  · next hquote hbackslash _ _ _ =>
    split
    · next hc =>
      have hc : c = Char.ofNat 0x08 := by rw [← hc, Char.ofNat_toNat]
      rw [hc]
      exact textTokens?_backslash (by decide) rfl
    split
    · next hc =>
      have hc : c = Char.ofNat 0x0C := by rw [← hc, Char.ofNat_toNat]
      rw [hc]
      exact textTokens?_backslash (by decide) rfl
    split
    · next hc => exact textTokens?_numbered (numbered?_control hc)
    · next hc =>
      rw [List.singleton_append, textTokens?, if_neg hquote, if_neg hbackslash, if_neg hc]

theorem textTokens?_flatMap_escapeChar (read s rest : List Char) :
    textTokens? read (s.flatMap escapeChar ++ rest) = textTokens? (read ++ s) rest := by
  induction s generalizing read with
  | nil => rw [List.flatMap_nil, List.nil_append, List.append_nil]
  | cons c s ih =>
    rw [List.flatMap_cons, List.append_assoc, textTokens?_escapeChar, ih, List.append_assoc,
      List.singleton_append]

theorem lexes_quote (s : String) : Lexes (quote s) [.text s] := by
  intro rest
  simp only [quote, String.toList_append, String.toList_ofList, List.append_assoc]
  change textTokens? [] (s.toList.flatMap escapeChar ++ '"' :: rest) = _
  rw [textTokens?_flatMap_escapeChar, List.nil_append, textTokens?, if_pos rfl,
    String.ofList_toList]
  rfl

/-! ## Values that are written -/

/-- The value `v` is read from the tokens `ts`, whatever comes behind them. -/
def Reads (ts : List Token) (v : Value) : Prop :=
  ∀ outer rest, readValue? outer (ts ++ rest) = readAfter? v outer rest

theorem reads_text (s : String) : Reads [.text s] (.text s) := fun _ _ => by
  simp [readValue?]

theorem Reads.readValue?_openArray {ts : List Token} {v : Value} (h : Reads ts v)
    (outer : List Frame) (rest : List Token) :
    readValue? outer (.openArray :: (ts ++ rest)) =
      readValue? (.elements [] :: outer) (ts ++ rest) := by
  have hv := h [] []
  rw [List.append_nil, readAfter?] at hv
  rcases ts with _ | ⟨t, ts⟩
  · cases hv
  · rw [List.cons_append, readValue?]
    rintro rest' ⟨⟩
    cases hv

def separated : List (List Token) → List Token
  | [] => []
  | ts :: tss => ts ++ tss.flatMap (.comma :: ·)

def memberTokens (m : String × List Token) : List Token := .text m.1 :: .colon :: m.2

section

variable {α : Type} {tokens : α → List Token} {value : α → Value}

theorem readAfter?_elements (hreads : ∀ x, Reads (tokens x) (value x)) (v : Value) (xs : List α)
    (read : List Value) (outer : List Frame) (rest : List Token) :
    readAfter? v (.elements read :: outer)
        ((xs.map tokens).flatMap (.comma :: ·) ++ .closeArray :: rest) =
      readAfter? (.array (read ++ v :: xs.map value)) outer rest := by
  induction xs generalizing v read with
  | nil => rfl
  | cons x xs ih =>
    rw [List.map_cons, List.flatMap_cons, List.append_assoc, List.cons_append, readAfter?, hreads,
      ih, List.append_assoc]
    rfl

theorem reads_array (hreads : ∀ x, Reads (tokens x) (value x)) (xs : List α) :
    Reads (.openArray :: separated (xs.map tokens) ++ [.closeArray]) (.array (xs.map value)) := by
  intro outer rest
  cases xs with
  | nil => simp [separated, readValue?]
  | cons x xs =>
    simp only [List.map_cons, separated, List.cons_append, List.append_assoc, List.nil_append]
    rw [(hreads x).readValue?_openArray, hreads, readAfter?_elements hreads]
    rfl

theorem readAfter?_members (hreads : ∀ x, Reads (tokens x) (value x)) (name : String) (v : Value)
    (ms : List (String × α)) (read : List (String × Value)) (outer : List Frame)
    (rest : List Token) :
    readAfter? v (.members read name :: outer)
        ((ms.map fun m => memberTokens (m.1, tokens m.2)).flatMap (.comma :: ·) ++
          .closeObject :: rest) =
      readAfter? (.object (read ++ (name, v) :: ms.map fun m => (m.1, value m.2))) outer rest := by
  induction ms generalizing name v read with
  | nil => rfl
  | cons m ms ih =>
    rw [List.map_cons, List.flatMap_cons, List.append_assoc, memberTokens, List.cons_append,
      List.cons_append, List.cons_append, readAfter?, hreads, ih, List.append_assoc]
    rfl

theorem reads_object (hreads : ∀ x, Reads (tokens x) (value x)) (ms : List (String × α)) :
    Reads (.openObject :: separated (ms.map fun m => memberTokens (m.1, tokens m.2)) ++
      [.closeObject]) (.object (ms.map fun m => (m.1, value m.2))) := by
  intro outer rest
  cases ms with
  | nil => simp [separated, readValue?]
  | cons m ms =>
    simp only [List.map_cons, separated, memberTokens, List.cons_append, List.append_assoc,
      List.nil_append]
    rw [readValue?, hreads]
    exact readAfter?_members hreads m.1 (value m.2) ms [] outer rest

end

/-! ## Records -/

section

variable {α : Type} {item : α → String} {tokens : α → List Token}

theorem lexes_indented {s : String} {ts : List Token} (hs : Lexes s ts) (level : Nat) :
    Lexes (indent level ++ s) ts :=
  (lexes_indent level).append hs

theorem lexes_intercalate (hitem : ∀ x, Lexes (item x) (tokens x)) (x : α) (xs : List α) :
    Lexes (String.intercalate ",\n" ((x :: xs).map item)) (separated ((x :: xs).map tokens)) := by
  induction xs generalizing x with
  | nil => simpa [separated] using hitem x
  | cons y ys ih =>
    have hcomma : Lexes ",\n" [.comma] := fun _ => by simp [tokens?]
    rw [List.map_cons, List.map_cons, String.intercalate_cons_cons]
    simpa [separated] using ((hitem x).append hcomma).append (ih y)

theorem lexes_block {o c : String} {opening closing : Token} (ho : Lexes o [opening])
    (hc : Lexes c [closing]) (hitem : ∀ x, Lexes (item x) (tokens x)) (level : Nat)
    (xs : List α) :
    Lexes (block o c level (xs.map item)) (opening :: separated (xs.map tokens) ++ [closing]) := by
  cases xs with
  | nil => exact ho.append hc
  | cons x xs =>
    have hlines := lexes_intercalate (fun y => lexes_indented (hitem y) (level + 1)) x xs
    have hblock := ((((ho.append lexes_lineFeed).append hlines).append lexes_lineFeed).append
      (lexes_indent level)).append hc
    rw [block, if_neg (by simp), List.map_map]
    simpa [Function.comp_def, String.append_assoc] using hblock

theorem lexes_array (hitem : ∀ x, Lexes (item x) (tokens x)) (level : Nat) (xs : List α) :
    Lexes (block "[" "]" level (xs.map item))
      (.openArray :: separated (xs.map tokens) ++ [.closeArray]) :=
  lexes_block (fun _ => by simp [tokens?]) (fun _ => by simp [tokens?]) hitem level xs

theorem lexes_object (hitem : ∀ x, Lexes (item x) (tokens x)) (level : Nat) (xs : List α) :
    Lexes (block "\x7b" "\x7d" level (xs.map item))
      (.openObject :: separated (xs.map tokens) ++ [.closeObject]) :=
  lexes_block (fun _ => by simp [tokens?]) (fun _ => by simp [tokens?]) hitem level xs

end

def Field.value : Field → Value
  | text s => .text s
  | texts l => .array (l.map .text)

def Field.tokens : Field → List Token
  | text s => [.text s]
  | texts l => .openArray :: separated (l.map fun s => [.text s]) ++ [.closeArray]

theorem Field.lexes_render (level : Nat) (f : Field) : Lexes (f.render level) f.tokens := by
  cases f with
  | text s => exact lexes_quote s
  | texts l => exact lexes_array lexes_quote level l

theorem Field.reads_tokens (f : Field) : Reads f.tokens f.value := by
  cases f with
  | text s => exact reads_text s
  | texts l => exact reads_array reads_text l

def Record.value (r : Record) : Value := .object (r.map fun f => (f.1, f.2.value))

def Record.tokens (r : Record) : List Token :=
  .openObject :: separated (r.map fun f => memberTokens (f.1, f.2.tokens)) ++ [.closeObject]

theorem lexes_renderRecord (level : Nat) (r : Record) : Lexes (renderRecord level r) r.tokens := by
  refine lexes_object (fun f => ?_) level r
  have hcolon : Lexes ": " [.colon] := fun _ => by simp [tokens?]
  exact ((lexes_quote f.1).append hcolon).append (f.2.lexes_render (level + 1))

/-- A list of records is read as it has been written. -/
theorem parse?_render (rs : List Record) :
    parse? (render rs) = some (.array (rs.map Record.value)) := by
  have hlexes := lexes_array (lexes_renderRecord 1) 0 rs
  have hreads := reads_array (fun r : Record => reads_object Field.reads_tokens r) rs [] []
  rw [List.append_nil, readAfter?] at hreads
  rw [parse?, render, hlexes.tokens?_eq]
  exact hreads

example : parse? "[\"a\\u000a\", \x7b\"b\": []\x7d]" =
    some (.array [.text "a\n", .object [("b", .array [])]]) := by
  cbv

end CompileDriver.Json
