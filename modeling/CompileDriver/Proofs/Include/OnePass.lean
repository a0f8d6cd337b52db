import CompileDriver.Include

/-! # Comments read in one pass

From left to right, a comment begins where two slashes or a closed block comment come first, and
a comment opens no other. Removing all block comments before the line comments gives the same
lines, unless a block comment that begins in a line comment takes the end of the line with it.
-/

namespace CompileDriver.Include

inductive Mode
  | code
  | line
  | block
  deriving DecidableEq

/-- The text with each comment replaced by its line feeds, in one pass. -/
def blankComments : Mode → List Char → List Char
  | _, [] => []
  | .code, '/' :: '/' :: s => blankComments .line s
  | .code, '/' :: '*' :: s =>
    if isClosed s then blankComments .block s else '/' :: '*' :: blankComments .code s
  | .code, c :: s => c :: blankComments .code s
  | .line, c :: s => if c = '\n' then c :: blankComments .code s else blankComments .line s
  | .block, '*' :: '/' :: s => blankComments .code s
  | .block, c :: s =>
    if c = '\n' then c :: blankComments .block s else blankComments .block s

/-- The headers that the lines of a text name. -/
def headers (s : List Char) : List String := (Text.lines s).filterMap directive?

/-- The text with nothing left in its block comments, which are found before line comments. -/
def emptyBlocks : (inside : Bool) → List Char → List Char
  | _, [] => []
  | false, '/' :: '*' :: s =>
    if isClosed s then '/' :: '*' :: emptyBlocks true s else '/' :: '*' :: s
  | false, c :: s => c :: emptyBlocks false s
  | true, '*' :: '/' :: s => '*' :: '/' :: emptyBlocks false s
  | true, _ :: s => emptyBlocks true s

/-- How much of a line comment has been read. -/
inductive Place
  | code
  /-- The first slash, and then block comments. -/
  | slash
  | line

/-- Whether a block comment that begins in a line comment takes the end of the line, or takes the
second slash and leaves no other behind the first. -/
def diverges : Place → (inside : Bool) → List Char → Bool
  | .slash, _, [] => true
  | _, _, [] => false
  | .code, false, '/' :: '/' :: '*' :: s => isClosed s && diverges .slash true s
  | .code, false, '/' :: '/' :: s => diverges .line false s
  | p, false, '/' :: '*' :: s => isClosed s && diverges p true s
  | .slash, false, '/' :: s => diverges .line false s
  | .slash, false, _ :: _ => true
  | p, true, '*' :: '/' :: s => diverges p false s
  | .code, inside, _ :: s => diverges .code inside s
  | p, inside, c :: s =>
    if c = '\n' then inside || diverges .code false s else diverges p inside s

namespace Place

def mode : Place → (inside : Bool) → Mode
  | code, false => .code
  | code, true => .block
  | _, _ => .line

/-- What the second pass leaves of the rest of a text. -/
def strip : Place → List Char → List Char
  | code, s => removeLineComments false s
  | slash, s => removeLineComments false ('/' :: s)
  | line, s => removeLineComments true s

end Place

variable {c : Char} {s w : List Char} {p : Place} {inside : Bool}

/-! ## Closed block comments -/

theorem isClosed_cons (c : Char) (h : isClosed s = true) : isClosed (c :: s) = true := by
  unfold isClosed
  split
  case h_1 => rfl
  case h_2 heq => cases heq; exact h
  case h_3 => contradiction

theorem isClosed_append (u : List Char) (h : isClosed w = true) : isClosed (u ++ w) = true := by
  induction u with
  | nil => exact h
  | cons c u ih => exact isClosed_cons c ih

theorem not_isClosed_of_cons (h : ¬ isClosed (c :: s) = true) : ¬ isClosed s = true :=
  fun hs => h (isClosed_cons c hs)

theorem exists_emptyBlocks_of_isClosed (h : isClosed w = true) :
    ∃ v, emptyBlocks true w = '*' :: '/' :: emptyBlocks false v := by
  fun_induction isClosed w
  case case1 v => exact ⟨v, rfl⟩
  case case2 c s hc ih =>
    obtain ⟨v, hv⟩ := ih h
    exact ⟨v, by simpa [emptyBlocks] using hv⟩
  case case3 => contradiction

/-- Without a closed block comment the second pass is the one pass. -/
theorem removeLineComments_of_not_isClosed {m : Mode} (hm : m ≠ .block)
    (h : ¬ isClosed s = true) : removeLineComments (m = .line) s = blankComments m s := by
  fun_induction blankComments m s
  case case1 m => simp [removeLineComments]
  case case2 s ih => exact ih nofun (not_isClosed_of_cons (not_isClosed_of_cons h))
  case case3 s hs ih => exact absurd hs (not_isClosed_of_cons (not_isClosed_of_cons h))
  case case4 s hs ih => exact congrArg ('/' :: '*' :: ·) (ih hm hs)
  case case5 c s hslash hstar ih =>
    rw [← ih hm (not_isClosed_of_cons h)]
    simp [removeLineComments]
  case case6 s ih => exact congrArg ('\n' :: ·) (ih nofun (not_isClosed_of_cons h))
  case case7 c s hc ih =>
    rw [← ih nofun (not_isClosed_of_cons h)]
    simp [removeLineComments, hc]
  all_goals contradiction

/-! ## Texts that both readings take alike -/

theorem removeBlocks_cons (h : ∀ t, c = '/' → s ≠ '*' :: t) :
    removeBlocks false (c :: s) = c :: removeBlocks false s := by
  rw [removeBlocks]
  exact h

theorem removeBlocks_ne (h : ∀ t, s ≠ '/' :: t) (t : List Char) :
    removeBlocks false s ≠ '/' :: t := by
  cases s with
  | nil => exact nofun
  | cons c s =>
    have hc : c ≠ '/' := fun hc => h s (by rw [hc])
    rw [removeBlocks_cons fun _ hc' => absurd hc' hc]
    exact fun ht => hc (List.cons.inj ht).1

/-- A text on which the two passes do not diverge is left the same by them and by the one pass. -/
theorem strip_removeBlocks (h : diverges p inside s = false) :
    p.strip (removeBlocks inside s) = blankComments (p.mode inside) s := by
  fun_induction diverges p inside s
  case case1 | case7 => contradiction
  case case2 inside p hp =>
    cases p
    case slash => exact absurd rfl hp
    all_goals cases inside <;> rfl
  case case3 s ih =>
    cases hs : isClosed s with
    | true =>
      have ih := ih (by simpa [hs] using h)
      simpa [Place.strip, Place.mode, removeBlocks, blankComments, hs] using ih
    | false =>
      -- from here on the first pass finds nothing
      have hline := removeLineComments_of_not_isClosed (m := .line) nofun (Bool.eq_false_iff.1 hs)
      simp [Place.strip, Place.mode, removeBlocks, removeLineComments, blankComments, hs, ← hline]
  case case4 s hs ih =>
    rw [removeBlocks_cons (by simp), removeBlocks_cons fun t _ => hs t]
    exact ih h
  case case5 p s ih =>
    cases hs : isClosed s with
    | true =>
      have ih := ih (by simpa [hs] using h)
      cases p <;> simpa [Place.strip, Place.mode, removeBlocks, blankComments, hs] using ih
    | false =>
      have hcode := removeLineComments_of_not_isClosed (m := .code) nofun (Bool.eq_false_iff.1 hs)
      have hline := removeLineComments_of_not_isClosed (m := .line) nofun (Bool.eq_false_iff.1 hs)
      cases p <;>
        simp [Place.strip, Place.mode, removeBlocks, removeLineComments, blankComments, hs,
          ← hcode, ← hline]
  case case6 s hs ih =>
    rw [removeBlocks_cons fun t _ => hs t]
    simpa [Place.strip, Place.mode, removeLineComments, blankComments] using ih h
  case case8 p s ih =>
    cases p <;> simpa [Place.mode, removeBlocks, blankComments] using ih h
  case case9 inside c s _ hslash hstar hclose ih =>
    have ih := ih h
    cases inside with
    | false =>
      have hslash (t) : c = '/' → s ≠ '/' :: t := hslash t rfl
      have hstar (t) : c = '/' → s ≠ '*' :: t := hstar t rfl
      have hremoved : ∀ t, c = '/' → removeBlocks false s ≠ '/' :: t :=
        fun t hc => removeBlocks_ne (hslash · hc) t
      rw [Place.mode, removeBlocks_cons hstar, Place.strip, removeLineComments, blankComments]
      · exact congrArg (c :: ·) ih
      all_goals assumption
    | true =>
      have hclose (t) : c = '*' → s ≠ '/' :: t := hclose t rfl
      by_cases hc : c = '\n'
      · simpa [Place.strip, Place.mode, removeBlocks, removeLineComments, blankComments, hc]
          using ih
      · simpa [Place.strip, Place.mode, removeBlocks, blankComments, hclose, hc] using ih
  case case10 p inside s hopen hp _ _ _ _ _ ih =>
    -- the end of a line comment, which no block comment takes
    rw [Bool.or_eq_false_iff] at h
    obtain ⟨rfl, h⟩ := h
    cases p
    case code => exact absurd rfl hp
    case slash => exact absurd rfl (hopen rfl)
    case line => exact congrArg ('\n' :: ·) (ih h)
  case case11 p inside c s _ _ hopen _ hslash hclose hp hc ih =>
    have ih := ih h
    cases inside with
    | false =>
      have hopen (t) : c = '/' → s ≠ '*' :: t := hopen t rfl
      cases p
      case code => exact absurd rfl hp
      case slash => exact absurd rfl (hslash rfl)
      case line =>
        rw [removeBlocks_cons hopen]
        simpa [Place.strip, Place.mode, removeLineComments, blankComments, hc] using ih
    | true =>
      have hclose (t) : c = '*' → s ≠ '/' :: t := hclose t rfl
      cases p
      case code => exact absurd rfl hp
      all_goals simpa [Place.strip, Place.mode, removeBlocks, blankComments, hclose, hc] using ih

/-! ## Texts that they do not -/

/-- `u` leads into a line comment, and all that stands before a closed block comment there is read
the same way, whatever the block comment says. -/
def Leads (m : Mode) (inside : Bool) (u : List Char) : Prop :=
  ∃ a b e, ∀ w, isClosed w = true →
    removeBlocks inside (u ++ '/' :: '*' :: w) = a ++ removeBlocks true w ∧
      blankComments m (u ++ '/' :: '*' :: w) = b ++ blankComments .line w ∧
      emptyBlocks inside (u ++ '/' :: '*' :: w) = e ++ emptyBlocks true w

/-- Which character comes next does not depend on `w`, even if `u` is empty. -/
theorem append_ne_cons {u : List Char} {x d : Char} (h : ∀ t, u ++ x :: w ≠ d :: t)
    (v t : List Char) : u ++ x :: v ≠ d :: t := by
  cases u with
  | nil => exact fun heq => h w (by rw [List.nil_append, (List.cons.inj heq).1])
  | cons c u => exact fun heq => h (u ++ x :: w) (by rw [List.cons_append, (List.cons.inj heq).1])

/-- The two passes diverge at a closed block comment that begins in a line comment. -/
theorem exists_leads (hp : p = .code ∨ p = .line ∧ inside = false)
    (h : diverges p inside s = true) :
    ∃ u w, s = u ++ '/' :: '*' :: w ∧ isClosed w = true ∧ Leads (p.mode inside) inside u := by
  fun_induction diverges p inside s
  case case1 | case6 | case7 => simp at hp
  case case2 => contradiction
  case case3 s ih =>
    rw [Bool.and_eq_true] at h
    refine ⟨['/'], s, rfl, h.1, ['/'], [], ['/', '/', '*'], fun w hw => ?_⟩
    simp [removeBlocks, emptyBlocks, blankComments, Place.mode, hw]
  case case4 s hs ih =>
    obtain ⟨u, w, rfl, hw, a, b, e, hu⟩ := ih (Or.inr ⟨rfl, rfl⟩) h
    refine ⟨'/' :: '/' :: u, w, rfl, hw, '/' :: '/' :: a, b, '/' :: '/' :: e, fun w hw => ?_⟩
    simpa [removeBlocks, emptyBlocks, blankComments, Place.mode, append_ne_cons hs] using hu w hw
  case case5 p s ih =>
    rw [Bool.and_eq_true] at h
    obtain rfl | ⟨rfl, -⟩ := hp
    · obtain ⟨u, w, rfl, hw, a, b, e, hu⟩ := ih (Or.inl rfl) h.2
      refine ⟨'/' :: '*' :: u, w, rfl, hw, a, b, '/' :: '*' :: e, fun w hw => ?_⟩
      have hclosed : isClosed (u ++ '/' :: '*' :: w) = true :=
        isClosed_append u (isClosed_cons '/' (isClosed_cons '*' hw))
      simpa [removeBlocks, emptyBlocks, blankComments, Place.mode, hclosed] using hu w hw
    · refine ⟨[], s, rfl, h.1, [], [], ['/', '*'], fun w hw => ?_⟩
      simp [removeBlocks, emptyBlocks, blankComments, Place.mode, hw]
  case case8 p s ih =>
    obtain rfl | ⟨-, h⟩ := hp
    · obtain ⟨u, w, rfl, hw, a, b, e, hu⟩ := ih (Or.inl rfl) h
      refine ⟨'*' :: '/' :: u, w, rfl, hw, a, b, '*' :: '/' :: e, fun w hw => ?_⟩
      simpa [removeBlocks, emptyBlocks, blankComments, Place.mode] using hu w hw
    · contradiction
  case case9 inside c s _ hslash hstar hclose ih =>
    obtain ⟨u, w, rfl, hw, a, b, e, hu⟩ := ih (Or.inl rfl) h
    cases inside with
    | false =>
      have hslash (hc : c = '/') := append_ne_cons fun t => hslash t rfl hc
      have hstar (hc : c = '/') := append_ne_cons fun t => hstar t rfl hc
      refine ⟨c :: u, w, rfl, hw, c :: a, c :: b, c :: e, fun w hw => ?_⟩
      simpa +contextual [removeBlocks, emptyBlocks, blankComments, Place.mode, hslash, hstar]
        using hu w hw
    | true =>
      have hclose (hc : c = '*') := append_ne_cons fun t => hclose t rfl hc
      by_cases hc : c = '\n'
      · refine ⟨c :: u, w, rfl, hw, c :: a, c :: b, e, fun w hw => ?_⟩
        simpa [removeBlocks, emptyBlocks, blankComments, Place.mode, hc] using hu w hw
      · refine ⟨c :: u, w, rfl, hw, a, b, e, fun w hw => ?_⟩
        simpa +contextual [removeBlocks, emptyBlocks, blankComments, Place.mode, hclose, hc]
          using hu w hw
  case case10 p inside s _ _ _ _ _ _ _ ih =>
    obtain rfl | ⟨rfl, rfl⟩ := hp
    · contradiction
    obtain ⟨u, w, rfl, hw, a, b, e, hu⟩ := ih (Or.inl rfl) h
    refine ⟨'\n' :: u, w, rfl, hw, '\n' :: a, '\n' :: b, '\n' :: e, fun w hw => ?_⟩
    simpa [removeBlocks, emptyBlocks, blankComments, Place.mode] using hu w hw
  case case11 p inside c s _ _ hopen _ _ _ _ hc ih =>
    obtain rfl | ⟨rfl, rfl⟩ := hp
    · contradiction
    obtain ⟨u, w, rfl, hw, a, b, e, hu⟩ := ih (Or.inr ⟨rfl, rfl⟩) h
    have hopen (hc : c = '/') := append_ne_cons fun t => hopen t rfl hc
    refine ⟨c :: u, w, rfl, hw, c :: a, b, c :: e, fun w hw => ?_⟩
    simpa +contextual [removeBlocks, emptyBlocks, blankComments, Place.mode, hopen, hc]
      using hu w hw

/-! ## Lines -/

theorem headers_append (a b : List Char) : headers (a ++ '\n' :: b) = headers a ++ headers b := by
  rw [headers, Text.lines, Text.pieces_append, List.filterMap_append]
  rfl

/-! ## A directive where the readings diverge -/

/-- The rest of a block comment that has a directive on a line of its own, and then `v`. -/
def directiveInside (name : Char) (v : List Char) : List Char :=
  '\n' :: ("#include <".toList ++ name :: '>' :: '\n' :: '*' :: '/' :: v)

section
variable {name : Char} (hname : name = 'a' ∨ name = 'b')
include hname

theorem isClosed_directiveInside (v : List Char) : isClosed (directiveInside name v) = true := by
  rcases hname with rfl | rfl <;> rfl

theorem removeBlocks_directiveInside (v : List Char) :
    removeBlocks true (directiveInside name v) = '\n' :: '\n' :: removeBlocks false v := by
  rcases hname with rfl | rfl <;> rfl

theorem emptyBlocks_directiveInside (v : List Char) :
    emptyBlocks true (directiveInside name v) = '*' :: '/' :: emptyBlocks false v := by
  rcases hname with rfl | rfl <;> rfl

theorem headers_directiveInside (b v : List Char) :
    headers (b ++ blankComments .line (directiveInside name v)) =
      headers b ++ String.ofList [name] :: headers (blankComments .code ('*' :: '/' :: v)) := by
  have hline : blankComments .line (directiveInside name v) =
      '\n' :: ("#include <".toList ++ [name, '>'] ++
        '\n' :: blankComments .code ('*' :: '/' :: v)) := by
    rcases hname with rfl | rfl <;> rfl
  have hheader : headers ("#include <".toList ++ [name, '>']) = [String.ofList [name]] := by
    rcases hname with rfl | rfl <;> rfl
  rw [hline, headers_append, headers_append, hheader, List.singleton_append]

end

theorem exists_scan_ne {u : List Char} (hu : Leads .code false u) (hw : isClosed w = true) :
    ∃ t : String, emptyBlocks false t.toList = emptyBlocks false (u ++ '/' :: '*' :: w) ∧
      scan t ≠ headers (blankComments .code t.toList) := by
  obtain ⟨a, b, e, hu⟩ := hu
  obtain ⟨v, hv⟩ := exists_emptyBlocks_of_isClosed hw
  have hempty {name : Char} (h : name = 'a' ∨ name = 'b') :
      emptyBlocks false (u ++ '/' :: '*' :: directiveInside name v) =
        emptyBlocks false (u ++ '/' :: '*' :: w) := by
    rw [(hu _ (isClosed_directiveInside h v)).2.2, (hu w hw).2.2, hv,
      emptyBlocks_directiveInside h]
  have hscan {name : Char} (h : name = 'a' ∨ name = 'b') :
      scan (String.ofList (u ++ '/' :: '*' :: directiveInside name v)) =
        headers (removeLineComments false (a ++ '\n' :: '\n' :: removeBlocks false v)) := by
    rw [scan, String.toList_ofList, withoutComments, (hu _ (isClosed_directiveInside h v)).1,
      removeBlocks_directiveInside h, headers]
  have hheaders {name : Char} (h : name = 'a' ∨ name = 'b') :
      headers (blankComments .code (u ++ '/' :: '*' :: directiveInside name v)) =
        headers b ++ String.ofList [name] :: headers (blankComments .code ('*' :: '/' :: v)) := by
    rw [(hu _ (isClosed_directiveInside h v)).2.1, headers_directiveInside h]
  -- the two passes find the same headers whichever name stands inside, and one is the wrong one
  by_cases hsame : headers (removeLineComments false (a ++ '\n' :: '\n' :: removeBlocks false v)) =
      headers b ++ String.ofList ['a'] :: headers (blankComments .code ('*' :: '/' :: v))
  · refine ⟨String.ofList (u ++ '/' :: '*' :: directiveInside 'b' v), ?_, ?_⟩
    · rw [String.toList_ofList, hempty (Or.inr rfl)]
    · rw [String.toList_ofList, hscan (Or.inr rfl), hheaders (Or.inr rfl), hsame]
      simp
  · refine ⟨String.ofList (u ++ '/' :: '*' :: directiveInside 'a' v), ?_, ?_⟩
    · rw [String.toList_ofList, hempty (Or.inl rfl)]
    · rwa [String.toList_ofList, hscan (Or.inl rfl), hheaders (Or.inl rfl)]

/-! ## Both readings -/

/-- Both readings name the same headers in a text where they do not diverge. Where they do, the two
passes misread the text, or one that differs from it only inside its block comments. -/
theorem scan_eq_headers_unless_diverges (source : String) :
    (diverges .code false source.toList = false →
      scan source = headers (blankComments .code source.toList)) ∧
    (diverges .code false source.toList = true →
      ∃ t : String, emptyBlocks false t.toList = emptyBlocks false source.toList ∧
        scan t ≠ headers (blankComments .code t.toList)) := by
  constructor
  · intro h
    exact congrArg headers (strip_removeBlocks h)
  · intro h
    obtain ⟨u, w, hs, hw, hu⟩ := exists_leads (Or.inl rfl) h
    rw [hs]
    exact exists_scan_ne hu hw

example : diverges .code false "//****//\n// src/*.c */\n/* // */ int a;".toList = false := by
  decide +kernel

/-- A glob in a line comment hides all that stands before the end of the next block comment. -/
theorem scan_ne_headers_glob :
    let source := "// sources: src/*.c\n#include \"a.h\"\n/* end */\n#include \"b.h\"\n"
    scan source = ["b.h"] ∧ headers (blankComments .code source.toList) = ["a.h", "b.h"] := by
  decide +kernel

end CompileDriver.Include
