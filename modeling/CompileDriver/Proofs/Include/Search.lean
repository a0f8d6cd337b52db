import CompileDriver.Proofs.Include.Grammar
import CompileDriver.Proofs.Include.Lines
import CompileDriver.Proofs.Include.OnePass

/-! # Searching a text for directives

A search goes through the whole text from left to right, takes a directive where one stands at the
start of a line, and goes on behind it. No directive goes beyond its line, so the search finds what
the lines name one by one, and texts without comments can be searched apart.
-/

namespace CompileDriver.Include

/-- A search from left to right; `atStart` tells whether it has come to the start of a line. -/
inductive Searched : (atStart : Bool) → List Char → List String → Prop
  | finished {atStart : Bool} : Searched atStart [] []
  | found {d : Directive} {header : String} {rest : List Char} {names : List String} :
      d.IsFor header → Searched false rest names → Searched true (d.text ++ rest) (header :: names)
  | skipped {atStart : Bool} {c : Char} {s : List Char} {names : List String} :
      ¬ (atStart = true ∧ ∃ d : Directive, d.text <+: c :: s) → Searched (c == '\n') s names →
      Searched atStart (c :: s) names

variable {s t : List Char} {c : Char} {atStart : Bool} {names : List String}

/-! ## Lines -/

theorem lines_lineFeed (s : List Char) : Text.lines ('\n' :: s) = [] :: Text.lines s := rfl

theorem exists_lines (s : List Char) :
    ∃ line lines, Text.lines s = line :: lines ∧ line <+: s ∧ '\n' ∉ line := by
  obtain ⟨line, lines, hlines⟩ := List.exists_cons_of_ne_nil (Text.pieces_ne_nil '\n' s)
  refine ⟨line, lines, hlines, ?_, Text.not_mem_of_mem_pieces (hlines ▸ List.mem_cons_self)⟩
  have hjoin := Text.joinPieces_pieces '\n' s
  rw [hlines] at hjoin
  rw [← hjoin]
  cases lines with
  | nil => exact List.prefix_rfl
  | cons => exact List.prefix_append _ _

theorem exists_lines_append (ht : '\n' ∉ t) (s : List Char) :
    ∃ line lines, Text.lines s = line :: lines ∧ Text.lines (t ++ s) = (t ++ line) :: lines := by
  induction t with
  | nil =>
    obtain ⟨line, lines, hlines, -⟩ := exists_lines s
    exact ⟨line, lines, hlines, hlines⟩
  | cons c t ih =>
    obtain ⟨hc, ht⟩ := not_or.1 (List.mem_cons.not.1 ht)
    obtain ⟨line, lines, hlines, happend⟩ := ih ht
    obtain ⟨line', lines', hlines', hcons⟩ := exists_lines_cons (Ne.symm hc) (t ++ s)
    rw [happend] at hlines'
    obtain ⟨rfl, rfl⟩ := List.cons.inj hlines'
    exact ⟨line, lines, hlines, hcons⟩

/-! ## Directives in lines -/

namespace Directive

theorem lineFeed_not_mem_text (d : Directive) : '\n' ∉ d.text := by
  obtain ⟨hindent, hgap, hgap'⟩ := d.isGap
  have hgaps {s : List Char} (hs : IsGap s) : '\n' ∉ s := fun hmem => by simpa using hs _ hmem
  have hword : '\n' ∉ d.word.toList := by
    have hmem := d.word_mem
    simp only [List.mem_cons, List.not_mem_nil, or_false] at hmem
    rcases hmem with hword | hword <;> rw [hword] <;> decide
  have hdelimiters : d.opening ≠ '\n' ∧ d.closing ≠ '\n' := by
    have hmem := d.delimiters_mem
    simp only [List.mem_cons, Prod.mk.injEq, List.not_mem_nil, or_false] at hmem
    rcases hmem with ⟨ho, hc⟩ | ⟨ho, hc⟩ <;> rw [ho, hc] <;> decide
  simp [text, hgaps hindent, hgaps hgap, hgaps hgap', hword, hdelimiters.1.symm,
    hdelimiters.2.symm, d.lineFeed_not_mem]

theorem text_ne_nil (d : Directive) : d.text ≠ [] := by
  simp [text]

theorem exists_isFor (d : Directive) : ∃ header, d.IsFor header :=
  ⟨String.ofList (Text.trim d.name), by simp [IsFor, Text.trims_iff]⟩

end Directive

/-- What the lines name, without the line in the middle of which one stands. -/
def namedFrom (atStart : Bool) (s : List Char) : List String :=
  (if atStart then Text.lines s else (Text.lines s).tail).filterMap directive?

theorem Searched.eq_namedFrom (h : Searched atStart s names) : names = namedFrom atStart s := by
  induction h with
  | @finished atStart => cases atStart <;> rfl
  | @found d header rest names hfor _ ih =>
    obtain ⟨line, lines, hlines, happend⟩ := exists_lines_append d.lineFeed_not_mem_text rest
    have hmem : d.text ++ line ∈ Text.lines (d.text ++ rest) := by
      rw [happend]
      exact List.mem_cons_self
    have hline := Text.not_mem_of_mem_pieces hmem
    have hheader : directive? (d.text ++ line) = some header :=
      (directive?_eq_some_iff hline).2 ⟨d, List.prefix_append _ _, hfor⟩
    rw [namedFrom, if_pos rfl, happend, List.filterMap_cons_some hheader, ih, namedFrom,
      if_neg Bool.false_ne_true, hlines, List.tail_cons]
  | @skipped atStart c s names hnone _ ih =>
    by_cases hc : c = '\n'
    · subst hc
      rw [ih, namedFrom, namedFrom, lines_lineFeed]
      cases atStart <;> rfl
    · obtain ⟨line, lines, hlines, hcons⟩ := exists_lines_cons hc s
      rw [ih, namedFrom, namedFrom, hcons, hlines, if_neg (by simpa using hc)]
      cases atStart with
      | false => rfl
      | true =>
        obtain ⟨line', lines', hlines', hprefix, hlineFeed⟩ := exists_lines (c :: s)
        obtain ⟨rfl, -⟩ := List.cons.inj (hcons.symm.trans hlines')
        have hline : directive? (c :: line) = none := by
          refine Option.eq_none_iff_forall_ne_some.2 fun header hheader => ?_
          obtain ⟨d, hd, -⟩ := (directive?_eq_some_iff hlineFeed).1 hheader
          exact hnone ⟨rfl, d, hd.trans hprefix⟩
        rw [if_pos rfl, List.filterMap_cons_none hline, List.tail_cons]

theorem exists_searched (atStart : Bool) (s : List Char) : ∃ names, Searched atStart s names := by
  induction hn : s.length using Nat.strongRecOn generalizing atStart s with
  | ind n ih =>
    cases s with
    | nil => exact ⟨[], .finished⟩
    | cons c s =>
      by_cases hfound : atStart = true ∧ ∃ d : Directive, d.text <+: c :: s
      · obtain ⟨rfl, d, rest, hrest⟩ := hfound
        have hpos := List.length_pos_of_ne_nil d.text_ne_nil
        have hless : rest.length < n := by
          rw [← hn, ← hrest, List.length_append]
          omega
        obtain ⟨names, hnames⟩ := ih _ hless false rest rfl
        obtain ⟨header, hheader⟩ := d.exists_isFor
        exact ⟨header :: names, hrest ▸ .found hheader hnames⟩
      · obtain ⟨names, hnames⟩ := ih _ (by simp [← hn]) (c == '\n') s rfl
        exact ⟨names, .skipped hfound hnames⟩

/-- A search of a whole text finds what its lines name, and nothing else. -/
theorem searched_iff : Searched true s names ↔ names = headers s := by
  constructor
  · exact Searched.eq_namedFrom
  · rintro rfl
    obtain ⟨names, h⟩ := exists_searched true s
    have heq : names = headers s := h.eq_namedFrom
    rwa [← heq]

/-! ## Texts without comments -/

def HasNoComment (s : List Char) : Prop := ¬ ['/', '/'] <:+: s ∧ ¬ ['/', '*'] <:+: s

instance (s : List Char) : Decidable (HasNoComment s) := inferInstanceAs (Decidable (_ ∧ _))

theorem not_infix_of_cons (h : ¬ t <:+: c :: s) : ¬ t <:+: s :=
  fun hs => h (hs.trans (List.suffix_cons c s).isInfix)

theorem removeBlocks_append (hs : ¬ ['/', '*'] <:+: s) (ht : ∀ u, t ≠ '*' :: u) :
    removeBlocks false (s ++ t) = s ++ removeBlocks false t := by
  induction s with
  | nil => rfl
  | cons c s ih =>
    have hstar : ∀ u, c = '/' → s ++ t ≠ '*' :: u := by
      rintro u rfl hu
      cases s with
      | nil => exact ht u hu
      | cons d s =>
        obtain ⟨rfl, -⟩ := List.cons.inj hu
        exact hs (List.prefix_append ['/', '*'] s).isInfix
    rw [List.cons_append, removeBlocks_cons hstar, ih (not_infix_of_cons hs), List.cons_append]

theorem removeLineComments_append (hs : ¬ ['/', '/'] <:+: s) (ht : ∀ u, t ≠ '/' :: u) :
    removeLineComments false (s ++ t) = s ++ removeLineComments false t := by
  induction s with
  | nil => rfl
  | cons c s ih =>
    have hslash : ∀ u, c = '/' → s ++ t = '/' :: u → False := by
      rintro u rfl hu
      cases s with
      | nil => exact ht u hu
      | cons d s =>
        obtain ⟨rfl, -⟩ := List.cons.inj hu
        exact hs (List.prefix_append ['/', '/'] s).isInfix
    rw [List.cons_append, removeLineComments, ih (not_infix_of_cons hs), List.cons_append]
    exact hslash

theorem withoutComments_of_hasNoComment (hs : HasNoComment s) : withoutComments s = s := by
  have hblocks : removeBlocks false s = s := by
    simpa [removeBlocks] using removeBlocks_append hs.2 fun u => (List.cons_ne_nil '*' u).symm
  have hlines : removeLineComments false s = s := by
    simpa [removeLineComments] using
      removeLineComments_append hs.1 fun u => (List.cons_ne_nil '/' u).symm
  rw [withoutComments, hblocks, hlines]

theorem withoutComments_append (hs : HasNoComment s) (t : List Char) :
    withoutComments (s ++ '\n' :: t) = s ++ '\n' :: withoutComments t := by
  have hblock : removeBlocks false ('\n' :: t) = '\n' :: removeBlocks false t := rfl
  rw [withoutComments, removeBlocks_append hs.2 (by simp), hblock,
    removeLineComments_append hs.1 (by simp)]
  rfl

/-- In a text without comments the lines are read one by one, and each names at most one header: the
one of the directive that it begins with. A search of the whole text finds the same. What follows
on another line, with or without comments, is read by itself. -/
theorem scan_line_by_line (source : String) (hsource : HasNoComment source.toList) :
    (∃ found : List (Option String),
      List.Forall₂ (fun line name? => ∀ header, name? = some header ↔
        ∃ d : Directive, d.text <+: line ∧ d.IsFor header) (Text.lines source.toList) found ∧
      scan source = found.reduceOption) ∧
    (∀ names, Searched true source.toList names ↔ names = scan source) ∧
    ∀ other : String, scan (source ++ "\n" ++ other) = scan source ++ scan other := by
  have hscan : scan source = headers source.toList := by
    rw [scan, withoutComments_of_hasNoComment hsource, headers]
  refine ⟨⟨(Text.lines source.toList).map directive?, ?_, ?_⟩, ?_, ?_⟩
  · rw [List.forall₂_map_right_iff, List.forall₂_same]
    intro line hline header
    exact directive?_eq_some_iff (Text.not_mem_of_mem_pieces hline)
  · change scan source = ((Text.lines source.toList).map directive?).filterMap id
    rw [hscan, headers, List.filterMap_map]
    rfl
  · intro names
    rw [hscan, searched_iff]
  · intro other
    have htext : (source ++ "\n" ++ other).toList = source.toList ++ '\n' :: other.toList := by
      simp
    rw [hscan, scan, htext, withoutComments_append hsource]
    exact headers_append _ _

/-- A quote that is opened in one line is not closed in the next. -/
theorem scan_line_by_line_open_quote :
    let source := "  #\tinclude \" a.h \" int a;\n#include \"b.h\n\" #include <c.h>\n#import <>\n#import<d.h>\r"
    HasNoComment source.toList ∧ Searched true source.toList ["a.h", "d.h"] ∧
      ∀ other : String, scan (source ++ "\n" ++ other) = ["a.h", "d.h"] ++ scan other := by
  intro source
  have hsource : HasNoComment source.toList := by decide +kernel
  have hscan : scan source = ["a.h", "d.h"] := by decide +kernel
  obtain ⟨-, hsearched, happend⟩ := scan_line_by_line source hsource
  rw [hscan] at happend
  exact ⟨hsource, (hsearched _).2 hscan.symm, happend⟩

end CompileDriver.Include
