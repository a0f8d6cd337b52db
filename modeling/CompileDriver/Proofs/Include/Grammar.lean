import CompileDriver.Include
import CompileDriver.Proofs.Text.Cutting

/-! # Lines that name headers

A directive is a `#`, the word `include` or `import`, and a header between quotes or brackets, with
spaces and tabs in between. A line names a header exactly if it begins with a directive.
-/

namespace CompileDriver

namespace Include

variable {s t line word : List Char} {c : Char} {header : String}

/-! ## Directives -/

def IsGap (s : List Char) : Prop := ∀ c ∈ s, c = ' ' ∨ c = '\t'

/-- A directive in its parts, in the order in which they are written. -/
structure Directive where
  indent : List Char
  gap : List Char
  word : String
  gap' : List Char
  opening : Char
  name : List Char
  closing : Char
  isGap : IsGap indent ∧ IsGap gap ∧ IsGap gap'
  word_mem : word ∈ ["include", "import"]
  delimiters_mem : (opening, closing) ∈ [('"', '"'), ('<', '>')]
  name_ne_nil : name ≠ []
  closing_not_mem : closing ∉ name
  lineFeed_not_mem : '\n' ∉ name

namespace Directive

def text (d : Directive) : List Char :=
  d.indent ++ '#' :: (d.gap ++ (d.word.toList ++ (d.gap' ++ d.opening :: (d.name ++ [d.closing]))))

/-- Whether `header` stands between the delimiters, with blank characters around it. -/
def IsFor (d : Directive) (header : String) : Prop := Text.Trims d.name header.toList

end Directive

/-! ## Reading a line -/

theorem skipSpaces_eq_iff : skipSpaces s = t ↔
    ∃ gap, s = gap ++ t ∧ IsGap gap ∧ ∀ c, t.head? = some c → c ≠ ' ' ∧ c ≠ '\t' := by
  simp [skipSpaces, dropWhile_eq_iff, IsGap]

theorem after?_eq_some_iff : after? word s = some t ↔ s = word ++ t := by
  fun_induction after? word s with
  | case1 s => simp
  | case2 => simp
  | case3 c word s ih => simpa using ih
  | case4 w word c s hne => simp [Ne.symm hne]

theorem header?_eq_some_iff : header? c s = some header ↔
    ∃ name rest, s = name ++ c :: rest ∧ c ∉ name ∧ name ≠ [] ∧
      Text.Trims name header.toList := by
  simp only [Text.trims_iff]
  rw [header?]
  cases hcut : Text.cutAt c s with
  | none =>
    refine iff_of_false nofun ?_
    rintro ⟨name, rest, hs, hname, -⟩
    rw [Text.cutAt_eq_some_iff.2 ⟨hs, hname⟩] at hcut
    cases hcut
  | some cut =>
    obtain ⟨name, rest⟩ := cut
    constructor
    · intro h
      by_cases hnil : name = []
      · simp [hnil] at h
      · obtain rfl : String.ofList (Text.trim name) = header := by simpa [hnil] using h
        obtain ⟨hs, hname⟩ := Text.cutAt_eq_some_iff.1 hcut
        exact ⟨name, rest, hs, hname, hnil, by simp⟩
    · rintro ⟨name', rest', hs, hname, hnil, htrim⟩
      rw [Text.cutAt_eq_some_iff.2 ⟨hs, hname⟩] at hcut
      cases hcut
      simp [hnil, htrim]

theorem delimited?_eq_some_iff : delimited? s = some header ↔
    ∃ opening closing name rest, (opening, closing) ∈ [('"', '"'), ('<', '>')] ∧
      s = opening :: (name ++ closing :: rest) ∧ closing ∉ name ∧ name ≠ [] ∧
      Text.Trims name header.toList := by
  constructor
  · intro h
    unfold delimited? at h
    split at h
    · obtain ⟨name, rest, rfl, hname⟩ := header?_eq_some_iff.1 h
      exact ⟨'"', '"', name, rest, by simp, rfl, hname⟩
    · obtain ⟨name, rest, rfl, hname⟩ := header?_eq_some_iff.1 h
      exact ⟨'<', '>', name, rest, by simp, rfl, hname⟩
    · cases h
  · rintro ⟨opening, closing, name, rest, hmem, rfl, h⟩
    have hheader := header?_eq_some_iff.2 ⟨name, rest, rfl, h⟩
    simp only [List.mem_cons, Prod.mk.injEq, List.not_mem_nil, or_false] at hmem
    rcases hmem with ⟨rfl, rfl⟩ | ⟨rfl, rfl⟩ <;> exact hheader

theorem word_eq_some_iff :
    (after? "include".toList s <|> after? "import".toList s) = some t ↔
      ∃ word ∈ ["include", "import"], s = word.toList ++ t := by
  rw [Option.orElse_eq_orElse, Option.orElse_eq_or, Option.or_eq_some_iff, after?_eq_some_iff,
    after?_eq_some_iff]
  constructor
  · rintro (hs | ⟨-, hs⟩)
    · exact ⟨"include", by simp, hs⟩
    · exact ⟨"import", by simp, hs⟩
  · rintro ⟨word, hword, rfl⟩
    simp only [List.mem_cons, List.not_mem_nil, or_false] at hword
    rcases hword with rfl | rfl
    · exact Or.inl rfl
    · exact Or.inr ⟨rfl, rfl⟩

theorem directive?_eq_some : directive? line = some header ↔
    ∃ s t, skipSpaces line = '#' :: s ∧
      (∃ word ∈ ["include", "import"], skipSpaces s = word.toList ++ t) ∧
      delimited? (skipSpaces t) = some header := by
  simp only [directive?, bind, Option.bind_eq_some_iff, after?_eq_some_iff, word_eq_some_iff,
    List.singleton_append, exists_and_left]

theorem not_isSpace_of_word_mem {word : String} (hword : word ∈ ["include", "import"])
    (hc : (word.toList ++ t).head? = some c) : c ≠ ' ' ∧ c ≠ '\t' := by
  simp only [List.mem_cons, List.not_mem_nil, or_false] at hword
  rcases hword with rfl | rfl <;> cases hc <;> decide

theorem not_isSpace_of_delimiters_mem {opening closing : Char}
    (hmem : (opening, closing) ∈ [('"', '"'), ('<', '>')]) : opening ≠ ' ' ∧ opening ≠ '\t' := by
  simp only [List.mem_cons, Prod.mk.injEq, List.not_mem_nil, or_false] at hmem
  rcases hmem with ⟨rfl, rfl⟩ | ⟨rfl, rfl⟩ <;> decide

/-- A line names a header exactly if it begins with a directive for it. -/
theorem directive?_eq_some_iff (hline : '\n' ∉ line) : directive? line = some header ↔
    ∃ d : Directive, d.text <+: line ∧ d.IsFor header := by
  rw [directive?_eq_some]
  constructor
  · rintro ⟨s, t, hsign, ⟨word, hmem, hword⟩, hheader⟩
    obtain ⟨opening, closing, name, rest, hdelimiters, ht, hclosing, hname, htrims⟩ :=
      delimited?_eq_some_iff.1 hheader
    obtain ⟨indent, rfl, hindent, -⟩ := skipSpaces_eq_iff.1 hsign
    obtain ⟨gap, rfl, hgap, -⟩ := skipSpaces_eq_iff.1 hword
    obtain ⟨gap', rfl, hgap', -⟩ := skipSpaces_eq_iff.1 ht
    have hlineFeed : '\n' ∉ name := fun hmem => hline (by simp [hmem])
    refine ⟨⟨indent, gap, word, gap', opening, name, closing, ⟨hindent, hgap, hgap'⟩, hmem,
      hdelimiters, hname, hclosing, hlineFeed⟩, ⟨rest, ?_⟩, htrims⟩
    simp [Directive.text]
  · rintro ⟨d, ⟨rest, rfl⟩, hd⟩
    obtain ⟨hindent, hgap, hgap'⟩ := d.isGap
    let named := d.opening :: (d.name ++ d.closing :: rest)
    refine ⟨d.gap ++ (d.word.toList ++ (d.gap' ++ named)), d.gap' ++ named, ?_,
      ⟨d.word, d.word_mem, ?_⟩, ?_⟩
    · exact skipSpaces_eq_iff.2 ⟨d.indent, by simp [Directive.text, named], hindent, by simp⟩
    · exact skipSpaces_eq_iff.2 ⟨d.gap, rfl, hgap, fun c => not_isSpace_of_word_mem d.word_mem⟩
    · have hnamed : skipSpaces (d.gap' ++ named) = named := by
        refine skipSpaces_eq_iff.2 ⟨d.gap', rfl, hgap', ?_⟩
        rintro c ⟨⟩
        exact not_isSpace_of_delimiters_mem d.delimiters_mem
      rw [hnamed]
      exact delimited?_eq_some_iff.2 ⟨d.opening, d.closing, d.name, rest, d.delimiters_mem, rfl,
        d.closing_not_mem, d.name_ne_nil, hd⟩

end Include

end CompileDriver
