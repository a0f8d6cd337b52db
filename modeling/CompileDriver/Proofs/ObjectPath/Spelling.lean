import CompileDriver.Proofs.ObjectPath.Directory

/-! # Spellings of paths

What is done with a path depends on its slashes and dots alone, and each of them is one byte
wherever it stands. So it makes no difference whether a path that is text is spelled by its text or
by the bytes of its encoding.
-/

namespace CompileDriver

variable {b : UInt8} {c d : Char} {s t : List Char} {x y : String}

namespace Text

theorem utf8EncodeChar_eq_of_mem (hb : b ∈ String.utf8EncodeChar c) (hsmall : b.toNat < 0x80) :
    String.utf8EncodeChar c = [b] ∧ c.toNat = b.toNat := by
  have hc : c.toNat = c.val.toNat := rfl
  unfold String.utf8EncodeChar at hb ⊢
  rw [hc]
  generalize c.val.toNat = v at hb
  dsimp only at hb ⊢
  by_cases h : v ≤ 0x7F
  · rw [if_pos h, List.mem_singleton] at hb
    rw [if_pos h, hb, UInt8.toNat_ofNat_of_lt' (Nat.lt_of_le_of_lt h (by decide))]
    exact ⟨rfl, rfl⟩
  · -- all bytes of a longer encoding have their highest bit set
    rw [if_neg h] at hb
    exfalso
    split at hb
    · rcases List.mem_pair.1 hb with rfl | rfl <;> rw [UInt8.toNat_ofNat'] at hsmall <;> omega
    split at hb <;> simp only [List.mem_cons, List.not_mem_nil, or_false] at hb
    · rcases hb with rfl | rfl | rfl <;> rw [UInt8.toNat_ofNat'] at hsmall <;> omega
    · rcases hb with rfl | rfl | rfl | rfl <;> rw [UInt8.toNat_ofNat'] at hsmall <;> omega

end Text

namespace Spelling

theorem toNat_ofNat (b : UInt8) : (Char.ofNat b.toNat).toNat = b.toNat := by
  have hvalid : b.toNat.isValidChar := Or.inl (Nat.lt_of_lt_of_le b.toNat_lt (by decide))
  rw [Char.ofNat, dif_pos hvalid]
  rfl

theorem encode_spell (data : List UInt8) : bytes.encode (spell data) = ⟨data.toArray⟩ := by
  have hbyte : (fun c => UInt8.ofNat c.toNat) ∘ (fun b : UInt8 => Char.ofNat b.toNat) = id := by
    funext b
    rw [Function.comp_apply, toNat_ofNat, UInt8.ofNat_toNat, id]
  rw [encode, spell, String.toList_ofList, List.map_map, hbyte, List.map_id]

theorem decodeLossy_encode_ofText (x : String) :
    Text.decodeLossy (bytes.encode (bytes.ofText x)) = x := by
  rw [ofText, encode_spell]
  exact Text.decodeLossy_toUTF8 x

theorem ofText_inj : bytes.ofText x = bytes.ofText y ↔ x = y := by
  refine ⟨fun h => ?_, fun h => by rw [h]⟩
  rw [← decodeLossy_encode_ofText x, h, decodeLossy_encode_ofText]

theorem ofText_eq_iff (hy : bytes.ofText y = y) : bytes.ofText x = y ↔ x = y := by
  refine ⟨fun h => ofText_inj.1 (h.trans hy.symm), ?_⟩
  rintro rfl
  exact hy

/-! ## The bytes of characters -/

/-- The bytes of a character, each as a character. -/
def code (c : Char) : List Char := (String.utf8EncodeChar c).map fun b => Char.ofNat b.toNat

theorem toList_ofText (x : String) : (bytes.ofText x).toList = x.toList.flatMap code := by
  rw [ofText, spell, String.toList_ofList, Text.toList_toUTF8, List.map_flatMap]
  rfl

theorem code_ne_nil (c : Char) : code c ≠ [] := by
  rw [code, ne_eq, List.map_eq_nil_iff]
  exact String.utf8EncodeChar_ne_nil

theorem code_eq_of_mem (hd : d ∈ code c) (hsmall : d.toNat < 0x80) : c = d ∧ code c = [c] := by
  obtain ⟨b, hb, rfl⟩ := List.mem_map.1 hd
  rw [toNat_ofNat] at hsmall
  obtain ⟨hencode, htoNat⟩ := Text.utf8EncodeChar_eq_of_mem hb hsmall
  have hc : Char.ofNat b.toNat = c := by rw [← htoNat, Char.ofNat_toNat]
  rw [code, hencode, List.map_singleton, hc]
  exact ⟨rfl, rfl⟩

theorem code_eq_singleton (hsmall : d.toNat < 0x80) : code d = [d] := by
  have hd : d.val.toNat ≤ 0x7F := Nat.le_of_lt_succ hsmall
  rw [code, String.utf8EncodeChar, if_pos hd, List.map_singleton,
    UInt8.toNat_ofNat_of_lt' (Nat.lt_of_le_of_lt hd (by decide))]
  exact congrArg (fun c => [c]) (Char.ofNat_toNat d)

theorem mem_of_mem_flatMap_code (hsmall : d.toNat < 0x80) (hd : d ∈ s.flatMap code) : d ∈ s := by
  obtain ⟨c, hc, hd⟩ := List.mem_flatMap.1 hd
  rwa [← (code_eq_of_mem hd hsmall).1]

theorem flatMap_code_eq_nil (h : s.flatMap code = []) : s = [] := by
  cases s with
  | nil => rfl
  | cons c s => exact absurd (List.append_eq_nil_iff.1 h).1 (code_ne_nil c)

theorem flatMap_code_eq_cons (hsmall : d.toNat < 0x80) (h : s.flatMap code = d :: t) :
    ∃ s', s = d :: s' ∧ s'.flatMap code = t := by
  cases s with
  | nil => cases h
  | cons c s =>
    rw [List.flatMap_cons] at h
    cases hcode : code c with
    | nil => exact absurd hcode (code_ne_nil c)
    | cons e es =>
      rw [hcode, List.cons_append] at h
      obtain ⟨rfl, hrest⟩ := List.cons_eq_cons.1 h
      obtain ⟨rfl, hsingle⟩ := code_eq_of_mem (hcode ▸ List.mem_cons_self) hsmall
      rw [hcode] at hsingle
      rw [(List.cons_eq_cons.1 hsingle).2, List.nil_append] at hrest
      exact ⟨s, rfl, hrest⟩

theorem flatMap_code_eq_concat (hsmall : d.toNat < 0x80) (h : s.flatMap code = t ++ [d]) :
    ∃ s', s = s' ++ [d] := by
  rcases List.eq_nil_or_concat' s with rfl | ⟨s', c, rfl⟩
  · exact absurd h (by simp)
  · rw [List.flatMap_append, List.flatMap_singleton] at h
    have hlast : d ∈ code c := by
      have hgetLast := congrArg List.getLast? h
      rw [List.getLast?_append_of_ne_nil _ (code_ne_nil c), List.getLast?_concat] at hgetLast
      exact List.mem_of_getLast? hgetLast
    rw [(code_eq_of_mem hlast hsmall).1]
    exact ⟨s', rfl⟩

theorem ofText_append (x y : String) :
    bytes.ofText (x ++ y) = bytes.ofText x ++ bytes.ofText y := by
  rw [← String.toList_inj, String.toList_append, toList_ofText, toList_ofText, toList_ofText,
    String.toList_append, List.flatMap_append]

theorem slash_mem_ofText (h : '/' ∈ (bytes.ofText x).toList) : '/' ∈ x.toList := by
  rw [toList_ofText] at h
  exact mem_of_mem_flatMap_code (by decide) h

end Spelling

/-! ## Paths spelled by bytes -/

namespace Text

theorem pieces_append_of_not_mem {sep : Char} (hs : sep ∉ s) (t : List Char) :
    ∃ p ps, pieces sep t = p :: ps ∧ pieces sep (s ++ t) = (s ++ p) :: ps := by
  induction s with
  | nil =>
    cases hps : pieces sep t with
    | nil => exact absurd hps (pieces_ne_nil sep t)
    | cons p ps => exact ⟨p, ps, rfl, hps⟩
  | cons c s ih =>
    obtain ⟨p, ps, hp, hps⟩ := ih fun h => hs (List.mem_cons_of_mem c h)
    have hc : c ≠ sep := fun h => hs (h ▸ List.mem_cons_self)
    refine ⟨p, ps, hp, ?_⟩
    rw [List.cons_append, pieces, if_neg hc, hps, consFirst, List.cons_append]

theorem pieces_flatMap_code (s : List Char) :
    pieces '/' (s.flatMap Spelling.code) = (pieces '/' s).map (List.flatMap Spelling.code) := by
  induction s with
  | nil => rfl
  | cons c s ih =>
    rw [List.flatMap_cons]
    by_cases hc : c = '/'
    · rw [hc, Spelling.code_eq_singleton (by decide), List.singleton_append, pieces, if_pos rfl,
        pieces, if_pos rfl, ih]
      rfl
    · have hslash : '/' ∉ Spelling.code c :=
        fun h => hc (Spelling.code_eq_of_mem h (by decide)).1
      obtain ⟨p, ps, hp, hps⟩ := pieces_append_of_not_mem hslash (s.flatMap Spelling.code)
      rw [ih] at hp
      rw [hps, pieces, if_neg hc]
      cases hpieces : pieces '/' s with
      | nil => exact absurd hpieces (pieces_ne_nil '/' s)
      | cons q qs =>
        rw [hpieces, List.map_cons] at hp
        obtain ⟨rfl, rfl⟩ := List.cons_eq_cons.1 hp
        rw [consFirst, List.map_cons, List.flatMap_cons]

end Text

def Component.inBytes : Component → Component
  | name s => name (Spelling.bytes.ofText s)
  | c => c

theorem Component.inBytes_injective : Function.Injective inBytes := by
  intro c d h
  cases c <;> cases d <;> simp_all [inBytes, Spelling.ofText_inj]

theorem Component.ofPiece?_ofText (x : String) :
    ofPiece? (Spelling.bytes.ofText x) = (ofPiece? x).map inBytes := by
  have hempty := Spelling.ofText_eq_iff (x := x) (y := "") (by decide +kernel)
  have hdot := Spelling.ofText_eq_iff (x := x) (y := ".") (by decide +kernel)
  have hdots := Spelling.ofText_eq_iff (x := x) (y := "..") (by decide +kernel)
  simp only [ofPiece?, hempty, hdot, hdots]
  split
  · rfl
  split <;> rfl

namespace Path

variable {p q : Path}

/-- The path in the spelling by bytes. -/
def inBytes (p : Path) : Path := ofBytes p.text.toUTF8

theorem toList_inBytes (p : Path) : p.inBytes.text.toList = p.text.toList.flatMap Spelling.code :=
  Spelling.toList_ofText p.text

theorem piecesOf_flatMap_code (s : List Char) :
    piecesOf (s.flatMap Spelling.code) = (piecesOf s).map Spelling.bytes.ofText := by
  rw [piecesOf, piecesOf, Text.pieces_flatMap_code, List.map_map, List.map_map]
  refine List.map_congr_left fun t _ => ?_
  rw [← String.toList_inj, Function.comp_apply, Function.comp_apply, String.toList_ofList,
    Spelling.toList_ofText, String.toList_ofList]

theorem split_of_bare (hroot : ∀ s, p.text.toList ≠ '/' :: s) (hdot : p.text.toList ≠ ['.'])
    (hhere : ∀ s, p.text.toList ≠ '.' :: '/' :: s) :
    p.split = (.bare, piecesOf p.text.toList) := by
  unfold split
  split
  · next s h => exact absurd h (hroot s)
  · next h => exact absurd h hdot
  · next s h => exact absurd h (hhere s)
  · rfl

theorem split_inBytes (p : Path) :
    p.inBytes.split = (p.split.1, p.split.2.map Spelling.bytes.ofText) := by
  have htext := p.toList_inBytes
  have hslash : Spelling.code '/' = ['/'] := Spelling.code_eq_singleton (by decide)
  have hdot : Spelling.code '.' = ['.'] := Spelling.code_eq_singleton (by decide)
  by_cases h1 : ∃ s, p.text.toList = '/' :: s
  · obtain ⟨s, hs⟩ := h1
    rw [hs, List.flatMap_cons, hslash, List.singleton_append] at htext
    rw [split, split, hs, htext]
    exact congrArg (Prod.mk Start.root) (piecesOf_flatMap_code s)
  by_cases h2 : p.text.toList = ['.']
  · rw [h2, List.flatMap_singleton, hdot] at htext
    rw [split, split, h2, htext]
    rfl
  by_cases h3 : ∃ s, p.text.toList = '.' :: '/' :: s
  · obtain ⟨s, hs⟩ := h3
    rw [hs, List.flatMap_cons, List.flatMap_cons, hslash, hdot, List.singleton_append,
      List.singleton_append] at htext
    rw [split, split, hs, htext]
    exact congrArg (Prod.mk Start.here) (piecesOf_flatMap_code s)
  · rw [not_exists] at h1 h3
    rw [split_of_bare h1 h2 h3, split_of_bare, htext, piecesOf_flatMap_code]
    · intro t ht
      obtain ⟨s, hs, -⟩ := Spelling.flatMap_code_eq_cons (by decide) (htext.symm.trans ht)
      exact h1 s hs
    · intro ht
      obtain ⟨s, hs, hnil⟩ := Spelling.flatMap_code_eq_cons (by decide) (htext.symm.trans ht)
      rw [Spelling.flatMap_code_eq_nil hnil] at hs
      exact h2 hs
    · intro t ht
      obtain ⟨s, hs, hrest⟩ := Spelling.flatMap_code_eq_cons (by decide) (htext.symm.trans ht)
      obtain ⟨s', rfl, -⟩ := Spelling.flatMap_code_eq_cons (by decide) hrest
      exact h3 s' hs

theorem components_inBytes (p : Path) :
    p.inBytes.components = p.components.map Component.inBytes := by
  have hstart (start : Start) : start.components.map Component.inBytes = start.components := by
    cases start <;> rfl
  rw [components, split_inBytes, components, List.map_append, hstart, List.filterMap_map,
    List.map_filterMap]
  refine congrArg _ (List.filterMap_congr fun x _ => ?_)
  exact Component.ofPiece?_ofText x

theorem below?_inBytes (p q : Path) :
    p.inBytes.below? q.inBytes = (p.below? q).map (List.map Component.inBytes) := by
  have hbelow : q.inBytes.components <+: p.inBytes.components ↔ q.components <+: p.components := by
    rw [components_inBytes, components_inBytes]
    exact List.prefix_map_iff_of_injective Component.inBytes_injective
  by_cases h : q.components <+: p.components
  · rw [below?, below?, if_pos h, if_pos (hbelow.2 h), components_inBytes, components_inBytes,
      List.length_map, Option.map_some, List.map_drop]
  · rw [below?, below?, if_neg h, if_neg (mt hbelow.1 h), Option.map_none]

theorem isAbsolute_inBytes (p : Path) : p.inBytes.isAbsolute = p.isAbsolute := by
  rw [Bool.eq_iff_iff, ← start_eq_root_iff, ← start_eq_root_iff, start, split_inBytes, start]

theorem endsInSlash_inBytes (p : Path) : p.inBytes.endsInSlash = p.endsInSlash := by
  rw [Bool.eq_iff_iff, endsInSlash_iff, endsInSlash_iff, toList_inBytes]
  constructor
  · rintro ⟨s, hs⟩
    exact Spelling.flatMap_code_eq_concat (by decide) hs
  · rintro ⟨s, hs⟩
    refine ⟨s.flatMap Spelling.code, ?_⟩
    rw [hs, List.flatMap_append, List.flatMap_singleton, Spelling.code_eq_singleton (by decide)]

theorem text_inBytes_eq_empty_iff (p : Path) : p.inBytes.text = "" ↔ p.text = "" :=
  Spelling.ofText_eq_iff (by decide +kernel)

theorem inBytes_join (p q : Path) : (p.join q).inBytes = p.inBytes.join q.inBytes := by
  have hslash : Spelling.bytes.ofText "/" = "/" := by decide +kernel
  unfold join
  simp only [isAbsolute_inBytes, endsInSlash_inBytes, text_inBytes_eq_empty_iff]
  split
  · rfl
  split
  · exact congrArg Path.mk (Spelling.ofText_append p.text q.text)
  · refine congrArg Path.mk ?_
    exact (Spelling.ofText_append (p.text ++ "/") q.text).trans (by
      rw [Spelling.ofText_append, hslash]; rfl)

theorem inBytes_div (p : Path) (x : String) :
    (p / x).inBytes = p.inBytes / Spelling.bytes.ofText x :=
  inBytes_join p ⟨x⟩

theorem inBytes_foldl_div (p : Path) (xs : List String) :
    (xs.foldl (· / ·) p).inBytes = (xs.map Spelling.bytes.ofText).foldl (· / ·) p.inBytes := by
  induction xs generalizing p with
  | nil => rfl
  | cons x xs ih =>
    rw [List.foldl_cons, ih, inBytes_div]
    rfl

theorem fileName?_inBytes (p : Path) :
    p.inBytes.fileName? = p.fileName?.map Spelling.bytes.ofText := by
  rw [fileName?, fileName?, components_inBytes, List.getLast?_map]
  cases p.components.getLast? with
  | none => rfl
  | some c => cases c <;> rfl

theorem ofText_intercalate (xs : List String) :
    Spelling.bytes.ofText (String.intercalate "/" xs) =
      String.intercalate "/" (xs.map Spelling.bytes.ofText) := by
  have hslash : Spelling.bytes.ofText "/" = "/" := by decide +kernel
  induction xs with
  | nil => decide +kernel
  | cons x xs ih =>
    cases xs with
    | nil => rw [List.map_singleton, String.intercalate_singleton, String.intercalate_singleton]
    | cons y xs =>
      rw [String.intercalate_cons_cons, Spelling.ofText_append, Spelling.ofText_append, hslash, ih]
      exact String.intercalate_cons_cons.symm

theorem inBytes_unsplit (start : Start) (xs : List String) :
    (unsplit start xs).inBytes = unsplit start (xs.map Spelling.bytes.ofText) := by
  have hafter (x : String) (hx : Spelling.bytes.ofText x = x) :
      Spelling.bytes.ofText (x ++ String.intercalate "/" xs) =
        x ++ String.intercalate "/" (xs.map Spelling.bytes.ofText) := by
    rw [Spelling.ofText_append, hx, ofText_intercalate]
  match start, xs with
  | .root, xs => exact congrArg Path.mk (hafter "/" (by decide +kernel))
  | .here, [] => exact congrArg Path.mk (by decide +kernel : Spelling.bytes.ofText "." = ".")
  | .here, x :: xs => exact congrArg Path.mk (hafter "./" (by decide +kernel))
  | .bare, xs => exact congrArg Path.mk (ofText_intercalate xs)

theorem isTrivial_ofText (x : String) : isTrivial (Spelling.bytes.ofText x) = isTrivial x := by
  rw [isTrivial, Component.ofPiece?_ofText, Option.isNone_map, isTrivial]

theorem parentsFrom_map_ofText (start : Start) (xs : List String) :
    parentsFrom start (xs.map Spelling.bytes.ofText) = (parentsFrom start xs).map inBytes := by
  have hempty : inBytes ⟨""⟩ = ⟨""⟩ := by decide +kernel
  have htrivial : isTrivial ∘ Spelling.bytes.ofText = isTrivial := funext isTrivial_ofText
  induction xs with
  | nil => cases start <;> simp [parentsFrom, hempty]
  | cons x xs ih =>
    rw [List.map_cons, parentsFrom, isTrivial_ofText, ih, parentsFrom]
    split
    · rfl
    · rw [List.map_cons, inBytes_unsplit, List.dropWhile_map, htrivial, List.map_reverse]

theorem parent?_inBytes (p : Path) : p.inBytes.parent? = p.parent?.map inBytes := by
  rw [parent?, parents, split_inBytes, ← List.map_reverse, parentsFrom_map_ofText, List.head?_map,
    parent?, parents]

theorem inBytes_withFileName (p : Path) (x : String) :
    (p.withFileName x).inBytes = p.inBytes.withFileName (Spelling.bytes.ofText x) := by
  rw [withFileName, withFileName, fileName?_inBytes, parent?_inBytes]
  cases p.fileName? with
  | none => exact inBytes_div p x
  | some n =>
    cases p.parent? with
    | none => exact inBytes_div p x
    | some d => exact inBytes_div d x

theorem IsStem.ofText (h : IsStem x y) :
    IsStem (Spelling.bytes.ofText x) (Spelling.bytes.ofText y) := by
  cases h with
  | whole hdot =>
    refine .whole fun hmem => hdot ?_
    rw [Spelling.toList_ofText] at hmem
    cases hx : x.toList with
    | nil =>
      rw [hx] at hmem
      cases hmem
    | cons c cs =>
      rw [hx, List.flatMap_cons, List.tail_append_of_ne_nil (Spelling.code_ne_nil c)] at hmem
      refine Spelling.mem_of_mem_flatMap_code (by decide) ((List.mem_append.1 hmem).resolve_left ?_)
      -- a character that has a dot among its bytes is one, and has no other
      intro htail
      have hcode := (Spelling.code_eq_of_mem (List.mem_of_mem_tail htail) (by decide)).2
      rw [hcode] at htail
      cases htail
  | @beforeDot ending hne hending =>
    have hdot : Spelling.bytes.ofText "." = "." := by decide +kernel
    have hempty : Spelling.bytes.ofText "" = "" := by decide +kernel
    rw [Spelling.ofText_append, Spelling.ofText_append, hdot]
    refine .beforeDot (mt (Spelling.ofText_eq_iff hempty).1 hne) fun hmem => hending ?_
    rw [Spelling.toList_ofText] at hmem
    exact Spelling.mem_of_mem_flatMap_code (by decide) hmem

theorem stem?_inBytes (p : Path) : p.inBytes.stem? = p.stem?.map Spelling.bytes.ofText := by
  have hstem (x : String) :
      stemOf (Spelling.bytes.ofText x) = Spelling.bytes.ofText (stemOf x) :=
    (isStem_stemOf x).ofText.eq_stemOf.symm
  rw [stem?, stem?, fileName?_inBytes, Option.map_map, Option.map_map]
  exact congrArg (Option.map · p.fileName?) (funext hstem)

end Path

namespace ObjectPath

variable {source : Path} {root : Option Path}

theorem mirrored_inBytes (source : Path) (root : Option Path) :
    mirrored source.inBytes (root.map Path.inBytes) =
      (mirrored source root).map Component.inBytes := by
  cases root with
  | none => exact source.components_inBytes
  | some r =>
    rw [mirrored, Option.map_some, Option.bind_some, Path.below?_inBytes, mirrored,
      Option.bind_some, Path.components_inBytes]
    cases source.below? r <;> rfl

theorem names_inBytes (source : Path) (root : Option Path) :
    names source.inBytes (root.map Path.inBytes) =
      (names source root).map Spelling.bytes.ofText := by
  have hup : Spelling.bytes.ofText "__" = "__" := by decide +kernel
  rw [names, mirrored_inBytes, List.filterMap_map, names, List.map_filterMap]
  refine List.filterMap_congr fun c _ => ?_
  cases c with
  | root | here | name => rfl
  | parent => exact congrArg some hup.symm

/-- The object file of a source is the same, whether paths are spelled by their text or by bytes. -/
theorem of_inBytes (objects source : Path) (suffix : String) (root : Option Path) :
    (of objects source suffix root).inBytes =
      ofSpelled .bytes objects.inBytes source.inBytes suffix (root.map Path.inBytes) := by
  have hplace : (names source.inBytes (root.map Path.inBytes)).foldl (· / ·) objects.inBytes =
      ((names source root).foldl (· / ·) objects).inBytes := by
    rw [names_inBytes, Path.inBytes_foldl_div]
  have hstem : (source.stem?.map Spelling.bytes.ofText).getD "" =
      Spelling.bytes.ofText (source.stem?.getD "") := by
    cases source.stem? with
    | none => decide +kernel
    | some x => rfl
  have hname : spelledName .bytes source.inBytes suffix =
      Spelling.bytes.ofText (spelledName .text source suffix) := by
    rw [spelledName_text, spelledName, Path.stem?_inBytes, hstem,
      Spelling.decodeLossy_encode_ofText]
    rfl
  change (((names source root).foldl (· / ·) objects).withFileName _).inBytes =
    ((names source.inBytes (root.map Path.inBytes)).foldl (· / ·) objects.inBytes).withFileName
      (spelledName .bytes source.inBytes suffix)
  rw [hplace, hname, ← Path.inBytes_withFileName]
  rfl

end ObjectPath

end CompileDriver
