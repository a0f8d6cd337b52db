import CompileDriver.Glob.Pattern
import CompileDriver.Proofs.FileSystem.Extension

/-! # Reading patterns

A pattern is read token by token. A text without wildcards stands for itself, and how a pattern goes
on after it depends only on its last character, apart from the positions that are reported.
-/

namespace CompileDriver.Glob

variable {s t : List Char} {ts : List Token} {before : Option Char} {position : Nat} {c : Char}

/-! ## One token -/

/-- The token that a star begins, and how many more characters it takes. -/
def starToken (position : Nat) (before : Option Char) :
    List Char → Except PatternError (Token × Nat)
  | '*' :: '*' :: _ => .error ⟨position + 2, .tooManyStars⟩
  | ['*'] =>
    if before.isNone ∨ before = some '/' then .ok (.anyDirectories, 1)
    else .error ⟨position - 1, .starsInsideName⟩
  | '*' :: next :: _ =>
    if before.isNone ∨ before = some '/' then
      if next = '/' then .ok (.anyDirectories, 2) else .error ⟨position + 2, .starsInsideName⟩
    else .error ⟨position - 1, .starsInsideName⟩
  | _ => .ok (.anyText, 0)

/-- The token that `c` begins, and how many more characters it takes. -/
def nextToken (position : Nat) (before : Option Char) (c : Char) (s : List Char) :
    Except PatternError (Token × Nat) :=
  if c = '?' then .ok (.anyChar, 0)
  else if c = '*' then starToken position before s
  else if c = '[' then
    match readClass s with
    | some (t, taken) => .ok (t, taken)
    | none => .error ⟨position, .badClass⟩
  else .ok (.char c, 0)

theorem readTokens_cons (position : Nat) (before : Option Char) (c : Char) (s : List Char) :
    readTokens position before 0 (c :: s) = nextToken position before c s >>= fun (t, skip) =>
      (readTokens (position + 1) (some c) skip s).map (t :: ·) := by
  rw [readTokens.eq_def, nextToken]
  simp only
  by_cases hany : c = '?'
  · rw [if_pos hany, if_pos hany]
    rfl
  by_cases hstar : c = '*'
  · rw [if_neg hany, if_neg hany, if_pos hstar, if_pos hstar]
    fun_cases starToken position before s with
    | case1 => rfl
    | case2 hbefore => rw [if_pos hbefore]; rfl
    | case3 hbefore => rw [if_neg hbefore]; rfl
    | case4 => simp_all [bind, Except.bind]
    | case5 => simp_all [bind, Except.bind]
    | case6 => simp_all [bind, Except.bind]
    | case7 => simp_all [bind, Except.bind]
  by_cases hclass : c = '['
  · rw [if_neg hany, if_neg hany, if_neg hstar, if_neg hstar, if_pos hclass, if_pos hclass]
    cases readClass s <;> rfl
  · rw [if_neg hany, if_neg hany, if_neg hstar, if_neg hstar, if_neg hclass, if_neg hclass]
    rfl

theorem char?_of_readClass {t : Token} {taken : Nat} (h : readClass s = some (t, taken)) :
    t.char? = none := by
  unfold readClass at h
  split at h
  · obtain ⟨_, -, h⟩ := Option.map_eq_some_iff.1 h
    cases h
    rfl
  · cases h
  · obtain ⟨_, -, h⟩ := Option.map_eq_some_iff.1 h
    cases h
    rfl
  · cases h

theorem char?_of_starToken {t : Token} {skip : Nat}
    (h : starToken position before s = .ok (t, skip)) : t.char? = none := by
  unfold starToken at h
  split at h
  · cases h
  · split at h <;> cases h
    rfl
  · split at h
    · split at h <;> cases h
      rfl
    · cases h
  · cases h
    rfl

theorem eq_char_of_nextToken {t : Token} {skip : Nat} {d : Char}
    (h : nextToken position before c s = .ok (t, skip)) (hd : t.char? = some d) :
    d = c ∧ skip = 0 := by
  unfold nextToken at h
  split at h
  · cases h
    cases hd
  split at h
  · rw [char?_of_starToken h] at hd
    cases hd
  split at h
  · split at h
    · next hread =>
      cases h
      rw [char?_of_readClass hread] at hd
      cases hd
    · cases h
  · cases h
    cases hd
    exact ⟨rfl, rfl⟩

theorem mapError_nextToken (n m : Nat) (before : Option Char) (c : Char) (s : List Char) :
    (nextToken n before c s).mapError PatternError.mistake =
      (nextToken m before c s).mapError PatternError.mistake := by
  have hstar : (starToken n before s).mapError PatternError.mistake =
      (starToken m before s).mapError PatternError.mistake := by
    unfold starToken
    split
    · rfl
    · split <;> rfl
    · split
      · split <;> rfl
      · rfl
    · rfl
  unfold nextToken
  split
  · rfl
  split
  · exact hstar
  split
  · cases readClass s <;> rfl
  · rfl

/-! ## Many tokens -/

theorem mapError_bind_congr {ε δ α β : Type} {g : ε → δ} {x y : Except ε α}
    {f f' : α → Except ε β} (hx : x.mapError g = y.mapError g)
    (hf : ∀ a, (f a).mapError g = (f' a).mapError g) :
    (x >>= f).mapError g = (y >>= f').mapError g := by
  rcases x with e | a <;> rcases y with e' | b
  · exact congrArg Except.error (Except.error.inj hx)
  · cases hx
  · cases hx
  · cases hx
    exact hf a

theorem map_eq_ok_iff {ε α β : Type} {f : α → β} {x : Except ε α} {b : β} :
    x.map f = .ok b ↔ ∃ a, x = .ok a ∧ f a = b := by
  cases x <;> simp [Except.map]

theorem mapError_map {ε δ α β : Type} (g : ε → δ) (f : α → β) (x : Except ε α) :
    (x.map f).mapError g = (x.mapError g).map f := by
  cases x <;> rfl

theorem mapError_readTokens (n m : Nat) (before : Option Char) (skip : Nat) (s : List Char) :
    (readTokens n before skip s).mapError PatternError.mistake =
      (readTokens m before skip s).mapError PatternError.mistake := by
  induction s generalizing n m before skip with
  | nil => rw [readTokens, readTokens]
  | cons c s ih =>
    cases skip with
    | succ skip => exact ih (n + 1) (m + 1) (some c) skip
    | zero =>
      rw [readTokens_cons, readTokens_cons]
      refine mapError_bind_congr (mapError_nextToken n m before c s) fun r => ?_
      rw [mapError_map, mapError_map, ih (n + 1) (m + 1)]

/-- At any position the same tokens are read, or the same mistake is found. -/
theorem readTokens_position (n m : Nat) (before : Option Char) (s : List Char) :
    (∃ ts, readTokens n before 0 s = .ok ts ∧ readTokens m before 0 s = .ok ts) ∨
      ∃ e e', readTokens n before 0 s = .error e ∧ readTokens m before 0 s = .error e' ∧
        e.mistake = e'.mistake := by
  have hsame := mapError_readTokens n m before 0 s
  cases hn : readTokens n before 0 s with
  | ok ts =>
    rw [hn] at hsame
    cases hm : readTokens m before 0 s <;> rw [hm] at hsame <;> cases hsame
    exact Or.inl ⟨ts, rfl, rfl⟩
  | error e =>
    rw [hn] at hsame
    cases hm : readTokens m before 0 s with
    | ok ts => rw [hm] at hsame; cases hsame
    | error e' =>
      rw [hm] at hsame
      exact Or.inr ⟨e, e', rfl, rfl, Except.error.inj hsame⟩

def literalPart (n : String) : List Token := n.toList.map .char

theorem mapM_char?_eq_some_iff {cs : List Char} :
    ts.mapM Token.char? = some cs ↔ ts = cs.map .char := by
  constructor
  · intro h
    induction ts generalizing cs with
    | nil =>
      cases h
      rfl
    | cons t ts ih =>
      rw [List.mapM_cons] at h
      obtain ⟨c, hc, h⟩ := Option.bind_eq_some_iff.1 h
      obtain ⟨cs, hcs, h⟩ := Option.bind_eq_some_iff.1 h
      cases h
      cases t <;> cases hc
      rw [ih hcs]
      rfl
  · rintro rfl
    induction cs with
    | nil => rfl
    | cons c cs ih => rw [List.map_cons, List.mapM_cons, ih]; rfl

theorem literal?_eq_some_iff {name : String} : literal? ts = some name ↔ ts = literalPart name := by
  rw [literal?, Option.map_eq_some_iff]
  constructor
  · rintro ⟨cs, hcs, rfl⟩
    rw [literalPart, String.toList_ofList, mapM_char?_eq_some_iff.1 hcs]
  · rintro rfl
    exact ⟨name.toList, mapM_char?_eq_some_iff.2 rfl, String.ofList_toList⟩

theorem eq_of_readTokens_eq_map_char {cs : List Char}
    (h : readTokens position before 0 s = .ok (cs.map .char)) : cs = s := by
  induction s generalizing position before cs with
  | nil =>
    rw [readTokens] at h
    cases cs with
    | nil => rfl
    | cons c cs => cases h
  | cons c s ih =>
    rw [readTokens_cons] at h
    obtain ⟨⟨t, skip⟩, hnext, h⟩ := bind_eq_ok_iff.1 h
    obtain ⟨ts, hrest, hts⟩ := map_eq_ok_iff.1 h
    cases cs with
    | nil => cases hts
    | cons d cs =>
      rw [List.map_cons] at hts
      obtain ⟨rfl, rfl⟩ := List.cons.inj hts
      obtain ⟨rfl, rfl⟩ := eq_char_of_nextToken hnext rfl
      rw [ih hrest]

def IsPlain (s : List Char) : Prop := ∀ c ∈ s, c ≠ '?' ∧ c ≠ '*' ∧ c ≠ '['

theorem readTokens_plain (hc : c ≠ '?' ∧ c ≠ '*' ∧ c ≠ '[') :
    readTokens position before 0 (c :: s) =
      (readTokens (position + 1) (some c) 0 s).map (.char c :: ·) := by
  rw [readTokens_cons, nextToken, if_neg hc.1, if_neg hc.2.1, if_neg hc.2.2]
  rfl

theorem tokens_of_plain (hs : IsPlain s) : readTokens position before 0 s = .ok (s.map .char) := by
  induction s generalizing position before with
  | nil => rw [readTokens]; rfl
  | cons c s ih =>
    obtain ⟨hc, hs⟩ := List.forall_mem_cons.1 hs
    rw [readTokens_plain hc, ih hs]
    rfl

/-- A pattern after a plain text and a slash. -/
theorem readTokens_append_slash (hs : IsPlain s) :
    readTokens position before 0 (s ++ '/' :: t) =
      (readTokens (position + s.length + 1) (some '/') 0 t).map
        (s.map Token.char ++ Token.char '/' :: ·) := by
  induction s generalizing position before with
  | nil => exact readTokens_plain (by decide)
  | cons c s ih =>
    obtain ⟨hc, hs⟩ := List.forall_mem_cons.1 hs
    rw [List.cons_append, readTokens_plain hc, ih hs, List.length_cons]
    have hpos : position + 1 + s.length + 1 = position + (s.length + 1) + 1 := by omega
    rw [hpos]
    cases readTokens (position + (s.length + 1) + 1) (some '/') 0 t <;> rfl

end CompileDriver.Glob
