import CompileDriver.Text.Basic
import Mathlib.Data.List.Basic

/-! # Bytes that are read as text

Bytes that are UTF-8 are read as the text of which they are the encoding. Whatever the bytes are, a
slash is read only where one of them is a slash: no character of more than one byte is one, and
neither is the character that stands for what is not UTF-8.
-/

namespace CompileDriver.Text

variable {b low high : UInt8} {data rest : List UInt8} {c : Char} {m n owed v value : Nat}

/-! ## Encoded text -/

theorem leadBounds_two : ∀ n < 32, 2 ≤ n →
    leadBounds (UInt8.ofNat (n + 192)) = some (1, 0x80, 0xBF) := by
  decide +kernel

theorem leadBounds_three : ∀ n < 16, leadBounds (UInt8.ofNat (n + 224)) =
    some (2, if n = 0 then 0xA0 else 0x80, if n = 13 then 0x9F else 0xBF) := by
  decide +kernel

theorem leadBounds_four : ∀ n < 5, leadBounds (UInt8.ofNat (n + 240)) =
    some (3, if n = 0 then 0x90 else 0x80, if n = 4 then 0x8F else 0xBF) := by
  decide +kernel

theorem decodeFrom_lead (hlead : leadBounds (UInt8.ofNat n) = some (owed, low, high))
    (hn : 0x80 ≤ n) (hn' : n < 0x100) (rest : List UInt8) :
    decodeFrom none (UInt8.ofNat n :: rest) = decodeFrom (some ⟨owed, low, high,
      if owed = 1 then n % 32 else if owed = 2 then n % 16 else n % 8⟩) rest := by
  have htoNat : (UInt8.ofNat n).toNat = n := UInt8.toNat_ofNat_of_lt' hn'
  have hlarge : ¬ UInt8.ofNat n < 0x80 := by
    rw [UInt8.lt_iff_toNat_lt, htoNat]
    exact Nat.not_lt.2 hn
  rw [decodeFrom, startCharacter, if_neg hlarge, hlead, htoNat]

theorem decodeFrom_continuation (hlow : low.toNat ≤ m) (hhigh : m ≤ high.toNat)
    (rest : List UInt8) :
    decodeFrom (some ⟨owed, low, high, value⟩) (UInt8.ofNat m :: rest) =
      if owed = 1 then Char.ofNat (value * 64 + m % 64) :: decodeFrom none rest
      else decodeFrom (some ⟨owed - 1, 0x80, 0xBF, value * 64 + m % 64⟩) rest := by
  have htoNat : (UInt8.ofNat m).toNat = m :=
    UInt8.toNat_ofNat_of_lt' (Nat.lt_of_le_of_lt hhigh high.toNat_lt)
  have hbounds : (low ≤ UInt8.ofNat m && UInt8.ofNat m ≤ high) = true := by
    rw [Bool.and_eq_true, decide_eq_true_iff, decide_eq_true_iff, UInt8.le_iff_toNat_le,
      UInt8.le_iff_toNat_le, htoNat]
    exact ⟨hlow, hhigh⟩
  rw [decodeFrom, if_pos hbounds, htoNat]

theorem decodeFrom_anyContinuation (hm : m < 64) (rest : List UInt8) :
    decodeFrom (some ⟨owed, 0x80, 0xBF, value⟩) (UInt8.ofNat (m + 128) :: rest) =
      if owed = 1 then Char.ofNat (value * 64 + m) :: decodeFrom none rest
      else decodeFrom (some ⟨owed - 1, 0x80, 0xBF, value * 64 + m⟩) rest := by
  have hhigh : m + 128 ≤ 191 := by omega
  have hbits : (m + 128) % 64 = m := by omega
  rw [decodeFrom_continuation (Nat.le_add_left 128 m) hhigh, hbits]

theorem decodeFrom_two (hv : 0x7F < v) (hv' : v ≤ 0x7FF) (rest : List UInt8) :
    decodeFrom none (UInt8.ofNat (v / 64 % 32 + 192) :: UInt8.ofNat (v % 64 + 128) :: rest) =
      Char.ofNat v :: decodeFrom none rest := by
  have hlead := leadBounds_two (v / 64 % 32) (by omega) (by omega)
  have hvalue : (v / 64 % 32 + 192) % 32 * 64 + v % 64 = v := by omega
  rw [decodeFrom_lead hlead (by omega) (by omega), decodeFrom_anyContinuation (by omega),
    if_pos rfl, if_pos rfl, hvalue]

theorem decodeFrom_three (hv : 0x7FF < v) (hv' : v ≤ 0xFFFF) (hvalid : v < 0xD800 ∨ 0xDFFF < v)
    (rest : List UInt8) :
    decodeFrom none (UInt8.ofNat (v / 4096 % 16 + 224) :: UInt8.ofNat (v / 64 % 64 + 128) ::
        UInt8.ofNat (v % 64 + 128) :: rest) = Char.ofNat v :: decodeFrom none rest := by
  have hlead := leadBounds_three (v / 4096 % 16) (by omega)
  have hlow : (if v / 4096 % 16 = 0 then 0xA0 else 0x80 : UInt8).toNat ≤ v / 64 % 64 + 128 := by
    split
    · change 160 ≤ _
      omega
    · exact Nat.le_add_left 128 _
  have hhigh : v / 64 % 64 + 128 ≤ (if v / 4096 % 16 = 13 then 0x9F else 0xBF : UInt8).toNat := by
    split
    · change _ ≤ 159
      omega
    · change _ ≤ 191
      omega
  have hvalue : ((v / 4096 % 16 + 224) % 16 * 64 + (v / 64 % 64 + 128) % 64) * 64 + v % 64 = v := by
    omega
  rw [decodeFrom_lead hlead (by omega) (by omega), decodeFrom_continuation hlow hhigh,
    if_neg (by decide), decodeFrom_anyContinuation (by omega), if_pos rfl, if_neg (by decide),
    if_pos rfl, hvalue]

theorem decodeFrom_four (hv : 0xFFFF < v) (hv' : v < 0x110000) (rest : List UInt8) :
    decodeFrom none (UInt8.ofNat (v / 262144 % 8 + 240) :: UInt8.ofNat (v / 4096 % 64 + 128) ::
        UInt8.ofNat (v / 64 % 64 + 128) :: UInt8.ofNat (v % 64 + 128) :: rest) =
      Char.ofNat v :: decodeFrom none rest := by
  have hlead := leadBounds_four (v / 262144 % 8) (by omega)
  have hlow : (if v / 262144 % 8 = 0 then 0x90 else 0x80 : UInt8).toNat ≤ v / 4096 % 64 + 128 := by
    split
    · change 144 ≤ _
      omega
    · exact Nat.le_add_left 128 _
  have hhigh : v / 4096 % 64 + 128 ≤
      (if v / 262144 % 8 = 4 then 0x8F else 0xBF : UInt8).toNat := by
    split
    · change _ ≤ 143
      omega
    · change _ ≤ 191
      omega
  have hvalue : (((v / 262144 % 8 + 240) % 8 * 64 + (v / 4096 % 64 + 128) % 64) * 64 +
      v / 64 % 64) * 64 + v % 64 = v := by
    omega
  rw [decodeFrom_lead hlead (by omega) (by omega), decodeFrom_continuation hlow hhigh,
    if_neg (by decide), decodeFrom_anyContinuation (by omega), if_neg (by decide),
    decodeFrom_anyContinuation (by omega), if_pos rfl, if_neg (by decide), if_neg (by decide),
    hvalue]

theorem decodeFrom_utf8EncodeChar (c : Char) (rest : List UInt8) :
    decodeFrom none (String.utf8EncodeChar c ++ rest) = c :: decodeFrom none rest := by
  have hc : Char.ofNat c.val.toNat = c := Char.ofNat_toNat c
  have hvalid : c.val.toNat < 0xD800 ∨ 0xDFFF < c.val.toNat ∧ c.val.toNat < 0x110000 := c.valid
  unfold String.utf8EncodeChar
  generalize c.val.toNat = v at hc hvalid
  dsimp only
  by_cases h1 : v ≤ 0x7F
  · have htoNat : (UInt8.ofNat v).toNat = v :=
      UInt8.toNat_ofNat_of_lt' (Nat.lt_of_le_of_lt h1 (by decide))
    have hsmall : UInt8.ofNat v < 0x80 := by
      rw [UInt8.lt_iff_toNat_lt, htoNat]
      exact Nat.lt_succ_of_le h1
    rw [if_pos h1, List.singleton_append, decodeFrom, startCharacter, if_pos hsmall, htoNat, hc]
  rw [if_neg h1, ← hc]
  by_cases h2 : v ≤ 0x7FF
  · rw [if_pos h2]
    exact decodeFrom_two (Nat.lt_of_not_le h1) h2 rest
  rw [if_neg h2]
  by_cases h3 : v ≤ 0xFFFF
  · rw [if_pos h3]
    exact decodeFrom_three (Nat.lt_of_not_le h2) h3 (hvalid.imp_right And.left) rest
  · rw [if_neg h3]
    exact decodeFrom_four (Nat.lt_of_not_le h3) (by omega) rest

theorem toList_toUTF8 (s : String) :
    s.toUTF8.data.toList = s.toList.flatMap String.utf8EncodeChar := by
  have hencode : (String.ofList s.toList).toUTF8.data.toList =
      s.toList.flatMap String.utf8EncodeChar := by
    rw [String.toUTF8_eq_toByteArray, String.toByteArray_ofList, List.utf8Encode,
      List.data_toByteArray, List.toList_toArray]
  rwa [String.ofList_toList] at hencode

theorem decodeLossy_toUTF8 (s : String) : decodeLossy s.toUTF8 = s := by
  have hchars (cs : List Char) : decodeFrom none (cs.flatMap String.utf8EncodeChar) = cs := by
    induction cs with
    | nil => rfl
    | cons c cs ih => rw [List.flatMap_cons, decodeFrom_utf8EncodeChar, ih]
  rw [decodeLossy, toList_toUTF8, hchars, String.ofList_toList]

/-! ## Slashes -/

/-- The characters that can come of what has been read are not ASCII. -/
def Partial.isSound (p : Partial) : Bool :=
  p.owed ≠ 0 && 0x80 ≤ p.low && p.high ≤ 0xBF &&
    (if p.owed = 1 then 0x80 else 2) ≤ p.value * 64 + p.low.toNat % 64

theorem slash_of_startCharacter : ∀ n < 256,
    (startCharacter (UInt8.ofNat n)).1 = some '/' → n = 0x2F := by
  decide +kernel

theorem isSound_startCharacter : ∀ n < 256,
    (startCharacter (UInt8.ofNat n)).2.all Partial.isSound = true := by
  decide +kernel

theorem startCharacter_eq {o : Option Char} {q : Option Partial} (h : startCharacter b = (o, q)) :
    (o = some '/' → b = 0x2F) ∧ q.all Partial.isSound = true := by
  have hslash := slash_of_startCharacter b.toNat b.toNat_lt
  have hsound := isSound_startCharacter b.toNat b.toNat_lt
  rw [UInt8.ofNat_toNat, h] at hslash hsound
  exact ⟨fun ho => UInt8.toNat_inj.1 (hslash ho), hsound⟩

theorem Partial.least_le {p : Partial} (hp : p.isSound = true)
    (hb : (p.low ≤ b && b ≤ p.high) = true) :
    p.owed ≠ 0 ∧ (if p.owed = 1 then 0x80 else 2) ≤ p.value * 64 + b.toNat % 64 := by
  simp only [isSound, Bool.and_eq_true, decide_eq_true_eq, UInt8.le_iff_toNat_le] at hp hb
  obtain ⟨⟨⟨howed, hlow⟩, hhigh⟩, hleast⟩ := hp
  have hlow' : 128 ≤ p.low.toNat := hlow
  have hhigh' : p.high.toNat ≤ 191 := hhigh
  exact ⟨howed, by omega⟩

theorem Partial.isSound_next {p : Partial} (hp : p.isSound = true)
    (hb : (p.low ≤ b && b ≤ p.high) = true) (howed : p.owed ≠ 1) :
    (⟨p.owed - 1, 0x80, 0xBF, p.value * 64 + b.toNat % 64⟩ : Partial).isSound = true := by
  obtain ⟨hne, hleast⟩ := Partial.least_le hp hb
  rw [if_neg howed] at hleast
  have hmod : (0x80 : UInt8).toNat % 64 = 0 := rfl
  have hbounds : ((0x80 : UInt8) ≤ 0x80 && (0xBF : UInt8) ≤ 0xBF) = true := rfl
  simp only [isSound, Bool.and_eq_true, decide_eq_true_eq, hmod] at hbounds ⊢
  refine ⟨⟨⟨by omega, hbounds.1⟩, hbounds.2⟩, ?_⟩
  split <;> omega

theorem ofNat_ne_slash (h : 0x80 ≤ n) : Char.ofNat n ≠ '/' := by
  intro hslash
  by_cases hvalid : n.isValidChar
  · rw [Char.ofNat, dif_pos hvalid] at hslash
    have htoNat : n = 0x2F := congrArg Char.toNat hslash
    omega
  · rw [Char.ofNat, dif_neg hvalid] at hslash
    cases hslash

theorem slash_mem_of_mem_decodeFrom {o : Option Partial} (ho : o.all Partial.isSound = true)
    (hslash : '/' ∈ decodeFrom o data) : 0x2F ∈ data := by
  fun_induction decodeFrom o data with
  | case1 => cases hslash
  | case2 p => exact absurd hslash (by decide)
  | case3 b data c q hstart ih =>
    obtain ⟨hb, hq⟩ := startCharacter_eq hstart
    rcases List.mem_cons.1 hslash with rfl | hslash
    · rw [hb rfl]
      exact List.mem_cons_self
    · exact List.mem_cons_of_mem b (ih hq hslash)
  | case4 b data q hstart ih =>
    exact List.mem_cons_of_mem b (ih (startCharacter_eq hstart).2 hslash)
  | case5 p b data hb value howed ih =>
    -- the last byte of a character, which is not ASCII
    obtain ⟨-, hleast⟩ := Partial.least_le ho hb
    rw [if_pos howed] at hleast
    rcases List.mem_cons.1 hslash with hc | hslash
    · exact absurd hc.symm (ofNat_ne_slash hleast)
    · exact List.mem_cons_of_mem b (ih rfl hslash)
  | case6 p b data hb value howed ih =>
    exact List.mem_cons_of_mem b (ih (Partial.isSound_next ho hb howed) hslash)
  | case7 p b data _ c q hstart ih =>
    obtain ⟨hb, hq⟩ := startCharacter_eq hstart
    have hslash : '/' ∈ c :: decodeFrom q data := (List.mem_cons.1 hslash).resolve_left (by decide)
    rcases List.mem_cons.1 hslash with rfl | hslash
    · rw [hb rfl]
      exact List.mem_cons_self
    · exact List.mem_cons_of_mem b (ih hq hslash)
  | case8 p b data _ q hstart ih =>
    have hslash : '/' ∈ decodeFrom q data := (List.mem_cons.1 hslash).resolve_left (by decide)
    exact List.mem_cons_of_mem b (ih (startCharacter_eq hstart).2 hslash)

theorem slash_mem_of_mem_decodeLossy {data : ByteArray}
    (hslash : '/' ∈ (decodeLossy data).toList) : 0x2F ∈ data.data.toList := by
  rw [decodeLossy, String.toList_ofList] at hslash
  exact slash_mem_of_mem_decodeFrom rfl hslash

end CompileDriver.Text
