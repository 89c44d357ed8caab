import Mathlib.Tactic.Common

/-!
Strings of Unicode scalar values: their bytes, and the two case mappings of the standard
library as far as the ASCII range goes.  The tables of Unicode change from version to
version; what is used here is what all of them say: the ASCII letters map to each other, and
the Kelvin sign is the only other character with a lower case that is ASCII.
-/

namespace DirtybirdMiner.Lib.Casing

/-- The bytes of a string. -/
def utf8 (s : List Char) : List UInt8 := s.flatMap String.utf8EncodeChar

def Ascii (c : Char) : Prop := c.toNat < 128

instance : DecidablePred Ascii := fun _ => inferInstanceAs (Decidable (_ < _))

/-- `U+212A`, which is upper case and has the lower case `k`. -/
def kelvin : Char := Char.ofNat 0x212A

/-- The characters with an ASCII lower case. -/
def Plain (c : Char) : Prop := Ascii c ∨ c = kelvin

instance : DecidablePred Plain := fun _ => inferInstanceAs (Decidable (_ ∨ _))

def lowerChar (c : Char) : Char := if c = kelvin then 'k' else c.toLower

def upperChar (c : Char) : Char := if c = kelvin then c else c.toUpper

/-- `str::to_lowercase` and `str::to_uppercase`. -/
structure CaseMapping where
  lower : List Char → List Char
  upper : List Char → List Char
  lower_plain : ∀ s, (∀ c ∈ s, Plain c) → lower s = s.map lowerChar
  upper_plain : ∀ s, (∀ c ∈ s, Plain c) → upper s = s.map upperChar
  plain_of_lower : ∀ s, (∀ c ∈ lower s, Ascii c) → ∀ c ∈ s, Plain c

section Characters

/-- A fact about all ASCII characters, checked one by one. -/
theorem ascii_all {P : Char → Prop} (h : ∀ n < 128, P (Char.ofNat n)) {c : Char} (hc : Ascii c) :
    P c := by
  have := h c.toNat hc
  rwa [Char.ofNat_toNat] at this

theorem ascii_ne_kelvin {c : Char} (h : Ascii c) : c ≠ kelvin := by
  rintro rfl
  exact absurd h (by decide)

theorem lowerChar_ascii {c : Char} (h : Ascii c) : lowerChar c = c.toLower :=
  if_neg (ascii_ne_kelvin h)

theorem upperChar_ascii {c : Char} (h : Ascii c) : upperChar c = c.toUpper :=
  if_neg (ascii_ne_kelvin h)

theorem lowerChar_isAscii {c : Char} (h : Plain c) : Ascii (lowerChar c) := by
  rcases h with h | rfl
  · rw [lowerChar_ascii h]
    exact ascii_all (P := fun c => Ascii c.toLower) (by decide) h
  · decide

theorem upperChar_isAscii {c : Char} (h : Ascii c) : Ascii (upperChar c) := by
  rw [upperChar_ascii h]
  exact ascii_all (P := fun c => Ascii c.toUpper) (by decide) h

theorem lowerChar_lowerChar {c : Char} (h : Plain c) : lowerChar (lowerChar c) = lowerChar c := by
  rcases h with h | rfl
  · exact ascii_all (P := fun c => lowerChar (lowerChar c) = lowerChar c) (by decide) h
  · decide

theorem upperChar_upperChar {c : Char} (h : Ascii c) : upperChar (upperChar c) = upperChar c :=
  ascii_all (P := fun c => upperChar (upperChar c) = upperChar c) (by decide) h

theorem lowerChar_upperChar {c : Char} (h : Ascii c) : lowerChar (upperChar c) = lowerChar c :=
  ascii_all (P := fun c => lowerChar (upperChar c) = lowerChar c) (by decide) h

theorem upperChar_lowerChar {c : Char} (h : Ascii c) : upperChar (lowerChar c) = upperChar c :=
  ascii_all (P := fun c => upperChar (lowerChar c) = upperChar c) (by decide) h

end Characters

section Bytes

theorem utf8EncodeChar_ascii {c : Char} (h : Ascii c) :
    String.utf8EncodeChar c = [UInt8.ofNat c.toNat] := by
  have hle : c.val.toNat ≤ 0x7f := Nat.le_of_lt_succ h
  rw [String.utf8EncodeChar, if_pos hle]
  rfl

theorem utf8_ascii {s : List Char} (h : ∀ c ∈ s, Ascii c) :
    utf8 s = s.map fun c => UInt8.ofNat c.toNat := by
  induction s with
  | nil => rfl
  | cons c s ih =>
      rw [List.forall_mem_cons] at h
      rw [utf8, List.flatMap_cons, utf8EncodeChar_ascii h.1, List.map_cons, ← ih h.2]
      rfl

theorem utf8_append (s t : List Char) : utf8 (s ++ t) = utf8 s ++ utf8 t := List.flatMap_append

/-- Every character has at least one byte. -/
theorem length_le_utf8 (s : List Char) : s.length ≤ (utf8 s).length := by
  induction s with
  | nil => exact Nat.le_refl 0
  | cons c s ih =>
      have hpos := List.length_pos_iff.mpr (String.utf8EncodeChar_ne_nil (c := c))
      change s.length + 1 ≤ (String.utf8EncodeChar c ++ utf8 s).length
      rw [List.length_append]
      omega

/-- The bytes of a character that is not ASCII are not ASCII. -/
theorem ascii_of_byte {c : Char} {b : UInt8} (hb : b ∈ String.utf8EncodeChar c)
    (hlt : b.toNat < 128) : Ascii c := by
  by_contra hc
  have hgt : ¬c.val.toNat ≤ 0x7f := fun hle => hc (Nat.lt_succ_of_le hle)
  have hhigh : ∀ {n : Nat}, 128 ≤ n → n < 256 → b = UInt8.ofNat n → False := by
    rintro n hn hn' rfl
    rw [UInt8.toNat_ofNat', Nat.mod_eq_of_lt hn'] at hlt
    omega
  rw [String.utf8EncodeChar, if_neg hgt] at hb
  split at hb
  · rcases List.mem_cons.mp hb with h | hb
    · exact hhigh (by omega) (by omega) h
    · exact hhigh (by omega) (by omega) (List.mem_singleton.mp hb)
  split at hb
  · rcases List.mem_cons.mp hb with h | hb
    · exact hhigh (by omega) (by omega) h
    rcases List.mem_cons.mp hb with h | hb
    · exact hhigh (by omega) (by omega) h
    · exact hhigh (by omega) (by omega) (List.mem_singleton.mp hb)
  · rcases List.mem_cons.mp hb with h | hb
    · exact hhigh (by omega) (by omega) h
    rcases List.mem_cons.mp hb with h | hb
    · exact hhigh (by omega) (by omega) h
    rcases List.mem_cons.mp hb with h | hb
    · exact hhigh (by omega) (by omega) h
    · exact hhigh (by omega) (by omega) (List.mem_singleton.mp hb)

theorem ascii_of_utf8 {s : List Char} (h : ∀ b ∈ utf8 s, b.toNat < 128) : ∀ c ∈ s, Ascii c := by
  intro c hc
  obtain ⟨b, hb⟩ := List.exists_mem_of_ne_nil _ (String.utf8EncodeChar_ne_nil (c := c))
  exact ascii_of_byte hb (h b (List.mem_flatMap.mpr ⟨c, hc, hb⟩))

theorem ascii_bytes_injective {s t : List Char} (hs : ∀ c ∈ s, Ascii c) (ht : ∀ c ∈ t, Ascii c)
    (h : (s.map fun c => UInt8.ofNat c.toNat) = t.map fun c => UInt8.ofNat c.toNat) : s = t := by
  induction s generalizing t with
  | nil => exact (List.map_eq_nil_iff.mp h.symm).symm
  | cons c s ih =>
      cases t with
      | nil => cases h
      | cons d t =>
          rw [List.forall_mem_cons] at hs ht
          rw [List.map_cons, List.map_cons, List.cons.injEq] at h
          have hcode := congrArg UInt8.toNat h.1
          have hc : c.toNat < 128 := hs.1
          have hd : d.toNat < 128 := ht.1
          rw [UInt8.toNat_ofNat', UInt8.toNat_ofNat', Nat.mod_eq_of_lt (by omega),
            Nat.mod_eq_of_lt (by omega)] at hcode
          rw [ih hs.2 ht.2 h.2, ← Char.ofNat_toNat c, hcode, Char.ofNat_toNat]

/-- The ASCII character with a given code. -/
theorem toNat_ofNat {n : Nat} (h : n < 128) : (Char.ofNat n).toNat = n := by
  have hall : ∀ n < 128, (Char.ofNat n).toNat = n := by decide
  exact hall n h

end Bytes

namespace CaseMapping

variable (cm : CaseMapping) {s : List Char}

theorem lower_ascii (h : ∀ c ∈ s, Ascii c) : cm.lower s = s.map lowerChar :=
  cm.lower_plain s fun c hc => .inl (h c hc)

theorem upper_ascii (h : ∀ c ∈ s, Ascii c) : cm.upper s = s.map upperChar :=
  cm.upper_plain s fun c hc => .inl (h c hc)

theorem lower_isAscii (h : ∀ c ∈ s, Plain c) : ∀ c ∈ cm.lower s, Ascii c := by
  rw [cm.lower_plain s h]
  intro c hc
  obtain ⟨d, hd, rfl⟩ := List.mem_map.mp hc
  exact lowerChar_isAscii (h d hd)

theorem upper_isAscii (h : ∀ c ∈ s, Ascii c) : ∀ c ∈ cm.upper s, Ascii c := by
  rw [cm.upper_ascii h]
  intro c hc
  obtain ⟨d, hd, rfl⟩ := List.mem_map.mp hc
  exact upperChar_isAscii (h d hd)

theorem lower_lower (h : ∀ c ∈ s, Plain c) : cm.lower (cm.lower s) = cm.lower s := by
  rw [cm.lower_ascii (cm.lower_isAscii h), cm.lower_plain s h, List.map_map]
  exact List.map_congr_left fun c hc => lowerChar_lowerChar (h c hc)

theorem upper_upper (h : ∀ c ∈ s, Ascii c) : cm.upper (cm.upper s) = cm.upper s := by
  rw [cm.upper_ascii (cm.upper_isAscii h), cm.upper_ascii h, List.map_map]
  exact List.map_congr_left fun c hc => upperChar_upperChar (h c hc)

theorem lower_upper (h : ∀ c ∈ s, Ascii c) : cm.lower (cm.upper s) = cm.lower s := by
  rw [cm.lower_ascii (cm.upper_isAscii h), cm.upper_ascii h, cm.lower_ascii h, List.map_map]
  exact List.map_congr_left fun c hc => lowerChar_upperChar (h c hc)

theorem upper_lower (h : ∀ c ∈ s, Ascii c) : cm.upper (cm.lower s) = cm.upper s := by
  have hplain : ∀ c ∈ s, Plain c := fun c hc => .inl (h c hc)
  rw [cm.upper_ascii (cm.lower_isAscii hplain), cm.upper_ascii h, cm.lower_ascii h, List.map_map]
  exact List.map_congr_left fun c hc => upperChar_lowerChar (h c hc)

end CaseMapping

/-- The mappings with every other character left alone. -/
def plainMapping : CaseMapping where
  lower s := s.map lowerChar
  upper s := s.map upperChar
  lower_plain _ _ := rfl
  upper_plain _ _ := rfl
  plain_of_lower := by
    intro s h c hc
    have hlower := h (lowerChar c) (List.mem_map_of_mem hc)
    by_contra hplain
    rw [Plain, not_or] at hplain
    have hkept : lowerChar c = c := by
      rw [lowerChar, if_neg hplain.2]
      delta Char.toLower
      rw [dif_neg]
      rintro ⟨-, hz⟩
      exact hplain.1 (Nat.lt_of_le_of_lt (UInt32.le_iff_toNat_le.mp hz) (by decide))
    rw [hkept] at hlower
    exact hplain.1 hlower

end DirtybirdMiner.Lib.Casing
