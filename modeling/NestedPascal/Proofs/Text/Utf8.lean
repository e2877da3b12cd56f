import NestedPascal.Text.Utf8

/-!
# Encoded text is decoded

The bytes that encode a text are decoded to that text.
-/

namespace NestedPascal.Utf8

theorem toList_eq_data (bs : ByteArray) : bs.toList = bs.data.toList := by
  have hloop (i : Nat) (r : List UInt8) :
      ByteArray.toList.loop bs i r = r.reverse ++ bs.data.toList.drop i := by
    fun_induction ByteArray.toList.loop bs i r with
    | case1 i r hi ih =>
        have hlt : i < bs.data.toList.length := by simpa using hi
        rw [ih, List.drop_eq_getElem_cons hlt]
        simp [ByteArray.get!, hi]
    | case2 i r hi =>
        rw [List.drop_eq_nil_of_le (by simpa using Nat.le_of_not_lt hi)]
        simp
  rw [ByteArray.toList, hloop]
  simp

/-! ## One byte after another -/

theorem decodeFrom_cons (s : State) {b : Nat} (hb : b < 256) (rest : List UInt8) :
    decodeFrom s (UInt8.ofNat b :: rest) = (step s b).2 ++ decodeFrom (step s b).1 rest := by
  rw [decodeFrom, UInt8.toNat_ofNat_of_lt' hb]

/-- A byte inside its bounds carries six bits of the value on. -/
theorem step_pending {lacking value least greatest b : Nat} (hb : least ≤ b ∧ b ≤ greatest)
    (hlacking : 1 < lacking) :
    step (.pending lacking value least greatest) b =
      (.pending (lacking - 1) (64 * value + (b - 0x80)) 0x80 0xBF, []) := by
  simp only [step]
  rw [if_pos hb, if_neg (by omega)]

theorem step_last {value least greatest b : Nat} (hb : least ≤ b ∧ b ≤ greatest) :
    step (.pending 1 value least greatest) b = (.idle, [Char.ofNat (64 * value + (b - 0x80))]) := by
  simp only [step]
  rw [if_pos hb]
  rfl

/-- The first of two bytes. -/
theorem opening_of_two {n : Nat} (h : 0x80 ≤ n) (h' : n < 0x800) :
    opening (n / 64 + 192) = (.pending 1 (n / 64) 0x80 0xBF, []) := by
  simp only [opening]
  rw [if_neg (by omega), if_pos (by omega), Nat.add_sub_cancel]

/-- The first of three bytes. -/
theorem opening_of_three {n : Nat} (h : 0x800 ≤ n) (h' : n < 0x10000)
    (hvalid : n < 0xD800 ∨ 0xDFFF < n) :
    ∃ least greatest, opening (n / 4096 + 224) = (.pending 2 (n / 4096) least greatest, []) ∧
      least ≤ n / 64 % 64 + 128 ∧ n / 64 % 64 + 128 ≤ greatest := by
  simp only [opening]
  rw [if_neg (by omega), if_neg (by omega)]
  by_cases hfirst : n / 4096 + 224 = 0xE0
  · have hzero : n / 4096 = 0 := by omega
    rw [if_pos hfirst, hzero]
    exact ⟨_, _, rfl, by omega, by omega⟩
  rw [if_neg hfirst]
  by_cases hlast : n / 4096 + 224 = 0xED
  · rw [if_pos hlast, Nat.add_sub_cancel]
    exact ⟨_, _, rfl, by omega, by omega⟩
  · rw [if_neg hlast, if_pos (by omega), Nat.add_sub_cancel]
    exact ⟨_, _, rfl, by omega, by omega⟩

/-- The first of four bytes. -/
theorem opening_of_four {n : Nat} (h : 0x10000 ≤ n) (h' : n < 0x110000) :
    ∃ least greatest, opening (n / 262144 + 240) = (.pending 3 (n / 262144) least greatest, []) ∧
      least ≤ n / 4096 % 64 + 128 ∧ n / 4096 % 64 + 128 ≤ greatest := by
  simp only [opening]
  rw [if_neg (by omega), if_neg (by omega), if_neg (by omega), if_neg (by omega), if_neg (by omega)]
  by_cases hfirst : n / 262144 + 240 = 0xF0
  · have hzero : n / 262144 = 0 := by omega
    rw [if_pos hfirst, hzero]
    exact ⟨_, _, rfl, by omega, by omega⟩
  rw [if_neg hfirst]
  by_cases hinner : 0xF1 ≤ n / 262144 + 240 ∧ n / 262144 + 240 ≤ 0xF3
  · rw [if_pos hinner, Nat.add_sub_cancel]
    exact ⟨_, _, rfl, by omega, by omega⟩
  · rw [if_neg hinner, if_pos (by omega), Nat.add_sub_cancel]
    exact ⟨_, _, rfl, by omega, by omega⟩

/-! ## One character after another -/

theorem decodeFrom_one {n : Nat} (h : n < 0x80) (rest : List UInt8) :
    decodeFrom .idle (UInt8.ofNat n :: rest) = Char.ofNat n :: decodeFrom .idle rest := by
  have hopening : opening n = (.idle, [Char.ofNat n]) := if_pos h
  rw [decodeFrom_cons _ (by omega), step, hopening]
  rfl

theorem decodeFrom_two {n : Nat} (h : 0x80 ≤ n) (h' : n < 0x800) (rest : List UInt8) :
    decodeFrom .idle (UInt8.ofNat (n / 64 + 192) :: UInt8.ofNat (n % 64 + 128) :: rest) =
      Char.ofNat n :: decodeFrom .idle rest := by
  have hvalue : 64 * (n / 64) + (n % 64 + 128 - 0x80) = n := by omega
  rw [decodeFrom_cons _ (by omega), step, opening_of_two h h',
    decodeFrom_cons _ (by omega), step_last (by omega), hvalue]
  rfl

theorem decodeFrom_three {n : Nat} (h : 0x800 ≤ n) (h' : n < 0x10000)
    (hvalid : n < 0xD800 ∨ 0xDFFF < n) (rest : List UInt8) :
    decodeFrom .idle (UInt8.ofNat (n / 4096 + 224) :: UInt8.ofNat (n / 64 % 64 + 128) ::
      UInt8.ofNat (n % 64 + 128) :: rest) = Char.ofNat n :: decodeFrom .idle rest := by
  obtain ⟨least, greatest, hopening, hnext⟩ := opening_of_three h h' hvalid
  have hvalue : 64 * (64 * (n / 4096) + (n / 64 % 64 + 128 - 0x80)) + (n % 64 + 128 - 0x80) = n := by
    omega
  rw [decodeFrom_cons _ (by omega), step, hopening,
    decodeFrom_cons _ (by omega), step_pending hnext (by decide),
    decodeFrom_cons _ (by omega), step_last (by omega), hvalue]
  rfl

theorem decodeFrom_four {n : Nat} (h : 0x10000 ≤ n) (h' : n < 0x110000) (rest : List UInt8) :
    decodeFrom .idle (UInt8.ofNat (n / 262144 + 240) :: UInt8.ofNat (n / 4096 % 64 + 128) ::
      UInt8.ofNat (n / 64 % 64 + 128) :: UInt8.ofNat (n % 64 + 128) :: rest) =
      Char.ofNat n :: decodeFrom .idle rest := by
  obtain ⟨least, greatest, hopening, hnext⟩ := opening_of_four h h'
  have hvalue : 64 * (64 * (64 * (n / 262144) + (n / 4096 % 64 + 128 - 0x80)) +
      (n / 64 % 64 + 128 - 0x80)) + (n % 64 + 128 - 0x80) = n := by omega
  rw [decodeFrom_cons _ (by omega), step, hopening,
    decodeFrom_cons _ (by omega), step_pending hnext (by decide),
    decodeFrom_cons _ (by omega), step_pending (by omega) (by decide),
    decodeFrom_cons _ (by omega), step_last (by omega), hvalue]
  rfl

theorem decodeFrom_utf8EncodeChar (c : Char) (rest : List UInt8) :
    decodeFrom .idle (String.utf8EncodeChar c ++ rest) = c :: decodeFrom .idle rest := by
  have hvalid : c.toNat < 0xD800 ∨ (0xDFFF < c.toNat ∧ c.toNat < 0x110000) := c.valid
  have hback : Char.ofNat c.toNat = c := Char.ofNat_toNat c
  have hencode : String.utf8EncodeChar c =
      if c.toNat ≤ 127 then [UInt8.ofNat c.toNat]
      else if c.toNat ≤ 2047 then
        [UInt8.ofNat (c.toNat / 64 % 32 + 192), UInt8.ofNat (c.toNat % 64 + 128)]
      else if c.toNat ≤ 65535 then
        [UInt8.ofNat (c.toNat / 4096 % 16 + 224), UInt8.ofNat (c.toNat / 64 % 64 + 128),
          UInt8.ofNat (c.toNat % 64 + 128)]
      else
        [UInt8.ofNat (c.toNat / 262144 % 8 + 240), UInt8.ofNat (c.toNat / 4096 % 64 + 128),
          UInt8.ofNat (c.toNat / 64 % 64 + 128), UInt8.ofNat (c.toNat % 64 + 128)] := rfl
  rw [hencode]
  by_cases hone : c.toNat ≤ 127
  · have hdecode := decodeFrom_one (n := c.toNat) (by omega) rest
    rw [if_pos hone, List.singleton_append, hdecode, hback]
  rw [if_neg hone]
  by_cases htwo : c.toNat ≤ 2047
  · have hdecode := decodeFrom_two (n := c.toNat) (by omega) (by omega) rest
    have hlead : c.toNat / 64 % 32 = c.toNat / 64 := by omega
    rw [if_pos htwo, hlead, List.cons_append, List.singleton_append, hdecode, hback]
  rw [if_neg htwo]
  by_cases hthree : c.toNat ≤ 65535
  · have hdecode := decodeFrom_three (n := c.toNat) (by omega) (by omega) (by omega) rest
    have hlead : c.toNat / 4096 % 16 = c.toNat / 4096 := by omega
    rw [if_pos hthree, hlead, List.cons_append, List.cons_append, List.singleton_append, hdecode,
      hback]
  · have hdecode := decodeFrom_four (n := c.toNat) (by omega) (by omega) rest
    have hlead : c.toNat / 262144 % 8 = c.toNat / 262144 := by omega
    rw [if_neg hthree, hlead, List.cons_append, List.cons_append, List.cons_append,
      List.singleton_append, hdecode, hback]

/-- The bytes of a text are decoded to the text. -/
theorem decode_toUTF8 (s : String) : decode s.toUTF8.toList = s.toList := by
  have hchars (cs : List Char) : decodeFrom .idle (cs.flatMap String.utf8EncodeChar) = cs := by
    induction cs with
    | nil => rfl
    | cons c cs ih => rw [List.flatMap_cons, decodeFrom_utf8EncodeChar, ih]
  have hbytes : s.toUTF8.toList = s.toList.flatMap String.utf8EncodeChar := by
    rw [String.toUTF8, ← String.utf8Encode_toList, toList_eq_data, List.utf8Encode,
      List.data_toByteArray]
  rw [decode, hbytes, hchars]

end NestedPascal.Utf8
