import BlockLens.Text.Base64

set_option autoImplicit false

namespace BlockLens.Text

def sextet (c : Char) : Nat :=
  if c.isUpper then c.toNat - 65
  else if c.isLower then c.toNat - 71
  else if c.isDigit then c.toNat + 4
  else if c = '+' then 62
  else 63

def unbase64 : List Char → List UInt8
  | a :: b :: c :: d :: r =>
    let n := ((sextet a * 64 + sextet b) * 64 + sextet c) * 64 + sextet d
    if c = '=' then [.ofNat (sextet a * 4 + sextet b / 16)]
    else if d = '=' then
      [.ofNat (sextet a * 4 + sextet b / 16), .ofNat (sextet b * 16 + sextet c / 4)]
    else .ofNat (n / 65536) :: .ofNat (n / 256) :: .ofNat n :: unbase64 r
  | _ => []

theorem base64Char_mod (n : Nat) : base64Char (n % 64) = base64Char n := by
  simp only [base64Char, Nat.mod_mod]

/-- What holds of the sixty-four characters. -/
theorem base64Char_induction {p : Nat → Char → Prop} (h : ∀ n < 64, p n (base64Char n)) (n : Nat) :
    p (n % 64) (base64Char n) := by
  rw [← base64Char_mod]
  exact h _ (Nat.mod_lt n (by decide))

theorem sextet_base64Char (n : Nat) : sextet (base64Char n) = n % 64 :=
  base64Char_induction (p := fun n c => sextet c = n) (by decide) n

theorem base64Char_ne_pad (n : Nat) : base64Char n ≠ '=' :=
  base64Char_induction (p := fun _ c => c ≠ '=') (by decide) n

theorem newline_ne_base64Char (n : Nat) : '\n' ≠ base64Char n :=
  base64Char_induction (p := fun _ c => '\n' ≠ c) (by decide) n

theorem newline_not_mem_base64 (bytes : List UInt8) : '\n' ∉ base64 bytes := by
  fun_induction base64 bytes with
  | case1 => simp
  | case2 a => simp [newline_ne_base64Char]
  | case3 a b => simp [newline_ne_base64Char]
  | case4 a b c r n ih => simp [newline_ne_base64Char, ih]

theorem eq_ofNat_of_mod {a : UInt8} {n : Nat} (h : n % 256 = a.toNat) : UInt8.ofNat n = a := by
  apply UInt8.toNat_inj.1
  rw [UInt8.toNat_ofNat', h]

theorem unbase64_base64 (bytes : List UInt8) : unbase64 (base64 bytes) = bytes := by
  fun_induction base64 bytes with
  | case1 => rfl
  | case2 a n =>
    have ha := a.toNat_lt
    have hbyte : UInt8.ofNat (n / 4 % 64 * 4 + n * 16 % 64 / 16) = a :=
      eq_ofNat_of_mod (by omega)
    simp only [unbase64, sextet_base64Char, if_true, hbyte]
  | case3 a b n =>
    have ha := a.toNat_lt
    have hb := b.toNat_lt
    have hfirst : UInt8.ofNat (n / 1024 % 64 * 4 + n / 16 % 64 / 16) = a :=
      eq_ofNat_of_mod (by omega)
    have hsecond : UInt8.ofNat (n / 16 % 64 * 16 + n * 4 % 64 / 4) = b :=
      eq_ofNat_of_mod (by omega)
    simp only [unbase64, sextet_base64Char, base64Char_ne_pad, if_true, if_false, hfirst, hsecond]
  | case4 a b c r n ih =>
    have ha := a.toNat_lt
    have hb := b.toNat_lt
    have hc := c.toNat_lt
    have hn : ((n / 262144 % 64 * 64 + n / 4096 % 64) * 64 + n / 64 % 64) * 64 + n % 64 = n := by
      omega
    have hfirst : UInt8.ofNat (n / 65536) = a := eq_ofNat_of_mod (by omega)
    have hsecond : UInt8.ofNat (n / 256) = b := eq_ofNat_of_mod (by omega)
    have hthird : UInt8.ofNat n = c := eq_ofNat_of_mod (by omega)
    simp only [unbase64, sextet_base64Char, base64Char_ne_pad, if_false, hn, hfirst, hsecond,
      hthird, ih]

theorem base64_injective {x y : List UInt8} (h : base64 x = base64 y) : x = y := by
  rw [← unbase64_base64 x, h, unbase64_base64]

theorem bytes_loop (b : ByteArray) (i : Nat) (r : List UInt8) :
    ByteArray.toList.loop b i r = r.reverse ++ b.data.toList.drop i := by
  fun_induction ByteArray.toList.loop b i r with
  | case1 i r h ih =>
    have hi : i < b.data.toList.length := h
    rw [ih, List.drop_eq_getElem_cons hi]
    simp [ByteArray.get!, h]
  | case2 i r h =>
    have hi : b.data.toList.length ≤ i := Nat.le_of_not_lt h
    rw [List.drop_eq_nil_of_le hi, List.append_nil]

theorem bytes_injective {s t : String} (h : s.toUTF8.toList = t.toUTF8.toList) : s = t := by
  simp only [String.toUTF8_eq_toByteArray, ByteArray.toList, bytes_loop, List.reverse_nil,
    List.nil_append, List.drop_zero] at h
  exact String.toByteArray_inj.1 (ByteArray.ext (Array.toList_inj.1 h))

end BlockLens.Text
