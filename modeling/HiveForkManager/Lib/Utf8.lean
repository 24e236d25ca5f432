import HiveForkManager.Lib.Utf16

namespace Utf8

variable {c : Char}

theorem encodeChar_of_ascii (hc : c.toNat < 0x80) :
    String.utf8EncodeChar c = [UInt8.ofNat c.toNat] := by
  have hval : c.val.toNat = c.toNat := rfl
  rw [String.utf8EncodeChar, hval, if_pos (Nat.le_of_lt_succ hc)]

theorem encodeChar_ne_nil (c : Char) : String.utf8EncodeChar c ≠ [] := by
  apply List.ne_nil_of_length_pos
  rw [String.length_utf8EncodeChar]
  exact c.utf8Size_pos

theorem le_toNat_of_mem (hc : 0x80 ≤ c.toNat) {b : UInt8}
    (hb : b ∈ String.utf8EncodeChar c) : 0x80 ≤ b.toNat := by
  have hval : c.val.toNat = c.toNat := rfl
  have hbounds := Utf16.toNat_bounds c
  have hbyte : ∀ n, b = UInt8.ofNat n → b.toNat = n % 256 := by
    intro n hn
    rw [hn]
    exact UInt8.toNat_ofNat'
  unfold String.utf8EncodeChar at hb
  simp only [hval] at hb
  split_ifs at hb <;> simp only [List.mem_cons, List.not_mem_nil, or_false] at hb
  · omega
  · rcases hb with h | h <;> have := hbyte _ h <;> omega
  · rcases hb with h | h | h <;> have := hbyte _ h <;> omega
  · rcases hb with h | h | h | h <;> have := hbyte _ h <;> omega

theorem toNat_eq_of_mem {b : UInt8} (hb : b ∈ String.utf8EncodeChar c)
    (hascii : b.toNat < 0x80) : c.toNat = b.toNat := by
  have hc : c.toNat < 0x80 := by
    by_contra hc
    have := le_toNat_of_mem (Nat.le_of_not_lt hc) hb
    omega
  rw [encodeChar_of_ascii hc, List.mem_singleton] at hb
  have hbyte : (UInt8.ofNat c.toNat).toNat = c.toNat % 256 := UInt8.toNat_ofNat'
  rw [hb, hbyte, Nat.mod_eq_of_lt (by omega)]

theorem encodeChar_append_eq_cons {p : Char} (hp : p.toNat < 0x80) {x y : List UInt8}
    (h : String.utf8EncodeChar c ++ x = UInt8.ofNat p.toNat :: y) : c = p ∧ x = y := by
  have hbyte : (UInt8.ofNat p.toNat).toNat = p.toNat := by
    have hmod : (UInt8.ofNat p.toNat).toNat = p.toNat % 256 := UInt8.toNat_ofNat'
    omega
  have hmem : UInt8.ofNat p.toNat ∈ String.utf8EncodeChar c := by
    cases hbytes : String.utf8EncodeChar c with
    | nil => exact absurd hbytes (encodeChar_ne_nil c)
    | cons b bytes =>
      rw [hbytes, List.cons_append, List.cons.injEq] at h
      rw [h.1]
      exact List.mem_cons_self ..
  have hc := toNat_eq_of_mem hmem (by rw [hbyte]; exact hp)
  obtain rfl : c = p := Char.toNat_inj.mp (hc.trans hbyte)
  rw [encodeChar_of_ascii hp, List.singleton_append, List.cons.injEq] at h
  exact ⟨rfl, h.2⟩

end Utf8
