import ImportWatch.Text.Utf8
import Mathlib.Tactic.SplitIfs

/-!
# ImportWatch.Proofs.Decoding

What is written in UTF-8 can be read again.

The first byte of a character tells how many bytes it has; the bounds that it
sets for the second one hold for every character, because they rule out
surrogates and overlong forms only.

* `Utf8.decodeFrom_utf8EncodeChar`: the bytes of a character are read as this
  character, and the reader is between characters again behind them;
* `Utf8.decode?_encode`: the bytes of a text are read as this text.
-/

namespace ImportWatch.Utf8

theorem toNat_ofNat_of_lt {n : Nat} (h : n < 256) : (UInt8.ofNat n).toNat = n := by
  rw [UInt8.toNat_ofNat', Nat.mod_eq_of_lt h]

/-! ## first bytes -/

section

variable {b : UInt8}

theorem readFirst_of_two (hlow : 0xC2 ≤ b.toNat) (hhigh : b.toNat < 0xE0) :
    readFirst b = ([], some ⟨1, 0x80, 0xBF, b.toNat - 0xC0⟩) := by
  rw [readFirst, if_neg (by omega), if_neg (by omega), if_pos hhigh]

/-- The second of three bytes is bounded from below where the form could be overlong, and from above
where the character could be a surrogate. -/
theorem readFirst_of_three (hlow : 0xE0 ≤ b.toNat) (hhigh : b.toNat < 0xF0) :
    ∃ low high, readFirst b = ([], some ⟨2, low, high, b.toNat - 0xE0⟩) ∧
      ∀ n, 0x80 ≤ n → n ≤ 0xBF → (b.toNat = 0xE0 → 0xA0 ≤ n) → (b.toNat = 0xED → n ≤ 0x9F) →
        low ≤ n ∧ n ≤ high := by
  rw [readFirst, if_neg (by omega), if_neg (by omega), if_neg (by omega)]
  split_ifs with hfirst hsurrogate
  · exact ⟨0xA0, 0xBF, by rw [hfirst], fun n _ hn h _ => ⟨h hfirst, hn⟩⟩
  · exact ⟨0x80, 0x9F, by rw [hsurrogate], fun n hn _ _ h => ⟨hn, h hsurrogate⟩⟩
  · exact ⟨0x80, 0xBF, rfl, fun n hn hn' _ _ => ⟨hn, hn'⟩⟩

/-- The second of four bytes is bounded from below where the form could be overlong, and from above
where the number could be greater than the last code point. -/
theorem readFirst_of_four (hlow : 0xF0 ≤ b.toNat) (hhigh : b.toNat ≤ 0xF4) :
    ∃ low high, readFirst b = ([], some ⟨3, low, high, b.toNat - 0xF0⟩) ∧
      ∀ n, 0x80 ≤ n → n ≤ 0xBF → (b.toNat = 0xF0 → 0x90 ≤ n) → (b.toNat = 0xF4 → n ≤ 0x8F) →
        low ≤ n ∧ n ≤ high := by
  rw [readFirst, if_neg (by omega), if_neg (by omega), if_neg (by omega), if_neg (by omega),
    if_neg (by omega), if_neg (by omega)]
  split_ifs with hfirst hinner hlast
  · exact ⟨0x90, 0xBF, by rw [hfirst], fun n _ hn h _ => ⟨h hfirst, hn⟩⟩
  · exact ⟨0x80, 0xBF, rfl, fun n hn hn' _ _ => ⟨hn, hn'⟩⟩
  · exact ⟨0x80, 0x8F, by rw [hlast], fun n hn _ _ h => ⟨hn, h hlast⟩⟩
  · omega

end

/-! ## one byte more -/

section

variable {b : UInt8} {missing low high bits : Nat}

theorem decodeFrom_one (h : b.toNat < 0x80) (bs : Bytes) :
    decodeFrom none (b :: bs) = some (Char.ofNat b.toNat) :: decodeFrom none bs := by
  simp only [decodeFrom, readFirst, if_pos h, List.singleton_append]

theorem decodeFrom_first {u : Unread} (h : readFirst b = ([], some u)) (bs : Bytes) :
    decodeFrom none (b :: bs) = decodeFrom (some u) bs := by
  simp only [decodeFrom, h, List.nil_append]

theorem decodeFrom_next (h : low ≤ b.toNat ∧ b.toNat ≤ high) (hmissing : 1 < missing)
    (bs : Bytes) : decodeFrom (some ⟨missing, low, high, bits⟩) (b :: bs) =
      decodeFrom (some ⟨missing - 1, 0x80, 0xBF, bits * 64 + (b.toNat - 0x80)⟩) bs := by
  simp only [decodeFrom, readNext, if_pos h, if_neg (Nat.not_le.2 hmissing), List.nil_append]

theorem decodeFrom_last (h : low ≤ b.toNat ∧ b.toNat ≤ high) (bs : Bytes) :
    decodeFrom (some ⟨1, low, high, bits⟩) (b :: bs) =
      some (Char.ofNat (bits * 64 + (b.toNat - 0x80))) :: decodeFrom none bs := by
  simp only [decodeFrom, readNext, if_pos h, Nat.le_refl, if_true, List.singleton_append]

end

/-! ## characters and texts -/

/-- The bytes of a character are read as this character. -/
theorem decodeFrom_utf8EncodeChar (c : Char) (bs : Bytes) :
    decodeFrom none (String.utf8EncodeChar c ++ bs) = some c :: decodeFrom none bs := by
  have hvalid : c.val.toNat < 0xD800 ∨ 0xDFFF < c.val.toNat ∧ c.val.toNat < 0x110000 := c.valid
  have hchar : Char.ofNat c.val.toNat = c := Char.ofNat_toNat c
  have hbyte {n : Nat} (h : n < 256) : (UInt8.ofNat n).toNat = n := toNat_ofNat_of_lt h
  simp only [String.utf8EncodeChar]
  generalize c.val.toNat = v at *
  have hlast := hbyte (show v % 64 + 128 < 256 by omega)
  have hthird := hbyte (show v / 64 % 64 + 128 < 256 by omega)
  split_ifs with h1 h2 h3
  · have hfirst := hbyte (show v < 256 by omega)
    rw [List.singleton_append, decodeFrom_one (by omega), hfirst, hchar]
  · have hfirst := hbyte (show v / 64 % 32 + 192 < 256 by omega)
    have hbits : (v / 64 % 32 + 192 - 192) * 64 + (v % 64 + 128 - 128) = v := by omega
    simp only [List.cons_append, List.nil_append]
    rw [decodeFrom_first (readFirst_of_two (by omega) (by omega)), decodeFrom_last (by omega),
      hfirst, hlast, hbits, hchar]
  · have hfirst := hbyte (show v / 4096 % 16 + 224 < 256 by omega)
    have hbits : ((v / 4096 % 16 + 224 - 224) * 64 + (v / 64 % 64 + 128 - 128)) * 64 +
        (v % 64 + 128 - 128) = v := by omega
    obtain ⟨low, high, hread, hbounds⟩ := readFirst_of_three
      (show 0xE0 ≤ (UInt8.ofNat (v / 4096 % 16 + 224)).toNat by omega) (by omega)
    simp only [List.cons_append, List.nil_append]
    rw [decodeFrom_first hread,
      decodeFrom_next (hbounds _ (by omega) (by omega) (by omega) (by omega)) (by decide),
      decodeFrom_last (by omega), hfirst, hthird, hlast, hbits, hchar]
  · have hfirst := hbyte (show v / 262144 % 8 + 240 < 256 by omega)
    have hsecond := hbyte (show v / 4096 % 64 + 128 < 256 by omega)
    have hbits : (((v / 262144 % 8 + 240 - 240) * 64 + (v / 4096 % 64 + 128 - 128)) * 64 +
        (v / 64 % 64 + 128 - 128)) * 64 + (v % 64 + 128 - 128) = v := by omega
    obtain ⟨low, high, hread, hbounds⟩ := readFirst_of_four
      (show 0xF0 ≤ (UInt8.ofNat (v / 262144 % 8 + 240)).toNat by omega) (by omega)
    simp only [List.cons_append, List.nil_append]
    rw [decodeFrom_first hread,
      decodeFrom_next (hbounds _ (by omega) (by omega) (by omega) (by omega)) (by decide),
      decodeFrom_next (by omega) (by decide), decodeFrom_last (by omega), hfirst, hsecond, hthird,
      hlast, hbits, hchar]

theorem decodeMarked_encode (t : Text) : decodeMarked (encode t) = t.map some := by
  induction t with
  | nil => rfl
  | cons c t ih =>
      rw [decodeMarked, encode, List.flatMap_cons, decodeFrom_utf8EncodeChar, List.map_cons]
      exact congrArg (some c :: ·) ih

/-- **Texts as bytes**: the bytes of a text are read as this text. -/
theorem decode?_encode (t : Text) : decode? (encode t) = some t := by
  rw [decode?, decodeMarked_encode]
  simp

end ImportWatch.Utf8
