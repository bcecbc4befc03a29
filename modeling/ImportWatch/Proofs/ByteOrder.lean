import ImportWatch.Text.Utf8
import Mathlib.Data.List.Basic

/-!
# ImportWatch.Proofs.ByteOrder

Texts are in the order of their bytes.

The first byte of a character tells how many bytes it has, and more of them for
larger characters; of two characters with as many bytes, the one that comes
first has the smaller digit, to base 64, where they first differ.

* `Utf8.digits_lt` compares numbers of four digits;
* `Utf8.utf8EncodeChar_append_lt` compares texts by their first characters;
* `Utf8.encode_lt_encode` compares texts.
-/

namespace ImportWatch.Utf8

theorem div_lt_or_mod_lt {m n : Nat} (h : m < n) (b : Nat) :
    m / b < n / b ∨ m / b = n / b ∧ m % b < n % b := by
  rcases Nat.lt_or_eq_of_le (Nat.div_le_div_right (c := b) (Nat.le_of_lt h)) with hlt | heq
  · exact .inl hlt
  · have hm := Nat.div_add_mod m b
    have hn := Nat.div_add_mod n b
    rw [heq] at hm
    exact .inr ⟨heq, by omega⟩

/-- The smaller of two numbers has the smaller digit where their four digits first differ. -/
theorem digits_lt {m n : Nat} (h : m < n) :
    m / 262144 < n / 262144 ∨ m / 262144 = n / 262144 ∧
      (m / 4096 % 64 < n / 4096 % 64 ∨ m / 4096 % 64 = n / 4096 % 64 ∧
        (m / 64 % 64 < n / 64 % 64 ∨ m / 64 % 64 = n / 64 % 64 ∧ m % 64 < n % 64)) := by
  have hdiv (k : Nat) : k / 4096 = k / 64 / 64 ∧ k / 262144 = k / 64 / 64 / 64 := by omega
  rw [(hdiv m).1, (hdiv m).2, (hdiv n).1, (hdiv n).2]
  rcases div_lt_or_mod_lt h 64 with h | ⟨heq, h⟩
  · rcases div_lt_or_mod_lt h 64 with h | ⟨heq, h⟩
    · rcases div_lt_or_mod_lt h 64 with h | ⟨heq, h⟩
      · exact .inl h
      · exact .inr ⟨heq, .inl h⟩
    · exact .inr ⟨by rw [heq], .inr ⟨by rw [heq], .inl h⟩⟩
  · exact .inr ⟨by rw [heq], .inr ⟨by rw [heq], .inr ⟨by rw [heq], h⟩⟩⟩

theorem ofNat_lt_ofNat {m n : Nat} (h : m < n) (hn : n < 256) : UInt8.ofNat m < UInt8.ofNat n := by
  rw [UInt8.lt_iff_toNat_lt, UInt8.toNat_ofNat', UInt8.toNat_ofNat']
  omega

/-- A text comes before another one when its first character does, and so do their bytes. -/
theorem utf8EncodeChar_append_lt {c d : Char} (h : c < d) (s t : Bytes) :
    String.utf8EncodeChar c ++ s < String.utf8EncodeChar d ++ t := by
  have hlast : d.val.toNat < 0x110000 := by
    cases d.valid with
    | inl hlow => omega
    | inr hhigh => exact hhigh.2
  have hlt : c.val.toNat < d.val.toNat := UInt32.lt_iff_toNat_lt.1 h
  simp only [String.utf8EncodeChar]
  generalize c.val.toNat = v at *
  generalize d.val.toNat = w at *
  by_cases hshort : v ≤ 65535
  · -- up to three bytes, or a first byte that tells the lengths apart
    split_ifs <;>
      simp only [List.cons_append, List.nil_append, List.cons_lt_cons_iff, UInt8.lt_iff_toNat_lt,
        ← UInt8.toNat_inj, UInt8.toNat_ofNat'] <;> omega
  · rw [if_neg (by omega), if_neg (by omega), if_neg hshort, if_neg (by omega), if_neg (by omega),
      if_neg (by omega), Nat.mod_eq_of_lt (show v / 262144 < 8 by omega),
      Nat.mod_eq_of_lt (show w / 262144 < 8 by omega)]
    simp only [List.cons_append, List.nil_append, List.cons_lt_cons_iff]
    rcases digits_lt hlt with h | ⟨h1, h | ⟨h2, h | ⟨h3, h⟩⟩⟩
    · exact .inl (ofNat_lt_ofNat (by omega) (by omega))
    · exact .inr ⟨by rw [h1], .inl (ofNat_lt_ofNat (by omega) (by omega))⟩
    · exact .inr ⟨by rw [h1], .inr ⟨by rw [h2], .inl (ofNat_lt_ofNat (by omega) (by omega))⟩⟩
    · exact .inr ⟨by rw [h1], .inr ⟨by rw [h2], .inr ⟨by rw [h3],
        .inl (ofNat_lt_ofNat (by omega) (by omega))⟩⟩⟩

theorem encode_cons (c : Char) (t : Text) : encode (c :: t) = String.utf8EncodeChar c ++ encode t :=
  rfl

/-- A text that comes before another one has bytes that come before those of the other. -/
theorem encode_lt_encode {s t : Text} (h : s < t) : encode s < encode t := by
  induction s generalizing t with
  | nil =>
      cases t with
      | nil => exact absurd h (List.lt_irrefl _)
      | cons d t =>
          rw [encode_cons]
          obtain ⟨b, bs, hbytes⟩ :=
            List.exists_cons_of_ne_nil (String.utf8EncodeChar_ne_nil (c := d))
          rw [hbytes]
          exact List.nil_lt_cons _ _
  | cons c s ih =>
      cases t with
      | nil => cases h
      | cons d t =>
          rw [encode_cons, encode_cons]
          rcases List.cons_lt_cons_iff.1 h with hlt | ⟨rfl, hlt⟩
          · exact utf8EncodeChar_append_lt hlt _ _
          · exact List.append_left_lt (ih hlt)

end ImportWatch.Utf8
