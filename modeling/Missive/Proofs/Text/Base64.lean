import Mathlib
import Missive.Text.Base64

/-!
# Missive.Proofs.Text.Base64

Base64 text is read back as the bytes that it was written for.
-/

namespace Missive.Base64

theorem symbolValue?_symbol : ∀ n < 64, symbolValue? (symbol n) = some n := by decide

theorem symbol_ne_pad : ∀ n < 64, symbol n ≠ '=' := by decide

/-- A group of four symbols is three bytes; the last symbol is not padding. -/
theorem decode?_group (h₁ : n₁ < 64) (h₂ : n₂ < 64) (h₃ : n₃ < 64) (h₄ : n₄ < 64)
    (hn : n = n₁ * 262144 + n₂ * 4096 + n₃ * 64 + n₄) (hrest : decode? rest = some tail) :
    decode? (symbol n₁ :: symbol n₂ :: symbol n₃ :: symbol n₄ :: rest) =
      some ((n / 65536).toUInt8 :: (n / 256 % 256).toUInt8 :: (n % 256).toUInt8 :: tail) := by
  rw [decode?]
  · simp [symbolValue?_symbol, h₁, h₂, h₃, h₄, hrest, ← hn]
  · intro _ hpad
    exact absurd hpad (symbol_ne_pad n₄ h₄)
  · intro hpad
    exact absurd hpad (symbol_ne_pad n₄ h₄)

/-- A group that ends with one pad is two bytes. -/
theorem decode?_two (h₁ : n₁ < 64) (h₂ : n₂ < 64) (h₃ : n₃ < 64)
    (hn : n * 4 = n₁ * 4096 + n₂ * 64 + n₃) :
    decode? [symbol n₁, symbol n₂, symbol n₃, '='] =
      some [(n / 256).toUInt8, (n % 256).toUInt8] := by
  rw [decode?]
  · simp only [symbolValue?_symbol, h₁, h₂, h₃, Option.bind_eq_bind, Option.bind_some, ← hn]
    rw [if_pos (Nat.mul_mod_left n 4), Nat.mul_div_cancel n (by decide),
      show n * 4 / 1024 = n / 256 by omega]
  · intro hpad
    exact absurd hpad (symbol_ne_pad n₃ h₃)

/-- A group that ends with two pads is one byte. -/
theorem decode?_one (h₁ : n₁ < 64) (h₂ : n₂ < 64) (hn : n * 16 = n₁ * 64 + n₂) :
    decode? [symbol n₁, symbol n₂, '=', '='] = some [n.toUInt8] := by
  rw [decode?]
  simp only [symbolValue?_symbol, h₁, h₂, Option.bind_eq_bind, Option.bind_some, ← hn]
  rw [if_pos (Nat.mul_mod_left n 16), Nat.mul_div_cancel n (by decide)]

/-- **Base64 is read back**: decoding the text of a byte sequence gives the sequence. -/
theorem decode?_encode (bytes : List UInt8) : decode? (encode bytes) = some bytes := by
  have hbyte : ∀ (b : UInt8) (n : Nat), n = b.toNat → n.toUInt8 = b := by
    rintro b _ rfl
    rw [Nat.toUInt8_eq, UInt8.ofNat_toNat]
  fun_induction encode bytes with
  | case1 => rfl
  | case2 a n =>
      have ha := a.toNat_lt
      rw [decode?_one (n := n) (by omega) (by omega) (by omega), hbyte a n rfl]
  | case3 a b n =>
      have ha := a.toNat_lt
      have hb := b.toNat_lt
      rw [decode?_two (n := n) (by omega) (by omega) (by omega) (by omega), hbyte a _ (by omega),
        hbyte b _ (by omega)]
  | case4 a b c rest n ih =>
      have ha := a.toNat_lt
      have hb := b.toNat_lt
      have hc := c.toNat_lt
      rw [decode?_group (n := n) (by omega) (by omega) (by omega) (by omega) (by omega) ih,
        hbyte a _ (by omega), hbyte b _ (by omega), hbyte c _ (by omega)]

theorem decodeText?_encodeText (bytes : List UInt8) :
    decodeText? (encodeText bytes) = some bytes := by
  rw [decodeText?, encodeText, String.toList_ofList, decode?_encode]

end Missive.Base64
