/-!
# Missive.Text.Utf8

Where a byte sequence stops being UTF-8.

A character starts with a byte that says how many bytes follow and which range the next one is
in; the others are continuation bytes.  `Utf8.fault?` finds the first byte sequence that is no
character: its position, and how many of its bytes were so far valid, or that the input ended
inside it.
-/

namespace Missive

/-- The first fault of a byte sequence that is not UTF-8. -/
inductive Utf8Fault where
  /-- The input ends inside a character that starts at `start`. -/
  | incomplete (start : Nat)
  /-- The `length` bytes from `start` on are no character. -/
  | invalid (start length : Nat)
  deriving Repr, DecidableEq

namespace Utf8

/-- The bytes that may follow a first byte: the range of the second byte, and how many
continuation bytes come after it. -/
structure Follow where
  least : UInt8
  greatest : UInt8
  more : Nat

/-- What may follow the first byte of a character of several bytes. -/
def follow? (b : UInt8) : Option Follow :=
  if 0xc2 ≤ b && b ≤ 0xdf then some ⟨0x80, 0xbf, 0⟩
  else if b == 0xe0 then some ⟨0xa0, 0xbf, 1⟩
  else if b == 0xed then some ⟨0x80, 0x9f, 1⟩
  else if 0xe1 ≤ b && b ≤ 0xef then some ⟨0x80, 0xbf, 1⟩
  else if b == 0xf0 then some ⟨0x90, 0xbf, 2⟩
  else if 0xf1 ≤ b && b ≤ 0xf3 then some ⟨0x80, 0xbf, 2⟩
  else if b == 0xf4 then some ⟨0x80, 0x8f, 2⟩
  else none

/-- Where the scan stands between two bytes: at the beginning of a character, or inside one that
starts at `start`, of which `done` bytes are read. -/
inductive Place where
  | between
  | inside (start done : Nat) (next : Follow)

/-- The first fault from a place on; `index` is the position of the next byte. -/
def faultFrom (index : Nat) : Place → List UInt8 → Option Utf8Fault
  | .between, [] => none
  | .inside start _ _, [] => some (.incomplete start)
  | .between, b :: rest =>
    if b < 0x80 then faultFrom (index + 1) .between rest
    else
      match follow? b with
      | none => some (.invalid index 1)
      | some next => faultFrom (index + 1) (.inside index 1 next) rest
  | .inside start done next, b :: rest =>
    if next.least ≤ b && b ≤ next.greatest then
      if next.more == 0 then faultFrom (index + 1) .between rest
      else faultFrom (index + 1) (.inside start (done + 1) ⟨0x80, 0xbf, next.more - 1⟩) rest
    else some (.invalid start done)

/-- The first fault of a byte sequence. -/
def fault? (bytes : List UInt8) : Option Utf8Fault := faultFrom 0 .between bytes

/-- The bytes of a text. -/
def encode (s : String) : List UInt8 := s.toUTF8.data.toList

/-- The text of a byte sequence, if it is UTF-8. -/
def decode? (bytes : List UInt8) : Option String := String.fromUTF8? bytes.toByteArray

end Utf8

end Missive
