import ImportWatch.Text.Blank

/-!
# ImportWatch.Text.Utf8

Texts as bytes, in UTF-8.

The reader takes one byte at a time.  Between two bytes it is either between
characters or inside of one, and then it knows how many bytes are missing and
between which bounds the next one lies; the bounds rule out overlong forms,
surrogates and numbers above the last code point as early as possible.

* `decodeMarked` marks every longest run of bytes that starts a character and
  cannot be continued, or that starts none, by `none`;
* `decodeLossy` replaces each mark by U+FFFD, `decode?` refuses marked input;
* `encode` writes a text.
-/

namespace ImportWatch

/-- The contents of a file. -/
abbrev Bytes := List UInt8

namespace Utf8

/-- A character that is being read. -/
structure Unread where
  /-- The number of bytes that are missing. -/
  missing : Nat
  /-- The least value of the next byte. -/
  low : Nat
  /-- The greatest value of the next byte. -/
  high : Nat
  /-- The bits of the bytes so far. -/
  bits : Nat
  deriving DecidableEq, Repr

/-- What a byte gives: characters or marks that are complete, and the character that is open. -/
abbrev Step := List (Option Char) × Option Unread

/-- Reads a byte between characters. -/
def readFirst (b : UInt8) : Step :=
  let n := b.toNat
  if n < 0x80 then ([some (Char.ofNat n)], none)
  else if n < 0xC2 then ([none], none)
  else if n < 0xE0 then ([], some ⟨1, 0x80, 0xBF, n - 0xC0⟩)
  else if n = 0xE0 then ([], some ⟨2, 0xA0, 0xBF, 0⟩)
  else if n = 0xED then ([], some ⟨2, 0x80, 0x9F, 0xD⟩)
  else if n < 0xF0 then ([], some ⟨2, 0x80, 0xBF, n - 0xE0⟩)
  else if n = 0xF0 then ([], some ⟨3, 0x90, 0xBF, 0⟩)
  else if n < 0xF4 then ([], some ⟨3, 0x80, 0xBF, n - 0xF0⟩)
  else if n = 0xF4 then ([], some ⟨3, 0x80, 0x8F, 4⟩)
  else ([none], none)

/-- Reads a byte inside of a character; one out of bounds ends the character
with a mark and is read as the first byte of the next. -/
def readNext (u : Unread) (b : UInt8) : Step :=
  let n := b.toNat
  if u.low ≤ n ∧ n ≤ u.high then
    let bits := u.bits * 64 + (n - 0x80)
    if u.missing ≤ 1 then ([some (Char.ofNat bits)], none)
    else ([], some ⟨u.missing - 1, 0x80, 0xBF, bits⟩)
  else
    let (done, left) := readFirst b
    (none :: done, left)

/-- The characters of some bytes, with marks, from inside of a character or between two. -/
def decodeFrom (left : Option Unread) : Bytes → List (Option Char)
  | [] =>
    match left with
    | none => []
    | some _ => [none]
  | b :: bs =>
    let (done, left) :=
      match left with
      | none => readFirst b
      | some u => readNext u b
    done ++ decodeFrom left bs

/-- The characters of some bytes, with `none` for what is no character. -/
def decodeMarked (bs : Bytes) : List (Option Char) := decodeFrom none bs

/-- The text in some bytes, with U+FFFD for what is no character. -/
def decodeLossy (bs : Bytes) : Text := (decodeMarked bs).map fun c => c.getD '\ufffd'

/-- The text in some bytes, if all of them belong to characters. -/
def decode? (bs : Bytes) : Option Text :=
  let cs := decodeMarked bs
  if cs.all Option.isSome then some (cs.filterMap id) else none

/-- The bytes of a text. -/
def encode (t : Text) : Bytes := t.flatMap String.utf8EncodeChar

end Utf8

end ImportWatch
