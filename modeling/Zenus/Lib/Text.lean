/-! # Text as UTF-8 bytes

The lines of a text, the white space at its ends and the decimal number it spells,
on the bytes of valid UTF-8.
-/

namespace Lib.Text

/-- The encodings of the characters that count as white space. -/
def whitespace : List (List UInt8) :=
  [[9], [10], [11], [12], [13], [32], [0xC2, 0x85], [0xC2, 0xA0], [0xE1, 0x9A, 0x80],
    [0xE2, 0x80, 0x80], [0xE2, 0x80, 0x81], [0xE2, 0x80, 0x82], [0xE2, 0x80, 0x83],
    [0xE2, 0x80, 0x84], [0xE2, 0x80, 0x85], [0xE2, 0x80, 0x86], [0xE2, 0x80, 0x87],
    [0xE2, 0x80, 0x88], [0xE2, 0x80, 0x89], [0xE2, 0x80, 0x8A], [0xE2, 0x80, 0xA8],
    [0xE2, 0x80, 0xA9], [0xE2, 0x80, 0xAF], [0xE2, 0x81, 0x9F], [0xE3, 0x80, 0x80]]

/-- Drop the given characters from the front, at most `n` of them. -/
def dropChars (chars : List (List UInt8)) : (n : Nat) → List UInt8 → List UInt8
  | 0, text => text
  | n + 1, text =>
    match chars.find? (·.isPrefixOf text) with
    | some c => dropChars chars n (text.drop c.length)
    | none => text

/-- The text without the white space at its ends. -/
def trim (text : List UInt8) : List UInt8 :=
  let rest := dropChars whitespace text.length text
  (dropChars (whitespace.map List.reverse) rest.length rest.reverse).reverse

/-- One line without the line feed at its end, or without `\r\n`. -/
def chomp (line : List UInt8) : List UInt8 :=
  if line.getLast? = some 10 then
    let line := line.dropLast
    if line.getLast? = some 13 then line.dropLast else line
  else line

/-- The pieces of a text, each up to and with a line feed. -/
def pieces : List UInt8 → List (List UInt8)
  | [] => []
  | b :: rest =>
    if b = 10 then [b] :: pieces rest
    else
      match pieces rest with
      | [] => [[b]]
      | piece :: more => (b :: piece) :: more

def lines (text : List UInt8) : List (List UInt8) := (pieces text).map chomp

def digits (row : List UInt8) : Option Nat :=
  if row.isEmpty then none
  else row.foldlM (fun n d => if 48 ≤ d ∧ d ≤ 57 then some (10 * n + (d.toNat - 48)) else none) 0

/-- The number below `bound` that the text spells, with an optional `+`. -/
def parse (bound : Nat) (text : List UInt8) : Option Nat :=
  (digits (if text.head? = some 43 then text.tail else text)).filter (· < bound)

end Lib.Text
