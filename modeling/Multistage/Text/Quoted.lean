import Multistage.Text.Printable

/-!
# Quoted text

The written form of a text between double quotes. A text is a list of bytes that is meant to be
UTF-8 and need not be: `units` reads it into characters and stray bytes, and `quote` writes each
unit. Printable characters stand for themselves, the quote and the backslash are escaped by a
backslash, seven controls have a letter of their own, and what remains is written in hexadecimal:
two digits for ASCII controls and stray bytes, four or eight for other characters.
-/

namespace Multistage.Text

/-- One unit of a text that is meant to be UTF-8: a character, or a byte that belongs to none. -/
inductive Unit8 where
  | char (c : Char)
  | stray (b : UInt8)
  deriving DecidableEq, Repr

namespace Unit8

/-- The low six bits of a continuation byte, if it is one. -/
def continuation? (b : UInt8) : Option Nat :=
  if 0x80 ≤ b.toNat && b.toNat < 0xC0 then some (b.toNat - 0x80) else none

/-- The character with code point `n`, if `n` is one and is not below `least`, the smallest code
point that needs this many bytes. -/
def scalar? (least n : Nat) : Option Char :=
  if n.isValidChar ∧ least ≤ n then some (Char.ofNat n) else none

/-- The character that the bytes start with, and how many bytes it takes. -/
def first? : List UInt8 → Option (Char × Nat)
  | [] => none
  | b₀ :: rest =>
    let n := b₀.toNat
    if n < 0x80 then (scalar? 0 n).map (·, 1)
    else if n < 0xC0 then none
    else if n < 0xE0 then
      match rest with
      | b₁ :: _ => do
        let x ← continuation? b₁
        let c ← scalar? 0x80 ((n - 0xC0) * 64 + x)
        some (c, 2)
      | _ => none
    else if n < 0xF0 then
      match rest with
      | b₁ :: b₂ :: _ => do
        let x ← continuation? b₁
        let y ← continuation? b₂
        let c ← scalar? 0x800 (((n - 0xE0) * 64 + x) * 64 + y)
        some (c, 3)
      | _ => none
    else if n < 0xF8 then
      match rest with
      | b₁ :: b₂ :: b₃ :: _ => do
        let x ← continuation? b₁
        let y ← continuation? b₂
        let z ← continuation? b₃
        let c ← scalar? 0x10000 ((((n - 0xF0) * 64 + x) * 64 + y) * 64 + z)
        some (c, 4)
      | _ => none
    else none

/-- Reads bytes into units, leaving out the first `skip` bytes, which belong to the unit before. -/
def read (skip : Nat) : List UInt8 → List Unit8
  | [] => []
  | b :: rest =>
    match skip with
    | skip + 1 => read skip rest
    | 0 =>
      match first? (b :: rest) with
      | some (c, width) => .char c :: read (width - 1) rest
      | none => .stray b :: read 0 rest

end Unit8

/-- The units of a list of bytes. -/
def units (bytes : List UInt8) : List Unit8 :=
  Unit8.read 0 bytes

/-- `n` in hexadecimal, with zeros in front up to `width` digits. -/
def hex (width n : Nat) : String :=
  let digits := Nat.toDigits 16 n
  String.ofList (List.replicate (width - digits.length) '0' ++ digits)

/-- A character as it stands in a quoted text. -/
def escapeChar (c : Char) : String :=
  if c == '"' || c == '\\' then String.ofList ['\\', c]
  else if isPrintable c then c.toString
  else match c.toNat with
    | 0x07 => "\\a"
    | 0x08 => "\\b"
    | 0x0c => "\\f"
    | 0x0a => "\\n"
    | 0x0d => "\\r"
    | 0x09 => "\\t"
    | 0x0b => "\\v"
    | n =>
      if n < 0x20 || n == 0x7f then "\\x" ++ hex 2 n
      else if n < 0x10000 then "\\u" ++ hex 4 n
      else "\\U" ++ hex 8 n

/-- A unit as it stands in a quoted text. -/
def Unit8.escape : Unit8 → String
  | .char c => escapeChar c
  | .stray b => "\\x" ++ hex 2 b.toNat

/-- The text with these bytes, between double quotes. -/
def quoteBytes (bytes : List UInt8) : String :=
  "\"" ++ String.join ((units bytes).map Unit8.escape) ++ "\""

/-- A string between double quotes. -/
def quote (s : String) : String :=
  "\"" ++ String.join (s.toList.map escapeChar) ++ "\""

end Multistage.Text
