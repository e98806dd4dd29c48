import Fioxa.Fs.Disk

/-! # Texts in directory entries

What `parse_entries` uses of the standard library: `String::from_utf8_lossy`, `char::decode_utf16`
with the replacement character for errors, and `str::trim`. A string is the list of its
characters. -/

namespace Fioxa.Fs

abbrev Name := List Char

/-- `char::REPLACEMENT_CHARACTER` -/
def replacement : Char := Char.ofNat 0xFFFD

/-! ## UTF-8 -/

/-- A continuation byte whose value is in a range. -/
def within (lo hi : Nat) (b : UInt8) : Bool := lo ≤ b.toNat ∧ b.toNat ≤ hi

def continues (b : UInt8) : Bool := within 0x80 0xBF b

/-- The bytes that may follow the first byte of a sequence of three or four. -/
def secondByte (b₀ b₁ : UInt8) : Bool :=
  match b₀.toNat with
  | 0xE0 => within 0xA0 0xBF b₁
  | 0xED => within 0x80 0x9F b₁
  | 0xF0 => within 0x90 0xBF b₁
  | 0xF4 => within 0x80 0x8F b₁
  | _ => continues b₁

/-- The low bits of a byte. -/
def bits (n : Nat) (b : UInt8) : Nat := b.toNat % n

/-- `String::from_utf8_lossy`. Each longest piece of a sequence that is not completed becomes one
    replacement character. -/
def fromUtf8Lossy : List UInt8 → Name
  | [] => []
  | b₀ :: rest =>
    if b₀.toNat < 0x80 then Char.ofNat b₀.toNat :: fromUtf8Lossy rest
    else if within 0xC2 0xDF b₀ then
      match rest with
      | [] => [replacement]
      | b₁ :: rest₁ =>
        if continues b₁ then
          Char.ofNat (bits 0x20 b₀ * 0x40 + bits 0x40 b₁) :: fromUtf8Lossy rest₁
        else replacement :: fromUtf8Lossy (b₁ :: rest₁)
    else if within 0xE0 0xEF b₀ then
      match rest with
      | [] => [replacement]
      | b₁ :: rest₁ =>
        if secondByte b₀ b₁ then
          match rest₁ with
          | [] => [replacement]
          | b₂ :: rest₂ =>
            if continues b₂ then
              Char.ofNat (bits 0x10 b₀ * 0x1000 + bits 0x40 b₁ * 0x40 + bits 0x40 b₂) ::
                fromUtf8Lossy rest₂
            else replacement :: fromUtf8Lossy (b₂ :: rest₂)
        else replacement :: fromUtf8Lossy (b₁ :: rest₁)
    else if within 0xF0 0xF4 b₀ then
      match rest with
      | [] => [replacement]
      | b₁ :: rest₁ =>
        if secondByte b₀ b₁ then
          match rest₁ with
          | [] => [replacement]
          | b₂ :: rest₂ =>
            if continues b₂ then
              match rest₂ with
              | [] => [replacement]
              | b₃ :: rest₃ =>
                if continues b₃ then
                  Char.ofNat (bits 0x08 b₀ * 0x40000 + bits 0x40 b₁ * 0x1000
                    + bits 0x40 b₂ * 0x40 + bits 0x40 b₃) :: fromUtf8Lossy rest₃
                else replacement :: fromUtf8Lossy (b₃ :: rest₃)
            else replacement :: fromUtf8Lossy (b₂ :: rest₂)
        else replacement :: fromUtf8Lossy (b₁ :: rest₁)
    else replacement :: fromUtf8Lossy rest

/-! ## UTF-16 -/

def isSurrogate (u : Nat) : Bool := 0xD800 ≤ u ∧ u ≤ 0xDFFF

/-- `char::decode_utf16`, with the replacement character for a surrogate without its other half. -/
def decodeUtf16 : List Nat → Name
  | [] => []
  | u :: rest =>
    if !isSurrogate u then Char.ofNat u :: decodeUtf16 rest
    else if 0xDC00 ≤ u then replacement :: decodeUtf16 rest
    else
      match rest with
      | [] => [replacement]
      | u₂ :: rest₂ =>
        if 0xDC00 ≤ u₂ ∧ u₂ ≤ 0xDFFF then
          Char.ofNat (0x10000 + (u - 0xD800) * 0x400 + (u₂ - 0xDC00)) :: decodeUtf16 rest₂
        else replacement :: decodeUtf16 (u₂ :: rest₂)

/-! ## White space -/

/-- `char::is_whitespace` -/
def isWhitespace (c : Char) : Bool :=
  let n := c.toNat
  (9 ≤ n ∧ n ≤ 13) ∨ n = 0x20 ∨ n = 0x85 ∨ n = 0xA0 ∨ n = 0x1680 ∨ (0x2000 ≤ n ∧ n ≤ 0x200A) ∨
    n = 0x2028 ∨ n = 0x2029 ∨ n = 0x202F ∨ n = 0x205F ∨ n = 0x3000

/-- `str::trim` -/
def trim (name : Name) : Name :=
  ((name.dropWhile isWhitespace).reverse.dropWhile isWhitespace).reverse

example : trim (fromUtf8Lossy [0x46, 0x49, 0x4F, 0x58, 0x41, 0x20, 0x20, 0x20])
    = ['F', 'I', 'O', 'X', 'A'] := by decide

example : fromUtf8Lossy [0xE2, 0x82, 0xAC, 0xE2, 0x82, 0x41] = ['€', replacement, 'A'] := by decide

example : decodeUtf16 [0x61, 0xD83E, 0xDD80, 0xD83E] = ['a', '🦀', replacement] := by decide

end Fioxa.Fs
