import Mathlib.Data.Int.Notation

/-!
# Texts as Python reads them

White space, decimal digits and integer literals, as the `strip` and the `int` of Python treat them. White space at the ends of an
integer is that of C where the text is ASCII: the separators 28 to 31, which `strip` removes, are none there.
-/

namespace LoomImport

/-! ## Characters -/

/-- The white space `str.strip` removes. -/
def isSpace (c : Char) : Bool :=
  let n := c.toNat
  n = 32 || (9 ≤ n && n ≤ 13) || (28 ≤ n && n ≤ 31) || n = 133 || n = 160 || n = 0x1680 || (0x2000 ≤ n && n ≤ 0x200a) ||
    n = 0x2028 || n = 0x2029 || n = 0x202f || n = 0x205f || n = 0x3000

/-- `text.strip()`. -/
def stripSpaces (cs : List Char) : List Char :=
  ((cs.dropWhile isSpace).reverse.dropWhile isSpace).reverse

/-- The zeros of the decimal digits of Unicode 14 beyond ASCII: the nine characters after each are the other digits of its script. -/
def decimalZeros : List Nat :=
  [0x660, 0x6f0, 0x7c0, 0x966, 0x9e6, 0xa66, 0xae6, 0xb66, 0xbe6, 0xc66, 0xce6, 0xd66, 0xde6, 0xe50, 0xed0, 0xf20, 0x1040,
   0x1090, 0x17e0, 0x1810, 0x1946, 0x19d0, 0x1a80, 0x1a90, 0x1b50, 0x1bb0, 0x1c40, 0x1c50, 0xa620, 0xa8d0, 0xa900, 0xa9d0,
   0xa9f0, 0xaa50, 0xabf0, 0xff10, 0x104a0, 0x10d30, 0x11066, 0x110f0, 0x11136, 0x111d0, 0x112f0, 0x11450, 0x114d0, 0x11650,
   0x116c0, 0x11730, 0x118e0, 0x11950, 0x11c50, 0x11d50, 0x11da0, 0x16a60, 0x16ac0, 0x16b50, 0x1d7ce, 0x1d7d8, 0x1d7e2, 0x1d7ec,
   0x1d7f6, 0x1e140, 0x1e2f0, 0x1e950, 0x1fbf0]

/-- The value of a decimal digit, of any script. -/
def decimalValue? (c : Char) : Option Nat :=
  if c.toNat < 127 then if '0' ≤ c ∧ c ≤ '9' then some (c.toNat - '0'.toNat) else none
  else (decimalZeros.find? fun start => start ≤ c.toNat && c.toNat < start + 10).map fun start => c.toNat - start

/-- `\d`. -/
def isDecimal (c : Char) : Bool := (decimalValue? c).isSome

/-- The character `int` reads in place of another: a digit or a space of ASCII; "?" stands for what is neither. -/
def toAscii (c : Char) : Char :=
  if c.toNat < 127 then c
  else if isSpace c then ' '
  else match decimalValue? c with
    | some d => Char.ofNat ('0'.toNat + d)
    | none => '?'

/-! ## Integers -/

/-- The value of a digit in the bases up to 36. -/
def digitValue (c : Char) : Option Nat :=
  if '0' ≤ c ∧ c ≤ '9' then some (c.toNat - '0'.toNat)
  else if 'a' ≤ c ∧ c ≤ 'z' then some (c.toNat - 'a'.toNat + 10)
  else if 'A' ≤ c ∧ c ≤ 'Z' then some (c.toNat - 'A'.toNat + 10)
  else none

/-- The digits of an integer literal, with single underscores between digits. `afterDigit` says that one may end or be followed by
an underscore here. -/
def digitsValue (base : Nat) : Nat → Bool → List Char → Option Nat
  | acc, afterDigit, [] => if afterDigit then some acc else none
  | acc, afterDigit, c :: cs =>
    if c = '_' then if afterDigit then digitsValue base acc false cs else none
    else match digitValue c with
      | none => none
      | some d => if d < base then digitsValue base (acc * base + d) true cs else none

/-- The digits after a base prefix: one underscore may come first. -/
def prefixedDigits (base : Nat) : List Char → Option Nat
  | '_' :: cs => digitsValue base 0 false cs
  | cs => digitsValue base 0 false cs

/-- The unsigned part of `int(text, 2)`. -/
def binaryLiteral : List Char → Option Nat
  | '0' :: 'b' :: cs | '0' :: 'B' :: cs => prefixedDigits 2 cs
  | cs => digitsValue 2 0 false cs

/-- The unsigned part of `int(text, 0)`: the prefix gives the base, and a decimal literal has no leading zero unless it is zero. -/
def prefixedLiteral : List Char → Option Nat
  | '0' :: 'b' :: cs | '0' :: 'B' :: cs => prefixedDigits 2 cs
  | '0' :: 'o' :: cs | '0' :: 'O' :: cs => prefixedDigits 8 cs
  | '0' :: 'x' :: cs | '0' :: 'X' :: cs => prefixedDigits 16 cs
  | '0' :: cs => (digitsValue 10 0 true cs).bind fun n => if n = 0 then some 0 else none
  | cs => digitsValue 10 0 false cs

/-- The white space that may surround an integer. -/
def isAsciiSpace (c : Char) : Bool := c.toNat = 32 || (9 ≤ c.toNat && c.toNat ≤ 13)

/-- `int(text, base)`: white space at the ends is ignored and a sign may come first. `none` stands for `ValueError`. -/
def pyInt (literal : List Char → Option Nat) (text : List Char) : Option Int :=
  match (((text.map toAscii).dropWhile isAsciiSpace).reverse.dropWhile isAsciiSpace).reverse with
  | '-' :: cs => (literal cs).map fun n => -(n : Int)
  | '+' :: cs => (literal cs).map Int.ofNat
  | cs => (literal cs).map Int.ofNat

end LoomImport
