/-!
# Numerals

Fixed spellings of numbers: a byte as two hexadecimal digits, a number whose
sign is always written, and a number padded with zeros up to a least width.
The width of a padded number counts its sign.
-/

namespace PatternEngine.Numeral

def hexDigit (n : Nat) : Char :=
  if n < 10 then Char.ofNat (48 + n) else Char.ofNat (87 + n)

def hexByte (b : UInt8) : String :=
  String.ofList [hexDigit (b.toNat / 16), hexDigit (b.toNat % 16)]

def signed (n : Int) : String :=
  (if n < 0 then "-" else "+") ++ toString n.natAbs

def padded (width : Nat) (n : Int) : String :=
  let sign := if n < 0 then "-" else ""
  let digits := toString n.natAbs
  sign ++ String.ofList (List.replicate (width - sign.length - digits.length) '0') ++ digits

end PatternEngine.Numeral
