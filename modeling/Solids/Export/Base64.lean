/-!
# Solids.Export.Base64

**Bytes as text**: three bytes become four characters, each standing for six bits. A
last group of one or two bytes is filled up with equals signs.
-/

namespace Solids.Base64

/-- The character for six bits. -/
def digit (n : Nat) : Char :=
  if n < 26 then Char.ofNat ('A'.toNat + n)
  else if n < 52 then Char.ofNat ('a'.toNat + (n - 26))
  else if n < 62 then Char.ofNat ('0'.toNat + (n - 52))
  else if n = 62 then '+'
  else '/'

/-- The characters for some bytes, in reverse and in front of those that are done. -/
def encodeOnto (done : List Char) : List UInt8 → List Char
  | [] => done
  | [a] =>
    let n := a.toNat * 16
    '=' :: '=' :: digit (n % 64) :: digit (n / 64) :: done
  | [a, b] =>
    let n := (a.toNat * 256 + b.toNat) * 4
    '=' :: digit (n % 64) :: digit (n / 64 % 64) :: digit (n / 4096) :: done
  | a :: b :: c :: rest =>
    let n := (a.toNat * 256 + b.toNat) * 256 + c.toNat
    encodeOnto
      (digit (n % 64) :: digit (n / 64 % 64) :: digit (n / 4096 % 64) :: digit (n / 262144) :: done)
      rest

/-- The text for some bytes. -/
def encode (bytes : List UInt8) : String := String.ofList (encodeOnto [] bytes).reverse

end Solids.Base64
