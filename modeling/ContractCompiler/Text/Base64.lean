/-!
# Base 64

The standard alphabet with padding, used for byte constants in assembly.
-/

namespace ContractCompiler.Text.Base64

/-- The 64 digits, in order. -/
def alphabet : List Char :=
  "ABCDEFGHIJKLMNOPQRSTUVWXYZabcdefghijklmnopqrstuvwxyz0123456789+/".toList

/-- The character of a six-bit digit. -/
def digit (n : Nat) : Char :=
  alphabet.getD n '='

/-- The base 64 text of some bytes, newest character first, before `acc`. -/
def encodeOnto : List UInt8 → (acc : List Char) → List Char
  | [], acc => acc
  | [a], acc =>
    let n := a.toNat * 16
    '=' :: '=' :: digit (n % 64) :: digit (n / 64) :: acc
  | [a, b], acc =>
    let n := (a.toNat * 256 + b.toNat) * 4
    '=' :: digit (n % 64) :: digit (n / 64 % 64) :: digit (n / 4096) :: acc
  | a :: b :: c :: rest, acc =>
    let n := a.toNat * 65536 + b.toNat * 256 + c.toNat
    encodeOnto rest
      (digit (n % 64) :: digit (n / 64 % 64) :: digit (n / 4096 % 64) :: digit (n / 262144) :: acc)

/-- The base 64 text of some bytes. -/
def encode (bs : List UInt8) : List Char :=
  (encodeOnto bs []).reverse

end ContractCompiler.Text.Base64
