/-
JavaScript values, as far as guard.js and the interstitial use them: safe
integers, typed arrays, and the number conversions of a byte.
-/
import NekoGuard.Std.Hex
import NekoGuard.Std.IpAddrFacts

namespace NekoGuard.Js

/-- `n + 1`: beyond 2^53 a number no longer has a successor of its own. -/
def incr (n : Nat) : Nat := if n < 2 ^ 53 then n + 1 else n

/-- `TextEncoder.encode`. -/
def encodeText (s : Str) : Bytes := Text.bytes s

/-- `String(n)` of a safe integer. -/
def toText (n : Nat) : Str := Text.decimal n

/-! ## Typed arrays -/

/-- `new Uint8Array(n)`. -/
def uint8Array (n : Nat) : Bytes := List.replicate n 0

/-- `buf.set(src, offset)`; `none` where it throws a `RangeError`. -/
def set (buf src : Bytes) (offset : Nat) : Option Bytes :=
  if offset + src.length ≤ buf.length then
    some (buf.take offset ++ src ++ buf.drop (offset + src.length))
  else none

/-- Two arrays put one behind the other in a buffer of their joint size. -/
theorem set_set (a b : Bytes) :
    (set (uint8Array (a.length + b.length)) a 0).bind (fun buf => set buf b a.length) = some (a ++ b) := by
  have hfirst : set (uint8Array (a.length + b.length)) a 0 = some (a ++ List.replicate b.length 0) := by
    unfold set uint8Array
    rw [if_pos (by simp)]
    simp
  rw [hfirst, Option.bind_some]
  unfold set
  rw [if_pos (by simp)]
  simp

/-! ## Bytes in hexadecimal -/

/-- `s.padStart(2, "0")`. -/
def padStart2 (s : Str) : Str := List.replicate (2 - s.length) '0' ++ s

/-- `b.toString(16).padStart(2, "0")`. -/
def hexByte (b : UInt8) : Str := padStart2 (Nat.toDigits 16 b.toNat)

/-- The digits of every byte, one after the other. -/
def toHex (bs : Bytes) : Str := bs.foldl (fun out b => out ++ hexByte b) []

/-- `parseInt(c, 16)` of one character of a string, `none` for `NaN`: past
the end of the string there is `undefined`, which is no number. -/
def parseInt16 (c : Option Char) : Option Nat := c.bind (IpAddr.toDigit 16)

/-- `x < n`, where a `NaN` is below nothing. -/
def lt (x : Option Nat) (n : Nat) : Bool := x.any (· < n)

theorem hexByte_eq (b : UInt8) : hexByte b = Hex.encodeByte b := by
  have all : ∀ n < 256, padStart2 (Nat.toDigits 16 n) = [Hex.digit (n / 16), Hex.digit (n % 16)] := by
    decide +kernel
  exact all b.toNat b.toNat_lt

theorem toHex_eq (bs : Bytes) : toHex bs = Hex.encode bs := by
  have go : ∀ out, bs.foldl (fun out b => out ++ hexByte b) out = out ++ Hex.encode bs := by
    induction bs with
    | nil => intro out; simp [Hex.encode]
    | cons b bs ih =>
      intro out
      rw [List.foldl_cons, ih, hexByte_eq, List.append_assoc]
      rfl
  exact go []

end NekoGuard.Js
