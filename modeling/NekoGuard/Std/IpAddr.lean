/-
`std::net::IpAddr`: the textual form it is printed in and the parser that
reads it back.
-/
import NekoGuard.Std.Text

namespace NekoGuard

/-- An address: four octets or eight segments. -/
inductive IpAddr where
  | v4 (a b c d : UInt8)
  | v6 (a b c d e f g h : UInt16)
deriving DecidableEq, Repr

namespace IpAddr

open Text

/-! ## Parsing -/

/-- `char::to_digit`. -/
def toDigit (radix : Nat) (c : Char) : Option Nat :=
  let d :=
    if '0' ≤ c ∧ c ≤ '9' then c.toNat - 48
    else if 'a' ≤ c ∧ c ≤ 'z' then c.toNat - 87
    else if 'A' ≤ c ∧ c ≤ 'Z' then c.toNat - 55
    else radix
  if d < radix then some d else none

def isRadixDigit (radix : Nat) (c : Char) : Bool := (toDigit radix c).isSome

/-- The number a list of digits stands for. -/
def value (radix : Nat) (ds : Str) : Nat :=
  ds.foldl (fun n c => n * radix + (toDigit radix c).getD 0) 0

/-- `Parser::read_number`, for numbers of at most `maxDigits` digits and `bound`. -/
def readNumber (radix maxDigits bound : Nat) (allowZeroPrefix : Bool) (s : Str) :
    Option (Nat × Str) :=
  let ds := s.takeWhile (isRadixDigit radix)
  if ds = [] ∨ maxDigits < ds.length then none
  else if !allowZeroPrefix && s.head? == some '0' && decide (1 < ds.length) then none
  else if value radix ds ≤ bound then some (value radix ds, s.drop ds.length)
  else none

/-- `Parser::read_given_char`. -/
def readGivenChar (c : Char) : Str → Option Str
  | [] => none
  | d :: s => if d = c then some s else none

/-- `Parser::read_separator`: the separator comes before every item but the first. -/
def readSeparator {α : Type} (sep : Char) (index : Nat) (read : Str → Option (α × Str)) (s : Str) :
    Option (α × Str) :=
  if index = 0 then read s else (readGivenChar sep s).bind read

/-- `Parser::read_ipv4_addr`. -/
def readIpv4 (s : Str) : Option ((Nat × Nat × Nat × Nat) × Str) := do
  let octet := readNumber 10 3 255 false
  let (a, s) ← readSeparator '.' 0 octet s
  let (b, s) ← readSeparator '.' 1 octet s
  let (c, s) ← readSeparator '.' 2 octet s
  let (d, s) ← readSeparator '.' 3 octet s
  return ((a, b, c, d), s)

/-- `read_groups`: the groups read from position `index` on, `slots` of them
at most, and whether the last two came from an embedded v4 address. -/
def readGroups (limit : Nat) : Nat → Nat → Str → List Nat × Bool × Str
  | 0, _, s => ([], false, s)
  | slots + 1, index, s =>
    match if index + 1 < limit then readSeparator ':' index readIpv4 s else none with
    | some ((a, b, c, d), s) => ([a * 256 + b, c * 256 + d], true, s)
    | none =>
      match readSeparator ':' index (readNumber 16 4 65535 true) s with
      | some (g, s) =>
        let (gs, ipv4, s) := readGroups limit slots (index + 1) s
        (g :: gs, ipv4, s)
      | none => ([], false, s)

/-- Eight groups as an address. -/
def ofGroups : List Nat → Option IpAddr
  | [a, b, c, d, e, f, g, h] =>
    some (v6 (.ofNat a) (.ofNat b) (.ofNat c) (.ofNat d) (.ofNat e) (.ofNat f) (.ofNat g) (.ofNat h))
  | _ => none

/-- `Parser::read_ipv6_addr`. -/
def readIpv6 (s : Str) : Option (IpAddr × Str) :=
  let (head, headV4, s) := readGroups 8 8 0 s
  if head.length = 8 then (ofGroups head).map (·, s)
  else if headV4 then none
  else do
    let s ← readGivenChar ':' s
    let s ← readGivenChar ':' s
    let limit := 8 - (head.length + 1)
    let (tail, _, s) := readGroups limit limit 0 s
    let addr ← ofGroups (head ++ List.replicate (8 - tail.length - head.length) 0 ++ tail)
    return (addr, s)

/-- `Parser::read_ip_addr`. -/
def readIpAddr (s : Str) : Option (IpAddr × Str) :=
  match readIpv4 s with
  | some ((a, b, c, d), s) => some (v4 (.ofNat a) (.ofNat b) (.ofNat c) (.ofNat d), s)
  | none => readIpv6 s

/-- `str::parse::<IpAddr>`: the whole text must be read. -/
def parse (s : Str) : Option IpAddr :=
  match readIpAddr s with
  | some (ip, []) => some ip
  | _ => none

/-! ## Printing -/

/-- The run of zero groups printed as `::`. -/
structure Span where
  start : Nat
  len : Nat
deriving DecidableEq

/-- One step of the search for the longest run: the longest run so far, the
run that ends here, and the position. -/
def spanStep : Span × Span × Nat → UInt16 → Span × Span × Nat
  | (longest, current, i), group =>
    if group = 0 then
      let current := if current.len = 0 then ⟨i, 1⟩ else { current with len := current.len + 1 }
      (if longest.len < current.len then current else longest, current, i + 1)
    else (longest, ⟨0, 0⟩, i + 1)

/-- The first longest run of zero groups. -/
def zeroes (groups : List UInt16) : Span := (groups.foldl spanStep (⟨0, 0⟩, ⟨0, 0⟩, 0)).1

def hex (g : UInt16) : Str := Nat.toDigits 16 g.toNat

/-- `fmt_subslice`: the groups, colon-separated. -/
def fmtSubslice : List UInt16 → Str
  | [] => []
  | g :: gs => hex g ++ gs.flatMap fun g => ':' :: hex g

def displayV4 (a b c d : Nat) : Str :=
  decimal a ++ '.' :: decimal b ++ '.' :: decimal c ++ '.' :: decimal d

/-- Eight groups, the longest run of zeros (of two at least) as `::`. -/
def displayGroups (groups : List UInt16) : Str :=
  let z := zeroes groups
  if 1 < z.len then
    fmtSubslice (groups.take z.start) ++ "::".toList ++ fmtSubslice (groups.drop (z.start + z.len))
  else fmtSubslice groups

/-- A v4-mapped address, from its last two groups. -/
def displayMapped (g h : UInt16) : Str :=
  "::ffff:".toList ++ displayV4 (g.toNat / 256) (g.toNat % 256) (h.toNat / 256) (h.toNat % 256)

/-- `to_string`. -/
def display : IpAddr → Str
  | v4 a b c d => displayV4 a.toNat b.toNat c.toNat d.toNat
  | v6 a b c d e f g h =>
    if [a, b, c, d, e, f] = [0, 0, 0, 0, 0, 0xffff] then displayMapped g h
    else displayGroups [a, b, c, d, e, f, g, h]

end IpAddr

end NekoGuard
