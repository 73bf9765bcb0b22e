/-
The proof-of-work solvers: guard.js on a worker (`WORKER_SOURCE`) and on the
main thread (`solveOnMainThread`), and the loop of challenge.html. Progress
messages, repaints and the promises around them are left out; what a loop
does for each nonce is not.
-/
import Mathlib.Data.Nat.Find
import NekoGuard.Lib.Search
import NekoGuard.Pow
import NekoGuard.Std.Js

namespace NekoGuard.Solver

open Lib

/-! ## The target tests -/

/-- The test that follows the comparison of the full digits, in all three. -/
def boundaryDigit (hash : Str) (full rem : Nat) : Bool :=
  if rem = 0 then true else Js.lt (Js.parseInt16 hash[full]?) (1 <<< (4 - rem))

/-- `meetsTarget` of guard.js. -/
def guardMeetsTarget (hash : Str) (bits : Nat) : Bool :=
  let full := bits / 4
  let rem := bits % 4
  if hash.take full ≠ List.replicate full '0' then false else boundaryDigit hash full rem

/-- `meets` of the worker. -/
def workerMeets (hash : Str) (bits : Nat) : Bool :=
  let full := bits / 4
  let rem := bits % 4
  if hash.take full ≠ List.replicate full '0' then false else boundaryDigit hash full rem

/-- `meetsTarget` of challenge.html. -/
def interstitialMeetsTarget (hash : Str) (bits : Nat) : Bool :=
  let full := bits / 4
  let rem := bits % 4
  if !Text.startsWith hash (List.replicate full '0') then false else boundaryDigit hash full rem

/-! ## The loops -/

variable (sha256 : Pow.Sha256) (challenge : Str) (bits : Nat)

/-- The worker sizes its buffer by the text of the nonce. -/
def workerBuffer (nonce : Nat) : Option Bytes :=
  let data := Js.encodeText challenge
  let buf := Js.uint8Array (data.length + (Js.toText nonce).length)
  (Js.set buf data 0).bind fun buf => Js.set buf (Js.encodeText (Js.toText nonce)) data.length

/-- A `RangeError` is no solution. -/
def workerTest (nonce : Nat) : Bool :=
  (workerBuffer challenge nonce).any fun buf => workerMeets (Js.toHex (sha256 buf).toList) bits

/-- `while (true)` of the worker, for at most `fuel` nonces. -/
def workerLoop (fuel : Nat) : Option Str :=
  (Search.scan Js.incr (workerTest sha256 challenge bits) fuel 0).map Js.toText

/-- The main thread sizes its buffer by the encoded digits. -/
def mainThreadBuffer (nonce : Nat) : Option Bytes :=
  let data := Js.encodeText challenge
  let digits := Js.encodeText (Js.toText nonce)
  let buf := Js.uint8Array (data.length + digits.length)
  (Js.set buf data 0).bind fun buf => Js.set buf digits data.length

def mainThreadTest (nonce : Nat) : Bool :=
  (mainThreadBuffer challenge nonce).any fun buf => guardMeetsTarget (Js.toHex (sha256 buf).toList) bits

/-- `step`, rescheduled after 2000 nonces, at most `fuel` times. -/
def mainThreadLoop (fuel : Nat) : Option Str :=
  (Search.scanChunks Js.incr (mainThreadTest sha256 challenge bits) 2000 fuel 0).map Js.toText

/-- `sha256hex(challenge + nonce)`. -/
def interstitialTest (nonce : Nat) : Bool :=
  interstitialMeetsTarget (Js.toHex (sha256 (Js.encodeText (challenge ++ Js.toText nonce))).toList) bits

/-- The loop of the interstitial, with the `bits` its page has read. -/
def interstitialLoop (fuel : Nat) : Option Str :=
  (Search.scan Js.incr (interstitialTest sha256 challenge bits) fuel 0).map Js.toText

/-- The server's test of a nonce counted up to. -/
def ServerAccepts (nonce : Nat) : Prop :=
  Pow.meetsTarget (Pow.hashOf sha256 challenge (Text.decimal nonce)) bits = .ok true

instance (nonce : Nat) : Decidable (ServerAccepts sha256 challenge bits nonce) :=
  inferInstanceAs (Decidable (_ = _))

/-! ## One test -/

variable {sha256 challenge bits}

/-- The comparison of the full digits, on the encoding of a hash. -/
theorem take_eq_zeros {hash : Pow.Hash} {full : Nat} (hfull : full ≤ 64) :
    (Hex.encode hash.toList).take full = List.replicate full '0' ↔
      ∀ i < full, Hex.nibble hash.toList i = 0 := by
  have hlen : (Hex.encode hash.toList).length = 64 := by simp [Hex.length_encode]
  have hdigit : ∀ i < full, (Hex.encode hash.toList)[i]? = some (Hex.digit (Hex.nibble hash.toList i)) :=
    fun i hi => Hex.encode_getElem? (by simp; omega)
  constructor
  · intro h i hi
    have hget : ((Hex.encode hash.toList).take full)[i]? = some '0' := by simp [h, hi]
    rw [List.getElem?_take_of_lt hi, hdigit i hi, Option.some.injEq] at hget
    exact Nat.digitChar_eq_zero.mp hget
  · intro h
    refine List.ext_getElem? fun i => ?_
    by_cases hi : i < full
    · rw [List.getElem?_take_of_lt hi, hdigit i hi, h i hi]
      simp [hi, Hex.digit]
    · rw [List.getElem?_eq_none (by simp [hlen]; omega), List.getElem?_eq_none (by simp; omega)]

theorem boundaryDigit_eq {hash : Pow.Hash} {full r : Nat} (hfull : full < 64 ∨ r = 0) (hr : r < 4) :
    boundaryDigit (Hex.encode hash.toList) full r =
      decide (Hex.nibble hash.toList full < 2 ^ (4 - r)) := by
  have hnib := Hex.nibble_lt hash.toList full
  unfold boundaryDigit
  split
  · next h0 =>
    subst h0
    exact (decide_eq_true hnib).symm
  · next h0 =>
    have hget : (Hex.encode hash.toList)[full]? = some (Hex.digit (Hex.nibble hash.toList full)) :=
      Hex.encode_getElem? (by simp; omega)
    have hval : IpAddr.toDigit 16 (Hex.digit (Hex.nibble hash.toList full)) =
        some (Hex.nibble hash.toList full) := IpAddr.toDigit_digitChar hnib
    rw [hget, Nat.one_shiftLeft]
    simp [Js.parseInt16, Js.lt, hval]

/-- **The digit tests are the bit test.** -/
theorem guardMeetsTarget_eq {hash : Pow.Hash} (hbits : bits ≤ 256) :
    guardMeetsTarget (Js.toHex hash.toList) bits =
      decide (∀ j < bits, Hex.bit hash.toList j = false) := by
  have hr : bits % 4 < 4 := Nat.mod_lt _ (by omega)
  have hzeros := Hex.zeros_iff (b := hash.toList) (f := bits / 4) hr
  rw [Nat.div_add_mod] at hzeros
  have hiff : guardMeetsTarget (Hex.encode hash.toList) bits = true ↔
      (Hex.encode hash.toList).take (bits / 4) = List.replicate (bits / 4) '0' ∧
        boundaryDigit (Hex.encode hash.toList) (bits / 4) (bits % 4) = true := by
    unfold guardMeetsTarget
    by_cases h : (Hex.encode hash.toList).take (bits / 4) = List.replicate (bits / 4) '0' <;> simp [h]
  rw [Js.toHex_eq, Bool.eq_iff_iff, hiff, decide_eq_true_iff, hzeros, take_eq_zeros (by omega),
    boundaryDigit_eq (by omega) hr, decide_eq_true_iff]

theorem workerMeets_eq (hash : Str) (bits : Nat) : workerMeets hash bits = guardMeetsTarget hash bits :=
  rfl

theorem interstitialMeetsTarget_eq (hash : Str) (bits : Nat) :
    interstitialMeetsTarget hash bits = guardMeetsTarget hash bits := by
  have hiff : Text.startsWith hash (List.replicate (bits / 4) '0') = true ↔
      hash.take (bits / 4) = List.replicate (bits / 4) '0' := by
    unfold Text.startsWith
    rw [List.isPrefixOf_iff_prefix, List.prefix_iff_eq_take, List.length_replicate]
    exact eq_comm
  unfold interstitialMeetsTarget guardMeetsTarget
  by_cases h : hash.take (bits / 4) = List.replicate (bits / 4) '0'
  · simp [hiff.mpr h, h]
  · have hfalse : Text.startsWith hash (List.replicate (bits / 4) '0') = false := by
      simpa using fun hs => h (hiff.mp hs)
    simp [hfalse, h]

/-! ## One nonce -/

theorem bytes_append (s t : Str) : Text.bytes (s ++ t) = Text.bytes s ++ Text.bytes t :=
  List.flatMap_append

/-- Decimal text takes one byte a digit. -/
theorem length_bytes_decimal (n : Nat) : (Text.bytes (Text.decimal n)).length = (Text.decimal n).length := by
  have hdigit : ∀ c ∈ Text.decimal n, (String.utf8EncodeChar c).length = 1 := by
    intro c hc
    obtain ⟨-, hle⟩ := Char.isDigit_iff_toNat.mp (Nat.isDigit_of_mem_toDigits (by omega) (by omega) hc)
    rw [String.length_utf8EncodeChar, Char.utf8Size_eq_one_iff, UInt32.le_iff_toNat_le]
    exact Nat.le_trans hle (by decide)
  unfold Text.bytes
  rw [List.length_flatMap, List.map_congr_left hdigit]
  simp

/-- The worker's buffer is sized by characters, and still fits. -/
theorem workerBuffer_eq (challenge : Str) (nonce : Nat) :
    workerBuffer challenge nonce = some (Text.bytes challenge ++ Text.bytes (Text.decimal nonce)) := by
  have h := Js.set_set (Text.bytes challenge) (Text.bytes (Text.decimal nonce))
  rw [length_bytes_decimal] at h
  exact h

theorem mainThreadBuffer_eq (challenge : Str) (nonce : Nat) :
    mainThreadBuffer challenge nonce = some (Text.bytes challenge ++ Text.bytes (Text.decimal nonce)) :=
  Js.set_set _ _

/-- The test all three loops make of a nonce. -/
def pageTest (sha256 : Pow.Sha256) (challenge : Str) (bits nonce : Nat) : Bool :=
  guardMeetsTarget (Js.toHex (Pow.hashOf sha256 challenge (Text.decimal nonce)).toList) bits

theorem workerTest_eq : workerTest sha256 challenge bits = pageTest sha256 challenge bits := by
  funext nonce
  unfold workerTest
  rw [workerBuffer_eq]
  rfl

theorem mainThreadTest_eq : mainThreadTest sha256 challenge bits = pageTest sha256 challenge bits := by
  funext nonce
  unfold mainThreadTest
  rw [mainThreadBuffer_eq]
  rfl

theorem interstitialTest_eq : interstitialTest sha256 challenge bits = pageTest sha256 challenge bits := by
  funext nonce
  unfold interstitialTest pageTest Pow.hashOf
  rw [interstitialMeetsTarget_eq, ← bytes_append]
  rfl

theorem pageTest_iff {nonce : Nat} (hbits : bits ≤ 256) :
    pageTest sha256 challenge bits nonce = true ↔ ServerAccepts sha256 challenge bits nonce := by
  unfold pageTest ServerAccepts
  rw [guardMeetsTarget_eq hbits, Pow.meetsTarget_ok hbits, Except.ok.injEq]

/-- No hash passes the server's test of more than 256 bits. -/
theorem not_meetsTarget {hash : Pow.Hash} (hbits : 256 < bits) : Pow.meetsTarget hash bits ≠ .ok true := by
  have go : ∀ n i, 256 < i + n → i ≤ 256 → Pow.meetsTargetFrom hash n i ≠ .ok true := by
    intro n
    induction n with
    | zero => intro i hi hle; omega
    | succ n ih =>
      intro i hi hle
      unfold Pow.meetsTargetFrom
      by_cases h : i < 256
      · have hlt : i / 8 < 32 := by omega
        have hget : hash[i / 8]? = some hash[i / 8] := Vector.getElem?_eq_getElem hlt
        simp only [hget]
        split
        · simp
        · exact ih (i + 1) (by omega) (by omega)
      · have hnone : hash[i / 8]? = none := Vector.getElem?_eq_none (by omega)
        simp [hnone]
  exact go bits 0 (by omega) (by omega)

/-! ## The loops -/

/-- **Server and pages agree.** The four target tests are one on every hash,
and where a challenge has a solution below 2^53, the three loops all return
the least one. -/
theorem solvers_agree (sha256 : Pow.Sha256) (challenge : Str) (bits : Nat) :
    (bits ≤ 256 → ∀ hash : Pow.Hash,
      Pow.meetsTarget hash bits = .ok (guardMeetsTarget (Hex.encode hash.toList) bits) ∧
        Pow.meetsTarget hash bits = .ok (workerMeets (Hex.encode hash.toList) bits) ∧
        Pow.meetsTarget hash bits = .ok (interstitialMeetsTarget (Hex.encode hash.toList) bits)) ∧
      ((∃ n < 2 ^ 53, ServerAccepts sha256 challenge bits n) →
        ∃ n, IsLeast {n | ServerAccepts sha256 challenge bits n} n ∧ ∀ fuel, n < fuel →
          workerLoop sha256 challenge bits fuel = some (Text.decimal n) ∧
            mainThreadLoop sha256 challenge bits fuel = some (Text.decimal n) ∧
            interstitialLoop sha256 challenge bits fuel = some (Text.decimal n)) := by
  constructor
  · intro hbits hash
    have h : Pow.meetsTarget hash bits = .ok (guardMeetsTarget (Hex.encode hash.toList) bits) := by
      rw [Pow.meetsTarget_ok hbits, ← guardMeetsTarget_eq hbits, Js.toHex_eq]
    refine ⟨h, ?_, ?_⟩
    · rw [workerMeets_eq]
      exact h
    · rw [interstitialMeetsTarget_eq]
      exact h
  · intro ⟨m, hm, hsolves⟩
    have hbits : bits ≤ 256 := by
      by_contra hgt
      exact not_meetsTarget (by omega) hsolves
    classical
    have hex : ∃ n, ServerAccepts sha256 challenge bits n := ⟨m, hsolves⟩
    have hleast : IsLeast {n | pageTest sha256 challenge bits n = true} (Nat.find hex) := by
      refine ⟨(pageTest_iff hbits).mpr (Nat.find_spec hex), fun n hn => ?_⟩
      exact Nat.find_min' hex ((pageTest_iff hbits).mp hn)
    have hsafe : ∀ n < Nat.find hex, Js.incr n = n + 1 := by
      intro n hn
      have := Nat.find_min' hex hsolves
      exact if_pos (by omega)
    refine ⟨Nat.find hex, ⟨Nat.find_spec hex, fun n hn => Nat.find_min' hex hn⟩, fun fuel hfuel => ?_⟩
    unfold workerLoop mainThreadLoop interstitialLoop
    rw [workerTest_eq, mainThreadTest_eq, interstitialTest_eq]
    rw [Search.scan_least hleast hsafe hfuel, Search.scanChunks_least hleast hsafe (by omega) hfuel]
    exact ⟨rfl, rfl, rfl⟩

/-- A hash that starts with zeros where the text ends in a 3. -/
def threeHash : Pow.Sha256 := fun b => if b.getLast? = some 51 then Vector.replicate 32 0 else Vector.replicate 32 255

theorem solvers_agree_on_threeHash : ∃ n, IsLeast {n | ServerAccepts threeHash "c0ffee".toList 14 n} n ∧
    ∀ fuel, n < fuel →
      workerLoop threeHash "c0ffee".toList 14 fuel = some (Text.decimal n) ∧
        mainThreadLoop threeHash "c0ffee".toList 14 fuel = some (Text.decimal n) ∧
        interstitialLoop threeHash "c0ffee".toList 14 fuel = some (Text.decimal n) :=
  (solvers_agree threeHash "c0ffee".toList 14).2 ⟨3, by decide, by decide +kernel⟩

end NekoGuard.Solver
