/-
Redis: keys that hold a string or a hash, some of them until a moment, and
the commands both programs send. A key is gone once its moment has come,
whether or not Redis has dropped it yet.
-/
import Mathlib.Data.List.AList
import NekoGuard.Std.Text

namespace NekoGuard

inductive Value where
  | string (v : Bytes)
  | hash (fields : List (Str × Bytes))
deriving DecidableEq, Repr

structure Held where
  value : Value
  /-- The moment it is gone; none for a key that stays. -/
  expires : Option Nat
deriving DecidableEq, Repr

def Held.isLive (h : Held) (now : Nat) : Bool := h.expires.all fun t => now < t

abbrev Keyspace := AList fun _ : Str => Held

/-- `WRONGTYPE`: the command is for the other kind of value. -/
structure WrongType where
deriving DecidableEq, Repr

namespace Keyspace

/-! ## Commands -/

/-- What a command finds under a key. -/
def live (now : Nat) (ks : Keyspace) (key : Str) : Option Held := (ks.lookup key).filter fun h => h.isLive now

/-- `GET`. -/
def get (now : Nat) (ks : Keyspace) (key : Str) : Except WrongType (Option Bytes) :=
  match live now ks key with
  | none => .ok none
  | some ⟨.string v, _⟩ => .ok (some v)
  | some ⟨.hash _, _⟩ => .error {}

/-- `SET`, with the moment an `EX` puts it at. -/
def set (ks : Keyspace) (key : Str) (v : Bytes) (expires : Option Nat) : Keyspace := ks.insert key ⟨.string v, expires⟩

/-- `SET .. NX`. -/
def setNx (now : Nat) (ks : Keyspace) (key : Str) (v : Bytes) : Keyspace :=
  if (live now ks key).isSome then ks else set ks key v none

def field (fields : List (Str × Bytes)) (name : Str) : Option Bytes := (fields.find? fun f => f.1 == name).map (·.2)

/-- `HMGET`: of a key that is not there, every field is nil. -/
def hmget (now : Nat) (ks : Keyspace) (key : Str) (names : List Str) : Except WrongType (List (Option Bytes)) :=
  match live now ks key with
  | none => .ok (names.map fun _ => none)
  | some ⟨.hash fields, _⟩ => .ok (names.map (field fields))
  | some ⟨.string _, _⟩ => .error {}

def setField : List (Str × Bytes) → Str × Bytes → List (Str × Bytes)
  | [], f => [f]
  | g :: fields, f => if g.1 = f.1 then f :: fields else g :: setField fields f

/-- `HMSET`: a hash keeps its other fields, and its moment. -/
def hmset (now : Nat) (ks : Keyspace) (key : Str) (fields : List (Str × Bytes)) : Except WrongType Keyspace :=
  match live now ks key with
  | none => .ok (ks.insert key ⟨.hash (fields.foldl setField []), none⟩)
  | some ⟨.hash old, expires⟩ => .ok (ks.insert key ⟨.hash (fields.foldl setField old), expires⟩)
  | some ⟨.string _, _⟩ => .error {}

/-- `EXPIRE`, at the moment given. -/
def expireAt (now : Nat) (ks : Keyspace) (key : Str) (expires : Nat) : Keyspace :=
  match live now ks key with
  | some h => ks.insert key { h with expires := some expires }
  | none => ks

/-! ## What a command finds -/

variable {now : Nat} {ks : Keyspace} {key : Str}

theorem live_of_stays {v : Value} (h : ks.lookup key = some ⟨v, none⟩) (now : Nat) :
    live now ks key = some ⟨v, none⟩ := by
  rw [live, h]
  rfl

theorem live_of_absent (h : ks.lookup key = none) (now : Nat) : live now ks key = none := by
  rw [live, h]
  rfl

theorem live_eq_some {h : Held} : live now ks key = some h ↔ ks.lookup key = some h ∧ h.isLive now = true := by
  unfold live
  rw [Option.filter_eq_some_iff]

end Keyspace

end NekoGuard
