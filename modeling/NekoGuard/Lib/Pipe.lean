/-
What is read from a source, held for a while and written to a sink, some of
it at a time. Reading and writing lose nothing and change no order: what was
sent, what is held and what is unread are always the same list (`Pipe.all`).
-/
import Mathlib.Data.List.Basic

namespace NekoGuard.Lib

structure Pipe (α : Type*) where
  unread : List α
  held : List α
  sent : List α
deriving DecidableEq, Repr

namespace Pipe

variable {α : Type*} {p : Pipe α}

def all (p : Pipe α) : List α := p.sent ++ (p.held ++ p.unread)

/-- At its source. -/
def source (xs : List α) : Pipe α := { unread := xs, held := [], sent := [] }

def read (p : Pipe α) (n : Nat) : Pipe α :=
  { p with held := p.held ++ p.unread.take n, unread := p.unread.drop n }

def write (p : Pipe α) (n : Nat) : Pipe α :=
  { p with sent := p.sent ++ p.held.take n, held := p.held.drop n }

/-- Something is taken from the source, and something else put in its place. -/
def replace (p : Pipe α) (n : Nat) (xs : List α) : Pipe α :=
  { p with held := p.held ++ xs, unread := p.unread.drop n }

@[simp] theorem all_source (xs : List α) : (source xs).all = xs := rfl

@[simp] theorem all_read (p : Pipe α) (n : Nat) : (p.read n).all = p.all := by
  simp [all, read]

@[simp] theorem all_write (p : Pipe α) (n : Nat) : (p.write n).all = p.all := by
  have hheld := List.take_append_drop n p.held
  simp only [all, write, List.append_assoc]
  rw [← List.append_assoc (p.held.take n), hheld]

@[simp] theorem sent_read (p : Pipe α) (n : Nat) : (p.read n).sent = p.sent := rfl

@[simp] theorem unread_write (p : Pipe α) (n : Nat) : (p.write n).unread = p.unread := rfl

/-- What was sent comes first. -/
theorem sent_prefix (p : Pipe α) : p.sent <+: p.all := List.prefix_append _ _

/-- With nothing held and nothing unread, everything was sent. -/
theorem sent_eq_all (hheld : p.held = []) (hunread : p.unread = []) : p.sent = p.all := by
  simp [all, hheld, hunread]

theorem sent_prefix_of_all {xs : List α} (h : p.all = xs) : p.sent <+: xs := h ▸ p.sent_prefix

end Pipe

end NekoGuard.Lib
