/-
main.rs: the header peek of the TLS listener, and the `PrefixedReader` that
gives hyper the bytes it took. However they come in and are asked for, hyper
reads the client's stream (`replay_delivers`).
-/
import NekoGuard.Edge

namespace NekoGuard.Edge

open Lib

/-! ## Streams -/

/-- A TLS stream: the bytes the client is still to send, and whether reading
on fails then or finds the end. -/
structure Stream where
  bytes : Bytes
  fails : Bool
deriving DecidableEq

/-- The room in the buffer of a read, and how many bytes there are to be had
when it is ready, at least one unless there are no more. -/
structure Ask where
  room : Nat
  arrived : Nat

/-- What a read that is ready gives. Nothing is the end of the stream. -/
inductive Polled where
  | filled (bytes : Bytes)
  | failed

def Polled.bytes : Polled → Bytes
  | .filled bytes => bytes
  | .failed => []

def Stream.pollRead (s : Stream) (a : Ask) : Polled × Stream :=
  if s.bytes = [] ∧ s.fails = true then (.failed, s)
  else
    let n := min a.room (max a.arrived 1)
    (.filled (s.bytes.take n), { s with bytes := s.bytes.drop n })

/-- The header peek: reads of one byte, up to the end of the head, the end of
the stream or an error. -/
def peek : Bytes → Bytes → Bytes × Bytes
  | head, [] => (head, [])
  | head, b :: bytes =>
    if Text.endsWith (head ++ [b]) endOfHead then (head ++ [b], bytes) else peek (head ++ [b]) bytes

/-! ## `PrefixedReader` -/

/-- `std::io::Cursor`. -/
structure Cursor where
  bytes : Bytes
  position : Nat
deriving DecidableEq

def Cursor.pollRead (c : Cursor) (room : Nat) : Bytes × Cursor :=
  let amt := min (c.bytes.length - c.position) room
  ((c.bytes.drop c.position).take amt, { c with position := c.position + amt })

/-- `front` is the field `prefix` of the source. -/
structure PrefixedReader where
  front : Cursor
  inner : Stream
deriving DecidableEq

def PrefixedReader.pollRead (r : PrefixedReader) (a : Ask) : Polled × PrefixedReader :=
  if r.front.position < r.front.bytes.length then
    let (bytes, front) := r.front.pollRead a.room
    (.filled bytes, { r with front })
  else
    let (polled, inner) := r.inner.pollRead a
    (polled, { r with inner })

/-- What hyper is given to read from, unless it is a WebSocket. -/
def replay (stream : Stream) : Option PrefixedReader :=
  let (head, bytes) := peek [] stream.bytes
  if isWs head then none
  else some { front := { bytes := head, position := 0 }, inner := { stream with bytes } }

/-- The bytes of reads in a row. -/
def deliver : PrefixedReader → List Ask → Bytes × PrefixedReader
  | r, [] => ([], r)
  | r, a :: asks =>
    let (polled, r) := r.pollRead a
    let (bytes, r) := deliver r asks
    (polled.bytes ++ bytes, r)

/-! ## What is left to read -/

def PrefixedReader.left (r : PrefixedReader) : Bytes := r.front.bytes.drop r.front.position ++ r.inner.bytes

theorem peek_append (head bytes : Bytes) : (peek head bytes).1 ++ (peek head bytes).2 = head ++ bytes := by
  induction bytes generalizing head with
  | nil => rfl
  | cons b bytes ih =>
    unfold peek
    split
    · rw [List.append_assoc, List.singleton_append]
    · rw [ih, List.append_assoc, List.singleton_append]

theorem replay_left {stream : Stream} {r : PrefixedReader} (h : replay stream = some r) : r.left = stream.bytes := by
  unfold replay at h
  simp only [] at h
  split at h
  · cases h
  · cases h
    exact peek_append [] stream.bytes

theorem Stream.pollRead_bytes (s : Stream) (a : Ask) :
    (s.pollRead a).1.bytes ++ (s.pollRead a).2.bytes = s.bytes := by
  unfold Stream.pollRead
  split
  · rfl
  · exact List.take_append_drop _ _

/-- **A read takes what it gives from what is left.** -/
theorem PrefixedReader.pollRead_left (r : PrefixedReader) (a : Ask) :
    (r.pollRead a).1.bytes ++ (r.pollRead a).2.left = r.left := by
  unfold PrefixedReader.pollRead
  split
  · -- What the cursor gives is cut off what it has.
    simp only [Cursor.pollRead, Polled.bytes, left]
    rw [← List.append_assoc, ← List.drop_drop, List.take_append_drop]
  · next hend =>
    have hfront : r.front.bytes.drop r.front.position = [] := List.drop_eq_nil_of_le (Nat.le_of_not_lt hend)
    simp only [left, hfront, List.nil_append]
    exact r.inner.pollRead_bytes a

/-- A read into a buffer with room gives nothing only when nothing is left. -/
theorem PrefixedReader.left_eq_nil {r : PrefixedReader} {a : Ask} (hroom : 0 < a.room)
    (h : (r.pollRead a).1.bytes = []) : r.left = [] := by
  unfold PrefixedReader.pollRead at h
  split at h
  · next hmore =>
    simp only [Cursor.pollRead, Polled.bytes, List.take_eq_nil_iff, List.drop_eq_nil_iff] at h
    omega
  · next hend =>
    have hfront : r.front.bytes.drop r.front.position = [] := List.drop_eq_nil_of_le (Nat.le_of_not_lt hend)
    rw [left, hfront, List.nil_append]
    simp only [Stream.pollRead] at h
    split at h
    · next hfails => exact hfails.1
    · simp only [Polled.bytes, List.take_eq_nil_iff] at h
      rcases h with h | h
      · omega
      · exact h

theorem deliver_left (r : PrefixedReader) (asks : List Ask) :
    (deliver r asks).1 ++ (deliver r asks).2.left = r.left := by
  induction asks generalizing r with
  | nil => rfl
  | cons a asks ih =>
    have hrest := ih (r.pollRead a).2
    simp only [deliver]
    rw [List.append_assoc, hrest]
    exact r.pollRead_left a

/-- Each read with room takes at least a byte, as long as there is one. -/
theorem deliver_all {r : PrefixedReader} {asks : List Ask} (hroom : ∀ a ∈ asks, 0 < a.room)
    (hlen : r.left.length ≤ asks.length) : (deliver r asks).2.left = [] := by
  induction asks generalizing r with
  | nil => exact List.length_eq_zero_iff.mp (Nat.le_zero.mp hlen)
  | cons a asks ih =>
    show (deliver (r.pollRead a).2 asks).2.left = []
    refine ih (fun x hx => hroom x (List.mem_cons_of_mem a hx)) ?_
    have hcut := congrArg List.length (r.pollRead_left a)
    rw [List.length_append] at hcut
    rw [List.length_cons] at hlen
    by_cases hnone : (r.pollRead a).1.bytes = []
    · have hleft := congrArg List.length (PrefixedReader.left_eq_nil (hroom a List.mem_cons_self) hnone)
      rw [List.length_nil] at hleft
      omega
    · have hpos := List.length_pos_iff.mpr hnone
      omega

/-- **hyper reads the client's stream from its first byte**: what it has been
given and what is left are the stream, a read that gives nothing comes at its
end, and enough reads get there. -/
theorem replay_delivers {stream : Stream} {r : PrefixedReader} (h : replay stream = some r) (asks : List Ask) :
    (deliver r asks).1 ++ (deliver r asks).2.left = stream.bytes ∧
    (∀ a, 0 < a.room → ((deliver r asks).2.pollRead a).1.bytes = [] → (deliver r asks).1 = stream.bytes) ∧
    ((∀ a ∈ asks, 0 < a.room) → stream.bytes.length ≤ asks.length → (deliver r asks).1 = stream.bytes) := by
  have hstream : (deliver r asks).1 ++ (deliver r asks).2.left = stream.bytes :=
    (deliver_left r asks).trans (replay_left h)
  have hall : (deliver r asks).2.left = [] → (deliver r asks).1 = stream.bytes := by
    intro hnil
    rwa [hnil, List.append_nil] at hstream
  refine ⟨hstream, fun a hroom hnone => hall (PrefixedReader.left_eq_nil hroom hnone), fun hroom hlen => ?_⟩
  exact hall (deliver_all hroom (by rwa [replay_left h]))

/-- A request with a body, in buffers of three bytes. -/
theorem replay_delivers_body : ∃ r, replay ⟨Text.bytes "PUT / HTTP/1.1\r\n\r\nhi".toList, true⟩ = some r ∧
    r.inner.bytes = Text.bytes "hi".toList ∧
    (deliver r (List.replicate 20 ⟨3, 2⟩)).1 = Text.bytes "PUT / HTTP/1.1\r\n\r\nhi".toList := by
  have hr : replay ⟨Text.bytes "PUT / HTTP/1.1\r\n\r\nhi".toList, true⟩ =
      some ⟨⟨Text.bytes "PUT / HTTP/1.1\r\n\r\n".toList, 0⟩, ⟨Text.bytes "hi".toList, true⟩⟩ := by decide +kernel
  obtain ⟨-, -, hall⟩ := replay_delivers hr (List.replicate 20 ⟨3, 2⟩)
  exact ⟨_, hr, rfl, hall (by decide) (by decide)⟩

end NekoGuard.Edge
