/-!
# Sinks

Where a program prints to. A sink keeps the bytes written to it; one with limited room takes the bytes
that still fit and then fails, with a text of its own.
-/

namespace Lox

/-- Room for some more bytes, and what is told when they are too few. -/
structure Room where
  bytes : Nat
  failure : String := "sink full"
deriving DecidableEq

/-- The bytes written, and the room that is left when it is limited. -/
structure Sink where
  written : ByteArray := .empty
  room : Option Room := none

namespace Sink

-- The instance for bytes is named, since libraries bring a second one.
instance : DecidableEq Sink := fun s t =>
  have : Decidable (s.written = t.written) := ByteArray.instDecidableEq s.written t.written
  decidable_of_iff (s.written = t.written ∧ s.room = t.room) (by cases s; cases t; rw [mk.injEq])

/-- A sink that takes `n` bytes in all. -/
def limited (n : Nat) : Sink :=
  { room := some { bytes := n } }

/-- Writes bytes as far as there is room, and tells of a failure when that is not all of them. -/
def write (sink : Sink) (bytes : ByteArray) : Sink × Option String :=
  match sink.room with
  | none => ({ sink with written := sink.written ++ bytes }, none)
  | some room =>
    if bytes.size ≤ room.bytes then
      (⟨sink.written ++ bytes, some { room with bytes := room.bytes - bytes.size }⟩, none)
    else
      (⟨sink.written ++ bytes.extract 0 room.bytes, some { room with bytes := 0 }⟩, some room.failure)

/-- The text of bytes of which the last character may be cut short. What is left of a cut character is
shown as a replacement character. -/
def shownText (bytes : ByteArray) : String :=
  let without (cut : Nat) : Option String := String.fromUTF8? (bytes.extract 0 (bytes.size - cut))
  match without 0 with
  | some text => text
  | none => (((without 1).or (without 2)).or (without 3)).getD "" ++ "\uFFFD"

/-- The text written behind the first `start` bytes. -/
def textFrom (sink : Sink) (start : Nat) : String :=
  shownText (sink.written.extract start sink.written.size)

end Sink

end Lox
