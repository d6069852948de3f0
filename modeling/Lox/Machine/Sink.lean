import Lox.Value.Error

/-!
# Output and time

What a run exchanges with the world around it is a value too, and the world has its answers in
advance. A clock is a sequence of readings, and it remembers how many of them were taken.

A sink keeps the bytes that were written to it. They go to a device, which answers every text: all
of it is taken, or some of its bytes are and there is an error. Each text has an answer of its own,
so a device may fail at one text and take the next one, and it may be unable to make sure that all
is written at one time and able to do so later.

* `Sink.write` writes as much of a text as is taken, and `Sink.flush` makes sure that it is written;
* `Device.limited`: a device that has room for only so many bytes;
* `Clock.read` takes the next reading.
-/

namespace Lox

/-- How output is taken. An answer may depend on the number of texts before, and on what was written
    of them. -/
structure Device where
  /-- How many bytes of a text are taken, and the error, unless all of them are. -/
  write : (texts : Nat) → (written bytes : ByteArray) → Option (Nat × SinkError)
  /-- The error when it cannot be made sure that all is written. -/
  flush : (texts : Nat) → (written : ByteArray) → Option SinkError

namespace Device

/-- A device that takes everything. -/
def unlimited : Device := { write := fun _ _ _ => none, flush := fun _ _ => none }

/-- The same device, with room for `limit` bytes in all: it takes what fits. -/
def limited (limit : Nat) (device : Device) : Device :=
  { device with
    write := fun _ written bytes =>
      if bytes.size ≤ limit - written.size then none else some (limit - written.size, .full) }

/-- The same device, on which it can never be made sure that all is written. -/
def unsure (device : Device) : Device := { device with flush := fun _ _ => some .flushFailed }

end Device

/-- Where output goes. -/
structure Sink where
  /-- What has been written. -/
  written : ByteArray
  /-- How many texts there were to write. -/
  texts : Nat
  /-- What takes the output. -/
  device : Device

namespace Sink

/-- A sink to which nothing was written. -/
def onto (device : Device) : Sink := { written := .empty, texts := 0, device }

/-- A sink to which nothing was written and which takes everything. -/
def unlimited : Sink := .onto .unlimited

/-- Writes a text: all of it, or what is taken, and then there is an error. -/
def write (s : Sink) (text : String) : Option SinkError × Sink :=
  match s with
  | ⟨written, texts, device⟩ =>
    let bytes := text.toUTF8
    match device.write texts written bytes with
    | none => (none, ⟨written ++ bytes, texts + 1, device⟩)
    | some (taken, e) => (some e, ⟨written ++ bytes.extract 0 taken, texts + 1, device⟩)

/-- Makes sure that all is written. -/
def flush (s : Sink) : Option SinkError := s.device.flush s.texts s.written

end Sink

/-- Readings of the time, in seconds. -/
structure Clock where
  /-- The readings, one after another. -/
  readings : Nat → Float
  /-- How many readings were taken. -/
  taken : Nat

namespace Clock

/-- A clock that stands still. -/
def still (time : Float) : Clock := { readings := fun _ => time, taken := 0 }

/-- Takes the next reading. -/
def read (c : Clock) : Float × Clock := (c.readings c.taken, { c with taken := c.taken + 1 })

end Clock

end Lox
