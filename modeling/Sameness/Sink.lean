import Sameness.Run

/-!
Byte sinks: where text is written to, possibly with room for so many bytes only.

A sink may take a part of what it is given, so a text is written in as many attempts as it needs.
-/

namespace Sameness

/-- How a sink without room answers when there is something to write: with an error, by taking
nothing, or with an interruption. -/
inductive Refusal where
  | error (text : String)
  | nothing
  | interruption
  deriving DecidableEq, Repr

/-- What comes of one attempt to write. An interruption is an error of its own kind: nothing is
lost, and the same is to be attempted again. -/
inductive Attempt where
  | taken (bytes : Nat)
  | failed (text : String)
  | interrupted
  deriving DecidableEq, Repr

def Refusal.attempt : Refusal → Attempt
  | error text => .failed text
  | nothing => .taken 0
  | interruption => .interrupted

/-- `room` is what still fits, without a limit if it is `none`. -/
structure Sink where
  written : ByteArray
  room : Option Nat
  refusal : Refusal

namespace Sink

def unlimited (written : ByteArray) : Sink := ⟨written, none, .nothing⟩

/-- How many of so many bytes fit. -/
def fitting (s : Sink) (size : Nat) : Nat :=
  match s.room with
  | none => size
  | some room => min room size

/-- Takes as much as fits. Only an attempt to write something is ever refused. -/
def attempt (s : Sink) (bytes : ByteArray) : Attempt × Sink :=
  let n := s.fitting bytes.size
  if n = 0 ∧ bytes.size ≠ 0 then (s.refusal.attempt, s)
  else
    (.taken n, { s with
      written := s.written ++ bytes.extract 0 n
      room := s.room.map (· - n) })

/-- What is said when there was something to write and nothing was taken. -/
def nothingTaken : String := "failed to write whole buffer"

/-- What comes of writing, and the sink as it is then. -/
abbrev Written := Except String Unit × Sink

/-- Attempts to write what is left, until nothing is. After an interruption the same is left. -/
def writeTurn : Sink × ByteArray → Run.Turn (Sink × ByteArray) Written
  | (s, bytes) =>
    if bytes.size = 0 then .stop (.ok (), s)
    else
      match s.attempt bytes with
      | (.taken 0, s) => .stop (.error nothingTaken, s)
      | (.taken n, s) => .again (s, bytes.extract n bytes.size)
      | (.failed text, s) => .stop (.error text, s)
      | (.interrupted, s) => .again (s, bytes)

def writeAll (s : Sink) (bytes : ByteArray) : Run Written :=
  Run.loop (fun left => pure (writeTurn left)) (s, bytes)

/-- Writes the whole text, unless the sink refuses a part of it. -/
def write (s : Sink) (text : String) : Run Written := s.writeAll text.toUTF8

end Sink

/-! ### Bytes as text -/

namespace Utf8

/-- A character that has begun: what its bytes say so far, how many are missing, and the range in
which the next one has to be. -/
structure Begun where
  value : Nat
  missing : Nat
  low : UInt8
  high : UInt8

/-- What a byte means where a character begins. -/
inductive Start where
  | whole (c : Char)
  | begun (b : Begun)
  | wrong

/-- The ranges of the second byte keep out overlong forms, surrogates and numbers above the last
character. -/
def start (b : UInt8) : Start :=
  let n := b.toNat
  if b < 0x80 then .whole (Char.ofNat n)
  else if b < 0xC2 then .wrong
  else if b < 0xE0 then .begun ⟨n % 0x20, 1, 0x80, 0xBF⟩
  else if b = 0xE0 then .begun ⟨0, 2, 0xA0, 0xBF⟩
  else if b = 0xED then .begun ⟨0xD, 2, 0x80, 0x9F⟩
  else if b < 0xF0 then .begun ⟨n % 0x10, 2, 0x80, 0xBF⟩
  else if b = 0xF0 then .begun ⟨0, 3, 0x90, 0xBF⟩
  else if b < 0xF4 then .begun ⟨n % 8, 3, 0x80, 0xBF⟩
  else if b = 0xF4 then .begun ⟨4, 3, 0x80, 0x8F⟩
  else .wrong

def replacement : Char := '\uFFFD'

/-- Replaces each longest piece that begins like a character but is none. -/
def replaceFrom : Option Begun → List UInt8 → List Char
  | none, [] => []
  | some _, [] => [replacement]
  | none, b :: bs => afresh b bs
  | some begun, b :: bs =>
    if begun.low ≤ b ∧ b ≤ begun.high then
      let value := begun.value * 0x40 + b.toNat % 0x40
      if begun.missing = 1 then Char.ofNat value :: replaceFrom none bs
      else replaceFrom (some ⟨value, begun.missing - 1, 0x80, 0xBF⟩) bs
    else replacement :: afresh b bs
where
  afresh (b : UInt8) (bs : List UInt8) : List Char :=
    match start b with
    | .whole c => c :: replaceFrom none bs
    | .begun begun => replaceFrom (some begun) bs
    | .wrong => replacement :: replaceFrom none bs

/-- Bytes that are text as they are, and otherwise the text with its bad pieces replaced. -/
def decode (bytes : ByteArray) : String :=
  match String.fromUTF8? bytes with
  | some s => s
  | none => String.ofList (replaceFrom none bytes.toList)

end Utf8

end Sameness
