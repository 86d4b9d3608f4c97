import Kevy.Persist.Record

/-!
# What a primary sends to a replica

Frames are numbered writes. A snapshot goes as a begin marker, chunks, and an end marker with the offset it was taken
at. Only the number of bytes a message takes matters to the sender, which works against byte budgets.
-/

namespace Kevy.Replicate

open Kevy.Resp

/-- A place in a history of writes: `FeedPosition`. -/
structure FeedPosition where
  generation : Nat := 0
  offset : Nat := 0
  deriving DecidableEq, Repr

structure Frame where
  offset : Nat
  argv : List Bytes
  deriving DecidableEq, Repr

/-- `encode_frame`: a pair of the offset and the command. -/
def Frame.bytes (f : Frame) : Bytes :=
  star :: Persist.decimal 2 ++ crlf ++ 58 :: Persist.decimal f.offset ++ crlf ++ Persist.writeMultibulk f.argv

def Frame.len (f : Frame) : Nat := f.bytes.length

theorem Frame.arg_length_lt {f : Frame} {arg : Bytes} (h : arg ∈ f.argv) : arg.length < f.len := by
  obtain ⟨before, after, hargs⟩ := List.append_of_mem h
  unfold Frame.len Frame.bytes Persist.writeMultibulk
  rw [hargs]
  simp only [List.flatMap_append, List.flatMap_cons, List.length_append, List.length_cons]
  omega

inductive Message
  | ack (pos : FeedPosition)
  | ping (tail : FeedPosition)
  | snapshotBegin
  | snapshotChunk (bytes : Bytes)
  | snapshotEnd (ackOffset : Nat)
  | frame (f : Frame)
  deriving DecidableEq, Repr

def word (s : String) : Bytes := s.toList.map fun c => UInt8.ofNat c.toNat

/-- Two numbers behind a word: `encode_ack`, `encode_ping`. -/
def positionLine (w : String) (pos : FeedPosition) : Bytes :=
  word w ++ Persist.decimal pos.generation ++ 32 :: Persist.decimal pos.offset ++ crlf

def Message.bytes : Message → Bytes
  | .ack pos => positionLine "+ACK " pos
  | .ping tail => positionLine "+PING " tail
  | .snapshotBegin => word "+SNAPSHOT" ++ crlf
  | .snapshotChunk bytes => dollar :: Persist.decimal bytes.length ++ crlf ++ bytes ++ crlf
  | .snapshotEnd ackOffset => word "+SNAPSHOT_END " ++ Persist.decimal ackOffset ++ crlf
  | .frame f => f.bytes

def messagesLen (ms : List Message) : Nat := (ms.map fun m => m.bytes.length).sum

def snapshotChunkMax : Nat := 64 * 1024

end Kevy.Replicate
