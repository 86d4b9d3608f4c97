import Kevy.Replicate.Source
import Kevy.Resp.ReplyFrames

/-!
# The stream a replica reads

A replica keeps the bytes it has read and a cursor behind those it has used, and takes one event after the
other off them, reading more when an event is not complete. Fed the frames a backlog serves from its own
offset, however the bytes are cut into reads, it emits those frames and expects the next offset.
-/

namespace Kevy.Replicate

open Kevy.Lib Kevy.Resp List

/-! ## Frames -/

/-- `WireError`; `Truncated` is an item that waits. -/
inductive WireError
  | badEnvelope
  | badOffset
  | negativeOffset (v : Int)
  | badPayload (e : ProtocolError)

abbrev WireParser (α : Type) := IncParser UInt8 WireError α

def parseSignedDecimal : Bytes → Option Int
  | [] => none
  | 45 :: digits => (Persist.parseDecimal digits).bind fun n => if n > 2 ^ 63 then none else some (-n)
  | 43 :: digits => (Persist.parseDecimal digits).bind fun n => if n ≥ 2 ^ 63 then none else some n
  | digits => (Persist.parseDecimal digits).bind fun n => if n ≥ 2 ^ 63 then none else some n

def parseEnvelopeHeader : WireParser Unit := fun buf =>
  if buf.length < 4 then .ok none
  else if buf.head? ≠ some star then .error .badEnvelope
  else andThen replyLine (fun line =>
    if Persist.parseDecimal line = some 2 then succeed () else failWith .badEnvelope) buf

def parseOffsetLine : WireParser Nat := fun buf =>
  if buf = [] then .ok none
  else if buf.head? ≠ some 58 then .error .badOffset
  else andThen replyLine (fun line =>
    match parseSignedDecimal line with
    | none => failWith .badOffset
    | some v => if v < 0 then failWith (.negativeOffset v) else succeed v.toNat) buf

def parsePayload : WireParser Argv := fun buf =>
  match parseCommandInto buf with
  | .ok r => .ok r
  | .error e => .error (.badPayload e)

def decodeFrame : WireParser (Nat × Argv) :=
  andThen parseEnvelopeHeader fun _ => andThen parseOffsetLine fun offset => mapItem (offset, ·) parsePayload

/-! ## Snapshots -/

inductive SnapshotMarker
  | start
  | ping (tail : FeedPosition)
  | stop (ackOffset : Nat)

def snapshotLineMax : Nat := 256

def behind (w : String) (line : Bytes) : Option Bytes :=
  if (word w).isPrefixOf line then some (line.drop (word w).length) else none

def pingTail (rest : Bytes) : Option FeedPosition :=
  match rest.findIdx? (· == 32) with
  | some sp => do
    let generation ← Persist.parseDecimal (rest.take sp)
    let offset ← Persist.parseDecimal (rest.drop (sp + 1))
    some ⟨generation, offset⟩
  | none => (Persist.parseDecimal rest).map (⟨0, ·⟩)

def snapshotMarker (line : Bytes) : Option SnapshotMarker :=
  if line = word "SNAPSHOT" then some .start
  else match behind "SNAPSHOT_END " line with
    | some rest => (Persist.parseDecimal rest).map .stop
    | none => (behind "PING " line).bind fun rest => (pingTail rest).map .ping

def decodeSnapshotMarker : WireParser SnapshotMarker := fun buf =>
  match findCrlf buf 1 with
  | none => if buf.length > snapshotLineMax then .error .badEnvelope else .ok none
  | some eol =>
    if eol > snapshotLineMax then .error .badEnvelope
    else match snapshotMarker ((buf.drop 1).take (eol - 1)) with
      | some marker => .ok (some (marker, eol + 2))
      | none => .error .badEnvelope

def decodeSnapshotChunk : WireParser Bytes :=
  andThen replyLine fun line => fun buf =>
    match Persist.parseDecimal line with
    | none => .error .badEnvelope
    | some len =>
      if len > snapshotChunkMax then .error .badEnvelope
      else if buf.length < len + 2 then .ok none
      else if (buf.drop len).take 2 ≠ crlf then .error .badEnvelope
      else .ok (some (buf.take len, len + 2))

/-! ## The client -/

inductive ReplicaEvent
  | frame (offset : Nat) (argv : Argv)
  | snapshotBegin
  | snapshotChunk (bytes : Bytes)
  | snapshotEnd (ackOffset : Nat)
  | ping (tail : FeedPosition)

/-- `ReplicaError`, without what the socket itself reports. -/
inductive ReplicaError
  | frame (e : WireError)
  | offsetGap (expected got : Nat)
  | unexpectedInSnapshot
  | truncated

structure ReplicaClient where
  buf : Bytes := []
  cursor : Nat := 0
  expectedOffset : Nat
  inSnapshot : Bool := false

namespace ReplicaClient

def unread (c : ReplicaClient) : Bytes := c.buf.drop c.cursor

/-- The cursor moves, and `maybe_compact_buf` drops what is behind it from 4 KiB on. -/
def used (c : ReplicaClient) (n : Nat) : ReplicaClient :=
  if c.cursor + n ≥ 4 * 1024 then { c with buf := c.buf.drop (c.cursor + n), cursor := 0 }
  else { c with cursor := c.cursor + n }

/-- An event off the buffer, an error, or nothing before more is read. -/
abbrev Step := Option (Except ReplicaError ReplicaEvent) × ReplicaClient

def taking {α : Type} (c : ReplicaClient) (p : WireParser α) (k : α → ReplicaClient → Step) : Step :=
  match p c.unread with
  | .ok (some (a, n)) => k a (c.used n)
  | .ok none => (none, c)
  | .error e => (some (.error (.frame e)), c)

def tryDecodeLiveFrame (c : ReplicaClient) : Step :=
  c.taking decodeFrame fun frame c =>
    if frame.1 ≠ c.expectedOffset then (some (.error (.offsetGap c.expectedOffset frame.1)), c)
    else (some (.ok (.frame frame.1 frame.2)),
      { c with expectedOffset := min (c.expectedOffset + 1) ReplicationSource.maxOffset })

def tryDecodeSnapshotMarker (c : ReplicaClient) : Step :=
  c.taking decodeSnapshotMarker fun marker c =>
    match marker with
    | .start => (some (.ok .snapshotBegin), { c with inSnapshot := true })
    | .ping tail => (some (.ok (.ping tail)), c)
    | .stop ackOffset => (some (.ok (.snapshotEnd ackOffset)),
        { c with inSnapshot := false, expectedOffset := ackOffset })

def tryDecodeSnapshotChunk (c : ReplicaClient) : Step :=
  c.taking decodeSnapshotChunk fun bytes c => (some (.ok (.snapshotChunk bytes)), c)

def tryDecodeOneEvent (c : ReplicaClient) : Step :=
  match c.unread.head? with
  | none => (none, c)
  | some first =>
    if first = 43 then c.tryDecodeSnapshotMarker
    else if first = dollar ∧ c.inSnapshot then c.tryDecodeSnapshotChunk
    else if first = star ∧ c.inSnapshot then (some (.error .unexpectedInSnapshot), c)
    else if first = star then c.tryDecodeLiveFrame
    else (some (.error (.frame .badEnvelope)), c)

/-- `next_event` over the reads to come; after the last one the peer has closed. An empty read is one that
was interrupted. -/
def nextEvent : ReplicaClient → List Bytes → Step × List Bytes
  | c, [] =>
    match c.tryDecodeOneEvent with
    | (some r, c) => ((some r, c), [])
    | (none, c) => ((if c.cursor < c.buf.length then some (.error .truncated) else none, c), [])
  | c, read :: reads =>
    match c.tryDecodeOneEvent with
    | (some r, c) => ((some r, c), read :: reads)
    | (none, c) => nextEvent { c with buf := c.buf ++ read } reads

/-- What a loop over `next_event` emits in its first `n` turns; it ends at an error or a clean close. -/
def events : Nat → ReplicaClient → List Bytes → List (Except ReplicaError ReplicaEvent) × ReplicaClient
  | 0, c, _ => ([], c)
  | n + 1, c, reads =>
    match nextEvent c reads with
    | ((none, c), _) => ([], c)
    | ((some (.error e), c), _) => ([.error e], c)
    | ((some (.ok ev), c), reads) =>
      let (evs, c) := events n c reads
      (.ok ev :: evs, c)

end ReplicaClient

/-! ## One frame -/

variable {n : Nat}

theorem parseSignedDecimal_decimal (h : n < 2 ^ 63) : parseSignedDecimal (Persist.decimal n) = some (n : Int) := by
  have hread := Persist.parseDecimal_decimal (n := n) (by omega)
  obtain ⟨d, ds, hcons⟩ := exists_cons_of_ne_nil (Persist.decimal_ne_nil n)
  have hd : isAsciiDigit d = true :=
    Persist.isAsciiDigit_decimal n d (by rw [hcons]; exact mem_cons_self)
  rw [hcons] at hread ⊢
  have hsign : ∀ c : UInt8, isAsciiDigit c = false → d ≠ c := by
    rintro c hc rfl
    rw [hd] at hc
    cases hc
  rw [parseSignedDecimal, hread, Option.bind_some, if_neg (by omega)]
  · exact cons_ne_nil d ds
  · intro ds' hds
    exact hsign 45 (by decide) (List.cons.inj hds).1
  · intro ds' hds
    exact hsign 43 (by decide) (List.cons.inj hds).1

theorem delimits_typedLine {α : Type} (tag : UInt8) {line : Bytes} (hline : NoCrlf line)
    {q : Bytes → WireParser α} {a : α} (hq : q line = succeed a) :
    Delimits (andThen replyLine q) (tag :: line ++ crlf) a :=
  (delimits_replyLine tag hline).andThen_succeed hq

theorem delimits_envelope : Delimits parseEnvelopeHeader (Resp.star :: Persist.decimal 2 ++ crlf) () where
  reads rest := by
    have hline : Delimits (andThen replyLine fun line =>
        if Persist.parseDecimal line = some 2 then succeed () else failWith WireError.badEnvelope) _ () :=
      delimits_typedLine Resp.star (Persist.noCrlf_decimal 2) (if_pos (Persist.parseDecimal_decimal (by decide)))
    have hlen : ¬ (Resp.star :: Persist.decimal 2 ++ crlf ++ rest).length < 4 := by
      rw [length_append]
      exact Nat.not_lt.mpr (Nat.le_add_right 4 rest.length)
    rw [parseEnvelopeHeader, if_neg hlen, if_neg (by simp), hline.reads rest]
  waits {q r} hcut hr := by
    have hlt : q.length < 4 := length_lt_of_cut hcut hr
    rw [parseEnvelopeHeader, if_pos hlt]

theorem delimits_offsetLine (h : n < 2 ^ 63) : Delimits parseOffsetLine (58 :: Persist.decimal n ++ crlf) n := by
  have hline : Delimits (andThen replyLine fun line =>
      match parseSignedDecimal line with
      | none => failWith WireError.badOffset
      | some v => if v < 0 then failWith (.negativeOffset v) else succeed v.toNat)
      (58 :: Persist.decimal n ++ crlf) n := by
    refine delimits_typedLine 58 (Persist.noCrlf_decimal n) ?_
    rw [parseSignedDecimal_decimal h]
    exact if_neg (by omega)
  constructor
  · intro rest
    rw [parseOffsetLine, if_neg (by simp), if_neg (by simp)]
    exact hline.reads rest
  · intro q r hcut hr
    rw [parseOffsetLine]
    cases q with
    | nil => rfl
    | cons b q =>
      have hb : b = 58 := (List.cons.inj hcut).1
      rw [if_neg (cons_ne_nil b q), if_neg (by simp [hb])]
      exact hline.waits hcut hr

theorem delimits_payload {args : List Bytes} (h : Persist.Parseable args) :
    Delimits parsePayload (Persist.writeMultibulk args) (Argv.ofArgs args) := by
  have hne : (Argv.ofArgs args).isEmpty = false := by
    simpa using h.nonempty
  have hone := parseOneInto_frame (Persist.frame_writeMultibulk h) []
  rw [append_nil] at hone
  have hcommand : Delimits parseCommandInto (Persist.writeMultibulk args) (Argv.ofArgs args) :=
    Stable.delimits stable_parseOneInto.skip (skip_item stable_parseOneInto.toConsumes hone hne)
  constructor
  · intro rest
    rw [parsePayload, hcommand.reads rest]
  · intro q r hcut hr
    rw [parsePayload, hcommand.waits hcut hr]

structure Frame.Sendable (f : Frame) : Prop where
  offset : f.offset < 2 ^ 63
  argv : Persist.Parseable f.argv

variable {f : Frame}

theorem delimits_frame (h : f.Sendable) : Delimits decodeFrame f.bytes (f.offset, Argv.ofArgs f.argv) := by
  have hbody : Delimits (andThen parseOffsetLine fun offset => mapItem (offset, ·) parsePayload)
      (58 :: Persist.decimal f.offset ++ crlf ++ Persist.writeMultibulk f.argv)
      (f.offset, Argv.ofArgs f.argv) :=
    (delimits_offsetLine h.offset).andThen ((delimits_payload h.argv).mapItem _)
  have hwhole : Delimits decodeFrame _ _ := delimits_envelope.andThen hbody
  rw [Frame.bytes]
  simpa only [append_assoc, cons_append] using hwhole

/-! ## The stream -/

namespace ReplicaClient

variable {c : ReplicaClient}

theorem unread_used : (c.used n).unread = c.unread.drop n := by
  rw [used]
  split_ifs with h
  · rw [unread, unread, drop_zero, drop_drop]
  · rw [unread, unread, drop_drop]

structure Live (c : ReplicaClient) (expected : Nat) (reads : List Bytes) (ahead : Bytes) : Prop where
  inside : c.cursor ≤ c.buf.length
  live : c.inSnapshot = false
  expects : c.expectedOffset = expected
  stream : c.unread ++ reads.flatten = ahead

theorem Live.read {read ahead : Bytes} {reads : List Bytes} (h : Live c n (read :: reads) ahead) :
    Live { c with buf := c.buf ++ read } n reads ahead where
  inside := by
    rw [length_append]
    exact Nat.le_add_right_of_le h.inside
  live := h.live
  expects := h.expects
  stream := by
    rw [unread, drop_append_of_le_length h.inside, append_assoc]
    exact h.stream

def frameEvent (f : Frame) : ReplicaEvent := .frame f.offset (Argv.ofArgs f.argv)

theorem tryDecodeOneEvent_nil (h : c.unread = []) : c.tryDecodeOneEvent = (none, c) := by
  rw [tryDecodeOneEvent, h]
  rfl

theorem tryDecodeOneEvent_star (hlive : c.inSnapshot = false) (h : c.unread.head? = some Resp.star) :
    c.tryDecodeOneEvent = c.tryDecodeLiveFrame := by
  simp only [tryDecodeOneEvent, h, hlive]
  rfl

theorem tryDecodeOneEvent_frame (hf : f.Sendable) {reads : List Bytes} {rest : Bytes}
    (h : Live c f.offset reads (f.bytes ++ rest)) {more : Bytes} (hunread : c.unread = f.bytes ++ more)
    (hmore : more ++ reads.flatten = rest) :
    ∃ c', c.tryDecodeOneEvent = (some (.ok (frameEvent f)), c') ∧ Live c' (f.offset + 1) reads rest := by
  have hread : decodeFrame c.unread = .ok (some ((f.offset, Argv.ofArgs f.argv), f.bytes.length)) := by
    rw [hunread]
    exact (delimits_frame hf).reads more
  have hexp : (c.used f.bytes.length).expectedOffset = f.offset := by
    rw [used, ← h.expects]
    split_ifs <;> rfl
  have hlive : (c.used f.bytes.length).inSnapshot = false := by
    rw [used, ← h.live]
    split_ifs <;> rfl
  have hbuf : f.bytes.length ≤ c.buf.length - c.cursor := by
    have := congrArg List.length hunread
    rw [unread, length_drop, length_append] at this
    omega
  have hinside := h.inside
  refine ⟨{ c.used f.bytes.length with expectedOffset := f.offset + 1 }, ?_, ?_, hlive, rfl, ?_⟩
  · rw [tryDecodeOneEvent_star h.live (by rw [hunread]; rfl), tryDecodeLiveFrame, taking, hread]
    have hmax : min (f.offset + 1) ReplicationSource.maxOffset = f.offset + 1 := by
      have := hf.offset
      rw [ReplicationSource.maxOffset]
      omega
    simp only [hexp, ne_eq, not_true_eq_false, if_false, hmax]
    rfl
  · show (c.used f.bytes.length).cursor ≤ (c.used f.bytes.length).buf.length
    rw [used]
    split_ifs
    · exact Nat.zero_le _
    · show c.cursor + f.bytes.length ≤ c.buf.length
      omega
  · show (c.used f.bytes.length).unread ++ reads.flatten = rest
    rw [unread_used, hunread, drop_left, hmore]

theorem tryDecodeOneEvent_cut (hf : f.Sendable) (hlive : c.inSnapshot = false) {r : Bytes}
    (hcut : c.unread ++ r = f.bytes) (hr : r ≠ []) : c.tryDecodeOneEvent = (none, c) := by
  cases hu : c.unread with
  | nil => exact tryDecodeOneEvent_nil hu
  | cons b u =>
    have hb : b = Resp.star := by
      have := congrArg List.head? hcut
      rw [hu, cons_append, head?_cons] at this
      exact Option.some.inj this
    rw [tryDecodeOneEvent_star hlive (by rw [hu, hb]; rfl), tryDecodeLiveFrame, taking,
      (delimits_frame hf).waits hcut hr]

theorem nextEvent_some {reads : List Bytes} {r : Except ReplicaError ReplicaEvent} {c' : ReplicaClient}
    (h : c.tryDecodeOneEvent = (some r, c')) : nextEvent c reads = ((some r, c'), reads) := by
  cases reads <;> rw [nextEvent, h]

theorem nextEvent_frame (hf : f.Sendable) {rest : Bytes} {reads : List Bytes} {c : ReplicaClient}
    (h : Live c f.offset reads (f.bytes ++ rest)) :
    ∃ c' reads', nextEvent c reads = ((some (.ok (frameEvent f)), c'), reads') ∧
      Live c' (f.offset + 1) reads' rest := by
  induction reads generalizing c with
  | nil =>
    have hunread : c.unread = f.bytes ++ rest := by
      have := h.stream
      rwa [flatten_nil, append_nil] at this
    obtain ⟨c', hstep, hnext⟩ := tryDecodeOneEvent_frame hf h hunread (append_nil rest)
    exact ⟨c', [], nextEvent_some hstep, hnext⟩
  | cons read reads ih =>
    rcases cut_append h.stream with ⟨r, hcut, hr⟩ | ⟨more, hunread, hmore⟩
    · -- the frame is not complete before this read
      rw [nextEvent, tryDecodeOneEvent_cut hf h.live hcut hr]
      exact ih h.read
    · obtain ⟨c', hstep, hnext⟩ := tryDecodeOneEvent_frame hf h hunread hmore
      exact ⟨c', read :: reads, nextEvent_some hstep, hnext⟩

theorem nextEvent_end {reads : List Bytes} {c : ReplicaClient} (h : Live c n reads []) :
    ∃ c', nextEvent c reads = ((none, c'), []) ∧ c'.expectedOffset = n := by
  induction reads generalizing c with
  | nil =>
    have hunread : c.unread = [] := (append_eq_nil_iff.mp h.stream).1
    have hend : ¬ c.cursor < c.buf.length := Nat.not_lt.mpr (drop_eq_nil_iff.mp hunread)
    exact ⟨c, by rw [nextEvent, tryDecodeOneEvent_nil hunread]; simp only [if_neg hend], h.expects⟩
  | cons read reads ih =>
    rw [nextEvent, tryDecodeOneEvent_nil (append_eq_nil_iff.mp h.stream).1]
    exact ih h.read

theorem events_frames {fs : List Frame} {n : Nat} {c : ReplicaClient} {reads : List Bytes} {turns : Nat}
    (hnum : Numbered Frame.offset n fs) (hsend : ∀ f ∈ fs, f.Sendable)
    (hlive : Live c n reads (fs.flatMap Frame.bytes)) (hturns : fs.length < turns) :
    ∃ c', events turns c reads = (fs.map fun f => .ok (frameEvent f), c') ∧ c'.expectedOffset = n + fs.length := by
  induction fs generalizing n c reads turns with
  | nil =>
    obtain ⟨turns, rfl⟩ : ∃ t, turns = t + 1 := ⟨turns - 1, by omega⟩
    obtain ⟨c', hend, hexp⟩ := nextEvent_end hlive
    exact ⟨c', by rw [events, hend]; rfl, hexp⟩
  | cons f fs ih =>
    obtain ⟨turns, rfl⟩ : ∃ t, turns = t + 1 := ⟨turns - 1, by omega⟩
    obtain ⟨hoff, hnum⟩ := Numbered.cons_iff.mp hnum
    subst hoff
    rw [length_cons] at hturns
    obtain ⟨c', reads', hstep, hnext⟩ := nextEvent_frame (hsend f mem_cons_self) hlive
    obtain ⟨c'', hrest, hexp⟩ := @ih _ c' reads' turns hnum (forall_mem_cons.mp hsend).2 hnext (by omega)
    refine ⟨c'', ?_, ?_⟩
    · rw [events, hstep]
      simp only [hrest, map_cons]
    · rw [hexp, length_cons]
      omega

end ReplicaClient

/-! ## The backlog and its history -/

namespace ReplicationSource

/-- The index `slice::partition_point` finds in a slice that the predicate cuts in two. -/
def FindsCut (partitionPoint : (Frame → Bool) → List Frame → Nat) : Prop :=
  ∀ p front back, (∀ f ∈ front, p f = true) → (∀ f ∈ back, p f = false) →
    partitionPoint p (front ++ back) = front.length

/-- `frames_from` as it searches: the ring buffer is two slices, the first of `wrap` frames. -/
def framesFromSlices (partitionPoint : (Frame → Bool) → List Frame → Nat) (s : ReplicationSource)
    (wrap from_ : Nat) : Except FromOffset (List Frame) :=
  if from_ > s.nextOffset then .error .future
  else if from_ = s.nextOffset then .ok (s.buf.drop s.buf.length)
  else
    match s.oldestOffset with
    | none => .error .tooOld
    | some oldest =>
      if from_ < oldest then .error .tooOld
      else
        let a := s.buf.take wrap
        let b := s.buf.drop wrap
        let i := partitionPoint (fun f => decide (f.offset < from_)) a
        let start := if i < a.length then i
          else a.length + partitionPoint (fun f => decide (f.offset < from_)) b
        .ok (s.buf.drop start)

theorem FindsCut.numbered {partitionPoint : (Frame → Bool) → List Frame → Nat}
    (h : FindsCut partitionPoint) {fs : List Frame} (hnum : Numbered Frame.offset n fs) (k : Nat) :
    partitionPoint (fun f => decide (f.offset < k)) fs = min (k - n) fs.length := by
  have hsplit := take_append_drop (min (k - n) fs.length) fs
  have hlen : (fs.take (min (k - n) fs.length)).length = min (k - n) fs.length := by
    rw [length_take]
    omega
  rw [← hsplit, Numbered.append_iff, hlen] at hnum
  have hcut := h (fun f => decide (f.offset < k)) (fs.take (min (k - n) fs.length))
    (fs.drop (min (k - n) fs.length)) ?_ ?_
  · rwa [hsplit, hlen] at hcut
  · intro f hf
    have hrange := hnum.1.mem_range hf
    rw [hlen] at hrange
    exact decide_eq_true (by omega)
  · intro f hf
    have hrange := hnum.2.mem_range hf
    rw [length_drop] at hrange
    exact decide_eq_false (by omega)

theorem framesFromSlices_eq {partitionPoint : (Frame → Bool) → List Frame → Nat}
    (h : FindsCut partitionPoint) (s : ReplicationSource) (wrap from_ : Nat) :
    s.framesFromSlices partitionPoint wrap from_ = s.framesFrom from_ := by
  have hheld := s.held
  rw [framesFromSlices, framesFrom_eq]
  split_ifs with hfuture hnext hold hold
  · rfl
  · rw [oldest] at hold
    omega
  · congr 2
    rw [oldest]
    omega
  · rw [oldestOffset_eq]
    split_ifs
    · rfl
    · exact if_pos hold
  · have hlt : from_ - s.oldest < s.buf.length := by
      rw [oldest] at hold ⊢
      omega
    have hne : s.buf ≠ [] := fun hnil => by
      rw [hnil] at hlt
      exact Nat.not_lt_zero _ hlt
    have hnum := s.numbered
    rw [← take_append_drop wrap s.buf, Numbered.append_iff] at hnum
    simp only [take_append_drop] at hnum
    rw [oldestOffset_eq, if_neg hne]
    simp only [if_neg hold, h.numbered hnum.1, h.numbered hnum.2]
    congr 2
    rw [oldest] at hlt hold ⊢
    simp only [length_take, length_drop]
    split_ifs <;> omega

/-- A backlog after a history of pushes and drops, from its first. -/
inductive Keeps (maxBytes : Nat) : List (List Bytes) → ReplicationSource → Prop
  | new : Keeps maxBytes [] (.new maxBytes)
  | push {history : List (List Bytes)} {s s' : ReplicationSource} {argv : List Bytes} {offset : Nat} :
      Keeps maxBytes history s → s.pushMutation argv = some (s', offset) →
      Keeps maxBytes (history ++ [argv]) s'
  | drop {history : List (List Bytes)} {s : ReplicationSource} (watermark : Nat) :
      Keeps maxBytes history s → Keeps maxBytes history (s.dropUpTo watermark)

def framesOf (history : List (List Bytes)) (from_ : Nat) : List Frame :=
  (history.drop from_).mapIdx fun i argv => ⟨from_ + i, argv⟩

theorem Keeps.history {maxBytes : Nat} {history : List (List Bytes)} {s : ReplicationSource}
    (h : Keeps maxBytes history s) : s.nextOffset = history.length ∧ ∀ f ∈ s.buf, history[f.offset]? = some f.argv := by
  induction h with
  | new => exact ⟨rfl, nofun⟩
  | push _ hpush ih => exact pushMutation_spec hpush ih.1 ih.2
  | @drop history s watermark _ ih =>
    obtain ⟨⟨k, -, hk⟩, -⟩ := dropFront_rest watermark s.buf
    refine ⟨ih.1, fun f hf => ih.2 f ?_⟩
    change f ∈ (dropFront watermark s.buf s.bytesInBuf).1 at hf
    rw [s.counted, hk] at hf
    exact mem_of_mem_drop hf

theorem Keeps.framesFrom {maxBytes : Nat} {history : List (List Bytes)} {s : ReplicationSource}
    (h : Keeps maxBytes history s) {from_ : Nat} {fs : List Frame} (hfs : s.framesFrom from_ = .ok fs) :
    fs = framesOf history from_ := by
  obtain ⟨hnext, hbuf⟩ := h.history
  obtain ⟨-, hnum, hlen, hmem⟩ := numbered_framesFrom hfs
  have hsize : fs.length = (framesOf history from_).length := by
    rw [framesOf, length_mapIdx, length_drop]
    omega
  refine ext_getElem hsize fun i hi _ => ?_
  have hoff : (fs[i]).offset = from_ + i := by
    have := congrArg (·[i]?) hnum
    simpa [hi] using this
  have hargv := hbuf fs[i] (hmem _ (getElem_mem hi))
  rw [hoff, ← getElem?_drop, List.getElem?_eq_some_iff] at hargv
  obtain ⟨hlt, hargv⟩ := hargv
  rw [show fs[i] = ⟨fs[i].offset, fs[i].argv⟩ from rfl, hoff, ← hargv]
  simp [framesOf]

theorem framesFrom_isOk_iff (s : ReplicationSource) (from_ : Nat) :
    (∃ fs, s.framesFrom from_ = .ok fs) ↔ from_ = s.nextOffset ∨ ∃ f ∈ s.buf, f.offset = from_ := by
  constructor
  · rintro ⟨fs, hfs⟩
    obtain ⟨-, hnum, hlen, hmem⟩ := numbered_framesFrom hfs
    cases fs with
    | nil => exact .inl hlen
    | cons f fs => exact .inr ⟨f, hmem f mem_cons_self, (Numbered.cons_iff.mp hnum).1⟩
  · rintro (rfl | ⟨f, hf, rfl⟩)
    · have hold : ¬ s.nextOffset < s.oldest := by
        rw [oldest]
        omega
      exact ⟨_, by rw [framesFrom_eq, if_neg (Nat.lt_irrefl _), if_neg hold]⟩
    · obtain ⟨rest, hrest⟩ := framesFrom_of_mem hf
      exact ⟨_, hrest⟩

end ReplicationSource

open ReplicationSource in
/-- **A replica gets the history.** After any pushes and drops, frames are served from an offset exactly when
it is the next one or its frame is still there, they are the history from there on, and a client that asked
for that offset emits them all, in order, however the bytes are cut into reads. -/
theorem replica_gets_the_history (partitionPoint : (Frame → Bool) → List Frame → Nat)
    (hcut : FindsCut partitionPoint) (maxBytes : Nat) (history : List (List Bytes)) (s : ReplicationSource)
    (hs : Keeps maxBytes history s) (hoffsets : history.length < 2 ^ 63)
    (hargs : ∀ argv ∈ history, Persist.Parseable argv) (wrap from_ : Nat) :
    ((∃ fs, s.framesFromSlices partitionPoint wrap from_ = .ok fs) ↔
      from_ = s.nextOffset ∨ ∃ f ∈ s.buf, f.offset = from_) ∧
    ∀ fs, s.framesFromSlices partitionPoint wrap from_ = .ok fs → fs = framesOf history from_ ∧
      ∀ reads : List Bytes, reads.flatten = fs.flatMap Frame.bytes → ∀ turns > fs.length,
        ∃ c, ReplicaClient.events turns { expectedOffset := from_ } reads =
            (fs.map fun f => .ok (ReplicaClient.frameEvent f), c) ∧ c.expectedOffset = s.nextOffset := by
  rw [framesFromSlices_eq hcut]
  refine ⟨framesFrom_isOk_iff s from_, fun fs hfs => ⟨hs.framesFrom hfs, ?_⟩⟩
  intro reads hreads turns hturns
  obtain ⟨hnext, hbuf⟩ := hs.history
  obtain ⟨-, hnum, hlen, hmem⟩ := numbered_framesFrom hfs
  have hsend : ∀ f ∈ fs, f.Sendable := by
    intro f hf
    have hold := hbuf f (hmem f hf)
    have hlt := (List.getElem?_eq_some_iff.mp hold).1
    exact ⟨by omega, hargs _ (mem_of_getElem? hold)⟩
  rw [← hlen]
  exact ReplicaClient.events_frames hnum hsend ⟨le_rfl, rfl, rfl, hreads⟩ hturns

theorem findsCut_takeWhile : ReplicationSource.FindsCut fun p fs => (fs.takeWhile p).length := by
  intro p front back hfront hback
  show ((front ++ back).takeWhile p).length = front.length
  rw [takeWhile_append_of_pos hfront]
  cases back with
  | nil => simp
  | cons f back =>
    rw [takeWhile_cons_of_neg (by simp [hback f mem_cons_self]), append_nil]

/-- A backlog of one frame, read byte by byte. -/
theorem replica_gets_one_write :
    ∃ c, ReplicaClient.events 2 { expectedOffset := 0 }
        ((Frame.bytes ⟨0, [[68, 69, 76], [107]]⟩).map fun b => [b]) =
      ([.ok (.frame 0 (Argv.ofArgs [[68, 69, 76], [107]]))], c) ∧ c.expectedOffset = 1 := by
  have hkeeps : ReplicationSource.Keeps 64 [[[68, 69, 76], [107]]] _ := .push .new rfl
  have hparse : Persist.Parseable [[68, 69, 76], [107]] := ⟨by decide, by decide, by decide⟩
  have hserved := (replica_gets_the_history _ findsCut_takeWhile 64 _ _ hkeeps (by decide)
    (by simpa using hparse) 0 0).2 [⟨0, [[68, 69, 76], [107]]⟩] rfl
  exact hserved.2 _ (by decide) 2 (by decide)

end Kevy.Replicate
