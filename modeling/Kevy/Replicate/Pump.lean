import Kevy.Lib.Runs
import Kevy.Replicate.Source

/-!
# The replication pump

A server primary fills the output buffer of each replica once in every turn of its loop: frames from the backlog
while the replica's cursor is in the feed's generation and still buffered, a snapshot otherwise. A turn takes at most
256 KiB of frames for one replica, and buffers are capped.

What is appended for one cursor is one run of consecutive offsets, whatever is pushed, evicted or bumped meanwhile.
But a frame that is longer than the budget of a turn never leaves.
-/

namespace Kevy.Replicate

open Kevy.Lib Kevy.Resp List

/-! ## The feed -/

/-- A backlog under the generation of its history: `FeedSource`. -/
structure FeedSource where
  generation : Nat
  source : ReplicationSource

def FeedSource.tail (f : FeedSource) : FeedPosition := ⟨f.generation, f.source.nextOffset⟩

/-- `bump_generation`: a new history, empty and at offset zero. The generation is drawn at random, but it is neither
zero nor the old one. -/
def FeedSource.bumpGeneration (f : FeedSource) (fresh : Nat) : FeedSource where
  generation := fresh
  source := .new f.source.maxBytes

/-! ## The connection of a replica -/

inductive ReplicaState
  | handshakePending
  | ackSent (id : Bytes) (fromOffset generation : Nat)
  | streaming (id : Bytes) (sentOffset generation : Nat)
  | snapshotShipping (id : Bytes) (ackOffset generation : Nat) (serializing : Bool) (buf : Bytes) (off : Nat)
  | closed (id : Option Bytes)
  deriving DecidableEq, Repr

/-- `ReplicaConn`: its state and its output. `writeOff` bytes of the output are written, `sealed` more are encrypted
and not yet written. `log` is for the statements only: everything that was ever appended to the output. -/
structure ReplicaConn where
  state : ReplicaState := .handshakePending
  output : List Message := []
  writeOff : Nat := 0
  sealed : Nat := 0
  log : List Message := []
  deriving DecidableEq, Repr

namespace ReplicaConn

def pendingOut (c : ReplicaConn) : Nat := messagesLen c.output - c.writeOff + c.sealed

def append (c : ReplicaConn) (ms : List Message) : ReplicaConn :=
  { c with output := c.output ++ ms, log := c.log ++ ms }

def close (c : ReplicaConn) : ReplicaConn :=
  match c.state with
  | .handshakePending => { c with state := .closed none }
  | .ackSent id _ _ => { c with state := .closed (some id) }
  | .streaming id _ _ => { c with state := .closed (some id) }
  | .snapshotShipping id _ _ _ _ _ => { c with state := .closed (some id) }
  | .closed _ => c

def advanceHandshake (c : ReplicaConn) (feedGen : Nat) (id : Bytes) (claim : FeedPosition) : ReplicaConn :=
  match c.state with
  | .handshakePending =>
    { c.append [.ack ⟨feedGen, claim.offset⟩] with
      writeOff := 0
      state := .ackSent id claim.offset claim.generation }
  | _ => c

/-- `drained`: the output is written; a connection that waited for that streams now. -/
def drained (c : ReplicaConn) : ReplicaConn :=
  let state :=
    match c.state with
    | .ackSent id fromOffset generation => ReplicaState.streaming id fromOffset generation
    | state => state
  { c with output := [], writeOff := 0, sealed := 0, state := state }

def wrote (c : ReplicaConn) (writeOff sealed : Nat) : ReplicaConn :=
  let c := { c with writeOff := writeOff, sealed := sealed }
  if c.pendingOut = 0 then c.drained else c

/-! ## One turn of the pump -/

/-- `PUMP_BYTE_BUDGET_PER_ITER`. -/
def pumpByteBudget : Nat := 256 * 1024

def streamingOutputCap : Nat := 4 * 1024 * 1024

def startSnapshotShip (c : ReplicaConn) (generation ackOffset : Nat) : ReplicaConn :=
  match c.state with
  | .streaming id _ _ =>
    { c.append [.snapshotBegin] with state := .snapshotShipping id ackOffset generation true [] 0 }
  | _ => c

/-- The frame loop of `fill_streaming_output`: the frames that fit, with `bytes` taken already. -/
def takeFrames (pending : Nat) : (bytes : Nat) → List Frame → List Frame
  | _, [] => []
  | bytes, f :: fs =>
    if bytes + f.len > pumpByteBudget ∨ pending + bytes + f.len > streamingOutputCap then []
    else f :: takeFrames pending (bytes + f.len) fs

def fillStreamingOutput (c : ReplicaConn) (feed : FeedSource) : ReplicaConn :=
  match c.state with
  | .streaming id sentOffset generation =>
    if generation ≠ feed.generation then c.startSnapshotShip feed.generation feed.source.nextOffset
    else if sentOffset = feed.source.nextOffset then c
    else if c.pendingOut ≥ streamingOutputCap / 2 then c
    else
      match feed.source.framesFrom sentOffset with
      | .error .tooOld => c.startSnapshotShip feed.generation feed.source.nextOffset
      | .error .future => c.startSnapshotShip feed.generation feed.source.nextOffset
      | .ok frames =>
        let taken := takeFrames c.pendingOut 0 frames
        match taken.getLast? with
        | none => c
        | some last =>
          { c.append (taken.map .frame) with state := .streaming id (last.offset + 1) generation }
  | _ => c

inductive Serialized
  | waiting
  | done (buf : Bytes)
  | died

/-- The chunk half of `pump_snapshot_chunks`: the next piece of the snapshot, or the end marker behind the last. -/
def emitChunk (c : ReplicaConn) (id : Bytes) (ackOffset generation : Nat) (buf : Bytes) (off : Nat) : ReplicaConn :=
  let remaining := buf.drop off
  if remaining = [] then
    { c.append [.snapshotEnd ackOffset] with state := .streaming id ackOffset generation }
  else
    let chunk := remaining.take snapshotChunkMax
    { c.append [.snapshotChunk chunk] with
      state := .snapshotShipping id ackOffset generation false buf (off + chunk.length) }

def pumpSnapshotChunks (c : ReplicaConn) (channel : Serialized) : ReplicaConn :=
  if c.pendingOut ≥ streamingOutputCap / 2 then c
  else
    match c.state with
    | .snapshotShipping id ackOffset generation false buf off => c.emitChunk id ackOffset generation buf off
    | .snapshotShipping id ackOffset generation true _ off =>
      match channel with
      | .waiting => c
      | .done buf => c.emitChunk id ackOffset generation buf off
      | .died => c.close
    | _ => c

/-- The part of `pump_replication` for one connection (`maybe_append_heartbeat` included). -/
def pump (c : ReplicaConn) (feed : FeedSource) (heartbeatDue : Bool) (channel : Serialized) : ReplicaConn :=
  match c.state with
  | .streaming _ _ _ =>
    let filled := c.fillStreamingOutput feed
    -- the heartbeat follows even when the fill has just turned to a snapshot
    if heartbeatDue then filled.append [.ping feed.tail] else filled
  | .snapshotShipping _ _ _ _ _ _ => c.pumpSnapshotChunks channel
  | _ => c

end ReplicaConn

/-! ## A feed and one of its replicas -/

/-- What happens to a feed and one of its connections: a write, frames dropped below a watermark, a new generation,
the replica's request, bytes written to the socket, a turn of the pump, the end of the link. -/
inductive PumpEvent
  | push (argv : List Bytes)
  | dropUpTo (watermark : Nat)
  | bump (fresh : Nat)
  | handshake (id : Bytes) (claim : FeedPosition)
  | wrote (writeOff sealed : Nat)
  | pump (heartbeatDue : Bool) (channel : ReplicaConn.Serialized)
  | close

/-- One event; `none` is the panic when offsets run out, and a generation that is never drawn. -/
def pumpStep : FeedSource × ReplicaConn → PumpEvent → Option (FeedSource × ReplicaConn)
  | (feed, c), .push argv => (feed.source.pushMutation argv).map fun pushed => ({ feed with source := pushed.1 }, c)
  | (feed, c), .dropUpTo watermark => some ({ feed with source := feed.source.dropUpTo watermark }, c)
  | (feed, c), .bump fresh =>
    if fresh = 0 ∨ fresh = feed.generation then none else some (feed.bumpGeneration fresh, c)
  | (feed, c), .handshake id claim => some (feed, c.advanceHandshake feed.generation id claim)
  | (feed, c), .wrote writeOff sealed => some (feed, c.wrote writeOff sealed)
  | (feed, c), .pump heartbeatDue channel => some (feed, c.pump feed heartbeatDue channel)
  | (feed, c), .close => some (feed, c.close)

/-- The feeds and connections that are reached from a connection that was just accepted. -/
def PumpReached (feed : FeedSource) : FeedSource × ReplicaConn → Prop := Reached pumpStep (fun _ _ => True) (feed, {})

/-! ## What is appended for one cursor -/

/-- The cursor a message leaves behind: the offset it started at and the frames appended for it since. An `+ACK` and
the end of a snapshot start one, the begin of a snapshot ends it. -/
def cursorStep (cursor : Option (Nat × List Frame)) : Message → Option (Nat × List Frame)
  | .ack pos => some (pos.offset, [])
  | .ping _ => cursor
  | .snapshotBegin => none
  | .snapshotChunk _ => cursor
  | .snapshotEnd ackOffset => some (ackOffset, [])
  | .frame f => cursor.map fun c => (c.1, c.2 ++ [f])

def cursorOf (log : List Message) : Option (Nat × List Frame) := log.foldl cursorStep none

def Contiguous (log : List Message) : Prop :=
  ∀ before f after, log = before ++ .frame f :: after →
    ∃ start fs, cursorOf before = some (start, fs) ∧ Numbered Frame.offset start (fs ++ [f])

theorem cursorOf_append (log ms : List Message) : cursorOf (log ++ ms) = ms.foldl cursorStep (cursorOf log) := by
  unfold cursorOf
  rw [foldl_append]

theorem contiguous_nil : Contiguous [] := fun before _ after h =>
  absurd h (append_ne_nil_of_right_ne_nil before (cons_ne_nil _ after)).symm

variable {log : List Message}

theorem contiguous_snoc (h : Contiguous log) (m : Message)
    (hm : ∀ f, m = .frame f → ∃ start fs, cursorOf log = some (start, fs) ∧ Numbered Frame.offset start (fs ++ [f])) :
    Contiguous (log ++ [m]) := by
  intro before f after heq
  rcases eq_nil_or_concat after with rfl | ⟨after', last, rfl⟩
  · obtain ⟨rfl, hlast⟩ := append_inj' heq rfl
    exact hm f (List.cons.inj hlast).1
  · rw [concat_eq_append, ← cons_append, ← append_assoc] at heq
    exact h before f after' (append_inj' heq rfl).1

theorem contiguous_frames {start : Nat} {fs : List Frame} (taken : List Frame)
    (h : Contiguous log) (hcursor : cursorOf log = some (start, fs)) (hnum : Numbered Frame.offset start (fs ++ taken)) :
    Contiguous (log ++ taken.map .frame) ∧ cursorOf (log ++ taken.map .frame) = some (start, fs ++ taken) := by
  induction taken generalizing log fs with
  | nil =>
    rw [map_nil, append_nil, append_nil]
    exact ⟨h, hcursor⟩
  | cons f taken ih =>
    have hnum' : Numbered Frame.offset start ((fs ++ [f]) ++ taken) := by
      rw [append_assoc]
      exact hnum
    have hone : cursorOf (log ++ [.frame f]) = some (start, fs ++ [f]) := by
      rw [cursorOf_append, hcursor]
      rfl
    have hsnoc := contiguous_snoc h (.frame f) fun f' hf' => by
      cases hf'
      exact ⟨start, fs, hcursor, (Numbered.append_iff.mp hnum').1⟩
    obtain ⟨hlog, hend⟩ := ih hsnoc hone hnum'
    rw [append_assoc, singleton_append] at hlog
    rw [append_assoc, append_assoc, singleton_append, singleton_append] at hend
    exact ⟨hlog, hend⟩

/-! ## One call of the fill -/

namespace ReplicaConn

variable {c : ReplicaConn} {feed : FeedSource} {id : Bytes} {sent generation : Nat}

theorem takeFrames_front (pending bytes : Nat) (frames : List Frame) :
    ∃ rest, frames = takeFrames pending bytes frames ++ rest := by
  induction frames generalizing bytes with
  | nil => exact ⟨[], rfl⟩
  | cons f fs ih =>
    unfold takeFrames
    split_ifs with hfull
    · exact ⟨f :: fs, rfl⟩
    · obtain ⟨rest, hrest⟩ := ih (bytes + f.len)
      exact ⟨rest, congrArg (f :: ·) hrest⟩

theorem append_nothing (hstate : c.state = .streaming id sent generation) :
    { c.append (([] : List Frame).map .frame) with
      state := .streaming id (sent + ([] : List Frame).length) generation } = c := by
  unfold append
  rw [map_nil, append_nil, append_nil, length_nil, Nat.add_zero, ← hstate]

theorem fill_served (hstate : c.state = .streaming id sent feed.generation) (hnext : sent ≠ feed.source.nextOffset)
    (hfull : c.pendingOut < streamingOutputCap / 2) {frames : List Frame}
    (hfrom : feed.source.framesFrom sent = .ok frames) : Numbered Frame.offset sent (takeFrames c.pendingOut 0 frames) ∧
    c.fillStreamingOutput feed = { c.append ((takeFrames c.pendingOut 0 frames).map .frame) with
        state := .streaming id (sent + (takeFrames c.pendingOut 0 frames).length) feed.generation } := by
  obtain ⟨-, hnum, -, -⟩ := ReplicationSource.numbered_framesFrom hfrom
  obtain ⟨rest, hrest⟩ := takeFrames_front c.pendingOut 0 frames
  rw [hrest] at hnum
  have htaken := (Numbered.append_iff.mp hnum).1
  refine ⟨htaken, ?_⟩
  unfold fillStreamingOutput
  rw [hstate]
  dsimp only
  rw [if_neg (not_not.mpr rfl), if_neg hnext, if_neg (Nat.not_le.mpr hfull), hfrom]
  dsimp only
  rcases eq_nil_or_concat (takeFrames c.pendingOut 0 frames) with hnil | ⟨init, last, hlast⟩
  · rw [hnil]
    exact (append_nothing hstate).symm
  · rw [concat_eq_append] at hlast
    rw [hlast, Numbered.append_iff, Numbered.singleton_iff] at htaken
    rw [hlast, getLast?_append_of_ne_nil _ (cons_ne_nil last []), length_append]
    show ({ c.append _ with state := .streaming id (last.offset + 1) feed.generation } : ReplicaConn) = _
    rw [htaken.2, Nat.add_assoc, length_singleton]

/-- A cursor that the feed can serve: in its generation, at an offset of the backlog or at its end. -/
def Servable (feed : FeedSource) (sent generation : Nat) : Prop :=
  generation = feed.generation ∧ feed.source.oldest ≤ sent ∧ sent ≤ feed.source.nextOffset

theorem fill_servable (hstate : c.state = .streaming id sent generation) (h : Servable feed sent generation) :
    ∃ taken : List Frame, Numbered Frame.offset sent taken ∧ c.fillStreamingOutput feed =
        { c.append (taken.map .frame) with state := .streaming id (sent + taken.length) generation } := by
  obtain ⟨rfl, hold, hle⟩ := h
  by_cases hidle : sent = feed.source.nextOffset ∨ c.pendingOut ≥ streamingOutputCap / 2
  · refine ⟨[], .nil, ?_⟩
    rw [append_nothing hstate]
    unfold fillStreamingOutput
    rw [hstate]
    dsimp only
    rw [if_neg (not_not.mpr rfl)]
    rcases hidle with hnext | hfull
    · rw [if_pos hnext]
    · rw [if_pos hfull, ite_self]
  · obtain ⟨hnext, hfull⟩ := not_or.mp hidle
    have hfrom := feed.source.framesFrom_eq sent
    rw [if_neg (Nat.not_lt.mpr hle), if_neg (Nat.not_lt.mpr hold)] at hfrom
    exact ⟨_, fill_served hstate hnext (Nat.not_le.mp hfull) hfrom⟩

/-- A cursor that cannot be served gets a snapshot: at once when its generation is another one, otherwise as soon as
half the output cap is free. -/
theorem fill_unservable (hstate : c.state = .streaming id sent generation) (h : ¬ Servable feed sent generation) :
    c.fillStreamingOutput feed = if generation = feed.generation ∧ streamingOutputCap / 2 ≤ c.pendingOut then c
      else { c.append [.snapshotBegin] with
        state := .snapshotShipping id feed.source.nextOffset feed.generation true [] 0 } := by
  have hship : c.startSnapshotShip feed.generation feed.source.nextOffset =
      { c.append [.snapshotBegin] with
        state := .snapshotShipping id feed.source.nextOffset feed.generation true [] 0 } := by
    unfold startSnapshotShip
    rw [hstate]
  unfold fillStreamingOutput
  rw [hstate]
  dsimp only
  by_cases hgen : generation = feed.generation
  · have hheld := feed.source.held
    have hout : feed.source.nextOffset < sent ∨ sent < feed.source.oldest := by
      by_contra hin
      exact h ⟨hgen, Nat.not_lt.mp fun hlt => hin (.inr hlt), Nat.not_lt.mp fun hlt => hin (.inl hlt)⟩
    have hnext : sent ≠ feed.source.nextOffset := by
      unfold ReplicationSource.oldest at hout
      omega
    rw [if_neg (not_not.mpr hgen), if_neg hnext]
    by_cases hfull : streamingOutputCap / 2 ≤ c.pendingOut
    · rw [if_pos hfull, if_pos ⟨hgen, hfull⟩]
    · rw [if_neg hfull, if_neg fun hboth => hfull hboth.2, ReplicationSource.framesFrom_eq, ← hship]
      rcases hout with hfuture | hold
      · rw [if_pos hfuture]
      · split_ifs <;> rfl
  · rw [if_pos hgen, if_neg fun hboth => hgen hboth.1, hship]

/-- The fill moves the cursor past the frame `f` and possibly more, all of which are appended. -/
def Advances (c : ReplicaConn) (feed : FeedSource) (id : Bytes) (f : Frame) : Prop :=
  ∃ more : List Frame, c.fillStreamingOutput feed =
    { c.append ((f :: more).map .frame) with
      state := .streaming id (f.offset + 1 + more.length) feed.generation }

section Streaming

variable {f : Frame} (hstate : c.state = .streaming id f.offset feed.generation) (hf : f ∈ feed.source.buf)
  (hpending : c.pendingOut = 0)
include hstate hf hpending

theorem fill_buffered : ∃ rest : List Frame, c.fillStreamingOutput feed =
      { c.append ((takeFrames 0 0 (f :: rest)).map .frame) with
        state := .streaming id (f.offset + (takeFrames 0 0 (f :: rest)).length) feed.generation } := by
  obtain ⟨rest, hfrom⟩ := ReplicationSource.framesFrom_of_mem hf
  obtain ⟨-, -, hlen, -⟩ := ReplicationSource.numbered_framesFrom hfrom
  rw [length_cons] at hlen
  obtain ⟨-, hfill⟩ := fill_served hstate (by omega) (hpending ▸ by decide) hfrom
  rw [hpending] at hfill
  exact ⟨rest, hfill⟩

theorem fill_long (hlong : pumpByteBudget < f.len) : c.fillStreamingOutput feed = c := by
  obtain ⟨rest, hfill⟩ := fill_buffered hstate hf hpending
  have htake : takeFrames 0 0 (f :: rest) = [] := by
    rw [takeFrames, if_pos (by omega)]
  rw [hfill, htake]
  exact append_nothing hstate

/-- **Progress.** A cursor that is served and has nothing pending advances exactly when its frame fits the budget of
one turn. -/
theorem advances_iff : c.Advances feed id f ↔ f.len ≤ pumpByteBudget := by
  constructor
  · rintro ⟨more, hadv⟩
    by_contra hlong
    rw [fill_long hstate hf hpending (Nat.not_le.mp hlong)] at hadv
    have hlog : c.log = c.log ++ (f :: more).map .frame := congrArg log hadv
    exact absurd (self_eq_append_right.mp hlog) (cons_ne_nil _ _)
  · intro hfit
    obtain ⟨rest, hfill⟩ := fill_buffered hstate hf hpending
    have hcap : f.len ≤ streamingOutputCap := hfit.trans (by decide)
    have htake : takeFrames 0 0 (f :: rest) = f :: takeFrames 0 (0 + f.len) rest := by
      rw [takeFrames, if_neg (by omega)]
    refine ⟨takeFrames 0 (0 + f.len) rest, ?_⟩
    rw [hfill, htake, length_cons, Nat.add_assoc, Nat.add_comm 1]

end Streaming

/-! ## Whole runs -/

def cursor : ReplicaState → Option Nat
  | .ackSent _ fromOffset _ => some fromOffset
  | .streaming _ sentOffset _ => some sentOffset
  | _ => none

def AtCursor (log : List Message) (offset : Nat) : Prop :=
  ∃ start fs, cursorOf log = some (start, fs) ∧ Numbered Frame.offset start fs ∧ start + fs.length = offset

structure InOrder (c : ReplicaConn) : Prop where
  contiguous : Contiguous c.log
  atCursor : ∀ offset, cursor c.state = some offset → AtCursor c.log offset

theorem contiguous_other (h : Contiguous log) {m : Message} (hm : ∀ f, m ≠ .frame f) : Contiguous (log ++ [m]) :=
  contiguous_snoc h m fun f hf => absurd hf (hm f)

theorem InOrder.starts {m : Message} {offset : Nat} (h : c.InOrder) (hm : ∀ f, m ≠ .frame f)
    (hstart : ∀ log, cursorOf (log ++ [m]) = some (offset, [])) {c' : ReplicaConn} (hlog : c'.log = c.log ++ [m])
    (hstate : cursor c'.state = some offset) : c'.InOrder := by
  refine ⟨hlog ▸ contiguous_other h.contiguous hm, fun o ho => ?_⟩
  have heq : offset = o := Option.some.inj (hstate.symm.trans ho)
  subst heq
  exact ⟨offset, [], by rw [hlog, hstart], .nil, rfl⟩

theorem InOrder.ends (ms : List Message) (h : c.InOrder) (hms : ∀ m ∈ ms, ∀ f, m ≠ .frame f) {c' : ReplicaConn}
    (hlog : c'.log = c.log ++ ms) (hstate : cursor c'.state = none) : c'.InOrder := by
  refine ⟨?_, fun o ho => nomatch hstate.symm.trans ho⟩
  rw [hlog]
  clear hlog
  induction ms using List.reverseRecOn with
  | nil =>
    rw [append_nil]
    exact h.contiguous
  | append_singleton ms m ih =>
    rw [← append_assoc]
    exact contiguous_other (ih fun m' hm' => hms m' (mem_append_left _ hm'))
      (hms m (mem_append_right _ mem_cons_self))

section InOrder

variable (h : c.InOrder)
include h

theorem InOrder.advanceHandshake (feedGen : Nat) (id : Bytes) (claim : FeedPosition) :
    (c.advanceHandshake feedGen id claim).InOrder := by
  unfold ReplicaConn.advanceHandshake
  split
  · refine h.starts (m := .ack ⟨feedGen, claim.offset⟩) nofun (fun log => ?_) rfl rfl
    rw [cursorOf_append]
    rfl
  · exact h

theorem InOrder.close : c.close.InOrder := by
  unfold ReplicaConn.close
  split
  · exact h.ends [] nofun (append_nil _).symm rfl
  · exact h.ends [] nofun (append_nil _).symm rfl
  · exact h.ends [] nofun (append_nil _).symm rfl
  · exact h.ends [] nofun (append_nil _).symm rfl
  · exact h

theorem InOrder.drained : c.drained.InOrder := by
  refine ⟨h.contiguous, fun offset ho => h.atCursor offset ?_⟩
  rw [← ho]
  unfold ReplicaConn.drained
  cases c.state <;> rfl

theorem InOrder.wrote (writeOff sealed : Nat) : (c.wrote writeOff sealed).InOrder := by
  have hset : InOrder { c with writeOff := writeOff, sealed := sealed } := ⟨h.contiguous, h.atCursor⟩
  unfold ReplicaConn.wrote
  dsimp only
  split_ifs
  · exact hset.drained
  · exact hset

theorem InOrder.fill (feed : FeedSource) (hstate : c.state = .streaming id sent generation) :
    (c.fillStreamingOutput feed).InOrder := by
  by_cases hserve : Servable feed sent generation
  · obtain ⟨taken, hnum, heq⟩ := fill_servable hstate hserve
    obtain ⟨start, fs, hcursor, hfs, hend⟩ := h.atCursor sent (by rw [hstate]; rfl)
    have hall : Numbered Frame.offset start (fs ++ taken) := Numbered.append_iff.mpr ⟨hfs, hend ▸ hnum⟩
    obtain ⟨hlog, hcursor'⟩ := contiguous_frames taken h.contiguous hcursor hall
    rw [heq]
    refine ⟨hlog, fun o ho => ?_⟩
    have hoff : sent + taken.length = o := Option.some.inj ho
    exact ⟨start, fs ++ taken, hcursor', hall, by rw [length_append, ← Nat.add_assoc, hend, hoff]⟩
  · rw [fill_unservable hstate hserve]
    split_ifs
    · exact h
    · exact h.ends [.snapshotBegin] (fun m hm => by rw [mem_singleton.mp hm]; nofun) rfl rfl

theorem InOrder.heartbeat (tail : FeedPosition) : (c.append [.ping tail]).InOrder := by
  refine ⟨contiguous_other h.contiguous nofun, fun o ho => ?_⟩
  obtain ⟨start, fs, hcursor, hfs, hend⟩ := h.atCursor o ho
  refine ⟨start, fs, ?_, hfs, hend⟩
  show cursorOf (c.log ++ [.ping tail]) = _
  rw [cursorOf_append, hcursor]
  rfl

theorem InOrder.emitChunk (id : Bytes) (ackOffset generation : Nat) (buf : Bytes) (off : Nat) :
    (c.emitChunk id ackOffset generation buf off).InOrder := by
  unfold ReplicaConn.emitChunk
  dsimp only
  split_ifs
  · refine h.starts (m := .snapshotEnd ackOffset) nofun (fun log => ?_) rfl rfl
    rw [cursorOf_append]
    rfl
  · exact h.ends [_] (fun m hm => by rw [mem_singleton.mp hm]; nofun) rfl rfl

theorem InOrder.pump (feed : FeedSource) (heartbeatDue : Bool) (channel : Serialized) :
    (c.pump feed heartbeatDue channel).InOrder := by
  unfold ReplicaConn.pump
  split
  · rename_i hstate
    dsimp only
    split_ifs
    · exact (h.fill feed hstate).heartbeat _
    · exact h.fill feed hstate
  · unfold ReplicaConn.pumpSnapshotChunks
    split_ifs
    · exact h
    · split
      · exact h.emitChunk _ _ _ _ _
      · split
        · exact h
        · exact h.emitChunk _ _ _ _ _
        · exact h.close
      · exact h
  · exact h

end InOrder

end ReplicaConn

theorem inOrder_pumpStep {s s' : FeedSource × ReplicaConn} {e : PumpEvent} (h : s.2.InOrder)
    (hs : pumpStep s e = some s') : s'.2.InOrder := by
  obtain ⟨feed, c⟩ := s
  cases e with
  | push argv =>
    obtain ⟨pushed, -, rfl⟩ := Option.map_eq_some_iff.mp hs
    exact h
  | dropUpTo watermark =>
    cases hs
    exact h
  | bump fresh =>
    simp only [pumpStep] at hs
    split_ifs at hs
    cases hs
    exact h
  | handshake id claim =>
    cases hs
    exact h.advanceHandshake _ id claim
  | wrote writeOff sealed =>
    cases hs
    exact h.wrote writeOff sealed
  | pump heartbeatDue channel =>
    cases hs
    exact h.pump feed heartbeatDue channel
  | close =>
    cases hs
    exact h.close

theorem PumpReached.inOrder {feed : FeedSource} {s : FeedSource × ReplicaConn} (h : PumpReached feed s) : s.2.InOrder :=
  Reached.invariant (P := fun s => s.2.InOrder) h ⟨contiguous_nil, nofun⟩ fun _ _ _ hinv _ hs => inOrder_pumpStep hinv hs

/-- **The pump.** A cursor in the feed's generation whose frame is buffered advances, with nothing pending, exactly
when that frame fits the budget of one turn. In every run the frames appended for a cursor are consecutive from its
start, and the cursor is right behind them. A cursor the feed cannot serve gets no frame but a snapshot, at
once or when half the output cap is free. -/
theorem pump_advances_contiguously (feed : FeedSource) (c : ReplicaConn) : (∀ (id : Bytes) (f : Frame),
      c.state = .streaming id f.offset feed.generation → f ∈ feed.source.buf → c.pendingOut = 0 →
      (c.Advances feed id f ↔ f.len ≤ ReplicaConn.pumpByteBudget)) ∧
    (∀ s : FeedSource × ReplicaConn, PumpReached feed s → Contiguous s.2.log ∧
        ∀ id sent generation, s.2.state = .streaming id sent generation → ReplicaConn.AtCursor s.2.log sent) ∧
    (∀ (id : Bytes) (sent generation : Nat),
      c.state = .streaming id sent generation → ¬ ReplicaConn.Servable feed sent generation →
      c.fillStreamingOutput feed =
        if generation = feed.generation ∧ ReplicaConn.streamingOutputCap / 2 ≤ c.pendingOut then c
        else { c.append [.snapshotBegin] with
          state := .snapshotShipping id feed.source.nextOffset feed.generation true [] 0 }) := by
  refine ⟨fun id f hstate hf hpending => ReplicaConn.advances_iff hstate hf hpending, fun s h => ?_,
    fun id sent generation hstate hnot => ReplicaConn.fill_unservable hstate hnot⟩
  refine ⟨h.inOrder.contiguous, fun id sent generation hstate => h.inOrder.atCursor sent ?_⟩
  rw [hstate]
  rfl

/-- A feed at its start, with a backlog of 1 MiB. -/
def emptyFeed : FeedSource := ⟨7, .new (1024 * 1024)⟩

/-- A replica that has shaken hands and streams from offset zero. -/
def streamingConn : ReplicaConn where
  state := .streaming [114] 0 7
  log := [.ack ⟨7, 0⟩]

theorem reached_streamingConn : PumpReached emptyFeed (emptyFeed, streamingConn) :=
  .run .start [.handshake [114] ⟨7, 0⟩, .wrote 10 0] ⟨trivial, trivial, trivial⟩ rfl

theorem exists_pushed (argv : List Bytes) : ∃ feed : FeedSource,
    PumpReached emptyFeed (feed, streamingConn) ∧ feed.generation = 7 ∧ (⟨0, argv⟩ : Frame) ∈ feed.source.buf := by
  obtain ⟨source, hpush, hmem⟩ := ReplicationSource.exists_pushMutation (s := emptyFeed.source) (by decide) argv
  refine ⟨⟨7, source⟩, reached_streamingConn.step (e := .push argv) trivial ?_, rfl, hmem⟩
  rw [pumpStep, hpush]
  rfl

theorem pump_advances_contiguously_short : ∃ feed : FeedSource,
    PumpReached emptyFeed (feed, streamingConn) ∧ (⟨0, [[107]]⟩ : Frame) ∈ feed.source.buf ∧
    streamingConn.Advances feed [114] ⟨0, [[107]]⟩ := by
  obtain ⟨feed, hreach, hgen, hmem⟩ := exists_pushed [[107]]
  have hstate : streamingConn.state = .streaming [114] 0 feed.generation := hgen ▸ rfl
  exact ⟨feed, hreach, hmem,
    ((pump_advances_contiguously feed streamingConn).1 [114] ⟨0, [[107]]⟩ hstate hmem rfl).mpr (by decide)⟩

def longWrite : List Bytes := [[83, 69, 84], [107], List.replicate (256 * 1024) 120]

theorem longWrite_len (offset : Nat) : ReplicaConn.pumpByteBudget < Frame.len ⟨offset, longWrite⟩ := by
  have hlong := @Frame.arg_length_lt ⟨offset, longWrite⟩ (List.replicate (256 * 1024) 120)
    (mem_cons_of_mem _ (mem_cons_of_mem _ mem_cons_self))
  rw [length_replicate] at hlong
  exact hlong

/-- The frame of a long write is never appended: a fill leaves the connection as it was. -/
theorem pump_stuck_on_long_frame : ∃ feed : FeedSource,
    PumpReached emptyFeed (feed, streamingConn) ∧ (⟨0, longWrite⟩ : Frame) ∈ feed.source.buf ∧
    streamingConn.pendingOut = 0 ∧ streamingConn.fillStreamingOutput feed = streamingConn ∧
    ¬ streamingConn.Advances feed [114] ⟨0, longWrite⟩ := by
  obtain ⟨feed, hreach, hgen, hmem⟩ := exists_pushed longWrite
  have hstate : streamingConn.state = .streaming [114] 0 feed.generation := hgen ▸ rfl
  have hiff := @ReplicaConn.advances_iff streamingConn feed [114] ⟨0, longWrite⟩ hstate hmem rfl
  exact ⟨feed, hreach, hmem, rfl, ReplicaConn.fill_long hstate hmem rfl (longWrite_len 0),
    fun hadv => absurd (hiff.mp hadv) (Nat.not_le.mpr (longWrite_len 0))⟩

end Kevy.Replicate
