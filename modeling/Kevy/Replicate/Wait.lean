import Kevy.Replicate.Pump

/-!
# Waiting for acknowledgements

`WAIT` freezes the next offset of a shard and counts the replicas that have acknowledged it: the slots of the slot
table that are at or above the target and belong to a live connection. A slot keeps the highest number a replica
ever sent. Numbers start again at every new generation, but neither the slots nor the parked waiters do.

Three fields of a shard are for the statements only: the positions each replica was shown, the acknowledgements it
made, with the generation they were about, and every replica that was ever counted.
-/

namespace Kevy.Replicate

open Kevy.Lib Kevy.Resp List

/-! ## Slots -/

structure ReplicaSlot where
  id : Bytes
  lastSeen : Nat
  ackedOffset : Nat
  deriving DecidableEq, Repr

def touchSlot (id : Bytes) (acked now : Nat) : List ReplicaSlot → List ReplicaSlot
  | [] => [⟨id, now, acked⟩]
  | s :: slots =>
    if s.id = id then { s with lastSeen := now, ackedOffset := max s.ackedOffset acked } :: slots
    else s :: touchSlot id acked now slots

def insertOrTouch (slots : List ReplicaSlot) (id : Bytes) (acked now : Nat) : List ReplicaSlot :=
  touchSlot id acked now slots

/-- `touch_or_insert_unacked`: a new slot starts at zero, an old one keeps its offset. -/
def touchOrInsertUnacked (slots : List ReplicaSlot) (id : Bytes) (now : Nat) : List ReplicaSlot :=
  touchSlot id 0 now slots

/-- `expire`. -/
def expireSlots (slots : List ReplicaSlot) (now window : Nat) : List ReplicaSlot :=
  slots.filter fun s => now < min (s.lastSeen + window) (2 ^ 64 - 1)

theorem mem_touchSlot {id : Bytes} {acked now : Nat} {slots : List ReplicaSlot} {s : ReplicaSlot}
    (h : s ∈ touchSlot id acked now slots) :
    (∃ s0 ∈ slots, s.id = s0.id ∧ s.ackedOffset = s0.ackedOffset) ∨ (s.id = id ∧ s.ackedOffset = acked) := by
  induction slots with
  | nil =>
    rw [touchSlot, mem_singleton] at h
    subst h
    exact .inr ⟨rfl, rfl⟩
  | cons s1 slots ih =>
    rw [touchSlot] at h
    split_ifs at h with hid
    · rcases mem_cons.mp h with rfl | hs
      · rcases Nat.le_total s1.ackedOffset acked with hle | hle
        · exact .inr ⟨hid, Nat.max_eq_right hle⟩
        · exact .inl ⟨s1, mem_cons_self, rfl, Nat.max_eq_left hle⟩
      · exact .inl ⟨s, mem_cons_of_mem _ hs, rfl, rfl⟩
    · rcases mem_cons.mp h with rfl | hs
      · exact .inl ⟨s, mem_cons_self, rfl, rfl⟩
      · rcases ih hs with ⟨s0, hs0, hsame⟩ | hnew
        · exact .inl ⟨s0, mem_cons_of_mem _ hs0, hsame⟩
        · exact .inr hnew

/-! ## The shard -/

/-- A parked `WAIT`: the client it answers, its deadline, the frozen offset and the replicas it needs. The generation
the offset was taken in is for the statements only. -/
structure ReplWaiter where
  client : Nat
  deadline : Nat
  targetOffset : Nat
  need : Nat
  generation : Nat
  deriving DecidableEq, Repr

structure Count where
  target : FeedPosition
  id : Bytes
  deriving DecidableEq, Repr

structure Shard where
  feed : FeedSource
  replicas : List ReplicaConn := []
  slots : List ReplicaSlot := []
  waiters : List ReplWaiter := []
  replies : List (Nat × Nat) := []
  shown : List (Bytes × FeedPosition) := []
  acks : List (Bytes × FeedPosition) := []
  counts : List Count := []

/-- `replica_conn_id`. -/
def ReplicaConn.liveId (c : ReplicaConn) : Option Bytes :=
  match c.state with
  | .ackSent id _ _ => some id
  | .streaming id _ _ => some id
  | .snapshotShipping id _ _ _ _ _ => some id
  | _ => none

namespace Shard

def ackedIds (s : Shard) (target : Nat) : List Bytes :=
  (s.slots.filter fun slot => slot.ackedOffset ≥ target ∧ s.replicas.any fun c => c.liveId == some slot.id).map
    ReplicaSlot.id

def replAckCount (s : Shard) (target : Nat) : Nat := (s.ackedIds target).length

def record (s : Shard) (generation target : Nat) : Shard :=
  { s with counts := (s.ackedIds target).map (fun id => ⟨⟨generation, target⟩, id⟩) ++ s.counts }

def recordAll (s : Shard) (ws : List ReplWaiter) : Shard :=
  ws.foldl (fun s w => s.record w.generation w.targetOffset) s

def armReplWait (s : Shard) (client need deadline : Nat) : Shard :=
  let target := s.feed.source.nextOffset
  let n := s.replAckCount target
  let s := s.record s.feed.generation target
  if n ≥ need then { s with replies := (client, n) :: s.replies }
  else { s with waiters := s.waiters ++ [⟨client, deadline, target, need, s.feed.generation⟩] }

def checkReplAckWaiters (s : Shard) : Shard :=
  let met := fun w : ReplWaiter => s.replAckCount w.targetOffset ≥ w.need
  let done := s.waiters.filter fun w => met w
  { s.recordAll s.waiters with
    waiters := s.waiters.filter fun w => ¬ met w
    replies := done.map (fun w => (w.client, s.replAckCount w.targetOffset)) ++ s.replies }

def tickReplWaiters (s : Shard) (now : Nat) : Shard :=
  let expired := s.waiters.filter fun w => w.deadline ≤ now
  { s.recordAll expired with
    waiters := s.waiters.filter fun w => ¬ w.deadline ≤ now
    replies := expired.map (fun w => (w.client, s.replAckCount w.targetOffset)) ++ s.replies }

/-- `parse_replica_acks` on the whole lines that have arrived. An acknowledgement is a number on the wire; the
generation it is about is for the statements only. Any other line (`none`) is skipped. -/
def parseReplicaAcks (s : Shard) (idx : Nat) (lines : List (Option FeedPosition)) (now : Nat) : Shard :=
  let acks := lines.filterMap fun line => line
  match (s.replicas[idx]?).map ReplicaConn.state, acks.getLast? with
  | some (.streaming id _ _), some latest =>
    let s := { s with slots := insertOrTouch s.slots id latest.offset now, acks := acks.map (id, ·) ++ s.acks }
    s.checkReplAckWaiters
  | _, _ => s

def reapClosedReplicas (s : Shard) (now : Nat) : Shard :=
  { s with
    slots := s.replicas.foldr (fun c slots =>
      match c.state with
      | .closed (some id) => touchOrInsertUnacked slots id now
      | _ => slots) s.slots
    replicas := s.replicas.filter fun c =>
      match c.state with
      | .closed _ => false
      | _ => true }

def holdAt (c : ReplicaConn) : Option Nat :=
  match c.state with
  | .ackSent _ fromOffset _ => some fromOffset
  | .streaming _ sentOffset _ => some sentOffset
  | .snapshotShipping _ ackOffset _ _ _ _ => some ackOffset
  | _ => none

def tickReplicationWatermark (s : Shard) : Shard :=
  match (s.replicas.filterMap holdAt ++ s.slots.map ReplicaSlot.ackedOffset).min? with
  | some watermark => { s with feed := { s.feed with source := s.feed.source.dropUpTo watermark } }
  | none => s

def pumpReplication (s : Shard) (due : Nat → Bool) (channel : Nat → ReplicaConn.Serialized) : Shard :=
  let replicas := s.replicas.mapIdx fun i c => c.pump s.feed (due i) (channel i)
  let positions := replicas.filterMap fun c =>
    match c.state with
    | .streaming id sentOffset generation => some (id, ⟨generation, sentOffset⟩)
    | _ => none
  { s with replicas := replicas, shown := positions ++ s.shown }

/-! ## Runs -/

inductive Event
  | push (argv : List Bytes)
  | bump (fresh : Nat)
  | accept
  | handshake (idx : Nat) (id : Bytes) (claim : FeedPosition)
  | wrote (idx writeOff sealed : Nat)
  | pump (due : Nat → Bool) (channel : Nat → ReplicaConn.Serialized)
  | acks (idx : Nat) (lines : List (Option FeedPosition)) (now : Nat)
  | close (idx : Nat)
  | reap (now : Nat)
  | expire (now window : Nat)
  | watermark
  | wait (client need deadline : Nat)
  | tick (now : Nat)

def step (s : Shard) : Event → Option Shard
  | .push argv => (s.feed.source.pushMutation argv).map fun pushed => { s with feed := { s.feed with source := pushed.1 } }
  | .bump fresh =>
    if fresh = 0 ∨ fresh = s.feed.generation then none else some { s with feed := s.feed.bumpGeneration fresh }
  | .accept => some { s with replicas := s.replicas ++ [{}] }
  | .handshake idx id claim =>
    some { s with replicas := s.replicas.modify idx fun c => c.advanceHandshake s.feed.generation id claim
                  shown := (id, claim) :: s.shown }
  | .wrote idx writeOff sealed => some { s with replicas := s.replicas.modify idx fun c => c.wrote writeOff sealed }
  | .pump due channel => some (s.pumpReplication due channel)
  | .acks idx lines now => some (s.parseReplicaAcks idx lines now)
  | .close idx => some { s with replicas := s.replicas.modify idx ReplicaConn.close }
  | .reap now => some (s.reapClosedReplicas now)
  | .expire now window => some { s with slots := expireSlots s.slots now window }
  | .watermark => some s.tickReplicationWatermark
  | .wait client need deadline => some (s.armReplWait client need deadline)
  | .tick now => some (s.tickReplWaiters now)

/-- A replica acknowledges only what it was shown: frames or snapshots it was sent, or what it came with. -/
def Honest (s : Shard) : Event → Prop
  | .acks idx lines _ => ∀ c, s.replicas[idx]? = some c → ∀ id, c.liveId = some id → ∀ pos, some pos ∈ lines →
      ∃ offset, pos.offset ≤ offset ∧ (id, ⟨pos.generation, offset⟩) ∈ s.shown
  | _ => True

/-- The steps that keep the numbers of different generations apart: a new generation begins without slots and without
waiters, every acknowledgement that arrives is about the generation of the feed, and a `WAIT` comes after the first
write of its generation. -/
def OneGeneration (s : Shard) : Event → Prop
  | .bump _ => s.slots = [] ∧ s.waiters = []
  | .acks _ lines _ => ∀ pos, some pos ∈ lines → pos.generation = s.feed.generation
  | .wait _ _ _ => 0 < s.feed.source.nextOffset
  | _ => True

/-! ## Nothing is counted too early -/

def Backed (acks : List (Bytes × FeedPosition)) (k : Count) : Prop :=
  ∃ offset, k.target.offset ≤ offset ∧ (k.id, ⟨k.target.generation, offset⟩) ∈ acks

/-- The invariant: slots hold numbers of the feed's generation, waiters have targets in it, and what was counted was
acknowledged. -/
structure Sound (s : Shard) : Prop where
  slots : ∀ slot ∈ s.slots, slot.ackedOffset = 0 ∨ (slot.id, ⟨s.feed.generation, slot.ackedOffset⟩) ∈ s.acks
  waiters : ∀ w ∈ s.waiters, w.generation = s.feed.generation ∧ 0 < w.targetOffset
  counts : ∀ k ∈ s.counts, Backed s.acks k

variable {s : Shard}

theorem Sound.backed (h : s.Sound) {target : Nat} (ht : 0 < target) {id : Bytes}
    (hid : id ∈ s.ackedIds target) : Backed s.acks ⟨⟨s.feed.generation, target⟩, id⟩ := by
  obtain ⟨slot, hslot, rfl⟩ := List.mem_map.mp hid
  obtain ⟨hmem, hcond⟩ := mem_filter.mp hslot
  have hge : target ≤ slot.ackedOffset := (of_decide_eq_true hcond).1
  rcases h.slots slot hmem with hzero | hack
  · omega
  · exact ⟨slot.ackedOffset, hge, hack⟩

theorem Sound.record (h : s.Sound) {target : Nat} (ht : 0 < target) : (s.record s.feed.generation target).Sound := by
  refine ⟨h.slots, h.waiters, fun k hk => ?_⟩
  rcases mem_append.mp hk with hnew | hold
  · obtain ⟨id, hid, rfl⟩ := List.mem_map.mp hnew
    exact h.backed ht hid
  · exact h.counts k hold

theorem recordAll_eq (s : Shard) (ws : List ReplWaiter) :
    s.recordAll ws = { s with counts := (s.recordAll ws).counts } := by
  induction ws generalizing s with
  | nil => rfl
  | cons w ws ih => exact ih (s.record w.generation w.targetOffset)

theorem Sound.recordAll (h : s.Sound) (ws : List ReplWaiter)
    (hws : ∀ w ∈ ws, w.generation = s.feed.generation ∧ 0 < w.targetOffset) : (s.recordAll ws).Sound := by
  induction ws generalizing s with
  | nil => exact h
  | cons w ws ih =>
    obtain ⟨hgen, hpos⟩ := hws w mem_cons_self
    show Sound (Shard.recordAll (s.record w.generation w.targetOffset) ws)
    rw [hgen]
    exact ih (h.record hpos) (forall_mem_cons.mp hws).2

theorem Sound.answer (h : s.Sound) (ws keep : List ReplWaiter) (replies : List (Nat × Nat))
    (hws : ∀ w ∈ ws, w ∈ s.waiters) (hkeep : ∀ w ∈ keep, w ∈ s.waiters) :
    Sound { s.recordAll ws with waiters := keep, replies := replies } := by
  have hall := h.recordAll ws fun w hw => h.waiters w (hws w hw)
  rw [recordAll_eq] at hall ⊢
  exact ⟨hall.slots, fun w hw => h.waiters w (hkeep w hw), hall.counts⟩

theorem Sound.checkReplAckWaiters (h : s.Sound) : s.checkReplAckWaiters.Sound :=
  h.answer s.waiters _ _ (fun _ hw => hw) fun _ hw => mem_of_mem_filter hw

theorem Sound.tickReplWaiters (h : s.Sound) (now : Nat) : (s.tickReplWaiters now).Sound :=
  h.answer _ _ _ (fun _ hw => mem_of_mem_filter hw) fun _ hw => mem_of_mem_filter hw

theorem Sound.armReplWait (h : s.Sound) (client need deadline : Nat)
    (hpos : 0 < s.feed.source.nextOffset) : (s.armReplWait client need deadline).Sound := by
  have hrec := h.record hpos
  unfold Shard.armReplWait
  dsimp only
  split_ifs
  · exact ⟨hrec.slots, hrec.waiters, hrec.counts⟩
  · refine ⟨hrec.slots, fun w hw => ?_, hrec.counts⟩
    rcases mem_append.mp hw with hold | hnew
    · exact h.waiters w hold
    · rw [mem_singleton.mp hnew]
      exact ⟨rfl, hpos⟩

theorem Backed.mono {acks acks' : List (Bytes × FeedPosition)} {k : Count} (h : Backed acks k)
    (hsub : ∀ a ∈ acks, a ∈ acks') : Backed acks' k := by
  obtain ⟨offset, hle, hmem⟩ := h
  exact ⟨offset, hle, hsub _ hmem⟩

theorem Sound.parseReplicaAcks (h : s.Sound) (idx : Nat) (lines : List (Option FeedPosition)) (now : Nat)
    (hgen : ∀ pos, some pos ∈ lines → pos.generation = s.feed.generation) :
    (s.parseReplicaAcks idx lines now).Sound := by
  unfold Shard.parseReplicaAcks
  dsimp only
  split
  · rename_i id _ _ latest _ hlast
    have hmem : latest ∈ lines.filterMap fun line => line := mem_of_getLast? hlast
    have hcurrent : latest.generation = s.feed.generation := by
      obtain ⟨line, hline, rfl⟩ := mem_filterMap.mp hmem
      exact hgen latest hline
    refine Sound.checkReplAckWaiters ⟨fun slot hslot => ?_, h.waiters, fun k hk => ?_⟩
    · rcases mem_touchSlot hslot with ⟨s0, hs0, hid, hoff⟩ | ⟨hid, hoff⟩
      · rw [hid, hoff]
        exact (h.slots s0 hs0).imp_right fun hack => mem_append_right _ hack
      · refine .inr (mem_append_left _ (List.mem_map.mpr ⟨latest, hmem, ?_⟩))
        rw [hid, hoff, ← hcurrent]
    · exact (h.counts k hk).mono fun a ha => mem_append_right _ ha
  · exact h

theorem Sound.touchUnacked (h : s.Sound) (now : Nat) (cs : List ReplicaConn) : ∀ slot ∈ cs.foldr (fun c slots =>
      match c.state with
      | .closed (some id) => touchOrInsertUnacked slots id now
      | _ => slots) s.slots,
    slot.ackedOffset = 0 ∨ (slot.id, ⟨s.feed.generation, slot.ackedOffset⟩) ∈ s.acks := by
  induction cs with
  | nil => exact h.slots
  | cons c cs ih =>
    intro slot hslot
    rw [foldr_cons] at hslot
    split at hslot
    · rcases mem_touchSlot hslot with ⟨s0, hs0, hid, hoff⟩ | ⟨-, hoff⟩
      · rw [hid, hoff]
        exact ih s0 hs0
      · exact .inl hoff
    · exact ih slot hslot

theorem Sound.frame {s s' : Shard} (h : s.Sound) (hgen : s'.feed.generation = s.feed.generation)
    (hslots : ∀ slot ∈ s'.slots, slot ∈ s.slots) (hwaiters : s'.waiters = s.waiters) (hacks : s'.acks = s.acks)
    (hcounts : s'.counts = s.counts) : s'.Sound := by
  refine ⟨fun slot hslot => ?_, ?_, ?_⟩
  · rw [hgen, hacks]
    exact h.slots slot (hslots slot hslot)
  · rw [hwaiters, hgen]
    exact h.waiters
  · rw [hcounts, hacks]
    exact h.counts

theorem Sound.step {s s' : Shard} {e : Event} (h : s.Sound) (hone : s.OneGeneration e) (hs : s.step e = some s') :
    s'.Sound := by
  have hall : ∀ slot ∈ s.slots, slot ∈ s.slots := fun _ hslot => hslot
  cases e with
  | push argv =>
    obtain ⟨pushed, -, rfl⟩ := Option.map_eq_some_iff.mp hs
    exact h.frame rfl hall rfl rfl rfl
  | bump fresh =>
    simp only [Shard.step] at hs
    split_ifs at hs
    cases hs
    obtain ⟨hslots, hwaiters⟩ := hone
    refine ⟨fun slot hslot => ?_, fun w hw => ?_, h.counts⟩
    · rw [hslots] at hslot
      cases hslot
    · rw [hwaiters] at hw
      cases hw
  | accept | handshake | wrote | pump | close =>
    cases hs
    exact h.frame rfl hall rfl rfl rfl
  | acks idx lines now =>
    cases hs
    exact h.parseReplicaAcks idx lines now hone
  | reap now =>
    cases hs
    exact ⟨h.touchUnacked now s.replicas, h.waiters, h.counts⟩
  | expire now window =>
    cases hs
    exact h.frame rfl (fun _ hslot => mem_of_mem_filter hslot) rfl rfl rfl
  | watermark =>
    cases hs
    unfold Shard.tickReplicationWatermark
    split
    · exact h.frame rfl hall rfl rfl rfl
    · exact h
  | wait client need deadline =>
    cases hs
    exact h.armReplWait client need deadline hone
  | tick now =>
    cases hs
    exact h.tickReplWaiters now

/-- **No over-count.** As long as a new generation begins without slots and waiters, acknowledgements arrive in the
generation they are about, and targets are above zero: every replica that was ever counted for a target has
acknowledged an offset at or above it in the generation the target was taken in. -/
theorem counted_replicas_acked (feed : FeedSource) {s : Shard}
    (h : Reached step (fun s e => s.Honest e ∧ s.OneGeneration e) { feed := feed } s) :
    ∀ k ∈ s.counts, Backed s.acks k :=
  (h.invariant (P := Sound) ⟨nofun, nofun, nofun⟩ fun _ _ _ hinv he hs => hinv.step he.2 hs).counts

/-- A turn of the pump without heartbeats; a serializer that is asked has an empty snapshot. -/
def turn : Event := .pump (fun _ => false) fun _ => .done []

/-- A replica connects and is sent the first write. -/
def follow : List Event := [.accept, .handshake 0 [114] ⟨7, 0⟩, .wrote 0 10 0, .push [[107]], turn]

theorem honest_of_shown {idx now : Nat} {pos : FeedPosition} {c : ReplicaConn} {id : Bytes}
    (hc : s.replicas[idx]? = some c) (hid : c.liveId = some id) (hshown : (id, pos) ∈ s.shown) :
    s.Honest (.acks idx [some pos] now) := by
  intro c' hc' id' hid' pos' hpos'
  have hceq : c = c' := Option.some.inj (hc.symm.trans hc')
  subst hceq
  have hideq : id = id' := Option.some.inj (hid.symm.trans hid')
  subst hideq
  have hpeq : pos' = pos := Option.some.inj (mem_singleton.mp hpos')
  subst hpeq
  exact ⟨pos'.offset, le_rfl, hshown⟩

/-- The replica acknowledges the write, and a `WAIT` counts it. -/
def acknowledged : List Event := [.acks 0 [some ⟨7, 1⟩] 0, .wait 1 1 0]

theorem counted_replicas_acked_once : ∃ s : Shard,
    Reached step (fun s e => s.Honest e ∧ s.OneGeneration e) { feed := emptyFeed } s ∧ s.replies = [(1, 1)] ∧
    s.counts = [⟨⟨7, 1⟩, [114]⟩] ∧ Backed s.acks ⟨⟨7, 1⟩, [114]⟩ := by
  have hreach : Reached step (fun s e => s.Honest e ∧ s.OneGeneration e) { feed := emptyFeed } _ :=
    .run .start (follow ++ acknowledged)
      ⟨⟨trivial, trivial⟩, ⟨trivial, trivial⟩, ⟨trivial, trivial⟩, ⟨trivial, trivial⟩, ⟨trivial, trivial⟩,
        ⟨honest_of_shown rfl rfl mem_cons_self, fun pos hpos => by cases mem_singleton.mp hpos; rfl⟩,
        ⟨trivial, Nat.one_pos⟩, trivial⟩ rfl
  exact ⟨_, hreach, rfl, rfl, counted_replicas_acked emptyFeed hreach _ mem_cons_self⟩

/-- A flush starts a new generation after the acknowledgement; its first write is waited for. -/
def flushed : List Event := [.acks 0 [some ⟨7, 1⟩] 0, .bump 8, .push [[107]], .wait 1 1 0]

/-- A `WAIT` is parked when a flush starts a new generation; the replica gets a snapshot of that and acknowledges. -/
def parked : List Event :=
  [.wait 1 1 100, .bump 8, .push [[107]], turn, turn, .acks 0 [some ⟨8, 1⟩] 0]

/-- A replica that has acknowledged nothing reconnects before the first write. -/
def reconnected : List Event :=
  [.accept, .handshake 0 [114] ⟨7, 0⟩, .close 0, .reap 0, .accept, .handshake 0 [114] ⟨7, 0⟩, .wait 1 1 0]

/-- What is counted without those conditions: a replica for a write of the new generation because of a number of the
old one; a replica for a write of the old generation because of a number of the new one; and, for the target zero, a
replica that never acknowledged anything. Each `WAIT` is answered with one replica. -/
theorem counted_replicas_not_acked : (∃ s, Reached step Honest { feed := emptyFeed } s ∧ s.replies = [(1, 1)] ∧
      (⟨⟨8, 1⟩, [114]⟩ : Count) ∈ s.counts ∧ s.acks = [([114], ⟨7, 1⟩)]) ∧
    (∃ s, Reached step Honest { feed := emptyFeed } s ∧ s.replies = [(1, 1)] ∧
      (⟨⟨7, 1⟩, [114]⟩ : Count) ∈ s.counts ∧ s.acks = [([114], ⟨8, 1⟩)]) ∧
    (∃ s, Reached step Honest { feed := emptyFeed } s ∧ s.replies = [(1, 1)] ∧
      (⟨⟨7, 0⟩, [114]⟩ : Count) ∈ s.counts ∧ s.acks = []) := by
  refine ⟨⟨_, .run .start (follow ++ flushed) ⟨trivial, trivial, trivial, trivial, trivial,
      honest_of_shown rfl rfl mem_cons_self, trivial, trivial, trivial, trivial⟩ rfl, rfl, mem_cons_self, rfl⟩,
    ⟨_, .run .start (follow ++ parked) ⟨trivial, trivial, trivial, trivial, trivial, trivial, trivial, trivial,
      trivial, trivial, honest_of_shown rfl rfl mem_cons_self, trivial⟩ rfl, rfl, mem_cons_self, rfl⟩,
    ⟨_, .run .start reconnected ⟨trivial, trivial, trivial, trivial, trivial, trivial, trivial, trivial⟩ rfl, rfl,
      mem_cons_self, rfl⟩⟩

end Shard

end Kevy.Replicate
