import Kevy.Resp.Basic
import Mathlib.Data.Finset.Card

/-!
# The elector

The state machine of one node (`Elector`), driven by ticks and inbound messages, and the cluster around it:
the electors, what each saved to disk, and every message that was ever sent. The network may lose, delay,
reorder and duplicate, so a delivery takes any message sent so far. Instants and durations are nanoseconds.
-/

namespace Kevy.Elect

open Kevy.Resp

abbrev NodeId := Bytes

inductive Role
  | primary
  | replica
  | candidate
  deriving DecidableEq, Repr

inductive Message
  | hb (epoch : Nat) (nodeId : NodeId) (role : Role) (replOffset : Nat)
  | offer (newEpoch : Nat) (candidateId : NodeId) (replOffset : Nat)
  | accept (epoch : Nat) (accepterId : NodeId)
  | announce (epoch : Nat) (newPrimaryId : NodeId) (newPrimaryAddr : Bytes)
  deriving DecidableEq, Repr

/-- The recipient of an `Outbound`. -/
inductive Recipient
  | node (id : NodeId)
  | broadcast
  deriving DecidableEq, Repr

structure Outbound where
  recipient : Recipient
  msg : Message
  deriving DecidableEq, Repr

/-- `ElectConfig`, with its defaults. -/
structure ElectConfig where
  hbInterval : Nat := 200000000
  downAfter : Nat := 5000000000
  electionTimeout : Nat := 3000000000
  electionBackoff : Nat := 1000000000
  electionBackoffJitter : Nat := 4000000000

inductive ElectJitter
  | fixed (d : Nat)
  | system

def ElectJitter.sample (max : Nat) (nodeId : NodeId) : ElectJitter → Nat
  | .fixed d => min d max
  | .system =>
    let h := nodeId.foldl (fun (h : UInt64) b => h * 1099511628211 ^^^ b.toUInt64) 1469598103934665603
    h.toNat % (Nat.max max 1 % 2 ^ 64)

structure PeerView where
  lastSeen : Nat
  lastEpoch : Nat
  lastRole : Role
  lastReplOffset : Nat

/-- `Elector`. The durable state behind the `persist` handle is the pair last saved. -/
structure Elector where
  nodeId : NodeId
  peerIds : List NodeId
  config : ElectConfig
  role : Role
  epoch : Nat := 1
  currentPrimary : Option NodeId := none
  firstTick : Option Nat := none
  myReplOffset : Nat := 0
  lastHbSent : NodeId → Option Nat := fun _ => none
  peerViews : NodeId → Option PeerView := fun _ => none
  acceptVotes : Finset NodeId := ∅
  offerAt : Option Nat := none
  backoffUntil : Option Nat := none
  lastAcceptEpoch : Option Nat := none
  myAdvertisedAddr : Bytes := []
  jitter : ElectJitter := .system
  persist : Nat × Option NodeId := (0, none)

def insert {α : Type} (m : NodeId → Option α) (k : NodeId) (v : α) : NodeId → Option α :=
  fun k' => if k' = k then some v else m k'

def u64Max : Nat := 2 ^ 64 - 1

def saturatingSucc (n : Nat) : Nat := min (n + 1) u64Max

namespace Elector

def withPersist (e : Elector) (saved : Nat × Option NodeId) : Elector :=
  if 0 < saved.1 then
    { e with
      epoch := max e.epoch saved.1
      lastAcceptEpoch := if saved.2.isSome then some saved.1 else e.lastAcceptEpoch
      persist := saved }
  else { e with persist := saved }

def restart (e : Elector) : Elector :=
  let start : Elector :=
    { nodeId := e.nodeId
      peerIds := e.peerIds
      config := e.config
      role := .replica
      myAdvertisedAddr := e.myAdvertisedAddr
      jitter := e.jitter }
  start.withPersist e.persist

def save (e : Elector) (epoch : Nat) (votedFor : Option NodeId) : Elector :=
  { e with persist := (epoch, votedFor) }

def setReplOffset (e : Elector) (offset : Nat) : Elector := { e with myReplOffset := offset }

/-! ## Policy -/

def quorumSize (e : Elector) : Nat := e.peerIds.length / 2 + 1

def isPeerDown (e : Elector) (peer : NodeId) (now : Nat) : Bool :=
  match e.peerViews peer with
  | some v => e.config.downAfter ≤ now - v.lastSeen
  | none => true

/-- Whether `other` is alive and goes before this node in the candidate selection. -/
def beatenBy (e : Elector) (now : Nat) (other : NodeId) : Bool :=
  if other = e.nodeId then false
  else if e.currentPrimary = some other then false
  else match e.peerViews other with
    | none => false
    | some v =>
      if e.config.downAfter ≤ now - v.lastSeen then false
      else if e.myReplOffset < v.lastReplOffset then true
      else v.lastReplOffset = e.myReplOffset ∧ other < e.nodeId

def amBestCandidate (e : Elector) (now : Nat) : Bool := e.peerIds.all fun other => !e.beatenBy now other

def electionPreconditionsMet (e : Elector) (now : Nat) : Bool :=
  if e.role ≠ .replica then false
  else if e.backoffUntil.any (fun b => now < b) then false
  else
    let down : Bool := match e.currentPrimary with
      | some primary => e.isPeerDown primary now
      | none => e.firstTick.any fun t => e.config.downAfter ≤ now - t
    down && e.amBestCandidate now

/-! ## Ticks -/

/-- One round of the loop of `emit_heartbeats`. -/
def emitHeartbeat (now : Nat) (acc : Elector × List Outbound) (peer : NodeId) :
    Elector × List Outbound :=
  let (e, out) := acc
  if peer = e.nodeId then acc
  else
    let due : Bool := match e.lastHbSent peer with
      | some prev => e.config.hbInterval ≤ now - prev
      | none => true
    if due then
      ({ e with lastHbSent := insert e.lastHbSent peer now },
        out ++ [⟨.node peer, .hb e.epoch e.nodeId e.role e.myReplOffset⟩])
    else acc

def emitHeartbeats (e : Elector) (now : Nat) : Elector × List Outbound :=
  e.peerIds.foldl (emitHeartbeat now) (e, [])

def maybeStartElection (e : Elector) (now : Nat) : Elector × List Outbound :=
  if e.electionPreconditionsMet now then
    let newEpoch := saturatingSucc e.epoch
    ({ e.save newEpoch (some e.nodeId) with
        epoch := newEpoch
        role := .candidate
        acceptVotes := {e.nodeId}
        offerAt := some now },
      [⟨.broadcast, .offer newEpoch e.nodeId e.myReplOffset⟩])
  else (e, [])

def maybeFinishCandidacy (e : Elector) (now : Nat) : Elector × List Outbound :=
  if e.role ≠ .candidate then (e, [])
  else match e.offerAt with
    | none => (e, [])
    | some offerAt =>
      if e.quorumSize ≤ e.acceptVotes.card then
        ({ e with role := .primary, currentPrimary := some e.nodeId, offerAt := none, acceptVotes := ∅ },
          [⟨.broadcast, .announce e.epoch e.nodeId e.myAdvertisedAddr⟩])
      else if e.config.electionTimeout ≤ now - offerAt then
        ({ e with
            role := .replica
            offerAt := none
            acceptVotes := ∅
            backoffUntil := some (now + e.config.electionBackoff +
              e.jitter.sample e.config.electionBackoffJitter e.nodeId) }, [])
      else (e, [])

def tick (e : Elector) (now : Nat) : Elector × List Outbound :=
  let e := if e.firstTick.isNone then { e with firstTick := some now } else e
  let (e, hbs) := e.emitHeartbeats now
  let (e, offers) := e.maybeStartElection now
  let (e, announces) := e.maybeFinishCandidacy now
  (e, hbs ++ offers ++ announces)

/-! ## Messages -/

def followPrimaryHb (e : Elector) (sender : NodeId) (epoch : Nat) : Elector :=
  let e := if e.epoch < epoch then e.save epoch none else e
  let e := { e with epoch, currentPrimary := some sender }
  if e.role = .primary ∧ sender ≠ e.nodeId then { e with role := .replica }
  else if e.role = .candidate then { e with role := .replica, offerAt := none, acceptVotes := ∅ }
  else e

def onHb (e : Elector) (sender : NodeId) (epoch : Nat) (role : Role) (replOffset now : Nat) : Elector :=
  let e := { e with peerViews := insert e.peerViews sender ⟨now, epoch, role, replOffset⟩ }
  if role = .primary ∧ e.epoch ≤ epoch ∧
      (e.epoch < epoch ∨ (e.currentPrimary = none ∧ e.role = .replica)) then
    e.followPrimaryHb sender epoch
  else e

/-- Whether `on_offer` gives its vote. -/
def grants (e : Elector) (newEpoch : Nat) (candidateId : NodeId) (replOffset : Nat) : Bool :=
  if newEpoch ≤ e.epoch then false
  else if replOffset < e.myReplOffset then false
  else if e.myReplOffset = replOffset ∧ e.nodeId < candidateId then false
  else e.lastAcceptEpoch ≠ some newEpoch

def onOffer (e : Elector) (newEpoch : Nat) (candidateId : NodeId) (replOffset : Nat) :
    Elector × List Outbound :=
  if e.grants newEpoch candidateId replOffset then
    ({ e.save newEpoch (some candidateId) with lastAcceptEpoch := some newEpoch, epoch := newEpoch },
      [⟨.node candidateId, .accept newEpoch e.nodeId⟩])
  else (e, [])

def onAccept (e : Elector) (epoch : Nat) (accepterId : NodeId) : Elector :=
  if e.role ≠ .candidate ∨ e.epoch ≠ epoch then e
  else { e with acceptVotes := Insert.insert accepterId e.acceptVotes }

def onAnnounce (e : Elector) (epoch : Nat) (newPrimaryId : NodeId) : Elector :=
  if epoch ≤ e.epoch ∧ e.currentPrimary = some newPrimaryId then e
  else if epoch < e.epoch then e
  else
    { e.save epoch (some newPrimaryId) with
      epoch
      currentPrimary := some newPrimaryId
      lastAcceptEpoch := some epoch
      acceptVotes := ∅
      offerAt := none
      role := if newPrimaryId = e.nodeId then .primary else .replica }

def onMessage (e : Elector) (sender : NodeId) (msg : Message) (now : Nat) : Elector × List Outbound :=
  match msg with
  | .hb epoch _ role replOffset => (e.onHb sender epoch role replOffset now, [])
  | .offer newEpoch candidateId replOffset => e.onOffer newEpoch candidateId replOffset
  | .accept epoch accepterId => (e.onAccept epoch accepterId, [])
  | .announce epoch newPrimaryId _ => (e.onAnnounce epoch newPrimaryId, [])

end Elector

/-! ## The cluster -/

structure Envelope where
  sender : NodeId
  receiver : NodeId
  msg : Message
  deriving DecidableEq, Repr

structure Cluster where
  peers : List NodeId
  node : NodeId → Elector
  sent : List Envelope

/-- The transport puts a node's outbound messages on the wire, a broadcast to every peer but itself. -/
def envelopes (peers : List NodeId) (sender : NodeId) (out : List Outbound) : List Envelope :=
  out.flatMap fun o => match o.recipient with
    | .node id => [⟨sender, id, o.msg⟩]
    | .broadcast => (peers.filter (· ≠ sender)).map fun id => ⟨sender, id, o.msg⟩

/-- One thing that happens in the cluster. A delivery names a message by its place among those sent. -/
inductive Action
  | tick (n : NodeId) (now : Nat)
  | deliver (i now : Nat)
  | restart (n : NodeId)
  | setReplOffset (n : NodeId) (offset : Nat)

namespace Cluster

/-- Node `n` goes to the state and sends the messages of `r`. -/
def act (c : Cluster) (n : NodeId) (r : Elector × List Outbound) : Cluster :=
  { c with
    node := fun m => if m = n then r.1 else c.node m
    sent := c.sent ++ envelopes c.peers n r.2 }

def step (c : Cluster) : Action → Cluster
  | .tick n now => if n ∈ c.peers then c.act n ((c.node n).tick now) else c
  | .deliver i now =>
    match c.sent[i]? with
    | some env =>
      if env.receiver ∈ c.peers then c.act env.receiver ((c.node env.receiver).onMessage env.sender env.msg now) else c
    | none => c
  | .restart n => if n ∈ c.peers then c.act n ((c.node n).restart, []) else c
  | .setReplOffset n offset => if n ∈ c.peers then c.act n ((c.node n).setReplOffset offset, []) else c

def run (c : Cluster) (as : List Action) : Cluster := as.foldl step c

/-- First boot: nothing on disk, nothing sent, at most the node `boot` configured as primary. -/
structure FirstBoot (boot : Option NodeId) (c : Cluster) : Prop where
  nodup : c.peers.Nodup
  sent : c.sent = []
  node : ∀ n ∈ c.peers, ∃ config addr jitter, c.node n =
    { nodeId := n, peerIds := c.peers, config, myAdvertisedAddr := addr, jitter
      role := if boot = some n then .primary else .replica }

end Cluster

end Kevy.Elect
