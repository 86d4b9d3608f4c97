import Kevy.Lib.Runs
import Kevy.Replicate.Source

/-!
# An embedded writer and its replica

A store opened as a writer keeps its backlog in memory: every start begins a new history at offset zero, over
whatever keyspace was loaded from disk. A replica connects with the place it is at. It is either sent the frames from
there on, or a snapshot of the keyspace and the frames from the snapshot's offset on.

The keyspace and its commands are a parameter. What the replica holds is compared with the keyspaces the primary has
had, each under the offset its history had then reached.
-/

namespace Kevy.Replicate

open Kevy.Lib Kevy.Resp List Option

/-- A keyspace with its commands, the removal of a key, and its snapshot. -/
structure Dataset (σ : Type) where
  empty : σ
  apply : σ → List Bytes → σ
  remove : σ → Bytes → σ
  serialize : σ → Bytes
  load : Bytes → Option σ
  load_serialize : ∀ s, load (serialize s) = some s

variable {σ : Type}

/-! ## The primary -/

structure Writer (σ : Type) where
  store : σ
  generation : Nat
  source : ReplicationSource

/-- `ReplicaSource::spawn` over the keyspace that was loaded: the backlog has at least 64 KiB. -/
def Writer.spawn (store : σ) (generation backlogBytes : Nat) : Writer σ where
  store := store
  generation := generation
  source := .new (max backlogBytes (64 * 1024))

/-- A write that was applied, up to the end of `commit_write`: appended to the log (`logged` when that succeeds),
pushed into the backlog, and followed by the eviction sweep, which removes the keys `evicted`. -/
def Writer.commitWrite (d : Dataset σ) (w : Writer σ) (argv : List Bytes) (logged : Bool) (evicted : List Bytes) :
    Option (Writer σ) :=
  let store := d.apply w.store argv
  if logged then
    (w.source.pushMutation argv).map fun pushed =>
      { w with store := evicted.foldl d.remove store, source := pushed.1 }
  else some { w with store := store }

/-- The test of `ship_snapshot_if_needed`. -/
def Writer.needsSnapshot (w : Writer σ) (claim : FeedPosition) : Bool :=
  let genMismatch := claim.generation ≠ w.generation ∧ claim ≠ {}
  let behind := claim.offset = 0 ∧ w.source.nextOffset > 0
  decide genMismatch || decide behind || !(w.source.framesFrom claim.offset).isOk

inductive FrameStep
  | send (f : Frame)
  | caughtUp
  | tooOld
  | peerAhead

/-- `next_frame_bytes`. -/
def Writer.nextFrame (w : Writer σ) (sent : Nat) : FrameStep :=
  if sent ≥ w.source.nextOffset then .caughtUp
  else
    match w.source.framesFrom sent with
    | .ok [] => .caughtUp
    | .ok (f :: _) => .send f
    | .error .tooOld => .tooOld
    | .error .future => .peerAhead

/-! ## The snapshot on the wire -/

def chunks (n : Nat) : (fuel : Nat) → Bytes → List Bytes
  | 0, _ => []
  | fuel + 1, payload =>
    if payload = [] then [] else payload.take n :: chunks n fuel (payload.drop n)

def shipment (payload : Bytes) (generation ackOffset : Nat) : List Message :=
  .ack ⟨generation, ackOffset⟩ :: .snapshotBegin ::
    (chunks snapshotChunkMax payload.length payload).map .snapshotChunk ++ [.snapshotEnd ackOffset]

/-! ## The replica -/

structure Replica (σ : Type) where
  store : σ
  expectedOffset : Nat
  ackGen : Nat := 0
  snap : Option Bytes := none

/-- What a replica does with a message (`drain_session` and the decoder below it); `none` drops the link. -/
def Replica.receive (d : Dataset σ) (r : Replica σ) : Message → Option (Replica σ)
  | .ack pos => some { r with ackGen := pos.generation }
  | .ping tail => if tail.generation ≠ 0 ∧ tail.generation ≠ r.ackGen then none else some r
  | .snapshotBegin => some { r with store := d.empty, snap := some [] }
  | .snapshotChunk bytes => some { r with snap := r.snap.map (· ++ bytes) }
  | .snapshotEnd ackOffset =>
    match r.snap with
    | none => some { r with expectedOffset := ackOffset }
    | some payload =>
      (d.load payload).map fun store => { r with store := store, expectedOffset := ackOffset, snap := none }
  | .frame f =>
    if r.snap.isSome ∨ f.offset ≠ r.expectedOffset then none
    else some { r with store := d.apply r.store f.argv, expectedOffset := f.offset + 1 }

/-! ## A primary, a connection and a replica -/

inductive Conn
  | accepted (claim : FeedPosition)
  | resume (offset : Nat)
  | ship
  | streaming (sent : Nat)
  | closed

/-- A primary, one connection with what is on its way, and the replica at the other end. `had` is for the statements
only: the keyspaces the primary has had, each with the next offset it had them at. -/
structure Session (σ : Type) where
  writer : Writer σ
  had : List (Nat × σ)
  conn : Conn
  link : List Message
  replica : Replica σ

/-- What happens next: a write commits, a replica connects with a claim and a keyspace, the connection thread takes
its next step, or the replica takes the next message. -/
inductive Event (σ : Type)
  | write (argv : List Bytes) (logged : Bool) (evicted : List Bytes)
  | connect (claim : FeedPosition) (store : σ)
  | serve
  | deliver

/-- One step of the connection thread (`run_conn`). -/
def Session.serve (d : Dataset σ) (s : Session σ) : Session σ :=
  let w := s.writer
  match s.conn with
  | .accepted claim => { s with conn := if w.needsSnapshot claim then .ship else .resume claim.offset }
  | .resume offset =>
    { s with conn := .streaming offset, link := s.link ++ [.ack ⟨w.generation, offset⟩] }
  | .ship =>
    let ackOffset := w.source.nextOffset
    { s with conn := .streaming ackOffset
             link := s.link ++ shipment (d.serialize w.store) w.generation ackOffset }
  | .streaming sent =>
    match w.nextFrame sent with
    | .send f => { s with conn := .streaming (f.offset + 1), link := s.link ++ [.frame f] }
    | .caughtUp => s
    | .tooOld => { s with conn := .closed }
    | .peerAhead => { s with conn := .closed }
  | .closed => s

def Session.deliver (d : Dataset σ) (s : Session σ) : Session σ :=
  match s.link with
  | [] => s
  | m :: link =>
    match s.replica.receive d m with
    | some r => { s with link := link, replica := r }
    | none => { s with conn := .closed, link := [] }

/-- One event; `none` is the panic of a primary that has run out of offsets. -/
def Session.step (d : Dataset σ) (s : Session σ) : Event σ → Option (Session σ)
  | .write argv logged evicted =>
    (s.writer.commitWrite d argv logged evicted).map fun w =>
      { s with writer := w, had := (w.source.nextOffset, w.store) :: s.had }
  | .connect claim store =>
    some { s with conn := .accepted claim, link := [], replica := { store := store, expectedOffset := claim.offset } }
  | .serve => some (s.serve d)
  | .deliver => some (s.deliver d)

/-- A primary that was just started, with nobody connected. -/
def Session.start (d : Dataset σ) (w : Writer σ) : Session σ where
  writer := w
  had := [(w.source.nextOffset, w.store)]
  conn := .closed
  link := []
  replica := { store := d.empty, expectedOffset := 0 }

/-- The keyspace a claim stands for: nothing for the fresh claim; in this history, what the primary had at the
offset; in any other history, anything. -/
def Session.StandsFor (d : Dataset σ) (s : Session σ) (claim : FeedPosition) (store : σ) : Prop :=
  (claim = {} → store = d.empty) ∧ (claim ≠ {} → claim.generation = s.writer.generation → (claim.offset, store) ∈ s.had)

def Session.Honest (d : Dataset σ) (s : Session σ) : Event σ → Prop
  | .connect claim store => s.StandsFor d claim store
  | _ => True

/-- The steps that keep primary and replica together: a write is logged and evicts nothing, and a fresh replica that
is let in before the first write finds an empty primary. -/
def Session.Covered (d : Dataset σ) (s : Session σ) : Event σ → Prop
  | .write _ logged evicted => logged = true ∧ evicted = []
  | .serve => s.conn = .accepted {} → s.writer.source.nextOffset = 0 → s.writer.store = d.empty
  | _ => True

def Session.CaughtUp (s : Session σ) : Prop :=
  s.link = [] ∧ ∃ sent, s.conn = .streaming sent ∧ s.writer.source.nextOffset ≤ sent

/-! ## The keyspace at an offset -/

variable {n : Nat} {argv : List Bytes}

section History

variable {d : Dataset σ} {start : σ} {hist : List (List Bytes)}

/-- The keyspace after the first `n` writes of a history. -/
def asOf (d : Dataset σ) (start : σ) (hist : List (List Bytes)) (n : Nat) : σ := (hist.take n).foldl d.apply start

theorem asOf_append (hn : n ≤ hist.length) (more : List (List Bytes)) :
    asOf d start (hist ++ more) n = asOf d start hist n := by
  unfold asOf
  rw [take_append_of_le_length hn]

theorem asOf_succ (h : hist[n]? = some argv) : asOf d start hist (n + 1) = d.apply (asOf d start hist n) argv := by
  unfold asOf
  rw [take_add_one, h, toList_some, foldl_append]
  rfl

/-- The primary is where its history leads, and its backlog holds frames of that history. -/
structure Writer.Recorded (d : Dataset σ) (start : σ) (hist : List (List Bytes)) (w : Writer σ) : Prop where
  next : w.source.nextOffset = hist.length
  store : w.store = asOf d start hist hist.length
  frames : ∀ f ∈ w.source.buf, hist[f.offset]? = some f.argv

theorem Writer.Recorded.spawn (d : Dataset σ) (start : σ) (generation backlogBytes : Nat) :
    (Writer.spawn start generation backlogBytes).Recorded d start [] where
  next := rfl
  store := rfl
  frames := nofun

theorem Writer.Recorded.commitWrite {w w' : Writer σ} (h : w.Recorded d start hist)
    (hw : w.commitWrite d argv true [] = some w') :
    w'.Recorded d start (hist ++ [argv]) ∧ w'.generation = w.generation := by
  unfold Writer.commitWrite at hw
  rw [if_pos rfl, map_eq_some_iff] at hw
  obtain ⟨⟨source, offset⟩, hpush, rfl⟩ := hw
  obtain ⟨hnext, hframes⟩ := ReplicationSource.pushMutation_spec hpush h.next h.frames
  refine ⟨⟨hnext, ?_, hframes⟩, rfl⟩
  show d.apply w.store argv = _
  rw [length_append, length_singleton, asOf_succ getElem?_concat_length, asOf_append le_rfl, h.store]

theorem Writer.Recorded.nextFrame_send {w : Writer σ} {sent : Nat} {f : Frame} (h : w.Recorded d start hist)
    (hf : w.nextFrame sent = .send f) : f.offset = sent ∧ hist[sent]? = some f.argv := by
  unfold Writer.nextFrame at hf
  split_ifs at hf
  split at hf
  · cases hf
  · rename_i f' fs hfrom
    cases hf
    obtain ⟨-, hnum, -, hmem⟩ := ReplicationSource.numbered_framesFrom hfrom
    have hoff : f.offset = sent := (Numbered.cons_iff.mp hnum).1
    exact ⟨hoff, hoff ▸ h.frames f (hmem f mem_cons_self)⟩
  · cases hf
  · cases hf

end History

/-! ## The messages on their way -/

section Link

variable {d : Dataset σ}

def Replica.drain (d : Dataset σ) (r : Replica σ) (link : List Message) : Option (Replica σ) :=
  link.foldlM (Replica.receive d) r

theorem Replica.drain_append (r : Replica σ) (l l' : List Message) :
    r.drain d (l ++ l') = (r.drain d l).bind fun r' => r'.drain d l' := by
  unfold Replica.drain
  rw [foldlM_append]
  rfl

theorem flatten_chunks (hn : 0 < n) (fuel : Nat) (payload : Bytes) (hlen : payload.length ≤ fuel) :
    (chunks n fuel payload).flatten = payload := by
  induction fuel generalizing payload with
  | zero =>
    rw [eq_nil_of_length_eq_zero (Nat.le_zero.mp hlen)]
    rfl
  | succ fuel ih =>
    unfold chunks
    split_ifs with hnil
    · exact hnil.symm
    · have hpos := length_pos_of_ne_nil hnil
      rw [flatten_cons, ih _ (by rw [length_drop]; omega), take_append_drop]

theorem Replica.drain_chunks (pieces : List Bytes) (r : Replica σ) (got : Bytes) (hr : r.snap = some got) :
    r.drain d (pieces.map .snapshotChunk) = some { r with snap := some (got ++ pieces.flatten) } := by
  induction pieces generalizing r got with
  | nil =>
    rw [flatten_nil, append_nil, ← hr]
    rfl
  | cons piece pieces ih =>
    show Replica.drain d { r with snap := r.snap.map (· ++ piece) } _ = _
    rw [ih _ (got ++ piece) (by rw [hr]; rfl), flatten_cons, append_assoc]

theorem Replica.drain_shipment (r : Replica σ) (s : σ) (generation ackOffset : Nat) :
    r.drain d (shipment (d.serialize s) generation ackOffset) =
      some { store := s, expectedOffset := ackOffset, ackGen := generation } := by
  unfold shipment
  rw [Replica.drain_append]
  show ((Replica.drain d { r with store := d.empty, ackGen := generation, snap := some [] }
    ((chunks snapshotChunkMax (d.serialize s).length (d.serialize s)).map .snapshotChunk)).bind fun r' => _) = _
  rw [Replica.drain_chunks _ _ [] rfl, flatten_chunks (by decide) _ _ le_rfl, nil_append, bind_some]
  show ((d.load (d.serialize s)).map fun store =>
    ({ store := store, expectedOffset := ackOffset, ackGen := generation } : Replica σ)).bind some = _
  rw [d.load_serialize]
  rfl

end Link

/-! ## Convergence -/

section Convergence

variable {d : Dataset σ} {start : σ} {hist : List (List Bytes)}

/-- When its messages have arrived, the replica is where the primary was at the offset. -/
def Session.Follows (d : Dataset σ) (start : σ) (hist : List (List Bytes)) (s : Session σ) (offset : Nat) : Prop :=
  offset ≤ hist.length ∧ ∃ ackGen,
    s.replica.drain d s.link = some { store := asOf d start hist offset, expectedOffset := offset, ackGen := ackGen }

/-- What the connection thread may rely on, wherever it is. -/
def Session.Consistent (d : Dataset σ) (start : σ) (hist : List (List Bytes)) (s : Session σ) : Prop :=
  match s.conn with
  | .accepted claim =>
    s.link = [] ∧ s.replica = { store := s.replica.store, expectedOffset := claim.offset } ∧
      (claim = {} → s.replica.store = d.empty) ∧
      (claim ≠ {} → claim.generation = s.writer.generation → s.Follows d start hist claim.offset)
  | .resume offset => s.Follows d start hist offset
  | .ship => s.link = []
  | .streaming sent => s.Follows d start hist sent
  | .closed => True

structure Session.Inv (d : Dataset σ) (start : σ) (hist : List (List Bytes)) (s : Session σ) : Prop where
  recorded : s.writer.Recorded d start hist
  had : ∀ p ∈ s.had, p.1 ≤ hist.length ∧ p.2 = asOf d start hist p.1
  conn : s.Consistent d start hist

theorem Session.Follows.append {s s' : Session σ} {offset : Nat} (h : s.Follows d start hist offset)
    (hlink : s'.link = s.link) (hreplica : s'.replica = s.replica) (more : List (List Bytes)) :
    s'.Follows d start (hist ++ more) offset := by
  unfold Session.Follows
  rw [asOf_append h.1, hlink, hreplica, length_append]
  exact ⟨h.1.trans (Nat.le_add_right _ _), h.2⟩

section Inv

variable {s s' : Session σ} (h : s.Inv d start hist)
include h

theorem Session.Inv.write (hs : s.step d (.write argv true []) = some s') : s'.Inv d start (hist ++ [argv]) := by
  obtain ⟨w, hw, rfl⟩ := map_eq_some_iff.mp hs
  obtain ⟨hrec, hgen⟩ := h.recorded.commitWrite hw
  refine ⟨hrec, fun p hp => ?_, ?_⟩
  · rcases mem_cons.mp hp with rfl | hp
    · exact ⟨Nat.le_of_eq hrec.next, by rw [hrec.store, ← hrec.next]⟩
    · obtain ⟨hle, heq⟩ := h.had p hp
      rw [asOf_append hle, length_append]
      exact ⟨hle.trans (Nat.le_add_right _ _), heq⟩
  · have hconn := h.conn
    unfold Session.Consistent at hconn ⊢
    revert hconn
    cases s.conn with
    | accepted claim =>
      rintro ⟨hlink, hreplica, hfresh, hclaim⟩
      exact ⟨hlink, hreplica, hfresh, fun hne heq => (hclaim hne (heq.trans hgen)).append rfl rfl _⟩
    | resume offset => exact fun hf => hf.append rfl rfl _
    | ship => exact id
    | streaming sent => exact fun hf => hf.append rfl rfl _
    | closed => exact id

theorem Session.Inv.connect {claim : FeedPosition} {store : σ} (hclaim : s.StandsFor d claim store) :
    ({ s with conn := .accepted claim, link := []
              replica := { store := store, expectedOffset := claim.offset } } : Session σ).Inv d start hist := by
  refine ⟨h.recorded, h.had, rfl, rfl, hclaim.1, fun hne heq => ?_⟩
  obtain ⟨hle, hstore⟩ := h.had _ (hclaim.2 hne heq)
  refine ⟨hle, 0, ?_⟩
  show some _ = some _
  rw [← hstore]

theorem Session.Inv.resume {claim : FeedPosition}
    (hconn : s.conn = .accepted claim) (hcov : s.Covered d .serve) (hneeds : s.writer.needsSnapshot claim = false) :
    s.Follows d start hist claim.offset := by
  have hcons := h.conn
  unfold Session.Consistent at hcons
  rw [hconn] at hcons
  obtain ⟨hlink, hreplica, hfresh, hclaim⟩ := hcons
  unfold Writer.needsSnapshot at hneeds
  simp only [Bool.or_eq_false_iff, decide_eq_false_iff_not, not_and, not_lt, ne_eq, not_not] at hneeds
  obtain ⟨⟨hgen, hzero⟩, -⟩ := hneeds
  by_cases hdefault : claim = {}
  · -- the fresh claim: nothing was written yet, and the primary is as empty as the replica
    subst hdefault
    have hnext : s.writer.source.nextOffset = 0 := Nat.le_zero.mp (hzero rfl)
    have hlen : hist.length = 0 := h.recorded.next.symm.trans hnext
    have hempty : asOf d start hist 0 = d.empty := by
      rw [← hcov hconn hnext, h.recorded.store, hlen]
    refine ⟨Nat.zero_le _, 0, ?_⟩
    show s.replica.drain d s.link = some { store := asOf d start hist 0, expectedOffset := 0 }
    rw [hlink, hempty, ← hfresh rfl]
    exact congrArg some hreplica
  · exact hclaim hdefault (not_not.mp fun hne => hdefault (hgen hne))

theorem Session.Inv.serve (hcov : s.Covered d .serve) : (s.serve d).Inv d start hist := by
  have hcons := h.conn
  unfold Session.Consistent at hcons
  unfold Session.serve
  cases hconn : s.conn with
  | accepted claim =>
    rw [hconn] at hcons
    show Session.Inv d start hist
      { s with conn := if s.writer.needsSnapshot claim then .ship else .resume claim.offset }
    cases hneeds : s.writer.needsSnapshot claim with
    | true => exact ⟨h.recorded, h.had, hcons.1⟩
    | false => exact ⟨h.recorded, h.had, h.resume hconn hcov hneeds⟩
  | resume offset =>
    rw [hconn] at hcons
    obtain ⟨hle, ackGen, hdrain⟩ := hcons
    refine ⟨h.recorded, h.had, hle, s.writer.generation, ?_⟩
    show s.replica.drain d (s.link ++ _) = _
    rw [Replica.drain_append, hdrain]
    rfl
  | ship =>
    rw [hconn] at hcons
    refine ⟨h.recorded, h.had, Nat.le_of_eq h.recorded.next, s.writer.generation, ?_⟩
    show s.replica.drain d (s.link ++ _) = _
    rw [hcons, nil_append, Replica.drain_shipment, h.recorded.store, ← h.recorded.next]
  | streaming sent =>
    rw [hconn] at hcons
    dsimp only
    cases hnext : s.writer.nextFrame sent with
    | send f =>
      obtain ⟨hoff, hat⟩ := h.recorded.nextFrame_send hnext
      obtain ⟨-, ackGen, hdrain⟩ := hcons
      refine ⟨h.recorded, h.had, ?_, ackGen, ?_⟩
      · rw [hoff]
        exact (List.getElem?_eq_some_iff.mp hat).1
      · show s.replica.drain d (s.link ++ _) = _
        rw [Replica.drain_append, hdrain, hoff, asOf_succ hat]
        show Option.bind (if _ then _ else _) _ = _
        rw [if_neg (by simp [hoff])]
        simp [hoff]
    | caughtUp => exact h
    | tooOld | peerAhead => exact ⟨h.recorded, h.had, trivial⟩
  | closed => exact h

theorem Session.Inv.deliver : (s.deliver d).Inv d start hist := by
  unfold Session.deliver
  cases hlink : s.link with
  | nil => exact h
  | cons m link =>
    have hcons := h.conn
    unfold Session.Consistent at hcons
    dsimp only
    cases hrec : s.replica.receive d m with
    | none => exact ⟨h.recorded, h.had, trivial⟩
    | some r =>
      -- the rest of the link takes the replica to the same place
      have hdrain : s.replica.drain d s.link = r.drain d link := by
        rw [hlink]
        show (s.replica.receive d m).bind (fun r' => r'.drain d link) = _
        rw [hrec]
        rfl
      refine ⟨h.recorded, h.had, ?_⟩
      unfold Session.Consistent
      dsimp only
      revert hcons
      cases s.conn with
      | accepted claim => exact fun hcons => absurd (hlink.symm.trans hcons.1) (cons_ne_nil m link)
      | resume offset => exact fun ⟨hle, ackGen, hf⟩ => ⟨hle, ackGen, hdrain.symm.trans hf⟩
      | ship => exact fun hnil => absurd (hlink.symm.trans hnil) (cons_ne_nil m link)
      | streaming sent => exact fun ⟨hle, ackGen, hf⟩ => ⟨hle, ackGen, hdrain.symm.trans hf⟩
      | closed => exact id

theorem Session.Inv.step {e : Event σ} (hhonest : s.Honest d e)
    (hcov : s.Covered d e) (hs : s.step d e = some s') : ∃ hist', s'.Inv d start hist' := by
  cases e with
  | write argv logged evicted =>
    obtain ⟨rfl, rfl⟩ := hcov
    exact ⟨_, h.write hs⟩
  | connect claim store =>
    cases hs
    exact ⟨hist, h.connect hhonest⟩
  | serve =>
    cases hs
    exact ⟨hist, h.serve hcov⟩
  | deliver =>
    cases hs
    exact ⟨hist, h.deliver⟩

end Inv

theorem inv_of_reached {s : Session σ} {generation backlogBytes : Nat}
    (h : Reached (Session.step d) (fun s e => s.Honest d e ∧ s.Covered d e)
      (.start d (.spawn start generation backlogBytes)) s) :
    ∃ hist, s.Inv d start hist := by
  refine h.invariant (P := fun s => ∃ hist, s.Inv d start hist) ?_ ?_
  · refine ⟨[], Writer.Recorded.spawn d start generation backlogBytes, fun p hp => ?_, trivial⟩
    rw [mem_singleton.mp hp]
    exact ⟨le_rfl, rfl⟩
  · rintro s e s' ⟨hist, hinv⟩ ⟨hhonest, hcov⟩ hs
    exact hinv.step hhonest hcov hs

/-- **Convergence.** Whatever keyspace the primary started with: as long as writes are logged and evict nothing, and
no fresh replica is let in before the first write unless the primary is empty, a replica that is caught up has the
primary's keyspace. -/
theorem caught_up_replica_agrees (d : Dataset σ) (start : σ) (generation backlogBytes : Nat) {s : Session σ}
    (h : Reached (Session.step d) (fun s e => s.Honest d e ∧ s.Covered d e)
      (.start d (.spawn start generation backlogBytes)) s) (hup : s.CaughtUp) : s.replica.store = s.writer.store := by
  obtain ⟨hist, hinv⟩ := inv_of_reached h
  obtain ⟨hlink, sent, hconn, hsent⟩ := hup
  have hcons := hinv.conn
  unfold Session.Consistent at hcons
  rw [hconn] at hcons
  obtain ⟨hle, ackGen, hdrain⟩ := hcons
  have hall : sent = hist.length := Nat.le_antisymm hle (hinv.recorded.next ▸ hsent)
  rw [hlink] at hdrain
  have hreplica : s.replica = { store := asOf d start hist sent, expectedOffset := sent, ackGen := ackGen } :=
    some.inj hdrain
  rw [hreplica, hinv.recorded.store, hall]

end Convergence

/-- Keyspaces of one-byte keys without values: a command adds its bytes. -/
def letters : Dataset Bytes where
  empty := []
  apply s argv := s ++ argv.flatten
  remove s key := s.filter fun k => !key.contains k
  serialize s := s
  load payload := some payload
  load_serialize _ := rfl

def loaded : Session Bytes := .start letters (.spawn [107] 7 0)

/-- A replica connects after the first write, is sent a snapshot, and follows the second write. -/
def lateReplica : List (Event Bytes) :=
  [.write [[97]] true [], .connect {} [], .serve, .serve, .deliver, .deliver, .deliver, .deliver,
    .write [[98]] true [], .serve, .deliver]

theorem caught_up_replica_agrees_letters : ∃ s : Session Bytes,
    Reached (Session.step letters) (fun s e => s.Honest letters e ∧ s.Covered letters e) loaded s ∧ s.CaughtUp ∧
    s.writer.store = [107, 97, 98] ∧ s.replica.store = s.writer.store := by
  have hreach : Reached (Session.step letters) (fun s e => s.Honest letters e ∧ s.Covered letters e) loaded _ :=
    .run .start lateReplica
      ⟨⟨trivial, rfl, rfl⟩, ⟨⟨fun _ => rfl, fun h => absurd rfl h⟩, trivial⟩, ⟨trivial, fun _ h => nomatch h⟩,
        ⟨trivial, fun h => nomatch h⟩, ⟨trivial, trivial⟩, ⟨trivial, trivial⟩, ⟨trivial, trivial⟩, ⟨trivial, trivial⟩,
        ⟨trivial, rfl, rfl⟩, ⟨trivial, fun h => nomatch h⟩, ⟨trivial, trivial⟩, trivial⟩ rfl
  exact ⟨_, hreach, ⟨rfl, 2, rfl, le_rfl⟩, rfl,
    caught_up_replica_agrees letters [107] 7 0 hreach ⟨rfl, 2, rfl, le_rfl⟩⟩

def blank : Session Bytes := .start letters (.spawn [] 7 0)

def earlyReplica : List (Event Bytes) := [.connect {} [], .serve, .serve, .deliver]

/-- A write reaches the replica; the next one evicts its key. -/
def evictingWrite : List (Event Bytes) :=
  [.write [[97]] true [], .serve, .deliver, .write [[98]] true [[97]], .serve, .deliver]

def unloggedWrite : List (Event Bytes) := [.write [[97]] false []]

/-- What follows without the conditions on the steps: a fresh replica that connects before the first write never gets
the keys the primary was started with; a replica keeps the keys the primary evicts; and it misses a write whose log
append failed, which the primary keeps. -/
theorem caught_up_replica_differs :
    (∃ s, Reached (Session.step letters) (fun s e => s.Honest letters e) loaded s ∧ s.CaughtUp ∧
      s.writer.store = [107] ∧ s.replica.store = []) ∧
    (∃ s, Reached (Session.step letters) (fun s e => s.Honest letters e) blank s ∧ s.CaughtUp ∧
      s.writer.store = [98] ∧ s.replica.store = [97, 98]) ∧
    (∃ s, Reached (Session.step letters) (fun s e => s.Honest letters e) blank s ∧ s.CaughtUp ∧
      s.writer.store = [97] ∧ s.replica.store = []) := by
  have hconnect : ∀ s : Session Bytes, s.Honest letters (.connect {} []) := fun _ => ⟨fun _ => rfl, fun h => absurd rfl h⟩
  refine ⟨⟨_, .run .start earlyReplica ⟨hconnect _, trivial, trivial, trivial, trivial⟩ rfl,
    ⟨rfl, 0, rfl, le_rfl⟩, rfl, rfl⟩, ?_, ?_⟩
  · exact ⟨_, .run .start (earlyReplica ++ evictingWrite) ⟨hconnect _, trivial, trivial, trivial, trivial, trivial,
      trivial, trivial, trivial, trivial, trivial⟩ rfl, ⟨rfl, 2, rfl, le_rfl⟩, rfl, rfl⟩
  · exact ⟨_, .run .start (earlyReplica ++ unloggedWrite)
      ⟨hconnect _, trivial, trivial, trivial, trivial, trivial⟩ rfl, ⟨rfl, 0, rfl, le_rfl⟩, rfl, rfl⟩

end Kevy.Replicate
