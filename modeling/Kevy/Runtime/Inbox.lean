import Kevy.Lib.Mesh
import Mathlib.Data.Finset.Basic

/-!
# Messages between shards

A shard pushes a message into the ring to its target, or behind the backlog it keeps for that target when the ring was
full, and then sets its bit in the target's bitmap. The target swaps its bitmap to zero and walks the rings of the bits
it found, up to a budget for each. A bitmap is the set of its bits, and a walk over one takes them in any order.
-/

namespace Kevy.Runtime

open Kevy.Lib Function List

/-- Where a shard is in `send_to` or `flush_backlog_slow`. -/
inductive Sending
  | idle
  | announcing (dst : Nat)
  | walking (mask : Finset Nat)
  | pushing (mask : Finset Nat) (dst : Nat) (landed : Bool)
  | settling (mask : Finset Nat) (dst : Nat) (landed : Bool)

/-- Where a shard is in `drain_inbound_core_slow`. -/
inductive Receiving
  | idle
  | walking (mask : Finset Nat)
  | popping (mask : Finset Nat) (src : Nat) (did : Nat)
  | puttingBack (mask : Finset Nat) (src : Nat)

/-- The shards; `sent` and `received` are what `send_to` was given and what the drains have popped. -/
structure Shards (α : Type) where
  ring : Mesh α := .empty
  backlog : Mesh α := .empty
  sent : Mesh α := .empty
  received : Mesh α := .empty
  backlogNonempty : Nat → Finset Nat := fun _ => ∅
  inboundDirty : Nat → Finset Nat := fun _ => ∅
  sender : Nat → Sending := fun _ => .idle
  receiver : Nat → Receiving := fun _ => .idle

def drainSrcBudget : Nat := 2048

variable {α : Type}

namespace Shards

def at_ (s : Shards α) (me : Nat) (x : Sending) : Shards α := { s with sender := update s.sender me x }

def recv (s : Shards α) (me : Nat) (x : Receiving) : Shards α := { s with receiver := update s.receiver me x }

/-- `fetch_or` on the bitmap of `dst`. -/
def setDirty (s : Shards α) (dst src : Nat) : Shards α :=
  { s with inboundDirty := update s.inboundDirty dst (insert src (s.inboundDirty dst)) }

/-- What the walk of `flush_backlog_slow` does with a target behind the pushes. -/
def settle (s : Shards α) (me dst : Nat) (landed : Bool) : Shards α :=
  { s with
    inboundDirty := if landed then (s.setDirty dst me).inboundDirty else s.inboundDirty
    backlogNonempty := if s.backlog me dst = [] then
      update s.backlogNonempty me ((s.backlogNonempty me).erase dst) else s.backlogNonempty }

/-- `send_to` up to its `fetch_or`. -/
def enqueue (cap : Nat → Nat → Nat) (s : Shards α) (me dst : Nat) (msg : α) : Shards α :=
  if dst ∈ s.backlogNonempty me then { s with backlog := s.backlog.send me dst msg }
  else if (s.ring me dst).length < cap me dst then { s with ring := s.ring.send me dst msg }
  else { s with
    backlog := s.backlog.send me dst msg
    backlogNonempty := update s.backlogNonempty me (insert dst (s.backlogNonempty me)) }

/-- One step of the shard `me`. `cap` is the capacity of the rings, and `weight` how much a message counts against the
budget: a batch counts its requests. A shard has no ring to itself. -/
inductive Step (cap : Nat → Nat → Nat) (weight : α → Nat) (s : Shards α) : Shards α → Prop
  | sendTo {me dst : Nat} (msg : α) (hat : s.sender me = .idle) (hne : me ≠ dst) : Step cap weight s
      ({ s.enqueue cap me dst msg with sent := s.sent.send me dst msg }.at_ me (.announcing dst))
  | announce {me dst : Nat} (hat : s.sender me = .announcing dst) : Step cap weight s ((s.setDirty dst me).at_ me .idle)
  | flushBacklog {me : Nat} (hat : s.sender me = .idle) : Step cap weight s (s.at_ me (.walking (s.backlogNonempty me)))
  | target {me dst : Nat} {mask : Finset Nat} (hat : s.sender me = .walking mask) (hdst : dst ∈ mask) :
      Step cap weight s (s.at_ me (.pushing (mask.erase dst) dst false))
  | flushed {me : Nat} (hat : s.sender me = .walking ∅) : Step cap weight s (s.at_ me .idle)
  | landed {me dst : Nat} {mask : Finset Nat} {landed : Bool} {msg : α} {rest : List α}
      (hat : s.sender me = .pushing mask dst landed) (hmsg : s.backlog me dst = msg :: rest)
      (hroom : (s.ring me dst).length < cap me dst) : Step cap weight s
      ({ s with ring := s.ring.send me dst msg, backlog := s.backlog.pop me dst }.at_ me (.pushing mask dst true))
  | stopped {me dst : Nat} {mask : Finset Nat} {landed : Bool} (hat : s.sender me = .pushing mask dst landed)
      (hfull : s.backlog me dst ≠ [] → cap me dst ≤ (s.ring me dst).length) :
      Step cap weight s (s.at_ me (.settling mask dst landed))
  | settled {me dst : Nat} {mask : Finset Nat} {landed : Bool} (hat : s.sender me = .settling mask dst landed) :
      Step cap weight s ((s.settle me dst landed).at_ me (.walking mask))
  | swap {me : Nat} (hat : s.receiver me = .idle) : Step cap weight s
      ({ s with inboundDirty := update s.inboundDirty me ∅ }.recv me (.walking (s.inboundDirty me)))
  | source {me src : Nat} {mask : Finset Nat} (hat : s.receiver me = .walking mask) (hsrc : src ∈ mask) :
      Step cap weight s (s.recv me (.popping (mask.erase src) src 0))
  | drained {me : Nat} (hat : s.receiver me = .walking ∅) : Step cap weight s (s.recv me .idle)
  | popped {me src did : Nat} {mask : Finset Nat} {msg : α} {rest : List α}
      (hat : s.receiver me = .popping mask src did) (hmsg : s.ring src me = msg :: rest) : Step cap weight s
      ({ s with ring := s.ring.pop src me, received := s.received.send src me msg }.recv me
        (if did + weight msg ≥ drainSrcBudget then .puttingBack mask src else .popping mask src (did + weight msg)))
  | emptied {me src did : Nat} {mask : Finset Nat} (hat : s.receiver me = .popping mask src did)
      (hring : s.ring src me = []) : Step cap weight s (s.recv me (.walking mask))
  | putBack {me src : Nat} {mask : Finset Nat} (hat : s.receiver me = .puttingBack mask src) :
      Step cap weight s ((s.setDirty me src).recv me (.walking mask))

end Shards

/-! ## What holds of every link -/

/-- The shard is about to set its bit at `dst`, for a message it pushed. -/
def Sending.Announces : Sending → Nat → Prop
  | .announcing dst, j => dst = j
  | .pushing _ dst landed, j | .settling _ dst landed, j => dst = j ∧ landed
  | _, _ => False

/-- The drain under way is at the ring of the source, or will come to it. -/
def Receiving.Drains : Receiving → Nat → Prop
  | .walking mask, i => i ∈ mask
  | .popping mask src _, i | .puttingBack mask src, i => i = src ∨ i ∈ mask
  | .idle, _ => False

namespace Shards

structure Inv (s : Shards α) : Prop where
  order : ∀ i j, s.received i j ++ (s.ring i j ++ s.backlog i j) = s.sent i j
  queued : ∀ i j, s.backlog i j ≠ [] → j ∈ s.backlogNonempty i
  seen : ∀ i j, s.ring i j ≠ [] → i ∈ s.inboundDirty j ∨ (s.receiver j).Drains i ∨ (s.sender i).Announces j

variable {cap : Nat → Nat → Nat} {weight : α → Nat} {s s' : Shards α} {me : Nat}

/-- A step of the sender `me` to `x`: what it pushes it is about to announce, and it drops no announcement unmade. -/
theorem Inv.seen_sender (h : Inv s) {x : Sending} (hs : s'.sender = update s.sender me x)
    (hr : s'.receiver = s.receiver) (hd : ∀ j, s.inboundDirty j ⊆ s'.inboundDirty j)
    (hring : ∀ i j, s'.ring i j ≠ [] → s.ring i j ≠ [] ∨ i = me ∧ x.Announces j)
    (hx : ∀ j, (s.sender me).Announces j → me ∈ s'.inboundDirty j ∨ x.Announces j) (i j : Nat) (hne : s'.ring i j ≠ []) :
    i ∈ s'.inboundDirty j ∨ (s'.receiver j).Drains i ∨ (s'.sender i).Announces j := by
  rw [hs, hr]
  rcases hring i j hne with hne | ⟨rfl, hpushed⟩
  · rcases h.seen i j hne with hdirty | hdrains | hannounces
    · exact .inl (hd j hdirty)
    · exact .inr (.inl hdrains)
    · by_cases heq : i = me
      · subst heq
        rw [update_self]
        exact (hx j hannounces).imp_right .inr
      · rw [update_of_ne heq]
        exact .inr (.inr hannounces)
  · rw [update_self]
    exact .inr (.inr hpushed)

/-- A step of the receiver `me` to `x`: it stays with every source of its walk until the ring is empty or the bit back. -/
theorem Inv.seen_receiver (h : Inv s) {x : Receiving} (hs : s'.sender = s.sender)
    (hr : s'.receiver = update s.receiver me x) (hd : ∀ j, j ≠ me → s'.inboundDirty j = s.inboundDirty j)
    (hring : ∀ i j, s'.ring i j ≠ [] → s.ring i j ≠ [])
    (hx : ∀ i, s'.ring i me ≠ [] → i ∈ s.inboundDirty me ∨ (s.receiver me).Drains i →
      i ∈ s'.inboundDirty me ∨ x.Drains i) (i j : Nat) (hne : s'.ring i j ≠ []) :
    i ∈ s'.inboundDirty j ∨ (s'.receiver j).Drains i ∨ (s'.sender i).Announces j := by
  rw [hs, hr]
  rcases or_assoc.mpr (h.seen i j (hring i j hne)) with hbit | hannounces
  · by_cases heq : j = me
    · subst heq
      rw [update_self]
      exact (hx i hne hbit).imp_right .inl
    · rw [update_of_ne heq, hd j heq]
      exact hbit.imp_right .inl
  · exact .inr (.inr hannounces)

theorem mem_update_insert {f : Nat → Finset Nat} {a b i j : Nat} :
    i ∈ update f a (insert b (f a)) j ↔ i ∈ f j ∨ j = a ∧ i = b := by
  by_cases heq : j = a
  · subst heq
    simp [or_comm]
  · simp [heq]

theorem Inv.spilled (h : Inv s) (hat : s.sender me = .idle) {dst : Nat} {bits : Nat → Finset Nat}
    (hbits : ∀ i, s.backlogNonempty i ⊆ bits i) (hdst : dst ∈ bits me) (msg : α) : Inv ({ s with
      backlog := s.backlog.send me dst msg
      backlogNonempty := bits
      sent := s.sent.send me dst msg }.at_ me (.announcing dst)) where
  order i j := by
    show s.received i j ++ (s.ring i j ++ s.backlog.send me dst msg i j) = s.sent.send me dst msg i j
    unfold Mesh.send
    split_ifs
    · rw [← h.order, append_assoc, append_assoc]
    · exact h.order i j
  queued i j := by
    show s.backlog.send me dst msg i j ≠ [] → j ∈ bits i
    unfold Mesh.send
    split_ifs with hij
    · exact fun _ => hij.1 ▸ hij.2 ▸ hdst
    · exact fun hne => hbits i (h.queued i j hne)
  seen := h.seen_sender rfl rfl (fun _ _ hi => hi) (fun _ _ => .inl) (by rw [hat]; nofun)

theorem Inv.pushed (h : Inv s) {dst : Nat} {x : Sending} {msg : α} {backlog sent : Mesh α}
    (horder : ∀ i j, s.received i j ++ (s.ring.send me dst msg i j ++ backlog i j) = sent i j)
    (hqueued : ∀ i j, backlog i j ≠ [] → s.backlog i j ≠ []) (hx : ∀ j, (s.sender me).Announces j → x.Announces j)
    (hdst : x.Announces dst) :
    Inv ({ s with ring := s.ring.send me dst msg, backlog := backlog, sent := sent }.at_ me x) where
  order := horder
  queued i j hne := h.queued i j (hqueued i j hne)
  seen := by
    refine h.seen_sender rfl rfl (fun _ _ hi => hi) (fun i j hne => ?_) fun j hj => .inr (hx j hj)
    change s.ring.send me dst msg i j ≠ [] at hne
    unfold Mesh.send at hne
    split_ifs at hne with hij
    · exact .inr ⟨hij.1, hij.2 ▸ hdst⟩
    · exact .inl hne

theorem Inv.sendTo (h : Inv s) (hat : s.sender me = .idle) (dst : Nat) (msg : α) : Inv
    ({ s.enqueue cap me dst msg with sent := s.sent.send me dst msg }.at_ me (.announcing dst)) := by
  unfold enqueue
  split_ifs with hbit hroom
  · exact h.spilled hat (fun _ _ hj => hj) hbit msg
  · have hnil : s.backlog me dst = [] := by_contra fun hne => hbit (h.queued me dst hne)
    refine h.pushed (fun i j => ?_) (fun _ _ hne => hne) (by rw [hat]; nofun) rfl
    unfold Mesh.send
    split_ifs with hij
    · rw [hij.1, hij.2, ← h.order, hnil, append_nil, append_nil, append_assoc]
    · exact h.order i j
  · exact h.spilled hat (fun _ _ hj => mem_update_insert.mpr (.inl hj)) (mem_update_insert.mpr (.inr ⟨rfl, rfl⟩)) msg

theorem Inv.settled (h : Inv s) {dst : Nat} {mask : Finset Nat} {landed : Bool}
    (hat : s.sender me = .settling mask dst landed) : Inv ((s.settle me dst landed).at_ me (.walking mask)) where
  order := h.order
  queued i j hne := by
    have hj := h.queued i j hne
    show j ∈ (if s.backlog me dst = [] then update s.backlogNonempty me _ else s.backlogNonempty) i
    split_ifs with hnil
    · by_cases hi : i = me
      · subst hi
        rw [update_self]
        exact Finset.mem_erase_of_ne_of_mem (fun hjd => hne (hjd ▸ hnil)) hj
      · rwa [update_of_ne hi]
    · exact hj
  seen := by
    have hdirty : ∀ i j, i ∈ (s.settle me dst landed).inboundDirty j ↔
        i ∈ s.inboundDirty j ∨ landed ∧ j = dst ∧ i = me := by
      intro i j
      cases landed with
      | false => simp [settle]
      | true =>
        simp only [true_and]
        exact mem_update_insert
    refine h.seen_sender rfl rfl (fun j i hi => (hdirty i j).mpr (.inl hi)) (fun _ _ => .inl) ?_
    rw [hat]
    exact fun j hj => .inl ((hdirty me j).mpr (.inr ⟨hj.2, hj.1.symm, rfl⟩))

theorem Inv.step (h : Inv s) (hs : Step cap weight s s') : Inv s' := by
  cases hs with
  | sendTo msg hat hne => exact h.sendTo hat _ msg
  | announce hat =>
    refine ⟨h.order, h.queued, h.seen_sender rfl rfl (fun _ _ hi => mem_update_insert.mpr (.inl hi)) (fun _ _ => .inl) ?_⟩
    rw [hat]
    rintro j rfl
    exact .inl (mem_update_insert.mpr (.inr ⟨rfl, rfl⟩))
  | flushBacklog hat | flushed hat | target hat _ =>
    exact ⟨h.order, h.queued, h.seen_sender rfl rfl (fun _ _ hi => hi) (fun _ _ => .inl) (by rw [hat]; nofun)⟩
  | @landed me dst _ _ msg rest hat hmsg hroom =>
    refine h.pushed (fun i j => ?_) (fun i j hne hnil => hne ?_) (by rw [hat]; exact fun _ hj => ⟨hj.1, rfl⟩) ⟨rfl, rfl⟩
    · unfold Mesh.send Mesh.pop
      split_ifs with hij
      · rw [← h.order, hij.1, hij.2, hmsg, append_assoc]
        rfl
      · exact h.order i j
    · unfold Mesh.pop
      rw [hnil, tail_nil, ite_self]
  | stopped hat _ =>
    refine ⟨h.order, h.queued, h.seen_sender rfl rfl (fun _ _ hi => hi) (fun _ _ => .inl) ?_⟩
    rw [hat]
    exact fun _ => .inr
  | settled hat => exact h.settled hat
  | swap hat =>
    refine ⟨h.order, h.queued, h.seen_receiver rfl rfl (fun j hj => update_of_ne hj _ _) (fun _ _ hne => hne) ?_⟩
    rw [hat]
    rintro i - (hi | hi)
    · exact .inr hi
    · cases hi
  | source hat hsrc =>
    refine ⟨h.order, h.queued, h.seen_receiver rfl rfl (fun _ _ => rfl) (fun _ _ hne => hne) fun i _ hi => hi.imp_right ?_⟩
    rw [hat]
    intro hi
    exact (eq_or_ne i _).imp_right fun hne => Finset.mem_erase_of_ne_of_mem hne hi
  | drained hat =>
    refine ⟨h.order, h.queued, h.seen_receiver rfl rfl (fun _ _ => rfl) (fun _ _ hne => hne) fun i _ hi => hi.imp_right ?_⟩
    rw [hat]
    exact fun hi => absurd hi (Finset.notMem_empty i)
  | @popped me src did mask msg rest hat hmsg =>
    refine ⟨fun i j => ?_, h.queued, h.seen_receiver rfl rfl (fun _ _ => rfl) (fun i j hne hnil => hne ?_)
      fun i _ hi => hi.imp_right ?_⟩
    · show s.received.send src me msg i j ++ (s.ring.pop src me i j ++ s.backlog i j) = s.sent i j
      unfold Mesh.send Mesh.pop
      split_ifs with hij
      · rw [← h.order, hij.1, hij.2, hmsg, append_assoc]
        rfl
      · exact h.order i j
    · show s.ring.pop src me i j = []
      unfold Mesh.pop
      rw [hnil, tail_nil, ite_self]
    · rw [hat]
      split_ifs <;> exact fun hi => hi
  | emptied hat hring =>
    refine ⟨h.order, h.queued, h.seen_receiver rfl rfl (fun _ _ => rfl) (fun _ _ hne => hne) fun i hne hi => hi.imp_right ?_⟩
    rw [hat]
    rintro (rfl | hi)
    · exact absurd hring hne
    · exact hi
  | @putBack me src mask hat =>
    refine ⟨h.order, h.queued, h.seen_receiver rfl rfl (fun j hj => update_of_ne hj _ _) (fun _ _ hne => hne) ?_⟩
    rw [hat]
    rintro i - (hi | rfl | hi)
    · exact .inl (mem_update_insert.mpr (.inl hi))
    · exact .inl (mem_update_insert.mpr (.inr ⟨rfl, rfl⟩))
    · exact .inr hi

end Shards

end Kevy.Runtime
