import Kevy.Elect.Elector
import Kevy.Lib.Ballot

/-!
# One primary for each epoch

An epoch is a round of votes: a node votes for itself when it stands, and for the candidate whose offer it
grants. A node only votes above its own epoch and saves the epoch before the vote leaves, so it votes once
in each. What breaks election safety is that a node which grants an offer keeps its role and takes the
new epoch: a primary, or a candidate that has its majority already, then holds an office in an epoch it
was never elected in. Runs in which that does not happen have one primary for each epoch
(`no_two_primaries`).
-/

namespace Kevy.Elect

open Kevy.Lib Kevy.Resp List

/-! ## The invariant -/

section Inv

variable (peers : List NodeId) (boot : Option NodeId) (votes : Votes NodeId)

/-- What holds of node `n`. -/
structure NodeInv (n : NodeId) (e : Elector) : Prop where
  nodeId : e.nodeId = n
  peerIds : e.peerIds = peers
  saved : e.epoch = max 1 e.persist.1
  /-- No vote was cast above the epoch. -/
  future : ∀ k, e.epoch < k → votes n k = none
  /-- A candidate stands in its epoch and counts its votes there, or it has gone on to an epoch where it
  voted for another, with too few votes. -/
  candidate : e.role = .candidate →
    (votes n e.epoch = some n ∧ ∀ m ∈ e.acceptVotes, votes m e.epoch = some n) ∨
    (votes n e.epoch ≠ some n ∧ e.acceptVotes.card < e.quorumSize)
  primary : e.role = .primary → (e.epoch = 1 ∧ boot = some n) ∨ votes.Elected peers.toFinset e.epoch n

def MessageInv (epochOf : NodeId → Nat) (env : Envelope) : Prop :=
  match env.msg with
  | .hb k _ _ _ => k ≤ epochOf env.sender
  | .offer k candidate _ => votes candidate k = some candidate
  | .accept k accepter => votes accepter k = some env.receiver ∧
      votes env.receiver k = some env.receiver
  | .announce k primary _ => votes.Elected peers.toFinset k primary

/-- The invariant of a run, for the votes cast so far. -/
structure Inv (c : Cluster) : Prop where
  peers_eq : c.peers = peers
  nodup : peers.Nodup
  voter : ∀ n k m, votes n k = some m → n ∈ peers ∧ 2 ≤ k
  node : ∀ n ∈ peers, NodeInv peers boot votes n (c.node n)
  message : ∀ env ∈ c.sent, MessageInv peers votes (fun n => (c.node n).epoch) env

end Inv

section Rules

variable {peers : List NodeId} {boot : Option NodeId} {votes votes' : Votes NodeId} {c : Cluster}
  {n : NodeId} {e e' : Elector} {out : List Outbound}

theorem MessageInv.mono {epochOf epochOf' : NodeId → Nat} {env : Envelope}
    (hext : Votes.Extends votes votes') (hle : ∀ m, epochOf m ≤ epochOf' m)
    (h : MessageInv peers votes epochOf env) : MessageInv peers votes' epochOf' env := by
  unfold MessageInv at h ⊢
  cases hm : env.msg with
  | hb k _ _ _ =>
    rw [hm] at h
    exact Nat.le_trans h (hle env.sender)
  | offer k candidate _ =>
    rw [hm] at h
    exact hext _ _ _ h
  | accept k accepter =>
    rw [hm] at h
    exact ⟨hext _ _ _ h.1, hext _ _ _ h.2⟩
  | announce k primary _ =>
    rw [hm] at h
    exact Votes.Elected.mono hext h

theorem NodeInv.mono (hext : Votes.Extends votes votes') (hrow : ∀ k, votes' n k = votes n k)
    (h : NodeInv peers boot votes n e) : NodeInv peers boot votes' n e where
  nodeId := h.nodeId
  peerIds := h.peerIds
  saved := h.saved
  future k hk := (hrow k).trans (h.future k hk)
  candidate hrole := by
    rcases h.candidate hrole with ⟨hself, hvotes⟩ | ⟨hself, hfew⟩
    · exact .inl ⟨hext _ _ _ hself, fun m hm => hext _ _ _ (hvotes m hm)⟩
    · exact .inr ⟨by rwa [hrow], hfew⟩
  primary hrole := (h.primary hrole).imp_right (Votes.Elected.mono hext)

theorem mem_envelopes {env : Envelope} (h : env ∈ envelopes peers n out) :
    env.sender = n ∧ ∃ o ∈ out, env.msg = o.msg ∧ ∀ id, o.recipient = .node id → env.receiver = id := by
  obtain ⟨o, ho, henv⟩ := mem_flatMap.mp h
  cases hr : o.recipient with
  | node id =>
    rw [hr] at henv
    rw [mem_singleton.mp henv]
    exact ⟨rfl, o, ho, rfl, fun id' h' => by rw [hr] at h'; cases h'; rfl⟩
  | broadcast =>
    rw [hr] at henv
    obtain ⟨id, _, rfl⟩ := List.mem_map.mp henv
    exact ⟨rfl, o, ho, rfl, fun id' h' => by rw [hr] at h'; cases h'⟩

/-- **One node moves.** It casts its votes, goes to a state that meets the invariant and sends messages that
do; everything else stays as it was. -/
theorem Inv.act (h : Inv peers boot votes c) (hext : Votes.Extends votes votes')
    (hrow : ∀ m, m ≠ n → ∀ k, votes' m k = votes m k) (hvoter : ∀ m k x, votes' m k = some x → m ∈ peers ∧ 2 ≤ k)
    (hnode : NodeInv peers boot votes' n e') (hepoch : (c.node n).epoch ≤ e'.epoch)
    (hout : ∀ env ∈ envelopes peers n out,
      MessageInv peers votes' (fun m => if m = n then e'.epoch else (c.node m).epoch) env) :
    Inv peers boot votes' (c.act n (e', out)) where
  peers_eq := h.peers_eq
  nodup := h.nodup
  voter := hvoter
  node m hm := by
    by_cases hmn : m = n
    · subst hmn
      simpa [Cluster.act] using hnode
    · simpa [Cluster.act, hmn] using (h.node m hm).mono hext (hrow m hmn)
  message env henv := by
    have hepochs : (fun m => ((c.act n (e', out)).node m).epoch) =
        fun m => if m = n then e'.epoch else (c.node m).epoch := by
      funext m
      by_cases hmn : m = n <;> simp [Cluster.act, hmn]
    rw [hepochs]
    rcases mem_append.mp henv with hold | hnew
    · refine (h.message env hold).mono hext fun m => ?_
      by_cases hmn : m = n
      · rw [hmn, if_pos rfl]
        exact hepoch
      · rw [if_neg hmn]
    · rw [h.peers_eq] at hnew
      exact hout env hnew

theorem Inv.act_quiet (h : Inv peers boot votes c) (hnode : NodeInv peers boot votes n e')
    (hepoch : (c.node n).epoch ≤ e'.epoch) (hout : ∀ env ∈ envelopes peers n out,
      MessageInv peers votes (fun m => if m = n then e'.epoch else (c.node m).epoch) env) :
    Inv peers boot votes (c.act n (e', out)) :=
  h.act (Votes.Extends.refl votes) (fun _ _ _ => rfl) h.voter hnode hepoch hout

theorem Inv.act_silent (h : Inv peers boot votes c) (hnode : NodeInv peers boot votes n e')
    (hepoch : (c.node n).epoch ≤ e'.epoch) : Inv peers boot votes (c.act n (e', [])) :=
  h.act_quiet hnode hepoch (by simp [envelopes])

theorem Inv.act_cast (h : Inv peers boot votes c) (hn : n ∈ peers) {k : Nat} {m : NodeId} (hlt : (c.node n).epoch < k)
    (htwo : 2 ≤ k) (hepoch : e'.epoch = k) (hnode : NodeInv peers boot (votes.cast n k m) n e')
    (hout : ∀ env ∈ envelopes peers n out,
      MessageInv peers (votes.cast n k m) (fun m => if m = n then e'.epoch else (c.node m).epoch) env) :
    Inv peers boot (votes.cast n k m) (c.act n (e', out)) := by
  refine h.act (Votes.extends_cast m ((h.node n hn).future _ hlt)) (fun _ hm j => votes.cast_other _ _ hm j)
    (fun p k' x hx => ?_) hnode (by omega) hout
  by_cases hcast : p = n ∧ k' = k
  · obtain ⟨rfl, rfl⟩ := hcast
    exact ⟨hn, htwo⟩
  · rw [Votes.cast, if_neg hcast] at hx
    exact h.voter p k' x hx

theorem NodeInv.future_cast (h : NodeInv peers boot votes n e) {k : Nat} (hlt : e.epoch < k) (m : NodeId) (j : Nat)
    (hj : k < j) : votes.cast n k m n j = none := by
  rw [votes.cast_later _ _ _ (Nat.ne_of_gt hj)]
  exact h.future j (hlt.trans hj)

theorem act_act (c : Cluster) (n : NodeId) (e1 e2 : Elector) (out1 out2 : List Outbound) :
    (c.act n (e1, out1)).act n (e2, out2) = c.act n (e2, out1 ++ out2) := by
  unfold Cluster.act
  simp only [envelopes, flatMap_append, append_assoc, Cluster.mk.injEq, true_and, and_true]
  funext m
  by_cases hmn : m = n <;> simp [hmn]

theorem NodeInv.congr (h : NodeInv peers boot votes n e) (hid : e'.nodeId = e.nodeId)
    (hpeers : e'.peerIds = e.peerIds) (hrole : e'.role = e.role) (hepoch : e'.epoch = e.epoch)
    (hvotes : e'.acceptVotes = e.acceptVotes) (hsaved : e'.persist = e.persist) : NodeInv peers boot votes n e' where
  nodeId := hid.trans h.nodeId
  peerIds := hpeers.trans h.peerIds
  saved := by rw [hepoch, hsaved, h.saved]
  future := by rw [hepoch]; exact h.future
  candidate := by
    have hquorum : e'.quorumSize = e.quorumSize := by rw [Elector.quorumSize, hpeers, Elector.quorumSize]
    rw [hrole, hepoch, hvotes, hquorum]
    exact h.candidate
  primary := by rw [hrole, hepoch]; exact h.primary

@[simp] theorem act_node_self (c : Cluster) (n : NodeId) (r : Elector × List Outbound) : (c.act n r).node n = r.1 := by
  simp [Cluster.act]

/-! ## Ticks -/

theorem emitHeartbeats_spec (e : Elector) (now : Nat) :
    (∃ sent, (e.emitHeartbeats now).1 = { e with lastHbSent := sent }) ∧
    ∀ o ∈ (e.emitHeartbeats now).2, ∃ id role offset, o.msg = .hb e.epoch id role offset := by
  -- the loop over any list of peers, from any state that differs in the schedule alone
  have hloop : ∀ (ps : List NodeId) (acc : Elector × List Outbound),
      (∃ sent, acc.1 = { e with lastHbSent := sent }) →
      (∀ o ∈ acc.2, ∃ id role offset, o.msg = .hb e.epoch id role offset) →
      (∃ sent, (ps.foldl (Elector.emitHeartbeat now) acc).1 = { e with lastHbSent := sent }) ∧
      ∀ o ∈ (ps.foldl (Elector.emitHeartbeat now) acc).2, ∃ id role offset, o.msg = .hb e.epoch id role offset := by
    intro ps
    induction ps with
    | nil => intro acc h1 h2; exact ⟨h1, h2⟩
    | cons peer ps ih =>
      intro acc h1 h2
      obtain ⟨e1, out⟩ := acc
      obtain ⟨sent, rfl⟩ := h1
      rw [foldl_cons]
      unfold Elector.emitHeartbeat
      simp only
      split_ifs
      · exact ih _ ⟨sent, rfl⟩ h2
      · refine ih _ ⟨_, rfl⟩ fun o ho => ?_
        rcases mem_append.mp ho with ho | ho
        · exact h2 o ho
        · rw [mem_singleton.mp ho]
          exact ⟨_, _, _, rfl⟩
      · exact ih _ ⟨sent, rfl⟩ h2
  exact hloop e.peerIds (e, []) ⟨e.lastHbSent, rfl⟩ nofun

theorem Inv.emitHeartbeats (h : Inv peers boot votes c) (hn : n ∈ peers) (he : c.node n = e)
    (now : Nat) : Inv peers boot votes (c.act n (e.emitHeartbeats now)) := by
  obtain ⟨⟨sent, hstate⟩, hout⟩ := emitHeartbeats_spec e now
  have hnode := h.node n hn
  rw [he] at hnode
  generalize e.emitHeartbeats now = r at *
  obtain ⟨e1, out⟩ := r
  change e1 = _ at hstate
  refine h.act_quiet ?_ ?_ fun env henv => ?_
  · rw [hstate]
    exact hnode.congr rfl rfl rfl rfl rfl rfl
  · rw [he, hstate]
  · obtain ⟨hsender, o, ho, hmsg, _⟩ := mem_envelopes henv
    obtain ⟨id, role, offset, hhb⟩ := hout o ho
    unfold MessageInv
    rw [hmsg, hhb]
    simp [hsender, hstate]

theorem Inv.maybeStartElection (h : Inv peers boot votes c) (hn : n ∈ peers) (he : c.node n = e)
    (hmax : e.epoch < u64Max) (now : Nat) :
    ∃ votes', Inv peers boot votes' (c.act n (e.maybeStartElection now)) := by
  have hnode := h.node n hn
  rw [he] at hnode
  have hone : 1 ≤ e.epoch := by rw [hnode.saved]; omega
  unfold Elector.maybeStartElection
  by_cases hpre : e.electionPreconditionsMet now = true
  · have hsucc : saturatingSucc e.epoch = e.epoch + 1 := by
      unfold saturatingSucc
      omega
    rw [if_pos hpre]
    simp only [hsucc]
    refine ⟨votes.cast n (e.epoch + 1) n, h.act_cast hn ?_ ?_ rfl ?_ ?_⟩
    · rw [he]
      exact Nat.lt_succ_self _
    · omega
    · refine ⟨hnode.nodeId, hnode.peerIds, ?_, hnode.future_cast (Nat.lt_succ_self _) n, fun _ => .inl ⟨votes.cast_self _ _ _, fun m hm => ?_⟩, nofun⟩
      · show e.epoch + 1 = max 1 (e.epoch + 1)
        omega
      · rw [Finset.mem_singleton.mp hm, hnode.nodeId]
        exact votes.cast_self _ _ _
    · intro env henv
      obtain ⟨_, o, ho, hmsg, _⟩ := mem_envelopes henv
      rw [mem_singleton.mp ho] at hmsg
      unfold MessageInv
      rw [hmsg]
      simp only [hnode.nodeId]
      exact votes.cast_self _ _ _
  · rw [if_neg hpre]
    exact ⟨votes, h.act_silent hnode (by rw [he])⟩

theorem NodeInv.elected (h : NodeInv peers boot votes n e) (hpeers : peers.Nodup)
    (hvoter : ∀ n k m, votes n k = some m → n ∈ peers ∧ 2 ≤ k) (hrole : e.role = .candidate)
    (hquorum : e.quorumSize ≤ e.acceptVotes.card) : votes.Elected peers.toFinset e.epoch n := by
  rcases h.candidate hrole with ⟨_, hvotes⟩ | ⟨_, hfew⟩
  · refine ⟨e.acceptVotes, ?_, ?_, hvotes⟩
    · intro m hm
      exact List.mem_toFinset.mpr (hvoter m _ _ (hvotes m hm)).1
    · rw [toFinset_card_of_nodup hpeers]
      rw [Elector.quorumSize, h.peerIds] at hquorum
      omega
  · omega

theorem Inv.maybeFinishCandidacy (h : Inv peers boot votes c) (hn : n ∈ peers) (he : c.node n = e)
    (now : Nat) : Inv peers boot votes (c.act n (e.maybeFinishCandidacy now)) := by
  have hnode := h.node n hn
  rw [he] at hnode
  have hsame : Inv peers boot votes (c.act n (e, [])) :=
    h.act_silent hnode (by rw [he])
  unfold Elector.maybeFinishCandidacy
  by_cases hrole : e.role = .candidate
  · rw [if_neg (not_not.mpr hrole)]
    cases e.offerAt with
    | none => exact hsame
    | some offerAt =>
      simp only
      split_ifs with hquorum htimeout
      · -- won
        have helected := hnode.elected h.nodup h.voter hrole hquorum
        refine h.act_quiet ?_ (by rw [he]) fun env henv => ?_
        · exact { hnode with candidate := nofun, primary := fun _ => .inr helected }
        · obtain ⟨_, o, ho, hmsg, _⟩ := mem_envelopes henv
          rw [mem_singleton.mp ho] at hmsg
          unfold MessageInv
          rw [hmsg]
          simp only [hnode.nodeId]
          exact helected
      · -- timed out
        exact h.act_silent { hnode with candidate := nofun, primary := nofun } (by rw [he])
      · exact hsame
  · rw [if_pos hrole]
    exact hsame

theorem Inv.tick (h : Inv peers boot votes c) (hn : n ∈ peers) (hmax : (c.node n).epoch < u64Max)
    (now : Nat) : ∃ votes', Inv peers boot votes' (c.act n ((c.node n).tick now)) := by
  obtain ⟨e0, hstart, hepoch⟩ : ∃ e0, Inv peers boot votes (c.act n (e0, [])) ∧
      e0.epoch = (c.node n).epoch ∧ (c.node n).tick now = let r1 := e0.emitHeartbeats now
        let r2 := r1.1.maybeStartElection now
        let r3 := r2.1.maybeFinishCandidacy now
        (r3.1, r1.2 ++ r2.2 ++ r3.2) := by
    refine ⟨_, ?_, ?_, rfl⟩
    · refine h.act_silent ?_ ?_
      · split_ifs
        · exact (h.node n hn).congr rfl rfl rfl rfl rfl rfl
        · exact h.node n hn
      · split_ifs <;> exact le_rfl
    · split_ifs <;> rfl
  obtain ⟨hepoch, htick⟩ := hepoch
  obtain ⟨⟨sent, hstate⟩, _⟩ := emitHeartbeats_spec e0 now
  -- the four parts of a tick, one after the other
  have h1 := hstart.emitHeartbeats hn (act_node_self _ _ _) now
  have hmax1 : (e0.emitHeartbeats now).1.epoch < u64Max := by
    rw [hstate]
    exact hepoch ▸ hmax
  obtain ⟨votes', h2⟩ := h1.maybeStartElection hn (act_node_self _ _ _) hmax1 now
  have h3 := h2.maybeFinishCandidacy hn (act_node_self _ _ _) now
  refine ⟨votes', ?_⟩
  rw [act_act, act_act, act_act, nil_append] at h3
  rw [htick]
  simp only [append_assoc]
  exact h3

/-! ## Messages -/

theorem Inv.act_replica (h : Inv peers boot votes c) (hn : n ∈ peers) (hid : e'.nodeId = (c.node n).nodeId)
    (hpeers : e'.peerIds = (c.node n).peerIds) (hrole : e'.role = .replica) (hepoch : (c.node n).epoch ≤ e'.epoch)
    (hsaved : e'.epoch = max 1 e'.persist.1) : Inv peers boot votes (c.act n (e', [])) := by
  have hnode := h.node n hn
  refine h.act_silent ⟨hid.trans hnode.nodeId, hpeers.trans hnode.peerIds, hsaved, fun k hk => ?_, ?_, ?_⟩ hepoch
  · exact hnode.future k (by omega)
  · rw [hrole]
    exact nofun
  · rw [hrole]
    exact nofun

theorem followPrimaryHb_spec (e : Elector) (sender : NodeId) (k : Nat) :
    (e.followPrimaryHb sender k).nodeId = e.nodeId ∧ (e.followPrimaryHb sender k).peerIds = e.peerIds ∧
    (e.followPrimaryHb sender k).epoch = k ∧
    (e.followPrimaryHb sender k).persist = (if e.epoch < k then (k, none) else e.persist) ∧
    ((e.role = .primary → sender ≠ e.nodeId) → (e.followPrimaryHb sender k).role = .replica) := by
  unfold Elector.followPrimaryHb
  by_cases hk : e.epoch < k <;> cases hr : e.role <;> by_cases hs : sender = e.nodeId <;>
    simp [hk, hr, hs, Elector.save]

theorem Inv.onHb (h : Inv peers boot votes c) (hn : n ∈ peers) (sender : NodeId) (k : Nat)
    (role : Role) (offset now : Nat) (hsender : k ≤ (c.node sender).epoch) :
    Inv peers boot votes (c.act n ((c.node n).onHb sender k role offset now, [])) := by
  have hnode := h.node n hn
  have hself : sender = n → k ≤ (c.node n).epoch := by
    rintro rfl
    exact hsender
  have hseen : NodeInv peers boot votes n
      { c.node n with peerViews := insert (c.node n).peerViews sender ⟨now, k, role, offset⟩ } :=
    hnode.congr rfl rfl rfl rfl rfl rfl
  unfold Elector.onHb
  simp only
  split_ifs with hfollow
  · obtain ⟨_, hle, hor⟩ := hfollow
    have hother : (c.node n).role = .primary → sender ≠ (c.node n).nodeId := by
      intro hp heq
      have hk := hself (heq.trans hnode.nodeId)
      rcases hor with hlt | ⟨_, hrep⟩
      · omega
      · rw [hp] at hrep
        cases hrep
    obtain ⟨hid, hpeers, hepoch, hpersist, hrole⟩ := followPrimaryHb_spec
      { c.node n with peerViews := insert (c.node n).peerViews sender ⟨now, k, role, offset⟩ } sender k
    refine h.act_replica hn hid hpeers (hrole hother) ?_ ?_
    · rw [hepoch]
      exact hle
    · rw [hepoch, hpersist]
      split_ifs with hlt
      · show k = max 1 k
        omega
      · change (c.node n).epoch ≤ k at hle
        change ¬ (c.node n).epoch < k at hlt
        show k = max 1 (c.node n).persist.1
        rw [← hnode.saved]
        omega
  · exact h.act_silent hseen le_rfl

/-- The node holds an office, or has the votes for one: a vote for another would carry it into an epoch in
which it was not elected. -/
def Elector.inOffice (e : Elector) : Bool :=
  e.role = .primary ∨ (e.role = .candidate ∧ e.quorumSize ≤ e.acceptVotes.card)

theorem lt_of_grants {k offset : Nat} {candidate : NodeId} (h : e.grants k candidate offset = true) : e.epoch < k := by
  unfold Elector.grants at h
  by_contra hle
  rw [if_pos (by omega)] at h
  cases h

section Node

variable (h : Inv peers boot votes c) (hn : n ∈ peers)
include h hn

theorem Inv.onOffer (k : Nat) (candidate : NodeId) (offset : Nat) (hoffer : votes candidate k = some candidate)
    (hoffice : (c.node n).grants k candidate offset = true → (c.node n).inOffice = false) :
    ∃ votes', Inv peers boot votes' (c.act n ((c.node n).onOffer k candidate offset)) := by
  have hnode := h.node n hn
  unfold Elector.onOffer
  by_cases hgrant : (c.node n).grants k candidate offset = true
  · have hlt := lt_of_grants hgrant
    have hfree : ¬ ((c.node n).role = .primary ∨
        ((c.node n).role = .candidate ∧ (c.node n).quorumSize ≤ (c.node n).acceptVotes.card)) :=
      of_decide_eq_false (hoffice hgrant)
    have hnone : votes n k = none := hnode.future k hlt
    have hne : candidate ≠ n := by
      rintro rfl
      rw [hnone] at hoffer
      cases hoffer
    rw [if_pos hgrant]
    refine ⟨votes.cast n k candidate, h.act_cast hn hlt (h.voter candidate k candidate hoffer).2 rfl ?_ ?_⟩
    · refine ⟨hnode.nodeId, hnode.peerIds, ?_, hnode.future_cast hlt candidate, fun hrole => .inr ⟨?_, ?_⟩, fun hrole => absurd (.inl hrole) hfree⟩
      · show k = max 1 k
        omega
      · show votes.cast n k candidate n k ≠ some n
        rw [votes.cast_self]
        exact fun heq => hne (Option.some.inj heq)
      · -- a candidate that votes for another has too few votes, and gets no more
        by_contra hmany
        exact hfree (.inr ⟨hrole, Nat.le_of_not_lt hmany⟩)
    · intro env henv
      obtain ⟨_, o, ho, hmsg, hto⟩ := mem_envelopes henv
      rw [mem_singleton.mp ho] at hmsg hto
      have hreceiver := hto candidate rfl
      unfold MessageInv
      rw [hmsg, hreceiver]
      simp only [hnode.nodeId]
      exact ⟨votes.cast_self _ _ _, Votes.extends_cast candidate hnone _ _ _ hoffer⟩
  · rw [if_neg hgrant]
    exact ⟨votes, h.act_silent hnode le_rfl⟩

theorem Inv.onAccept (k : Nat) (accepter : NodeId) (haccept : votes accepter k = some n ∧ votes n k = some n) :
    Inv peers boot votes (c.act n ((c.node n).onAccept k accepter, [])) := by
  have hnode := h.node n hn
  unfold Elector.onAccept
  split_ifs with hignore
  · exact h.act_silent hnode le_rfl
  · rw [not_or, not_not, not_not] at hignore
    obtain ⟨hrole, rfl⟩ := hignore
    refine h.act_silent { hnode with candidate := fun _ => ?_, primary := fun hp => ?_ } le_rfl
    · rcases hnode.candidate hrole with ⟨hself, hvotes⟩ | ⟨hself, _⟩
      · refine .inl ⟨hself, fun m hm => ?_⟩
        rcases Finset.mem_insert.mp hm with rfl | hm
        · exact haccept.1
        · exact hvotes m hm
      · exact absurd haccept.2 hself
    · change (c.node n).role = .primary at hp
      rw [hrole] at hp
      cases hp

theorem Inv.onAnnounce (k : Nat) (primary : NodeId) (helected : votes.Elected peers.toFinset k primary) :
    Inv peers boot votes (c.act n ((c.node n).onAnnounce k primary, [])) := by
  have hnode := h.node n hn
  obtain ⟨m, _, hvote⟩ := helected.exists_vote
  have htwo := (h.voter m k primary hvote).2
  unfold Elector.onAnnounce
  split_ifs with hstale hlower hself
  · exact h.act_silent hnode le_rfl
  · exact h.act_silent hnode le_rfl
  · -- its own announcement
    refine h.act_silent ⟨hnode.nodeId, hnode.peerIds, ?_, fun j hj => ?_, nofun, fun _ => .inr ?_⟩ ?_
    · show k = max 1 k
      omega
    · change k < j at hj
      exact hnode.future j (by omega)
    · rw [hself, hnode.nodeId] at helected
      exact helected
    · show (c.node n).epoch ≤ k
      omega
  · refine h.act_replica hn rfl rfl rfl ?_ ?_
    · show (c.node n).epoch ≤ k
      omega
    · show k = max 1 k
      omega

theorem Inv.restart : Inv peers boot votes (c.act n ((c.node n).restart, [])) := by
  have hnode := h.node n hn
  have hsaved := hnode.saved
  unfold Elector.restart Elector.withPersist
  by_cases hpos : 0 < (c.node n).persist.1
  · rw [if_pos hpos]
    refine h.act_replica hn rfl rfl rfl ?_ rfl
    show (c.node n).epoch ≤ max 1 (c.node n).persist.1
    omega
  · rw [if_neg hpos]
    refine h.act_replica hn rfl rfl rfl ?_ ?_
    · show (c.node n).epoch ≤ 1
      omega
    · show 1 = max 1 (c.node n).persist.1
      omega

end Node

end Rules

/-! ## Runs -/

def grantsInOffice (c : Cluster) : Action → Bool
  | .deliver i _ =>
    match c.sent[i]? with
    | some ⟨_, n, .offer k candidate offset⟩ =>
      (c.node n).grants k candidate offset && (c.node n).inOffice
    | _ => false
  | _ => false

def EpochsBelow (c : Cluster) : Prop := ∀ n ∈ c.peers, (c.node n).epoch < u64Max

instance (c : Cluster) : Decidable (EpochsBelow c) :=
  inferInstanceAs (Decidable (∀ n ∈ c.peers, (c.node n).epoch < u64Max))

/-- The states of the runs in which no node grants an offer while in office. -/
inductive Reached (c₀ : Cluster) : Cluster → Prop
  | start : Reached c₀ c₀
  | step {c : Cluster} (a : Action) : Reached c₀ c → grantsInOffice c a = false →
      EpochsBelow (c.step a) → Reached c₀ (c.step a)

section Runs

variable {peers : List NodeId} {boot : Option NodeId} {votes : Votes NodeId} {c c₀ : Cluster}

theorem Inv.step (h : Inv peers boot votes c) (hmax : EpochsBelow c) (a : Action)
    (hoffice : grantsInOffice c a = false) : ∃ votes', Inv peers boot votes' (c.step a) := by
  have hpeers := h.peers_eq
  cases a with
  | tick n now =>
    rw [Cluster.step]
    split_ifs with hn
    · exact h.tick (hpeers ▸ hn) (hmax n hn) now
    · exact ⟨votes, h⟩
  | restart n =>
    rw [Cluster.step]
    split_ifs with hn
    · exact ⟨votes, h.restart (hpeers ▸ hn)⟩
    · exact ⟨votes, h⟩
  | setReplOffset n offset =>
    rw [Cluster.step]
    split_ifs with hn
    · refine ⟨votes, h.act_silent ?_ le_rfl⟩
      exact (h.node n (hpeers ▸ hn)).congr rfl rfl rfl rfl rfl rfl
    · exact ⟨votes, h⟩
  | deliver i now =>
    rw [Cluster.step]
    cases henv : c.sent[i]? with
    | none => exact ⟨votes, h⟩
    | some env =>
      simp only
      split_ifs with hn
      · obtain ⟨sender, n, msg⟩ := env
        have hmsg := h.message _ (mem_of_getElem? henv)
        have hn' : n ∈ peers := hpeers ▸ hn
        cases msg with
        | hb k id role offset => exact ⟨votes, h.onHb hn' sender k role offset now hmsg⟩
        | offer k candidate offset =>
          refine h.onOffer hn' k candidate offset hmsg fun hgrant => ?_
          unfold grantsInOffice at hoffice
          simpa [henv, hgrant] using hoffice
        | accept k accepter => exact ⟨votes, h.onAccept hn' k accepter hmsg⟩
        | announce k primary addr => exact ⟨votes, h.onAnnounce hn' k primary hmsg⟩
      · exact ⟨votes, h⟩

theorem inv_firstBoot (h : c₀.FirstBoot boot) : Inv c₀.peers boot (fun _ _ => none) c₀ where
  peers_eq := rfl
  nodup := h.nodup
  voter := nofun
  node n hn := by
    obtain ⟨config, addr, jitter, hnode⟩ := h.node n hn
    rw [hnode]
    refine ⟨rfl, rfl, rfl, fun _ _ => rfl, ?_, ?_⟩
    · intro hrole
      change (if boot = some n then Role.primary else Role.replica) = _ at hrole
      split_ifs at hrole
    · intro hrole
      change (if boot = some n then Role.primary else Role.replica) = _ at hrole
      split_ifs at hrole with hboot
      exact .inl ⟨rfl, hboot⟩
  message env henv := by
    rw [h.sent] at henv
    cases henv

theorem Reached.inv (hboot : c₀.FirstBoot boot) (h : Reached c₀ c) :
    EpochsBelow c ∧ ∃ votes, Inv c₀.peers boot votes c := by
  induction h with
  | start =>
    refine ⟨fun n hn => ?_, _, inv_firstBoot hboot⟩
    obtain ⟨config, addr, jitter, hnode⟩ := hboot.node n hn
    rw [hnode]
    show 1 < u64Max
    decide
  | step a _ hoffice hmax ih =>
    obtain ⟨hbelow, votes, hinv⟩ := ih
    exact ⟨hmax, hinv.step hbelow a hoffice⟩

/-- **One primary for each epoch**, in every state of every run in which no node grants an offer while it is
primary, or while it is a candidate that has its quorum already. -/
theorem no_two_primaries (hboot : c₀.FirstBoot boot) (h : Reached c₀ c) {n m : NodeId}
    (hn : n ∈ c.peers) (hm : m ∈ c.peers) (hne : n ≠ m) : ¬ ((c.node n).role = .primary ∧ (c.node m).role = .primary ∧
      (c.node n).epoch = (c.node m).epoch) := by
  rintro ⟨hnp, hmp, hepoch⟩
  obtain ⟨_, votes, hinv⟩ := h.inv hboot
  rw [hinv.peers_eq] at hn hm
  -- an epoch with an election is not the first one
  have htwo : ∀ {k p}, votes.Elected c₀.peers.toFinset k p → 2 ≤ k := by
    intro k p helected
    obtain ⟨v, _, hvote⟩ := helected.exists_vote
    exact (hinv.voter v k p hvote).2
  rcases (hinv.node n hn).primary hnp with ⟨hn1, hbn⟩ | hen
  · rcases (hinv.node m hm).primary hmp with ⟨_, hbm⟩ | hem
    · rw [hbn] at hbm
      exact hne (Option.some.inj hbm)
    · have := htwo hem
      omega
  · rcases (hinv.node m hm).primary hmp with ⟨hm1, _⟩ | hem
    · have := htwo hen
      omega
    · rw [← hepoch] at hem
      exact hne (hen.unique hem)

end Runs

/-! ## Three nodes -/

def threeNodes (boot : Option NodeId) : Cluster where
  peers := [[97], [98], [99]]
  node n :=
    { nodeId := n
      peerIds := [[97], [98], [99]]
      config := {}
      role := if boot = some n then .primary else .replica }
  sent := []

theorem firstBoot_threeNodes (boot : Option NodeId) : (threeNodes boot).FirstBoot boot where
  nodup := by simp [threeNodes]
  sent := rfl
  node n _ := ⟨{}, [], .system, rfl⟩

/-- Node `b` hears from no primary for `down_after`, stands, and wins with the vote of `c`. -/
def bElected : List Action :=
  [.tick [98] 0, .tick [98] 5000000000, .deliver 5 0, .deliver 6 5000000000, .tick [98] 5000000001]

/-- With no primary configured the election is sound: `b` is the only primary of its epoch. -/
theorem bElected_alone : (((threeNodes none).run bElected).node [98]).role = .primary ∧
    ¬ ((((threeNodes none).run bElected).node [98]).role = .primary ∧
      (((threeNodes none).run bElected).node [99]).role = .primary ∧
      (((threeNodes none).run bElected).node [98]).epoch = (((threeNodes none).run bElected).node [99]).epoch) := by
  have h0 : Reached (threeNodes none) (threeNodes none) := .start
  have h1 := h0.step (.tick [98] 0) (by decide +kernel) (by decide +kernel)
  have h2 := h1.step (.tick [98] 5000000000) (by decide +kernel) (by decide +kernel)
  have h3 := h2.step (.deliver 5 0) (by decide +kernel) (by decide +kernel)
  have h4 := h3.step (.deliver 6 5000000000) (by decide +kernel) (by decide +kernel)
  have h5 := h4.step (.tick [98] 5000000001) (by decide +kernel) (by decide +kernel)
  exact ⟨by decide +kernel,
    no_two_primaries (firstBoot_threeNodes none) h5 (by decide +kernel) (by decide +kernel) (by decide)⟩

/-- With `c` configured as primary the same steps end with two primaries: `c` votes for `b` and stays
primary, now in the epoch that `b` wins. -/
theorem two_primaries_of_epoch_two : (threeNodes (some [99])).FirstBoot (some [99]) ∧
    (∀ k ≤ 5, EpochsBelow ((threeNodes (some [99])).run (bElected.take k))) ∧
    [98] ∈ ((threeNodes (some [99])).run bElected).peers ∧ [99] ∈ ((threeNodes (some [99])).run bElected).peers ∧
    (((threeNodes (some [99])).run bElected).node [98]).role = .primary ∧
    (((threeNodes (some [99])).run bElected).node [99]).role = .primary ∧
    (((threeNodes (some [99])).run bElected).node [98]).epoch = 2 ∧
    (((threeNodes (some [99])).run bElected).node [99]).epoch = 2 := by
  refine ⟨firstBoot_threeNodes _, ?_⟩
  decide +kernel

end Kevy.Elect
