import Kevy.Elect.Safety

/-!
# One vote in each epoch

One elector, driven by any messages at all, by ticks and by restarts over what it saved. Each of its moves
only takes it to epochs that are not lower, votes only above the epoch it is in, and has the new epoch on disk
before it shows in a message (`Moves`). Moves compose, so a whole life is one: its votes are in strictly
rising epochs.

A crash inside a handler needs no move of its own. Before the save it is a restart; behind it, it is the whole
move and a restart, some of whose messages were never sent.
-/

namespace Kevy.Elect

open Kevy.Lib Kevy.Resp List

/-! ## The life of a node -/

structure BootOptions where
  peerIds : List NodeId
  config : ElectConfig
  addr : Bytes
  jitter : ElectJitter
  role : Role

/-- `Elector::new` and its `with_` calls, over the pair on disk. -/
def Elector.boot (id : NodeId) (o : BootOptions) (saved : Nat × Option NodeId) : Elector :=
  let start : Elector :=
    { nodeId := id
      peerIds := o.peerIds
      config := o.config
      role := o.role
      myAdvertisedAddr := o.addr
      jitter := o.jitter }
  start.withPersist saved

inductive NodeEvent
  | tick (now : Nat)
  | message (sender : NodeId) (msg : Message) (now : Nat)
  | setReplOffset (offset : Nat)
  | restart (o : BootOptions)

def Elector.react (e : Elector) : NodeEvent → Elector × List Outbound
  | .tick now => e.tick now
  | .message sender msg now => e.onMessage sender msg now
  | .setReplOffset offset => (e.setReplOffset offset, [])
  | .restart o => (.boot e.nodeId o e.persist, [])

structure Life where
  elector : Elector
  sent : List Outbound

def Life.start (id : NodeId) (o : BootOptions) (saved : Nat × Option NodeId) : Life := ⟨.boot id o saved, []⟩

def Life.step (l : Life) (ev : NodeEvent) : Life :=
  ⟨(l.elector.react ev).1, l.sent ++ (l.elector.react ev).2⟩

def Life.run (l : Life) (evs : List NodeEvent) : Life := evs.foldl Life.step l

def Message.epoch : Message → Nat
  | .hb k _ _ _ => k
  | .offer k _ _ => k
  | .accept k _ => k
  | .announce k _ _ => k

/-- The candidate a message supports: the one an `ACCEPT` goes to, or, when a candidacy starts with its `OFFER`,
the node itself. -/
def Outbound.support (o : Outbound) : Option (Nat × NodeId) :=
  match o.msg, o.recipient with
  | .accept k _, .node candidate => some (k, candidate)
  | .offer k candidate _, _ => some (k, candidate)
  | _, _ => none

def supports (out : List Outbound) : List (Nat × NodeId) := out.filterMap Outbound.support

/-! ## One move -/

def Elector.Saved (e : Elector) : Prop := e.epoch = max 1 e.persist.1

structure Moves (e : Elector) (r : Elector × List Outbound) : Prop where
  saved : r.1.Saved
  epoch : e.epoch ≤ r.1.epoch
  carried : ∀ o ∈ r.2, o.msg.epoch ≤ r.1.epoch
  above : ∀ v ∈ supports r.2, e.epoch < v.1 ∧ v.1 ≤ r.1.epoch
  rising : (supports r.2).Pairwise fun v w => v.1 < w.1

variable {e e' : Elector} {r r' : Elector × List Outbound}

theorem supports_append (out out' : List Outbound) : supports (out ++ out') = supports out ++ supports out' :=
  filterMap_append

theorem Moves.trans (h : Moves e r) (h' : Moves r.1 r') : Moves e (r'.1, r.2 ++ r'.2) where
  saved := h'.saved
  epoch := Nat.le_trans h.epoch h'.epoch
  carried o ho := by
    rcases mem_append.mp ho with ho | ho
    · exact Nat.le_trans (h.carried o ho) h'.epoch
    · exact h'.carried o ho
  above v hv := by
    rw [supports_append] at hv
    have hstep := h.epoch
    have hstep' := h'.epoch
    rcases mem_append.mp hv with hv | hv
    · have := h.above v hv
      exact ⟨this.1, Nat.le_trans this.2 hstep'⟩
    · have := h'.above v hv
      exact ⟨by omega, this.2⟩
  rising := by
    rw [supports_append]
    refine pairwise_append.mpr ⟨h.rising, h'.rising, fun v hv w hw => ?_⟩
    have h1 := (h.above v hv).2
    have h2 := (h'.above w hw).1
    omega

theorem Moves.silent (hsaved : e'.Saved) (hepoch : e.epoch ≤ e'.epoch) : Moves e (e', []) where
  saved := hsaved
  epoch := hepoch
  carried := nofun
  above := nofun
  rising := List.Pairwise.nil

theorem Moves.one {o : Outbound} (hsaved : e'.Saved) (hepoch : e.epoch ≤ e'.epoch) (ho : o.msg.epoch ≤ e'.epoch)
    (hvote : ∀ v, o.support = some v → e.epoch < v.1 ∧ v.1 ≤ e'.epoch) : Moves e (e', [o]) where
  saved := hsaved
  epoch := hepoch
  carried o' ho' := by
    rw [mem_singleton.mp ho']
    exact ho
  above v hv := by
    obtain ⟨o', ho', hv⟩ := mem_filterMap.mp hv
    rw [mem_singleton.mp ho'] at hv
    exact hvote v hv
  rising := by
    show (List.filterMap Outbound.support [o]).Pairwise _
    cases hs : o.support <;> simp [hs]

/-! ## Ticks -/

theorem moves_emitHeartbeats (h : e.Saved) (now : Nat) : Moves e (e.emitHeartbeats now) := by
  obtain ⟨⟨sent, hstate⟩, hout⟩ := emitHeartbeats_spec e now
  have hnone : supports (e.emitHeartbeats now).2 = [] := by
    apply filterMap_eq_nil_iff.mpr
    intro o ho
    obtain ⟨id, role, offset, hmsg⟩ := hout o ho
    rw [Outbound.support, hmsg]
  refine ⟨?_, ?_, fun o ho => ?_, ?_, ?_⟩
  · rw [hstate]
    exact h
  · rw [hstate]
  · obtain ⟨id, role, offset, hmsg⟩ := hout o ho
    rw [hmsg, hstate]
    exact le_rfl
  · rw [hnone]
    exact nofun
  · rw [hnone]
    exact List.Pairwise.nil

theorem moves_maybeStartElection (h : e.Saved) (hmax : e.epoch < u64Max) (now : Nat) :
    Moves e (e.maybeStartElection now) := by
  have hsucc : saturatingSucc e.epoch = e.epoch + 1 := by
    unfold saturatingSucc
    omega
  unfold Elector.maybeStartElection
  rw [hsucc]
  split_ifs
  · apply Moves.one
    · show e.epoch + 1 = max 1 (e.epoch + 1)
      omega
    · exact Nat.le_succ _
    · exact le_rfl
    · rintro v hv
      obtain rfl := Option.some.inj hv
      exact ⟨Nat.lt_succ_self _, le_rfl⟩
  · exact Moves.silent h le_rfl

theorem moves_maybeFinishCandidacy (h : e.Saved) (now : Nat) : Moves e (e.maybeFinishCandidacy now) := by
  unfold Elector.maybeFinishCandidacy
  cases e.offerAt with
  | none => split_ifs <;> exact Moves.silent h le_rfl
  | some offerAt =>
    simp only
    split_ifs
    · exact Moves.silent h le_rfl
    · apply Moves.one
      · exact h
      · exact le_rfl
      · exact le_rfl
      · intro v hv
        cases hv
    all_goals exact Moves.silent h le_rfl

theorem moves_tick (h : e.Saved) (hmax : e.epoch < u64Max) (now : Nat) : Moves e (e.tick now) := by
  obtain ⟨e0, hstart, hepoch, htick⟩ : ∃ e0, Moves e (e0, []) ∧ e0.epoch = e.epoch ∧ e.tick now =
      let r1 := e0.emitHeartbeats now
      let r2 := r1.1.maybeStartElection now
      let r3 := r2.1.maybeFinishCandidacy now
      (r3.1, r1.2 ++ r2.2 ++ r3.2) := by
    refine ⟨_, ?_, ?_, rfl⟩
    · split_ifs <;> exact Moves.silent h le_rfl
    · split_ifs <;> rfl
  have h1 := moves_emitHeartbeats hstart.saved now
  have hmax1 : (e0.emitHeartbeats now).1.epoch < u64Max := by
    obtain ⟨⟨sent, hstate⟩, _⟩ := emitHeartbeats_spec e0 now
    rw [hstate]
    exact hepoch ▸ hmax
  have h2 := moves_maybeStartElection h1.saved hmax1 now
  have h3 := moves_maybeFinishCandidacy h2.saved now
  rw [htick]
  exact ((hstart.trans h1).trans h2).trans h3

/-! ## Messages -/

theorem moves_onHb (h : e.Saved) (sender : NodeId) (k : Nat) (role : Role) (offset now : Nat) :
    Moves e (e.onHb sender k role offset now, []) := by
  unfold Elector.onHb
  simp only
  split_ifs with hfollow
  · obtain ⟨_, hle, _⟩ := hfollow
    obtain ⟨_, _, hepoch, hpersist, _⟩ := followPrimaryHb_spec
      { e with peerViews := insert e.peerViews sender ⟨now, k, role, offset⟩ } sender k
    apply Moves.silent
    · rw [Elector.Saved, hepoch, hpersist]
      rw [Elector.Saved] at h
      change e.epoch ≤ k at hle
      split_ifs with hlt
      · show k = max 1 k
        omega
      · change ¬ e.epoch < k at hlt
        show k = max 1 e.persist.1
        omega
    · rw [hepoch]
      exact hle
  · exact Moves.silent h le_rfl

theorem moves_onOffer (h : e.Saved) (k : Nat) (candidate : NodeId) (offset : Nat) :
    Moves e (e.onOffer k candidate offset) := by
  unfold Elector.onOffer
  split_ifs with hgrant
  · have hlt := lt_of_grants hgrant
    apply Moves.one
    · show k = max 1 k
      omega
    · exact Nat.le_of_lt hlt
    · exact le_rfl
    · rintro v hv
      obtain rfl := Option.some.inj hv
      exact ⟨hlt, le_rfl⟩
  · exact Moves.silent h le_rfl

theorem moves_onAnnounce (h : e.Saved) (k : Nat) (primary : NodeId) : Moves e (e.onAnnounce k primary, []) := by
  have hone : 1 ≤ e.epoch := by
    rw [h]
    exact Nat.le_max_left _ _
  unfold Elector.onAnnounce
  split_ifs with hstale hlower
  · exact Moves.silent h le_rfl
  · exact Moves.silent h le_rfl
  all_goals
    apply Moves.silent
    · show k = max 1 k
      omega
    · show e.epoch ≤ k
      omega

theorem moves_onMessage (h : e.Saved) (sender : NodeId) (msg : Message) (now : Nat) :
    Moves e (e.onMessage sender msg now) := by
  cases msg with
  | hb k _ role offset => exact moves_onHb h sender k role offset now
  | offer k candidate offset => exact moves_onOffer h k candidate offset
  | accept k accepter =>
    show Moves e (e.onAccept k accepter, [])
    unfold Elector.onAccept
    split_ifs <;> exact Moves.silent h le_rfl
  | announce k primary _ => exact moves_onAnnounce h k primary

/-! ## Whole lives -/

theorem boot_epoch (id : NodeId) (o : BootOptions) (saved : Nat × Option NodeId) :
    (Elector.boot id o saved).epoch = max 1 saved.1 ∧ (Elector.boot id o saved).persist = saved := by
  by_cases hpos : 0 < saved.1
  · simp only [Elector.boot, Elector.withPersist, if_pos hpos, and_self]
  · have hone : 1 = max 1 saved.1 := by omega
    simp only [Elector.boot, Elector.withPersist, if_neg hpos, and_true]
    exact hone

theorem saved_boot (id : NodeId) (o : BootOptions) (saved : Nat × Option NodeId) : (Elector.boot id o saved).Saved := by
  obtain ⟨hepoch, hpersist⟩ := boot_epoch id o saved
  rw [Elector.Saved, hepoch, hpersist]

theorem moves_react (h : e.Saved) (hmax : e.epoch < u64Max) (ev : NodeEvent) : Moves e (e.react ev) := by
  cases ev with
  | tick now => exact moves_tick h hmax now
  | message sender msg now => exact moves_onMessage h sender msg now
  | setReplOffset offset => exact Moves.silent h le_rfl
  | restart o =>
    refine Moves.silent (saved_boot _ _ _) ?_
    rw [(boot_epoch _ _ _).1]
    exact Nat.le_of_eq h

theorem moves_run {start : Elector} (evs : List NodeEvent) (l : Life) (h : Moves start (l.elector, l.sent))
    (hmax : ∀ n, (l.run (evs.take n)).elector.epoch < u64Max) :
    Moves start ((l.run evs).elector, (l.run evs).sent) := by
  induction evs generalizing l with
  | nil => exact h
  | cons ev evs ih =>
    have hnext : Moves start ((l.step ev).elector, (l.step ev).sent) :=
      h.trans (moves_react h.saved (hmax 0) ev)
    exact ih (l.step ev) hnext fun n => hmax (n + 1)

theorem Life.run_append (l : Life) (evs evs' : List NodeEvent) : l.run (evs ++ evs') = (l.run evs).run evs' :=
  foldl_append

theorem epoch_le_run (evs : List NodeEvent) (l : Life) (h : l.elector.Saved)
    (hmax : ∀ n, (l.run (evs.take n)).elector.epoch < u64Max) : l.elector.epoch ≤ (l.run evs).elector.epoch := by
  induction evs generalizing l with
  | nil => exact le_rfl
  | cons ev evs ih =>
    have hmove := moves_react h (hmax 0) ev
    exact Nat.le_trans hmove.epoch (ih (l.step ev) hmove.saved fun n => hmax (n + 1))

theorem unique_of_rising {votes : List (Nat × NodeId)} (h : votes.Pairwise fun v w => v.1 < w.1) {k : Nat}
    {c c' : NodeId} (hc : (k, c) ∈ votes) (hc' : (k, c') ∈ votes) : c = c' := by
  have hnodup : (votes.map Prod.fst).Nodup := pairwise_map.mpr (h.imp fun hlt => Nat.ne_of_lt hlt)
  exact congrArg Prod.snd (inj_on_of_nodup_map hnodup hc hc' rfl)

section Life

variable (id : NodeId) (o : BootOptions) (saved : Nat × Option NodeId) (evs : List NodeEvent)

/-- **One vote for each epoch, across restarts.** However a node is driven, from any disk it starts over, as long as
its epochs stay below the last one: it never supports two candidates in one epoch; its epoch never goes down;
and no message carries an epoch above the one on disk, or above 1 while nothing is on disk. -/
theorem life_votes_once (hmax : ∀ n, ((Life.start id o saved).run (evs.take n)).elector.epoch < u64Max) :
    (∀ k c c', (k, c) ∈ supports ((Life.start id o saved).run evs).sent →
      (k, c') ∈ supports ((Life.start id o saved).run evs).sent → c = c') ∧
    (∀ n, ((Life.start id o saved).run (evs.take n)).elector.epoch ≤ ((Life.start id o saved).run evs).elector.epoch) ∧
    ∀ out ∈ ((Life.start id o saved).run evs).sent,
      out.msg.epoch ≤ max 1 ((Life.start id o saved).run evs).elector.persist.1 := by
  have hstart : Moves (.boot id o saved) ((Life.start id o saved).elector, (Life.start id o saved).sent) :=
    Moves.silent (saved_boot id o saved) le_rfl
  have hlife := moves_run evs _ hstart hmax
  refine ⟨fun k c c' => unique_of_rising hlife.rising, fun n => ?_, fun out hout => ?_⟩
  · have hfirst := moves_run (evs.take n) _ hstart fun m => by
      rw [take_take]
      exact hmax _
    have hrest := epoch_le_run (evs.drop n) ((Life.start id o saved).run (evs.take n)) hfirst.saved fun m => by
      rw [← Life.run_append, ← take_add]
      exact hmax _
    rwa [← Life.run_append, take_append_drop] at hrest
  · have hcarried := hlife.carried out hout
    have hsaved : ((Life.start id o saved).run evs).elector.epoch =
        max 1 ((Life.start id o saved).run evs).elector.persist.1 := hlife.saved
    rwa [hsaved] at hcarried

def secondAsk : List NodeEvent :=
  [.message [2] (.offer 2 [2] 0) 0, .restart ⟨[[2], [3]], {}, [], .fixed 0, .replica⟩,
    .message [3] (.offer 2 [3] 0) 0]

theorem life_votes_once_restarted :
    (∀ c, (2, c) ∈ supports ((Life.start [9] ⟨[[2], [3]], {}, [], .fixed 0, .replica⟩ (0, none)).run secondAsk).sent →
      c = [2]) ∧
    (2, [2]) ∈ supports ((Life.start [9] ⟨[[2], [3]], {}, [], .fixed 0, .replica⟩ (0, none)).run secondAsk).sent := by
  have hvote : (2, [2]) ∈ supports ((Life.start [9] ⟨[[2], [3]], {}, [], .fixed 0, .replica⟩
      (0, none)).run secondAsk).sent := by decide
  have hmax (n : Nat) : ((Life.start [9] ⟨[[2], [3]], {}, [], .fixed 0, .replica⟩ (0, none)).run
      (secondAsk.take n)).elector.epoch < u64Max := by
    rcases n with _ | _ | _ | n
    · decide
    · decide
    · decide
    · rw [take_of_length_le (by simp [secondAsk])]
      decide
  exact ⟨fun c hc => (life_votes_once [9] _ _ secondAsk hmax).1 2 c [2] hc hvote, hvote⟩

/-- A node with nothing on disk sends its first heartbeats in epoch 1, above the 0 that stands for an empty disk. -/
theorem fresh_heartbeat_above_saved :
    ((Life.start [9] ⟨[[2], [3]], {}, [], .fixed 0, .replica⟩ (0, none)).run [.tick 0]).sent.map (·.msg.epoch)
      = [1, 1] ∧
    ((Life.start [9] ⟨[[2], [3]], {}, [], .fixed 0, .replica⟩ (0, none)).run [.tick 0]).elector.persist.1 = 0 := by
  decide

end Life

end Kevy.Elect
