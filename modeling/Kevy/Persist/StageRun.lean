import Kevy.Persist.StageSafety

/-!
# Staged appends survive kills

Every operation of a staged log takes it from one resting state to the next, and every kill inside one leaves
files that tell the content before it or the content behind it. The open that follows delivers just that, and
so on through any number of kills: all but those that fall into `StageRing::create` while it writes a header
over a ring that has shown undrained records (`HarmlessCreate`).
-/

namespace Kevy.Persist

open Kevy.Lib Kevy.Resp List Option

/-! ## Content that grows by a frame -/

/-- The content behind one more frame, and the item that frame is part of. -/
structure Grows (C C' : Content) (c : List Bytes) : Prop where
  frames : C'.frames = C.frames ++ [c]
  ok : C'.Ok
  frameOk : FrameOk c
  items : C.items <+: C'.items
  item : ∃ it : Item, it.Ok ∧ records (openFrames C.txn ++ [c]) <+: it.bytes

variable {C C' : Content} {s : StagedLog} {op : StageOp} {c : List Bytes}

theorem grows_append (hC : C.Ok) {args : List Bytes} (hargs : CommandOk args) :
    Grows C (C.apply (.append args)) args := by
  obtain ⟨items, txn⟩ := C
  cases txn with
  | none =>
    have hit : (Item.command args).Ok := by
      intro c hc
      rw [mem_singleton.mp hc]
      exact hargs
    refine ⟨?_, ⟨ok_snoc hC.items hit, by simp [Content.apply]⟩, hargs.toFrameOk, prefix_append _ _,
      .command args, hit, prefix_refl _⟩
    simp [Content.apply, Content.frames, openFrames, Item.frames]
  | some cmds =>
    have hcmds : ∀ c ∈ cmds ++ [args], CommandOk c :=
      forall_mem_append.mpr ⟨hC.txn cmds rfl, by simpa using hargs⟩
    refine ⟨?_, ⟨hC.items, ?_⟩, hargs.toFrameOk, prefix_refl _, .group (cmds ++ [args]), hcmds, ?_⟩
    · simp [Content.apply, Content.frames, openFrames]
    · intro ds hds
      obtain rfl := some.inj hds
      exact hcmds
    · simp [Item.bytes, Item.frames, openFrames]

theorem grows_begin (hC : C.Ok) (htxn : C.txn = none) : Grows C (C.apply .beginGroup) [txnBegin] := by
  obtain ⟨items, txn⟩ := C
  subst htxn
  refine ⟨?_, ⟨hC.items, ?_⟩, frameOk_begin, prefix_refl _, .group [], by simp [Item.Ok, Item.commands], ?_⟩
  · simp [Content.apply, Content.frames, openFrames]
  · intro ds hds
    obtain rfl := some.inj hds
    simp
  · simp [Item.bytes, Item.frames, openFrames]

theorem grows_end (hC : C.Ok) {cmds : List (List Bytes)} (htxn : C.txn = some cmds) :
    Grows C (C.apply .endGroup) [txnCommit] := by
  obtain ⟨items, txn⟩ := C
  subst htxn
  have hit : (Item.group cmds).Ok := hC.txn cmds rfl
  refine ⟨?_, ⟨ok_snoc hC.items hit, by simp [Content.apply]⟩, frameOk_commit, prefix_append _ _,
    .group cmds, hit, ?_⟩
  · simp [Content.apply, Content.frames, openFrames, Item.frames]
  · simp [Item.bytes, Item.frames, openFrames]

/-! ## A log at rest -/

/-- The log holds the frames `fs`, the ring the frames `cs`, and its header says so. -/
structure AtRest (d : StageDisk) (r : RingFile) (fs cs : List (List Bytes)) : Prop where
  ring : d.ring = some r
  valid : r.Valid
  cap : 64 * 1024 ≤ r.cap
  log : d.log = aof2Magic ++ records fs
  pending : r.Pending cs
  len : r.head.aofLen = d.log.length
  id : ∃ span ≤ d.log.length, r.head.logId = logId d.log span

/-- The frames are the content's, and the log ends behind an item unless it has them all. -/
structure Aligned (C : Content) (fs cs : List (List Bytes)) : Prop where
  frames : C.frames = fs ++ cs
  front : cs = [] ∨ ∃ front, front <+: C.items ∧ fs = front.flatMap Item.frames

variable {d d' : StageDisk} {r r' : RingFile} {fs cs : List (List Bytes)} {w : Bytes}

theorem settles_frames (hC : C.Ok) : Settles C.items (aof2Magic ++ records C.frames) := by
  rw [C.magic_records]
  cases htxn : C.txn with
  | none =>
    rw [openFrames, records_nil, append_nil]
    exact settles_logFile hC.items
  | some cmds =>
    have hpos := length_writeRecordMultibulk_pos [txnCommit]
    have hit : (Item.group cmds).Ok := hC.txn cmds htxn
    apply settles_torn hC.items hit
    · rw [Content.group_bytes]
      exact prefix_append _ _
    · rw [Content.group_bytes, length_append]
      omega

theorem Grows.settles_torn (h : Grows C C' c) (hC : C.Ok) (hw : w <+: writeRecordMultibulk c)
    (hlen : w.length < (writeRecordMultibulk c).length) : Settles C.items (aof2Magic ++ records C.frames ++ w) := by
  obtain ⟨it, hit, hpre⟩ := h.item
  rw [records_append, records_cons, records_nil, append_nil] at hpre
  rw [C.magic_records, append_assoc]
  apply Persist.settles_torn hC.items hit
  · exact ((prefix_append_right_inj _).mpr hw).trans hpre
  · have := hpre.length_le
    rw [length_append] at this ⊢
    omega

theorem recoverable_frames (hC : C.Ok) (hring : d.ring = some r) (hp : r.Pending [])
    (hlog : d.log = aof2Magic ++ records C.frames) : Recoverable C d := by
  refine .inr ⟨owesNothing_some hring (RingFile.pending_nil.mp hp), ?_⟩
  rw [hlog]
  exact settles_frames hC

theorem AtRest.near (h : AtRest d r fs cs) (hC : C.Ok) (hal : Aligned C fs cs) (hring : d'.ring = some r')
    (hvalid : r'.Valid) (hhead : r'.head = r.head) (hp : r'.Pending cs) (hw : w <+: records cs)
    (hlog : d'.log = d.log ++ w) : Recoverable C d' := by
  rcases hal.front with rfl | ⟨front, hfront, rfl⟩
  · rw [records_nil, prefix_nil] at hw
    refine recoverable_frames hC hring hp ?_
    rw [hlog, hw, append_nil, h.log, hal.frames, append_nil]
  · have hfile : d.log = logFile front := by
      rw [h.log, Content.records_items, logFile_eq]
    refine .inl ⟨r', front, cs, w, hring, hvalid, hp, hfront, hal.frames, ?_, hw, ?_, ?_⟩
    · rw [hlog, hfile]
    · rw [hhead, h.len, hfile]
    · obtain ⟨span, hspan, hid⟩ := h.id
      rw [hfile] at hspan hid
      refine ⟨front, span, hfront, ?_, hspan, ?_⟩
      · rw [hlog, hfile]
        exact prefix_append _ _
      · rw [hhead, hid]

theorem AtRest.recoverable (h : AtRest d r fs cs) (hC : C.Ok) (hal : Aligned C fs cs) : Recoverable C d :=
  h.near hC hal h.ring h.valid rfl h.pending nil_prefix (append_nil _).symm

/-! ## One operation's steps -/

theorem crashes_stores {stores : List RingStore} (hring : d.ring = some r)
    (h : Crashes StageDisk.step StageDisk.torn (stores.map .ring) d d') :
    ∃ r', d' = { d with ring := some r' } ∧ Crashes RingFile.store RingFile.tornStore stores r r' := by
  induction stores generalizing d r with
  | nil =>
    cases h
    exact ⟨r, by rw [← hring], .here _ _⟩
  | cons store stores ih =>
    rw [map_cons] at h
    cases h with
    | here => exact ⟨r, by rw [← hring], .here _ _⟩
    | during _ _ _ k =>
      refine ⟨RingFile.tornStore store k r, ?_, .during _ _ _ _⟩
      rw [StageDisk.torn, hring, map_some]
    | later h =>
      have hnext : (StageDisk.step (.ring store) d).ring = some (RingFile.store store r) := by
        rw [StageDisk.step, hring, map_some]
      obtain ⟨r', rfl, hr'⟩ := ih hnext h
      exact ⟨r', rfl, .later hr'⟩

/-- Writes to the log, then a header that says so: what a drain and a bypass both do. -/
def writeThenPublish (r : RingFile) (bs : List Bytes) (id len : Nat) : List DiskStep :=
  bs.map .write ++ (r.publish ⟨id, len, r.commit⟩).map .ring

theorem after_writeThenPublish (hring : d.ring = some r) (bs : List Bytes) (id len : Nat) :
    d.after (writeThenPublish r bs id len) =
      { log := d.log ++ bs.flatten, ring := some (runAll RingFile.store (r.publish ⟨id, len, r.commit⟩) r) } := by
  have hwrites := after_writes bs d
  have hstores := after_stores (r.publish ⟨id, len, r.commit⟩) { d with log := d.log ++ bs.flatten }
  rw [hring, map_some] at hstores
  rw [StageDisk.after, writeThenPublish, runAll_append]
  rw [StageDisk.after] at hwrites hstores
  rw [hwrites, hring, hstores]

theorem crashes_writeThenPublish (hring : d.ring = some r) {bs : List Bytes} {id len : Nat}
    (h : Crashes StageDisk.step StageDisk.torn (writeThenPublish r bs id len) d d') :
    (∃ w, w <+: bs.flatten ∧ d' = { d with log := d.log ++ w }) ∨
    (∃ r', r.Aside r' ∧ d' = { log := d.log ++ bs.flatten, ring := some r' }) ∨
    d' = d.after (writeThenPublish r bs id len) := by
  rcases h.append with h | h
  · exact .inl (crashes_writes h)
  · have hwrites := after_writes bs d
    rw [StageDisk.after] at hwrites
    rw [hwrites] at h
    have hring' : StageDisk.ring { d with log := d.log ++ bs.flatten } = some r := hring
    obtain ⟨r', rfl, hr'⟩ := crashes_stores hring' h
    rcases RingFile.crashes_publish hr' with haside | rfl
    · exact .inr (.inl ⟨r', haside, rfl⟩)
    · rw [after_writeThenPublish hring]
      exact .inr (.inr rfl)

theorem AtRest.writeThenPublish (h : AtRest d r fs cs) {gs : List (List Bytes)} {bs : List Bytes} {id : Nat}
    (hlog : d.log ++ bs.flatten = aof2Magic ++ records gs)
    (hid : ∃ span ≤ (d.log ++ bs.flatten).length, id = logId (d.log ++ bs.flatten) span) :
    ∃ r', AtRest (d.after (writeThenPublish r bs id (d.log ++ bs.flatten).length)) r' gs [] := by
  rw [after_writeThenPublish h.ring, RingFile.runAll_publish]
  refine ⟨_, rfl, h.valid, h.cap, hlog, RingFile.pending_nil.mpr ?_, ?_, ?_⟩
  · simp [RingFile.head]
  · simp [RingFile.head]
  · simpa [RingFile.head] using hid

/-! ## A drain -/

def drainId (r : RingFile) (log : Bytes) : Nat :=
  if r.head.logId / 2 ^ 32 < min idSpan log.length then logId log (min log.length idSpan) else r.head.logId

theorem drain_eq (hring : d.ring = some r) : d.drain = writeThenPublish r r.pendingRuns
    (drainId r (d.log ++ r.pendingRuns.flatten)) (d.log ++ r.pendingRuns.flatten).length := by
  unfold StageDisk.drain
  rw [hring]
  rfl

theorem AtRest.drainId (h : AtRest d r fs cs) {log : Bytes} (hpre : d.log <+: log) :
    ∃ span ≤ log.length, drainId r log = logId log span := by
  unfold Persist.drainId
  split_ifs
  · exact ⟨_, Nat.min_le_left _ _, rfl⟩
  · obtain ⟨span, hspan, hid⟩ := h.id
    exact ⟨span, Nat.le_trans hspan hpre.length_le, by rw [hid, logId_longer hpre hspan]⟩

theorem AtRest.after_drain (h : AtRest d r fs cs) : ∃ r', AtRest (d.after d.drain) r' (fs ++ cs) [] := by
  rw [drain_eq h.ring]
  apply h.writeThenPublish
  · rw [h.pending.flatten_runs, h.log, records_append, append_assoc]
  · exact h.drainId (prefix_append _ _)

theorem Aligned.drained (h : Aligned C fs cs) : Aligned C (fs ++ cs) [] :=
  ⟨by rw [h.frames, append_nil], .inl rfl⟩

theorem AtRest.crashes_drain (h : AtRest d r fs cs) (hC : C.Ok) (hal : Aligned C fs cs)
    (hd : Crashes StageDisk.step StageDisk.torn d.drain d d') : Recoverable C d' := by
  have hflat := h.pending.flatten_runs
  rw [drain_eq h.ring] at hd
  rcases crashes_writeThenPublish h.ring hd with ⟨w, hw, rfl⟩ | ⟨r', haside, rfl⟩ | rfl
  · rw [hflat] at hw
    exact h.near hC hal h.ring h.valid rfl h.pending hw rfl
  · rw [hflat]
    exact h.near hC hal rfl (haside.valid h.valid) haside.head (h.pending.aside haside) (prefix_refl _) rfl
  · rw [← drain_eq h.ring]
    obtain ⟨r', hr'⟩ := h.after_drain
    exact hr'.recoverable hC hal.drained

/-! ## A record past the ring -/

theorem bypass_eq (hring : d.ring = some r) (record : Bytes) : d.bypass record = writeThenPublish r [record]
    (identity (d.log ++ record)).1 (d.log ++ [record].flatten).length := by
  unfold StageDisk.bypass
  rw [hring, flatten_singleton]
  rfl

theorem AtRest.after_bypass (h : AtRest d r fs []) (c : List Bytes) :
    ∃ r', AtRest (d.after (d.bypass (writeRecordMultibulk c))) r' (fs ++ [c]) [] := by
  rw [bypass_eq h.ring]
  apply h.writeThenPublish
  · rw [flatten_singleton, h.log, records_append, records_cons, records_nil, append_nil, append_assoc]
  · rw [flatten_singleton]
    exact ⟨_, Nat.min_le_left _ _, rfl⟩

theorem AtRest.crashes_bypass (h : AtRest d r fs []) (hC : C.Ok) (hfs : C.frames = fs) (hg : Grows C C' c)
    (hd : Crashes StageDisk.step StageDisk.torn (d.bypass (writeRecordMultibulk c)) d d') :
    Recoverable C d' ∨ Recoverable C' d' := by
  have hlog' : d.log ++ writeRecordMultibulk c = aof2Magic ++ records C'.frames := by
    rw [hg.frames, hfs, records_append, records_cons, records_nil, append_nil, h.log, append_assoc]
  rw [bypass_eq h.ring] at hd
  rcases crashes_writeThenPublish h.ring hd with ⟨w, hw, rfl⟩ | ⟨r', haside, rfl⟩ | rfl
  · rw [flatten_singleton] at hw
    rcases Nat.lt_or_ge w.length (writeRecordMultibulk c).length with hlt | hge
    · refine .inl (.inr ⟨owesNothing_some h.ring (RingFile.pending_nil.mp h.pending), ?_⟩)
      have := hg.settles_torn hC hw hlt
      rwa [hfs, ← h.log] at this
    · rw [hw.eq_of_length_le hge]
      exact .inr (recoverable_frames hg.ok h.ring h.pending hlog')
  · rw [flatten_singleton]
    exact .inr (recoverable_frames hg.ok rfl (h.pending.aside haside) hlog')
  · rw [← bypass_eq h.ring]
    obtain ⟨r', hr'⟩ := h.after_bypass c
    exact .inr (hr'.recoverable hg.ok ⟨by rw [hg.frames, hfs, append_nil], .inl rfl⟩)

/-! ## A record into the ring -/

theorem push_some (hring : d.ring = some r) {record : Bytes} {steps : List DiskStep}
    (h : d.push record = some steps) : ∃ stores, r.push record = some stores ∧ steps = stores.map .ring := by
  rw [StageDisk.push, hring, bind_some, map_eq_some_iff] at h
  obtain ⟨stores, hpush, rfl⟩ := h
  exact ⟨stores, hpush, rfl⟩

theorem push_empty (hring : d.ring = some r) (hp : r.Pending []) {record : Bytes}
    (hlen : 2 * record.length ≤ r.cap) : d.push record ≠ none := by
  have hdrained := RingFile.pending_nil.mp hp
  rw [StageDisk.push, hring, bind_some, ne_eq, map_eq_none_iff]
  simp only [RingFile.push]
  rw [if_neg]
  · simp
  · rcases @RingFile.skipFor_cases r record.length with ⟨h, _⟩ | ⟨h, _⟩
    · omega
    · omega

variable {steps : List DiskStep}

theorem AtRest.after_push (h : AtRest d r fs cs) (hc : FrameOk c)
    (hpush : d.push (writeRecordMultibulk c) = some steps) : ∃ r', AtRest (d.after steps) r' fs (cs ++ [c]) := by
  obtain ⟨stores, hstores, rfl⟩ := push_some h.ring hpush
  have hcap := h.cap
  obtain ⟨data, commit, hrun, hp⟩ := h.pending.push (by omega) hc hstores
  rw [after_stores, h.ring, map_some, hrun]
  exact ⟨_, rfl, h.valid, h.cap, h.log, hp, h.len, h.id⟩

theorem AtRest.crashes_push (h : AtRest d r fs cs) (hC : C.Ok) (hal : Aligned C fs cs) (hg : Grows C C' c)
    (hal' : Aligned C' fs (cs ++ [c])) (hpush : d.push (writeRecordMultibulk c) = some steps)
    (hd : Crashes StageDisk.step StageDisk.torn steps d d') : Recoverable C d' ∨ Recoverable C' d' := by
  obtain ⟨r', hr'⟩ := h.after_push hg.frameOk hpush
  obtain ⟨stores, hstores, rfl⟩ := push_some h.ring hpush
  have hcap := h.cap
  obtain ⟨r1, rfl, hr1⟩ := crashes_stores h.ring hd
  rcases RingFile.crashes_push h.pending (by omega) hstores hr1 with hbeside | rfl
  · exact .inl (h.near hC hal rfl (hbeside.valid h.valid) hbeside.head (h.pending.beside hbeside)
      nil_prefix (append_nil _).symm)
  · rw [after_stores, h.ring, map_some] at hr'
    exact .inr (hr'.recoverable hg.ok hal')

/-! ## One record appended -/

/-- The log is at rest. While its records go past the ring (`direct`) the ring is empty; while they go into
it, the log ends behind an item. -/
def Rests (C : Content) (d : StageDisk) (direct : Prop) : Prop :=
  ∃ r fs cs, AtRest d r fs cs ∧ C.frames = fs ++ cs ∧ (direct → cs = []) ∧
    (¬ direct → ∃ front, front <+: C.items ∧ fs = front.flatMap Item.frames)

theorem frames_closed (h : C.txn = none) : C.frames = C.items.flatMap Item.frames := by
  rw [Content.frames, h, openFrames, append_nil]

variable {direct : Prop}

theorem AtRest.rests (h : AtRest d r fs []) (hfs : C.frames = fs) (hclosed : direct ∨ C.txn = none) :
    Rests C d direct := by
  refine ⟨r, fs, [], h, by rw [hfs, append_nil], fun _ => rfl, fun hdirect => ?_⟩
  refine ⟨C.items, prefix_refl _, ?_⟩
  rw [← hfs, frames_closed (hclosed.resolve_left hdirect)]

theorem Aligned.front_grows (hg : Grows C C' c) (hfr : C.frames = fs ++ cs)
    (hfront : ∃ front, front <+: C.items ∧ fs = front.flatMap Item.frames) :
    Aligned C fs cs ∧ Aligned C' fs (cs ++ [c]) := by
  obtain ⟨front, hpre, hfs⟩ := hfront
  refine ⟨⟨hfr, .inr ⟨front, hpre, hfs⟩⟩, ⟨?_, .inr ⟨front, hpre.trans hg.items, hfs⟩⟩⟩
  rw [hg.frames, hfr, append_assoc]

/-- Killed, some steps leave one of two contents; done, they leave the log at rest with the second. -/
structure Takes (C C' : Content) (d : StageDisk) (steps : List DiskStep) (direct : Prop) : Prop where
  killed : ∀ d', Crashes StageDisk.step StageDisk.torn steps d d' → Recoverable C d' ∨ Recoverable C' d'
  done : Rests C' (d.after steps) direct

theorem Takes.drain_append (h : AtRest d r fs cs) (hC : C.Ok) (hal : Aligned C fs cs)
    (ht : Takes C C' (d.after d.drain) steps direct) : Takes C C' d (d.drain ++ steps) direct where
  killed d' hd := by
    rcases hd.append with hd | hd
    · exact .inl (h.crashes_drain hC hal hd)
    · exact ht.killed d' hd
  done := by
    have := ht.done
    rw [StageDisk.after, StageDisk.after] at this
    rwa [StageDisk.after, runAll_append]

theorem AtRest.takes_bypass (h : AtRest d r fs []) (hC : C.Ok) (hfs : C.frames = fs) (hg : Grows C C' c)
    (hclosed : direct ∨ C'.txn = none) : Takes C C' d (d.bypass (writeRecordMultibulk c)) direct where
  killed d' hd := h.crashes_bypass hC hfs hg hd
  done := by
    obtain ⟨r', hr'⟩ := h.after_bypass c
    exact hr'.rests (by rw [hg.frames, hfs]) hclosed

theorem AtRest.takes_push (h : AtRest d r fs cs) (hC : C.Ok) (hg : Grows C C' c) (hfr : C.frames = fs ++ cs)
    (hfront : ∃ front, front <+: C.items ∧ fs = front.flatMap Item.frames) (hdirect : ¬ direct)
    (hpush : d.push (writeRecordMultibulk c) = some steps) : Takes C C' d steps direct := by
  obtain ⟨hal, hal'⟩ := Aligned.front_grows hg hfr hfront
  refine ⟨fun d' hd => h.crashes_push hC hal hg hal' hpush hd, ?_⟩
  obtain ⟨r', hr'⟩ := h.after_push hg.frameOk hpush
  refine ⟨r', fs, cs ++ [c], hr', hal'.frames, fun hd => absurd hd hdirect, fun _ => ?_⟩
  obtain ⟨front, hpre, hfs⟩ := hfront
  exact ⟨front, hpre.trans hg.items, hfs⟩

theorem Rests.aligned (h : Rests C d direct) : ∃ r fs cs, AtRest d r fs cs ∧ Aligned C fs cs := by
  obtain ⟨r, fs, cs, hrest, hfr, hempty, hfront⟩ := h
  refine ⟨r, fs, cs, hrest, hfr, ?_⟩
  by_cases hdirect : direct
  · exact .inl (hempty hdirect)
  · exact .inr (hfront hdirect)

theorem Rests.closed {direct' : Prop} (h : Rests C d direct) (hclosed : C.txn = none)
    (himp : direct' → direct) : Rests C d direct' := by
  obtain ⟨r, fs, cs, hrest, hfr, hempty, hfront⟩ := h
  by_cases hdirect : direct
  · have hcs := hempty hdirect
    subst hcs
    exact hrest.rests (by rw [hfr, append_nil]) (.inr hclosed)
  · exact ⟨r, fs, cs, hrest, hfr, fun h' => absurd (himp h') hdirect, fun _ => hfront hdirect⟩

theorem record_overflow {b : Bytes} (h : (s.record b).2 = true) : s.overflow = true ∨ s.inTxn = true := by
  by_cases hin : s.inTxn = true
  · exact .inr hin
  · refine .inl ?_
    unfold StagedLog.record at h
    rw [if_neg hin] at h
    by_cases hdirect : s.always = true ∨ s.overflow = true
    · rwa [if_pos hdirect] at h
    · rw [if_neg hdirect] at h
      cases hpush : s.disk.push b with
      | some steps => rwa [hpush] at h
      | none =>
        rw [hpush] at h
        cases hagain : (s.disk.after s.disk.drain).push b with
        | some | none => simp [hagain] at h

theorem record_takes (hC : C.Ok) (hg : Grows C C' c) (hin : s.inTxn = C.txn.isSome)
    (h : Rests C s.disk (s.always = true ∨ s.overflow = true))
    (hsmall : s.inTxn = true ∨ C'.txn = none ∨ 2 * (writeRecordMultibulk c).length ≤ 64 * 1024) :
    Takes C C' s.disk (s.record (writeRecordMultibulk c)).1
      (s.always = true ∨ (s.record (writeRecordMultibulk c)).2 = true) := by
  obtain ⟨r, fs, cs, hrest, hfr, hempty, hfront⟩ := h
  unfold StagedLog.record
  by_cases hdirect : s.always = true ∨ s.overflow = true
  · have hcs := hempty hdirect
    subst hcs
    rw [if_pos hdirect]
    exact hrest.takes_bypass hC (by rw [hfr, append_nil]) hg (.inl hdirect)
  rw [if_neg hdirect]
  have hal : Aligned C fs cs := ⟨hfr, .inr (hfront hdirect)⟩
  cases hpush : s.disk.push (writeRecordMultibulk c) with
  | some steps => exact hrest.takes_push hC hg hfr (hfront hdirect) hdirect hpush
  | none =>
    obtain ⟨r1, hdrained⟩ := hrest.after_drain
    have hall := hal.drained
    cases htxn : s.inTxn with
    | true =>
      rw [if_pos rfl]
      exact Takes.drain_append hrest hC hal (hdrained.takes_bypass hC hfr hg (.inl (.inr rfl)))
    | false =>
      rw [if_neg (by simp)]
      have hclosed : C.txn = none := by
        rwa [htxn, eq_comm, isSome_eq_false_iff, isNone_iff_eq_none] at hin
      have hnot : ¬ (s.always = true ∨ false = true) := by
        intro hor
        exact hdirect (.inl (hor.resolve_right (by simp)))
      cases hagain : (s.disk.after s.disk.drain).push (writeRecordMultibulk c) with
      | some steps =>
        have hitems : ∃ front, front <+: C.items ∧ fs ++ cs = front.flatMap Item.frames :=
          ⟨C.items, prefix_refl _, by rw [← hfr, frames_closed hclosed]⟩
        exact Takes.drain_append hrest hC hal (hdrained.takes_push hC hg hall.frames hitems hnot hagain)
      | none =>
        -- only a record that is large for the ring passes it by with no group open
        have hlarge : C'.txn = none := by
          rcases hsmall with hsmall | hsmall | hsmall
          · rw [htxn] at hsmall
            cases hsmall
          · exact hsmall
          · have hcap := hdrained.cap
            exact absurd hagain (push_empty hdrained.ring hdrained.pending (by omega))
        exact Takes.drain_append hrest hC hal (hdrained.takes_bypass hC hfr hg (.inr hlarge))

/-! ## A running log -/

structure Running (C : Content) (s : StagedLog) : Prop where
  ok : C.Ok
  inTxn : s.inTxn = C.txn.isSome
  overflow : s.overflow = true → s.inTxn = true
  rests : Rests C s.disk (s.always = true ∨ s.overflow = true)

theorem Running.closed (h : Running C s) (hin : s.inTxn = false) : C.txn = none := by
  have := h.inTxn
  rwa [hin, eq_comm, isSome_eq_false_iff, isNone_iff_eq_none] at this

theorem Running.takes_append (h : Running C s) {args : List Bytes} (hargs : CommandOk args) :
    Takes C (C.apply (.append args)) s.disk (s.record (writeRecordMultibulk args)).1
      (s.always = true ∨ (s.record (writeRecordMultibulk args)).2 = true) := by
  refine record_takes h.ok (grows_append h.ok hargs) h.inTxn h.rests ?_
  cases hin : s.inTxn with
  | true => exact .inl rfl
  | false =>
    have hclosed := h.closed hin
    refine .inr (.inl ?_)
    rw [Content.apply, hclosed]

theorem Running.takes_begin (h : Running C s) (hin : s.inTxn = false) :
    Takes C (C.apply .beginGroup) s.disk (s.record (writeRecordMultibulk [txnBegin])).1
      (s.always = true ∨ (s.record (writeRecordMultibulk [txnBegin])).2 = true) :=
  record_takes h.ok (grows_begin h.ok (h.closed hin)) h.inTxn h.rests (.inr (.inr (by decide)))

theorem Running.takes_end (h : Running C s) (hin : s.inTxn = true) :
    Takes C (C.apply .endGroup) s.disk (s.record (writeRecordMultibulk [txnCommit])).1
      (s.always = true ∨ (s.record (writeRecordMultibulk [txnCommit])).2 = true) := by
  have hsome := h.inTxn
  rw [hin, eq_comm, isSome_iff_exists] at hsome
  obtain ⟨cmds, htxn⟩ := hsome
  exact record_takes h.ok (grows_end h.ok htxn) h.inTxn h.rests (.inl hin)

theorem txn_endGroup (C : Content) : (C.apply .endGroup).txn = none := by
  obtain ⟨items, txn⟩ := C
  cases txn <;> rfl

theorem Running.killed (h : Running C s) (hl : Legal s op)
    (hd : Crashes StageDisk.step StageDisk.torn (s.steps op) s.disk d) :
    Recoverable C d ∨ Recoverable (C.apply op) d := by
  cases op with
  | append args => exact (h.takes_append hl).killed d hd
  | beginGroup => exact (h.takes_begin hl).killed d hd
  | endGroup =>
    cases hin : s.inTxn with
    | true =>
      rw [StagedLog.steps, StagedLog.frame, if_pos hin] at hd
      exact (h.takes_end hin).killed d hd
    | false =>
      rw [StagedLog.steps, StagedLog.frame, if_neg (by simp [hin])] at hd
      obtain ⟨r, fs, cs, hrest, hal⟩ := h.rests.aligned
      cases hd
      exact .inl (hrest.recoverable h.ok hal)
  | drain =>
    obtain ⟨r, fs, cs, hrest, hal⟩ := h.rests.aligned
    exact .inl (hrest.crashes_drain h.ok hal hd)

theorem isSome_append (C : Content) (args : List Bytes) : (C.apply (.append args)).txn.isSome = C.txn.isSome := by
  obtain ⟨items, txn⟩ := C
  cases txn <;> rfl

theorem Running.apply (h : Running C s) (hl : Legal s op) : Running (C.apply op) (s.apply op) := by
  cases op with
  | append args =>
    refine ⟨(grows_append h.ok hl).ok, ?_, fun hover => ?_, (h.takes_append hl).done⟩
    · rw [isSome_append]
      exact h.inTxn
    · exact (record_overflow hover).elim h.overflow id
  | beginGroup =>
    exact ⟨(grows_begin h.ok (h.closed hl)).ok, rfl, fun _ => rfl, (h.takes_begin hl).done⟩
  | endGroup =>
    cases hin : s.inTxn with
    | true =>
      have hdone := (h.takes_end hin).done
      have hsteps : s.steps .endGroup = (s.record (writeRecordMultibulk [txnCommit])).1 := by
        rw [StagedLog.steps, StagedLog.frame, if_pos hin]
      obtain ⟨cmds, htxn⟩ : ∃ cmds, C.txn = some cmds := by
        rw [← isSome_iff_exists, ← h.inTxn]
        exact hin
      rw [StagedLog.apply, if_pos hin, hsteps]
      refine ⟨(grows_end h.ok htxn).ok, ?_, fun hover => absurd hover (by simp), ?_⟩
      · rw [txn_endGroup]
        rfl
      · exact hdone.closed (txn_endGroup C) fun hdirect => .inl (hdirect.resolve_right (by simp))
    | false =>
      have hsteps : s.steps .endGroup = [] := by
        rw [StagedLog.steps, StagedLog.frame, if_neg (by simp [hin])]
        rfl
      have hsame : C.apply .endGroup = C := by
        rw [Content.apply, h.closed hin]
      rw [StagedLog.apply, if_neg (by simp [hin]), hsteps, hsame]
      exact h
  | drain =>
    obtain ⟨r, fs, cs, hrest, hal⟩ := h.rests.aligned
    obtain ⟨r', hr'⟩ := hrest.after_drain
    have hover : (s.overflow || s.inTxn) = true → s.inTxn = true := by
      intro hor
      rw [Bool.or_eq_true] at hor
      exact hor.elim h.overflow id
    refine ⟨h.ok, h.inTxn, hover, hr'.rests hal.frames ?_⟩
    cases hin : s.inTxn with
    | true => exact .inl (.inr (by simp [StagedLog.apply, hin]))
    | false => exact .inr (h.closed hin)

/-! ## An open -/

theorem Recoverable.reopen (h : Recoverable C d) (hC : C.Ok) {cap : Nat} (hcap : RingCap cap) (always : Bool) :
    Running ⟨C.items, none⟩ (StagedLog.reopen d cap always) := by
  obtain ⟨r, hmade, hvalid, hrcap, hhead⟩ := after_create_all { d with log := logFile C.items } cap
  have hdisk : (StagedLog.reopen d cap always).disk = ⟨logFile C.items, some r⟩ := by
    show (d.after d.settle).after ((d.after d.settle).create cap) = _
    rw [h.after_settle hC, hmade]
  have hclosed : (⟨C.items, none⟩ : Content).frames = C.items.flatMap Item.frames := frames_closed rfl
  have hrest : AtRest ⟨logFile C.items, some r⟩ r (C.items.flatMap Item.frames) [] := by
    refine ⟨rfl, hvalid, ?_, ?_, RingFile.pending_nil.mpr ?_, ?_, ?_⟩
    · rw [hrcap]
      exact hcap.2
    · rw [Content.records_items, logFile_eq]
    · have hcommit : r.commit = r.head.commit := rfl
      rw [hcommit, hhead]
    · rw [hhead]
      rfl
    · rw [hhead]
      exact ⟨_, Nat.min_le_left _ _, rfl⟩
  refine ⟨⟨hC.items, fun cmds hcmds => by cases hcmds⟩, rfl, fun hover => absurd hover (by simp [StagedLog.reopen]), ?_⟩
  rw [hdisk]
  exact hrest.rests hclosed (.inr rfl)

/-! ## Whole runs -/

/-- The systems that runs reach, from a log that was just created, by steps that are all `allowed`. -/
inductive Reached (allowed : StageSystem → StageEvent → Prop) : StageSystem → Prop
  | start : Reached allowed (.down ⟨[], none⟩ ⟨[], none⟩ ⟨aof2Magic, none⟩)
  | step {x y : StageSystem} {e : StageEvent} :
    Reached allowed x → Next x e y → allowed x e → Reached allowed y

/-- Every step but a kill inside `StageRing::create` is harmless. -/
def Harmless : StageSystem → StageEvent → Prop
  | .down _ _ d, .killCreate cap stores => HarmlessCreate d cap stores
  | _, _ => True

/-- The files, or the log that runs, hold what the ledger says. -/
def Sound : StageSystem → Prop
  | .up l s => ∃ C, Running C s ∧ C.ledger = l
  | .down l l' d => ∃ C, C.Ok ∧ Recoverable C d ∧ (C.ledger = l ∨ C.ledger = l')

theorem sound_start : Sound (.down ⟨[], none⟩ ⟨[], none⟩ ⟨aof2Magic, none⟩) := by
  refine ⟨⟨[], none⟩, ⟨by simp, by simp⟩, .inr ⟨?_, ?_⟩, .inl rfl⟩
  · exact owesNothing_none rfl
  · exact settles_logFile (by simp)

theorem Sound.next {x y : StageSystem} {e : StageEvent} (h : Sound x) (hn : Next x e y) (he : Harmless x e) :
    Sound y := by
  cases hn with
  | @run l s op hl =>
    obtain ⟨C, hrun, rfl⟩ := h
    exact ⟨C.apply op, hrun.apply hl, C.ledger_apply op⟩
  | @kill l s op d hl hd =>
    obtain ⟨C, hrun, rfl⟩ := h
    rcases hrun.killed hl hd with hrec | hrec
    · exact ⟨C, hrun.ok, hrec, .inl rfl⟩
    · exact ⟨C.apply op, (hrun.apply hl).ok, hrec, .inr (C.ledger_apply op)⟩
  | killSettle hd =>
    obtain ⟨C, hC, hrec, hl⟩ := h
    exact ⟨C, hC, hrec.settle hC hd, hl⟩
  | @killCreate l l' d cap stores hcap =>
    obtain ⟨C, hC, hrec, hl⟩ := h
    have hsettled : Recoverable C (d.after d.settle) := hrec.settle hC (Crashes.all d.settle d)
    have hdisk := hrec.after_settle hC
    refine ⟨C, hC, hsettled.create hC (by rw [hdisk]) ?_, hl⟩
    intro r hr
    rw [hdisk] at hr
    exact he r hr
  | @reopen l l' d cap always hcap =>
    obtain ⟨C, hC, hrec, hl⟩ := h
    refine ⟨⟨C.items, none⟩, hrec.reopen hC hcap always, ?_⟩
    rw [hrec.delivered hC]
    rfl

/-- **Staged appends survive kills.** Whatever was appended, grouped, drained and killed before, and however
many opens were killed in turn, the next open delivers the commands that returned, outside a group or in one
that was closed, once and in order; with them, or without, those of the one operation a kill cut short. The
kills inside `StageRing::create` must be harmless ones. -/
theorem reopen_delivers_returned {returned inFlight : Ledger} {d : StageDisk}
    (h : Reached Harmless (.down returned inFlight d)) :
    d.delivered = returned.settled ∨ d.delivered = inFlight.settled := by
  have hsound : ∀ x, Reached Harmless x → Sound x := by
    intro x hx
    induction hx with
    | start => exact sound_start
    | step _ hn he ih => exact ih.next hn he
  obtain ⟨C, hC, hrec, hl | hl⟩ := hsound _ h
  · rw [hrec.delivered hC, hl]
    exact .inl rfl
  · rw [hrec.delivered hC, hl]
    exact .inr rfl

def freshLog : StagedLog := .reopen ⟨aof2Magic, none⟩ (64 * 1024) false

def killedDisk : StageDisk := (freshLog.apply (.append [[97]])).disk

theorem ringCap_min : RingCap (64 * 1024) := ⟨⟨16, rfl⟩, le_rfl⟩

theorem reached_killed (allowed : StageSystem → StageEvent → Prop) (hup : ∀ l s e, allowed (.up l s) e)
    (hopen : ∀ l l' d cap always, allowed (.down l l' d) (.reopen cap always)) :
    Reached allowed (.down ⟨[Argv.ofArgs [[97]]], none⟩ ⟨[Argv.ofArgs [[97]]], none⟩ killedDisk) := by
  have hledger : (⟨StageDisk.delivered ⟨aof2Magic, none⟩, none⟩ : Ledger).apply (.append [[97]]) =
      ⟨[Argv.ofArgs [[97]]], none⟩ := by decide +kernel
  have hopened : Reached allowed (.up ⟨StageDisk.delivered ⟨aof2Magic, none⟩, none⟩ freshLog) :=
    .step .start (.reopen ringCap_min) (hopen _ _ _ _ _)
  have happended := hopened.step (@Next.run _ _ (.append [[97]]) (commandOk_byte 97)) (hup _ _ _)
  rw [hledger] at happended
  exact happended.step (@Next.kill _ _ .drain _ trivial (.here _ _)) (hup _ _ _)

/-- The open behind it is killed too, after `create` has stored the ring's new id; the next one delivers the
append once. -/
theorem reopen_killed_early : Reached Harmless (.down ⟨[Argv.ofArgs [[97]]], none⟩ ⟨[Argv.ofArgs [[97]]], none⟩
      ((killedDisk.after killedDisk.settle).after (((killedDisk.after killedDisk.settle).create (64 * 1024)).take 2))) ∧
    ((killedDisk.after killedDisk.settle).after
      (((killedDisk.after killedDisk.settle).create (64 * 1024)).take 2)).delivered = [Argv.ofArgs [[97]]] := by
  have hreached := (reached_killed Harmless (fun _ _ _ => trivial) (fun _ _ _ _ _ => trivial)).step
    (@Next.killCreate _ _ _ _ 2 ringCap_min) (fun _ _ _ => .inr (.inl le_rfl))
  exact ⟨hreached, or_self_iff.mp (reopen_delivers_returned hreached)⟩

/-- Killed one store later, with the log's new length stored too, it leaves a ring whose records the log has
already: the next open delivers the append twice. -/
theorem reopen_killed_late :
    ∃ returned inFlight d, Reached (fun _ _ => True) (.down returned inFlight d) ∧
      returned.settled = [Argv.ofArgs [[97]]] ∧ inFlight.settled = [Argv.ofArgs [[97]]] ∧
      d.delivered = [Argv.ofArgs [[97]], Argv.ofArgs [[97]]] := by
  have hreached := (reached_killed (fun _ _ => True) (fun _ _ _ => trivial) (fun _ _ _ _ _ => trivial)).step
    (@Next.killCreate _ _ _ _ 3 ringCap_min) trivial
  exact ⟨_, _, _, hreached, rfl, rfl, by decide +kernel⟩

end Kevy.Persist
