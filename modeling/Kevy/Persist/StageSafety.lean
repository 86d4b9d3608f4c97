import Kevy.Persist.StageLog
import Mathlib.Tactic.IntervalCases

/-!
# What a kill leaves can be recovered

`Content` is what the log and its ring hold together: the items that returned, and the open group.
`Recoverable` says when two files still tell it, in one of two ways: the ring owes the log the records behind
some item (`Owes`), or it owes nothing and the log alone settles at those items. Every step of every operation
keeps to one of the two.
-/

namespace Kevy.Persist

open Kevy.Lib Kevy.Resp List Option

/-! ## Where a log settles -/

theorem survivors_append : ∀ (front items : List Item) {k : Nat}, (front.flatMap Item.bytes).length ≤ k →
    survivors (front ++ items) k = front ++ survivors items (k - (front.flatMap Item.bytes).length) := by
  intro front items
  induction front with
  | nil => intro k _; rfl
  | cons it front ih =>
    intro k h
    rw [flatMap_cons, length_append] at h
    rw [cons_append, survivors, if_pos (by omega), ih (by omega), flatMap_cons, length_append, Nat.sub_sub]
    rfl

theorem survivors_front (items : List Item) (k : Nat) : survivors items k <+: items := by
  induction items generalizing k with
  | nil => exact prefix_refl _
  | cons it items ih =>
    rw [survivors]
    split_ifs
    · exact (prefix_cons_inj it).mpr (ih _)
    · exact nil_prefix

theorem survivors_bytes_front (items : List Item) (k : Nat) :
    (survivors items k).flatMap Item.bytes <+: (items.flatMap Item.bytes).take k := by
  obtain ⟨rest, hrest⟩ := survivors_bytes items k
  exact ⟨rest, hrest.symm⟩

theorem logFile_append (front items : List Item) :
    logFile (front ++ items) = logFile front ++ items.flatMap Item.bytes := by
  rw [logFile_eq, logFile_eq, flatMap_append, append_assoc]

theorem logFile_mono {front items : List Item} (h : front <+: items) : logFile front <+: logFile items := by
  obtain ⟨rest, rfl⟩ := h
  rw [logFile_append]
  exact prefix_append _ _

/-- Replaying the log delivers the items and settles behind them. -/
def Settles (items : List Item) (log : Bytes) : Prop :=
  ∃ written k, (∀ it ∈ written, it.Ok) ∧ aof2Magic.length ≤ k ∧ log = (logFile written).take k ∧
    survivors written (k - aof2Magic.length) = items

variable {items front rest whole : List Item} {log w : Bytes}

theorem Settles.frames (h : Settles items log) :
    (streamV2 log false).frames = (items.flatMap Item.commands).map Argv.ofArgs := by
  obtain ⟨written, k, hok, hk, rfl, rfl⟩ := h
  have := (streamV2_crashed hok hk 0).1
  rwa [crashed, replicate_zero, append_nil] at this

theorem Settles.repairTail (h : Settles items log) : repairTail log false = logFile items := by
  obtain ⟨written, k, hok, hk, rfl, rfl⟩ := h
  have := repairTail_crashed hok hk 0
  rwa [crashed, replicate_zero, append_nil] at this

theorem settles_cut (hok : ∀ it ∈ front ++ rest, it.Ok) (hw : w <+: rest.flatMap Item.bytes) :
    Settles (front ++ survivors rest w.length) (logFile front ++ w) := by
  refine ⟨front ++ rest, (logFile front ++ w).length, hok, ?_, ?_, ?_⟩
  · rw [logFile_eq, append_assoc, length_append]
    exact Nat.le_add_right _ _
  · rw [logFile_append]
    exact prefix_iff_eq_take.mp ((prefix_append_right_inj _).mpr hw)
  · have hk : (logFile front ++ w).length - aof2Magic.length = (front.flatMap Item.bytes).length + w.length := by
      rw [logFile_eq, append_assoc, length_append, Nat.add_sub_cancel_left, length_append]
    rw [hk, survivors_append _ _ (Nat.le_add_right _ _), Nat.add_sub_cancel_left]

theorem settles_logFile (hok : ∀ it ∈ items, it.Ok) : Settles items (logFile items) := by
  have := @settles_cut items [] [] (by simpa using hok) nil_prefix
  rwa [append_nil, survivors, append_nil] at this

theorem ok_snoc (hok : ∀ it ∈ items, it.Ok) {it : Item} (hit : it.Ok) : ∀ jt ∈ items ++ [it], jt.Ok :=
  forall_mem_append.mpr ⟨hok, by simpa using hit⟩

theorem settles_torn (hok : ∀ it ∈ items, it.Ok) {it : Item} (hit : it.Ok) (hw : w <+: it.bytes)
    (hne : w.length < it.bytes.length) : Settles items (logFile items ++ w) := by
  have := @settles_cut items [it] w (ok_snoc hok hit) (by simpa using hw)
  rwa [survivors, if_neg (by omega), append_nil] at this

/-! ## Content -/

/-- What a log and its ring hold: whole items, and the commands of the open group. -/
structure Content where
  items : List Item
  txn : Option (List (List Bytes))

namespace Content

def frames (C : Content) : List (List Bytes) := C.items.flatMap Item.frames ++ openFrames C.txn

structure Ok (C : Content) : Prop where
  items : ∀ it ∈ C.items, it.Ok
  txn : ∀ cmds, C.txn = some cmds → ∀ c ∈ cmds, CommandOk c

def ledger (C : Content) : Ledger :=
  ⟨(C.items.flatMap Item.commands).map Argv.ofArgs, C.txn.map fun cmds => cmds.map Argv.ofArgs⟩

def apply (C : Content) : StageOp → Content
  | .append args =>
    match C.txn with
    | none => { C with items := C.items ++ [.command args] }
    | some cmds => { C with txn := some (cmds ++ [args]) }
  | .beginGroup => { C with txn := some [] }
  | .endGroup =>
    match C.txn with
    | none => C
    | some cmds => ⟨C.items ++ [.group cmds], none⟩
  | .drain => C

theorem ledger_apply (C : Content) (op : StageOp) : (C.apply op).ledger = C.ledger.apply op := by
  obtain ⟨items, txn⟩ := C
  cases op <;> cases txn <;> simp [apply, ledger, Ledger.apply, Item.commands]

theorem records_items (items : List Item) : records (items.flatMap Item.frames) = items.flatMap Item.bytes := by
  rw [records, flatMap_assoc]
  rfl

theorem group_bytes (cmds : List (List Bytes)) :
    (Item.group cmds).bytes = records (openFrames (some cmds)) ++ writeRecordMultibulk [txnCommit] := by
  simp [Item.bytes, Item.frames, openFrames]

theorem magic_records (C : Content) :
    aof2Magic ++ records C.frames = logFile C.items ++ records (openFrames C.txn) := by
  rw [frames, records_append, records_items, logFile_eq, append_assoc]

end Content

/-! ## What two files tell -/

def Names (items : List Item) (log : Bytes) (id : Nat) : Prop :=
  ∃ front span, front <+: items ∧ logFile front <+: log ∧ span ≤ (logFile front).length ∧
    id = logId (logFile front) span

/-- The ring owes the records behind `front`, of which `w` has reached the log already. -/
structure Owes (C : Content) (d : StageDisk) (r : RingFile) (front : List Item) (cs : List (List Bytes))
    (w : Bytes) : Prop where
  ring : d.ring = some r
  valid : r.Valid
  pending : r.Pending cs
  front_le : front <+: C.items
  frames : C.frames = front.flatMap Item.frames ++ cs
  log : d.log = logFile front ++ w
  written : w <+: records cs
  len : r.head.aofLen = (logFile front).length
  id : Names C.items d.log r.head.logId

def OwesNothing (d : StageDisk) : Prop := ∀ r, d.ring = some r → r.head.drained = r.commit

def Recoverable (C : Content) (d : StageDisk) : Prop :=
  (∃ r front cs w, Owes C d r front cs w) ∨ OwesNothing d ∧ Settles C.items d.log

variable {C : Content} {d d' : StageDisk} {r r' : RingFile} {cs : List (List Bytes)}

theorem owesNothing_some (hring : d.ring = some r) (h : r.head.drained = r.commit) : OwesNothing d := by
  intro r' hr'
  rw [hring] at hr'
  obtain rfl := some.inj hr'
  exact h

theorem owesNothing_none (hring : d.ring = none) : OwesNothing d := by
  intro r' hr'
  rw [hring] at hr'
  cases hr'

theorem Owes.split (h : Owes C d r front cs w) :
    ∃ rest, C.items = front ++ rest ∧ cs = rest.flatMap Item.frames ++ openFrames C.txn := by
  obtain ⟨rest, hrest⟩ := h.front_le
  refine ⟨rest, hrest.symm, ?_⟩
  have hframes := h.frames
  rw [Content.frames, ← hrest, flatMap_append, append_assoc] at hframes
  exact (append_cancel_left hframes).symm

theorem exists_closed (hok : ∀ it ∈ rest, it.Ok) {txn : Option (List (List Bytes))}
    (htxn : ∀ cmds, txn = some cmds → ∀ c ∈ cmds, CommandOk c) :
    ∃ closed, (∀ it ∈ closed, it.Ok) ∧ rest <+: closed ∧
      records (rest.flatMap Item.frames ++ openFrames txn) <+: closed.flatMap Item.bytes ∧
      ∀ k ≤ (records (rest.flatMap Item.frames ++ openFrames txn)).length, survivors closed k <+: rest := by
  cases txn with
  | none =>
    refine ⟨rest, hok, prefix_refl _, ⟨[], ?_⟩, fun k _ => survivors_front _ _⟩
    rw [openFrames, append_nil, append_nil, Content.records_items]
  | some cmds =>
    have hgroup : (rest ++ [Item.group cmds]).flatMap Item.bytes =
        records (rest.flatMap Item.frames ++ openFrames (some cmds)) ++ writeRecordMultibulk [txnCommit] := by
      rw [flatMap_append, flatMap_singleton, Content.group_bytes, records_append, Content.records_items, append_assoc]
    have hit : (Item.group cmds).Ok := htxn cmds rfl
    refine ⟨rest ++ [.group cmds], ok_snoc hok hit, prefix_append _ _, ?_, fun k hk => ?_⟩
    · rw [hgroup]
      exact prefix_append _ _
    · rcases prefix_concat_iff.mp (survivors_front (rest ++ [.group cmds]) k) with hall | hpre
      · -- the whole group would have to lie before its commit marker
        have hle := (survivors_bytes_front (rest ++ [.group cmds]) k).length_le
        have hpos := length_writeRecordMultibulk_pos [txnCommit]
        rw [hall, hgroup, length_append, length_take] at hle
        omega
      · exact hpre

theorem Owes.settles (h : Owes C d r front cs w) (hC : C.Ok) : ∃ mid rest, C.items = (front ++ mid) ++ rest ∧
      cs = mid.flatMap Item.frames ++ (rest.flatMap Item.frames ++ openFrames C.txn) ∧ Settles (front ++ mid) d.log ∧
      ∀ J, J <+: C.items → logFile J <+: d.log → J <+: front ++ mid := by
  obtain ⟨back, hitems, hcs⟩ := h.split
  have hboth := hC.items
  rw [hitems, forall_mem_append] at hboth
  obtain ⟨hfrontOk, hback⟩ := hboth
  obtain ⟨closed, hclosed, hpre, hrecords, hcut⟩ := exists_closed hback hC.txn
  rw [← hcs] at hrecords hcut
  have hw := h.written.trans hrecords
  obtain ⟨rest, hrest⟩ := hcut w.length h.written.length_le
  have hok : ∀ it ∈ front ++ closed, it.Ok := forall_mem_append.mpr ⟨hfrontOk, hclosed⟩
  refine ⟨survivors closed w.length, rest, ?_, ?_, ?_, ?_⟩
  · rw [hitems, append_assoc, hrest]
  · rw [hcs, ← hrest, flatMap_append, append_assoc]
  · rw [h.log]
    exact settles_cut hok hw
  · intro J hJ hlog
    have hall : C.items <+: front ++ closed := by
      rw [hitems]
      exact (prefix_append_right_inj front).mpr hpre
    obtain ⟨more, hmore⟩ := hJ.trans hall
    have hlen := hlog.length_le
    rw [h.log, logFile_eq, logFile_eq, append_assoc, length_append, length_append, length_append] at hlen
    have hfront := survivors_append front closed (Nat.le_add_right (front.flatMap Item.bytes).length w.length)
    rw [Nat.add_sub_cancel_left] at hfront
    rw [← hfront, ← hmore, survivors_append J more (by omega)]
    exact prefix_append _ _

/-! ## Writes to the log -/

theorem after_writes (bs : List Bytes) (d : StageDisk) :
    d.after (bs.map .write) = { d with log := d.log ++ bs.flatten } := by
  unfold StageDisk.after
  induction bs generalizing d with
  | nil => simp
  | cons b bs ih =>
    rw [map_cons, runAll_cons, ih]
    simp [StageDisk.step]

theorem crashes_writes {bs : List Bytes} (h : Crashes StageDisk.step StageDisk.torn (bs.map .write) d d') :
    ∃ w, w <+: bs.flatten ∧ d' = { d with log := d.log ++ w } := by
  induction bs generalizing d with
  | nil =>
    cases h
    exact ⟨[], nil_prefix, by rw [append_nil]⟩
  | cons b bs ih =>
    rw [map_cons] at h
    cases h with
    | here => exact ⟨[], nil_prefix, by rw [append_nil]⟩
    | during _ _ _ k =>
      exact ⟨b.take k, ( take_prefix k b).trans (prefix_append _ _), rfl⟩
    | later h =>
      obtain ⟨w, hw, rfl⟩ := ih h
      refine ⟨b ++ w, (prefix_append_right_inj b).mpr hw, ?_⟩
      rw [StageDisk.step, append_assoc]

/-! ## Opening -/

/-- What an open finds: the log settles behind `whole`, and `rest` is adopted from the ring. -/
structure Opens (C : Content) (d : StageDisk) (whole rest : List Item) : Prop where
  items : C.items = whole ++ rest
  settles : Settles whole d.log
  adopted : d.adopted = ((rest.flatMap Item.commands).map Argv.ofArgs, (rest.flatMap Item.frames).map writeRecordMultibulk)
  recoverable : ∀ w, w <+: rest.flatMap Item.bytes → Recoverable C { d with log := logFile whole ++ w }

theorem logId_longer {span : Nat} {log' : Bytes} (h : log <+: log') (hspan : span ≤ log.length) :
    logId log' span = logId log span := by
  obtain ⟨more, rfl⟩ := h
  rw [logId, logId, take_append_of_le_length hspan]

theorem Owes.owed (h : Owes C d r front cs w) {mid : List Item} {ds : List (List Bytes)}
    (hcs : cs = mid.flatMap Item.frames ++ ds) (hid : ∀ J, J <+: C.items → logFile J <+: d.log → J <+: front ++ mid) :
    owed (logFile (front ++ mid)) d.ring = ds.map writeRecordMultibulk := by
  obtain ⟨J, span, hJ, hJlog, hspan, hname⟩ := h.id
  have hJmid := logFile_mono (hid J hJ hJlog)
  have hlogId : logId (logFile (front ++ mid)) span = r.head.logId := by
    rw [hname, logId_longer hJmid hspan]
  have hspan' : r.head.logId / 2 ^ 32 = span := by
    rw [hname, logId_span]
  have hlen : (logFile (front ++ mid)).length = r.head.aofLen + (records (mid.flatMap Item.frames)).length := by
    rw [h.len, logFile_append, length_append, Content.records_items]
  have htail : tailAfter (logFile (front ++ mid)) r.head.aofLen (logFile (front ++ mid)).length r.cap =
      records (mid.flatMap Item.frames) := by
    have hcap := h.pending.length_le
    rw [hcs, records_append, length_append] at hcap
    rw [tailAfter, if_neg (by omega), h.len, logFile_append, drop_left, length_append,
      Nat.add_sub_cancel_left, take_length, Content.records_items]
  have hpending := h.pending
  rw [hcs] at hpending
  rw [Persist.owed, recoverStage, h.ring, bind_some, RingFile.openExisting_valid h.valid, map_some, map_some, getD_some]
  simp only [hspan', htail]
  rw [if_pos (Nat.le_trans hspan hJmid.length_le), hlogId, recover_pending hpending hlen]
  rfl

theorem OwesNothing.owed (h : OwesNothing d) (log : Bytes) : owed log d.ring = [] := by
  rw [Persist.owed, recoverStage]
  cases hring : d.ring with
  | none => rfl
  | some r =>
    rw [bind_some]
    by_cases hvalid : r.Valid
    · rw [RingFile.openExisting_valid hvalid, map_some, map_some, getD_some]
      exact recover_empty (RingFile.pending_nil.mpr (h r hring)) _ _ _
    · rw [RingFile.openExisting_invalid hvalid]
      rfl

theorem Owes.opens (h : Owes C d r front cs w) (hC : C.Ok) : ∃ whole rest, Opens C d whole rest := by
  obtain ⟨mid, rest, hitems, hcs, hsettles, hid⟩ := h.settles hC
  have hrest : ∀ it ∈ rest, it.Ok := fun it hit => hC.items it (by rw [hitems]; exact mem_append_right _ hit)
  refine ⟨front ++ mid, rest, hitems, hsettles, ?_, fun v hv => .inl ⟨r, front, cs, mid.flatMap Item.bytes ++ v, ?_⟩⟩
  · rw [StageDisk.adopted, StageDisk.settledLog, hsettles.repairTail, h.owed hcs hid, adopt_items hrest hC.txn]
  · refine ⟨h.ring, h.valid, h.pending, h.front_le, h.frames, ?_, ?_, h.len, ?_⟩
    · show logFile (front ++ mid) ++ v = _
      rw [logFile_append, append_assoc]
    · rw [hcs, records_append, records_append, Content.records_items, Content.records_items]
      exact (prefix_append_right_inj _).mpr (hv.trans (prefix_append _ _))
    · obtain ⟨J, span, hJ, hJlog, hspan, hname⟩ := h.id
      have hJmid := logFile_mono (hid J hJ hJlog)
      exact ⟨J, span, hJ, hJmid.trans (prefix_append _ _), hspan, hname⟩

theorem Recoverable.opens (h : Recoverable C d) (hC : C.Ok) : ∃ whole rest, Opens C d whole rest := by
  rcases h with ⟨r, front, cs, w, h⟩ | ⟨hnothing, hsettles⟩
  · exact h.opens hC
  · refine ⟨C.items, [], (append_nil _).symm, hsettles, ?_, fun v hv => .inr ⟨hnothing, ?_⟩⟩
    · rw [StageDisk.adopted, hnothing.owed]
      rfl
    · rw [flatMap_nil, prefix_nil] at hv
      show Settles C.items (logFile C.items ++ v)
      rw [hv, append_nil]
      exact settles_logFile hC.items

theorem Recoverable.delivered (h : Recoverable C d) (hC : C.Ok) : d.delivered = C.ledger.settled := by
  obtain ⟨whole, rest, ho⟩ := h.opens hC
  rw [StageDisk.delivered, ho.settles.frames, ho.adopted, Content.ledger, ho.items, flatMap_append, map_append]

theorem Opens.flatten_adopted (h : Opens C d whole rest) : d.adopted.2.flatten = rest.flatMap Item.bytes := by
  rw [h.adopted, ← flatMap_def, ← records, Content.records_items]

theorem Opens.step_setLen (h : Opens C d whole rest) :
    StageDisk.step (.setLen d.settledLog.length) d = { d with log := logFile whole } := by
  have hlog : d.settledLog = logFile whole := h.settles.repairTail
  obtain ⟨written, k, hok, hk, hcut, hsurvive⟩ := h.settles
  have hpre : logFile whole <+: d.log := by
    rw [hcut, ← hsurvive, logFile_eq, logFile_eq, take_append, take_of_length_le hk]
    exact (prefix_append_right_inj _).mpr (survivors_bytes_front _ _)
  rw [StageDisk.step, hlog, ← prefix_iff_eq_take.mp hpre]

theorem Recoverable.after_settle (h : Recoverable C d) (hC : C.Ok) :
    d.after d.settle = { d with log := logFile C.items } := by
  obtain ⟨whole, rest, ho⟩ := h.opens hC
  have hwrites := after_writes d.adopted.2 { d with log := logFile whole }
  rw [StageDisk.after, StageDisk.settle, runAll_cons, ho.step_setLen]
  rw [StageDisk.after] at hwrites
  rw [hwrites, ho.flatten_adopted, ho.items, logFile_append]

theorem Recoverable.settle (h : Recoverable C d) (hC : C.Ok)
    (hd : Crashes StageDisk.step StageDisk.torn d.settle d d') : Recoverable C d' := by
  obtain ⟨whole, rest, ho⟩ := h.opens hC
  rw [StageDisk.settle] at hd
  cases hd with
  | here | during => exact h
  | later hd =>
    rw [ho.step_setLen] at hd
    obtain ⟨v, hv, rfl⟩ := crashes_writes hd
    rw [ho.flatten_adopted] at hv
    exact ho.recoverable v hv

/-! ## A fresh header -/

/-- The kills inside `StageRing::create` over a ring of the same size that do no harm, by the stores made: the
header is still the old one but for its id, or is the new one, or nothing it can show is undrained. -/
def HarmlessCreate (d : StageDisk) (cap stores : Nat) : Prop :=
  ∀ r, d.ring = some r → r.cap = cap →
    r.commit = 0 ∨ stores ≤ 2 ∨ 6 ≤ stores ∨ (r.select = true ∧ stores ≤ 4) ∨
      (stores = 3 ∧ r.head.drained = r.commit)

namespace RingFile

def created (r : RingFile) (cap id len n : Nat) : RingFile := runAll store ((create cap id len).take n) r

variable {cap id len n : Nat}

theorem created_body (hn : n ≤ 5) (hvalid : r.Valid) (hcap : r.cap = cap) :
    (r.created cap id len n).Valid ∧ (r.created cap id len n).cap = r.cap ∧ (r.created cap id len n).data = r.data := by
  obtain ⟨hmagic, hword⟩ := hvalid
  interval_cases n <;> simp [created, create, putSlot, store, mapSlot, Valid, hmagic, hword, hcap]

theorem head_created (hn : n ≤ 5) : (r.created cap id len n).head = if r.select = true ∧ n ≤ 4 then r.head
    else ⟨if 2 ≤ n then id else r.head.logId, if 3 ≤ n then len else r.head.aofLen,
      if 4 ≤ n then 0 else r.head.drained, r.commit⟩ := by
  interval_cases n <;> cases hsel : r.select <;> simp [created, create, putSlot, store, mapSlot, head, hsel]

theorem created_empty (hn : 6 ≤ n) : (r.created cap id len n).head.drained = (r.created cap id len n).commit := by
  have htake : (create cap id len).take n = (create cap id len).take 6 ∨
      (create cap id len).take n = create cap id len := by
    rcases Nat.lt_or_ge n 7 with h | h
    · rw [show n = 6 by omega]
      exact .inl rfl
    · exact .inr (take_of_length_le h)
  unfold created
  rcases htake with h | h <;> rw [h] <;> simp [create, putSlot, store, mapSlot, head]

end RingFile

theorem after_stores (stores : List RingStore) (d : StageDisk) :
    d.after (stores.map .ring) = { d with ring := d.ring.map (runAll RingFile.store stores) } := by
  unfold StageDisk.after
  induction stores generalizing d with
  | nil =>
    obtain ⟨log, ring⟩ := d
    cases ring <;> rfl
  | cons store stores ih =>
    rw [map_cons, runAll_cons, ih]
    cases hr : d.ring <;> simp [StageDisk.step, hr]

theorem create_steps (d : StageDisk) (cap : Nat) : (∃ r, d.ring = some r ∧ r.cap = cap ∧
      d.create cap = (RingFile.create cap (identity d.log).1 (identity d.log).2).map .ring) ∨
    d.create cap = .emptyRing :: .zeroRing cap ::
      (RingFile.create cap (identity d.log).1 (identity d.log).2).map .ring := by
  cases hring : d.ring with
  | none => exact .inr (by simp [StageDisk.create, hring])
  | some r =>
    by_cases hcap : r.cap = cap
    · exact .inl ⟨r, rfl, hcap, by simp [StageDisk.create, hring, hcap]⟩
    · exact .inr (by simp [StageDisk.create, hring, hcap])

theorem after_create (d : StageDisk) (cap n : Nat) :
    (∃ r, d.ring = some r ∧ r.cap = cap ∧ d.after ((d.create cap).take n) =
      { d with ring := some (r.created cap (identity d.log).1 (identity d.log).2 n) }) ∨
    n = 0 ∨ d.after ((d.create cap).take n) = { d with ring := none } ∨
    ∃ m, d.after ((d.create cap).take n) =
      { d with ring := some ((RingFile.zeros cap).created cap (identity d.log).1 (identity d.log).2 m) } := by
  rcases create_steps d cap with ⟨r, hring, hcap, hsteps⟩ | hsteps
  · refine .inl ⟨r, hring, hcap, ?_⟩
    rw [hsteps, ← map_take, after_stores, hring]
    rfl
  · obtain _ | _ | m := n
    · exact .inr (.inl rfl)
    · rw [hsteps]
      exact .inr (.inr (.inl rfl))
    · refine .inr (.inr (.inr ⟨m, ?_⟩))
      rw [hsteps, take_succ_cons, take_succ_cons, ← map_take]
      exact after_stores _ _

theorem after_create_all (d : StageDisk) (cap : Nat) :
    ∃ r, d.after (d.create cap) = { d with ring := some r } ∧ r.Valid ∧ r.cap = cap ∧
      r.head = ⟨(identity d.log).1, (identity d.log).2, 0, 0⟩ := by
  have hmade : ∀ r : RingFile, r.cap = cap →
      (runAll RingFile.store (RingFile.create cap (identity d.log).1 (identity d.log).2) r).Valid ∧
      (runAll RingFile.store (RingFile.create cap (identity d.log).1 (identity d.log).2) r).cap = cap ∧
      (runAll RingFile.store (RingFile.create cap (identity d.log).1 (identity d.log).2) r).head =
        ⟨(identity d.log).1, (identity d.log).2, 0, 0⟩ := by
    intro r hcap
    simp [RingFile.create, RingFile.putSlot, RingFile.store, RingFile.mapSlot, RingFile.Valid, RingFile.head, hcap]
  rcases create_steps d cap with ⟨r, hring, hcap, hsteps⟩ | hsteps
  · refine ⟨_, ?_, hmade r hcap⟩
    rw [hsteps, after_stores, hring, map_some]
  · refine ⟨_, ?_, hmade (.zeros cap) rfl⟩
    rw [hsteps]
    exact after_stores _ _

theorem log_after_create (d : StageDisk) (cap n : Nat) : (d.after ((d.create cap).take n)).log = d.log := by
  rcases after_create d cap n with ⟨r, _, _, h⟩ | rfl | h | ⟨m, h⟩
  · rw [h]
  · rfl
  · rw [h]
  · rw [h]

theorem created_nothing {cap id len n : Nat} (h : r.head.drained = r.commit)
    (hsafe : r.commit = 0 ∨ n ≤ 2 ∨ 6 ≤ n ∨ (r.select = true ∧ n ≤ 4) ∨ (n = 3 ∧ r.head.drained = r.commit)) :
    (r.created cap id len n).head.drained = (r.created cap id len n).commit := by
  rcases Nat.lt_or_ge n 6 with hn | hn
  · have hcommit : (r.created cap id len n).commit = (r.created cap id len n).head.commit := rfl
    rw [hcommit, RingFile.head_created (by omega)]
    by_cases hold : r.select = true ∧ n ≤ 4
    · rw [if_pos hold]
      exact h
    rw [if_neg hold]
    by_cases h4 : 4 ≤ n
    · -- the new slot shows, with its drain offset of zero
      rw [if_pos h4]
      rcases hsafe with h0 | _ | _ | hsel | ⟨_, _⟩
      · exact h0.symm
      · omega
      · omega
      · exact absurd hsel hold
      · omega
    · rw [if_neg h4]
      exact h
  · exact RingFile.created_empty hn

theorem OwesNothing.create (h : OwesNothing d) {cap n : Nat} (hsafe : HarmlessCreate d cap n) :
    OwesNothing (d.after ((d.create cap).take n)) := by
  rcases after_create d cap n with ⟨r, hring, hcap, hd⟩ | rfl | hd | ⟨m, hd⟩
  · rw [hd]
    exact owesNothing_some rfl (created_nothing (h r hring) (hsafe r hring hcap))
  · exact h
  · rw [hd]
    exact owesNothing_none rfl
  · rw [hd]
    exact owesNothing_some rfl (created_nothing rfl (.inl rfl))

theorem Owes.create (h : Owes C d r front cs w) (hlog : d.log = logFile C.items) {n : Nat}
    (hn : n ≤ 2 ∨ (r.select = true ∧ n ≤ 4)) :
    Owes C { d with ring := some (r.created r.cap (identity d.log).1 (identity d.log).2 n) }
      (r.created r.cap (identity d.log).1 (identity d.log).2 n) front cs w := by
  obtain ⟨hvalid, hcap, hdata⟩ := @RingFile.created_body r r.cap (identity d.log).1 (identity d.log).2 n
    (by omega) h.valid rfl
  have hhead := @RingFile.head_created r r.cap (identity d.log).1 (identity d.log).2 n (by omega)
  generalize r.created r.cap (identity d.log).1 (identity d.log).2 n = r' at hvalid hcap hdata hhead
  have hcommit : r'.commit = r'.head.commit := rfl
  have hsame : r'.head.aofLen = r.head.aofLen ∧ r'.head.drained = r.head.drained ∧ r'.commit = r.commit ∧
      (r'.head.logId = r.head.logId ∨ r'.head.logId = (identity d.log).1) := by
    rw [hcommit, hhead]
    by_cases hold : r.select = true ∧ n ≤ 4
    · rw [if_pos hold]
      exact ⟨rfl, rfl, rfl, .inl rfl⟩
    · have h2 := hn.resolve_right hold
      rw [if_neg hold, if_neg (show ¬ 3 ≤ n by omega), if_neg (show ¬ 4 ≤ n by omega)]
      refine ⟨rfl, rfl, rfl, ?_⟩
      split_ifs with hid
      · exact .inr rfl
      · exact .inl rfl
  obtain ⟨hlen, hdrained, hcom, hid⟩ := hsame
  refine ⟨rfl, hvalid, ⟨?_, ?_, h.pending.ok⟩, h.front_le, h.frames, h.log, h.written, hlen.trans h.len, ?_⟩
  · rw [hdrained, hcom]
    exact h.pending.holds.congr hcap fun _ _ _ => by rw [hdata]
  · rw [hdrained, hcom, hcap]
    exact h.pending.window
  · rcases hid with hid | hid
    · rw [hid]
      exact h.id
    · refine ⟨C.items, min d.log.length idSpan, prefix_refl _, ?_, ?_, ?_⟩
      · exact ⟨[], by rw [append_nil, ← hlog]⟩
      · rw [hlog]
        exact Nat.min_le_left _ _
      · rw [hid, identity, hlog]

theorem Recoverable.create (h : Recoverable C d) (hC : C.Ok) (hlog : d.log = logFile C.items) {cap n : Nat}
    (hsafe : HarmlessCreate d cap n) : Recoverable C (d.after ((d.create cap).take n)) := by
  have hsettles : Settles C.items (d.after ((d.create cap).take n)).log := by
    rw [log_after_create, hlog]
    exact settles_logFile hC.items
  by_cases hnothing : OwesNothing d
  · exact .inr ⟨hnothing.create hsafe, hsettles⟩
  rcases h with ⟨r, front, cs, w, ho⟩ | ⟨h, _⟩
  swap
  · exact absurd h hnothing
  have hsome : r.head.drained ≠ r.commit := fun heq => hnothing (owesNothing_some ho.ring heq)
  rcases after_create d cap n with ⟨r0, hring, rfl, hd⟩ | rfl | hd | ⟨m, hd⟩
  · rw [ho.ring] at hring
    obtain rfl := some.inj hring
    have hle := ho.pending.holds.le
    rcases hsafe r ho.ring rfl with h0 | h2 | h6 | hsel | ⟨_, heq⟩
    · omega
    · rw [hd]
      exact .inl ⟨_, front, cs, w, ho.create hlog (.inl h2)⟩
    · refine .inr ⟨?_, hsettles⟩
      rw [hd]
      exact owesNothing_some rfl (RingFile.created_empty h6)
    · rw [hd]
      exact .inl ⟨_, front, cs, w, ho.create hlog (.inr hsel)⟩
    · exact absurd heq hsome
  · exact .inl ⟨r, front, cs, w, ho⟩
  · refine .inr ⟨?_, hsettles⟩
    rw [hd]
    exact owesNothing_none rfl
  · refine .inr ⟨?_, hsettles⟩
    rw [hd]
    exact owesNothing_some rfl (created_nothing rfl (.inl rfl))

end Kevy.Persist
