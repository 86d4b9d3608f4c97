import Kevy.Persist.LogBase

/-!
# Committing a snapshot

A snapshot commit replaces two files, the snapshot and the log, by renames. `settle_snapshot` looks at the
head of the log to find out which snapshot belongs to it. That works when the old log names its base. The
very first commit starts from a log that names none, and there a crash between the two renames leaves the
new snapshot under the complete old log: every write in the snapshot is applied twice.
-/

namespace Kevy.Persist

open Kevy.Lib Kevy.Resp List Option

/-! ## The files of a shard -/

/-- A snapshot file: the keyspace it holds and the id in its footer. -/
structure Snapshot (σ : Type) where
  view : σ
  id : Option Nat
  deriving DecidableEq

structure Shard (σ : Type) where
  snapshot : Option (Snapshot σ) := none
  prev : Option (Snapshot σ) := none
  snapTmp : Option (Snapshot σ) := none
  log : Option Bytes := none
  resetTmp : Option Bytes := none
  deriving DecidableEq

def snapshotId {σ : Type} (file : Option (Snapshot σ)) : Option Nat := file.bind Snapshot.id

/-- The first half of `settle_snapshot`: a commit that stopped half way is finished or undone. -/
def settlePrev {σ : Type} (head : LogHead) (f : Shard σ) : Shard σ :=
  match f.prev with
  | none => f
  | some prev =>
    let committed := match head with
      | .after id => snapshotId f.snapshot == some id
      | .missing => f.snapshot.isSome
      | .legacy | .standsAlone => false
    if committed then { f with prev := none } else { f with snapshot := some prev, prev := none }

/-- `settle_snapshot`: the settled files and whether the snapshot is loaded under the log; `none` when the
log continues a snapshot that is not there. -/
def settleSnapshot {σ : Type} (f : Shard σ) : Option (Shard σ × Bool) :=
  let head := readLogHead f.log
  let f := settlePrev head f
  match head with
  | .standsAlone => some (f, false)
  | .after id => if snapshotId f.snapshot = some id then some (f, true) else none
  | .legacy | .missing => some (f, f.snapshot.isSome)

/-! ## Keyspaces -/

def runCommands {σ : Type} (apply : σ → Argv → σ) (s : σ) (cmds : List (List Bytes)) : σ :=
  (cmds.map Argv.ofArgs).foldl apply s

/-- What commands do to a keyspace, and the commands a rewrite dumps one as. Replaying the dump rebuilds the
keyspace. -/
structure Keyspace (σ : Type) where
  empty : σ
  apply : σ → Argv → σ
  dump : σ → List (List Bytes)
  dump_ok : ∀ cmds, (∀ c ∈ cmds, CommandOk c) →
    ∀ c ∈ dump (runCommands apply empty cmds), CommandOk c
  dump_run : ∀ cmds, (∀ c ∈ cmds, CommandOk c) →
    runCommands apply empty (dump (runCommands apply empty cmds)) = runCommands apply empty cmds

namespace Keyspace

variable {σ : Type} (K : Keyspace σ)

def run (cmds : List (List Bytes)) : σ := runCommands K.apply K.empty cmds

theorem run_append (cs ds : List (List Bytes)) : K.run (cs ++ ds) = runCommands K.apply (K.run cs) ds := by
  simp [run, runCommands]

end Keyspace

section History

variable {σ : Type} (K : Keyspace σ)

def restore (f : Shard σ) : Option (Shard σ × σ) :=
  (settleSnapshot f).map fun (f, loads) =>
    let start := if loads then (f.snapshot.map Snapshot.view).getD K.empty else K.empty
    (f, (replayedFrames f.log).foldl K.apply start)

/-! ## The commit -/

/-- The file-system steps of `commit_snapshot_steps`, with `write_log_base` and
`finish_concurrent_rewrite`. -/
inductive CommitStep
  | keepPrevious
  | placeSnapshot
  | createReset
  | writeMagic
  | writeBase (id : Nat)
  | appendTee (tee : Bytes)
  | swapLog
  | dropPrevious

def CommitStep.run (f : Shard σ) : CommitStep → Shard σ
  | .keepPrevious =>
    match f.snapshot with
    | some s => { f with prev := some s, snapshot := none }
    | none => f
  | .placeSnapshot => { f with snapshot := f.snapTmp, snapTmp := none }
  | .createReset => { f with resetTmp := some [] }
  | .writeMagic => { f with resetTmp := f.resetTmp.map (· ++ aof2Magic) }
  | .writeBase id => { f with resetTmp := f.resetTmp.map (· ++ writeRecordMultibulk (baseFrame id)) }
  | .appendTee tee => { f with resetTmp := f.resetTmp.map (· ++ tee) }
  | .swapLog => { f with log := f.resetTmp, resetTmp := none }
  | .dropPrevious => { f with prev := none }

/-- `commit_snapshot_steps`; `kept` says whether there was a snapshot to keep. -/
def commitSteps (kept : Bool) (id : Nat) (tee : Bytes) : List CommitStep :=
  [.keepPrevious, .placeSnapshot, .createReset, .writeMagic, .writeBase id, .appendTee tee, .swapLog] ++
    if kept then [.dropPrevious] else []

/-! ## Histories -/

/-- A running shard: its files and the keyspace in memory. -/
structure Live (σ : Type) where
  files : Shard σ
  store : σ

/-- What happens to a shard. A rewrite and a snapshot carry the appends that arrive between the freeze of the
keyspace and the end: they go to the old log and to the tee. -/
inductive Event
  | append (it : Item)
  | rewrite (during : List Item)
  | snapshot (id : Nat) (during : List Item)
  | restart

def Event.items : Event → List Item
  | .append it => [it]
  | .rewrite during => during
  | .snapshot _ during => during
  | .restart => []

def Live.append (l : Live σ) (it : Item) : Live σ :=
  { files := { l.files with log := l.files.log.map fun file => it.write file }
    store := runCommands K.apply l.store it.commands }

def teeOf (during : List Item) : Bytes := during.foldl Item.write []

def imageOf (s : σ) : Bytes :=
  aof2Magic ++ (writeRecordMultibulk (baseFrame 0) ++ records (K.dump s))

/-- The shard when a commit begins: the frozen keyspace is in `snap_tmp`, the appends made since are in the
log. -/
def Live.frozen (l : Live σ) (id : Nat) (during : List Item) : Live σ :=
  let l' := during.foldl (Live.append K) l
  { l' with files := { l'.files with snapTmp := some ⟨l.store, some id⟩ } }

def Live.committing (l : Live σ) (id : Nat) (during : List Item) (k : Nat) : Shard σ :=
  let f := (l.frozen K id during).files
  ((commitSteps f.snapshot.isSome id (teeOf during)).take k).foldl CommitStep.run f

/-- One event; `none` when a restart is refused. -/
def Live.step (l : Live σ) : Event → Option (Live σ)
  | .append it => some (l.append K it)
  | .rewrite during =>
    let l' := during.foldl (Live.append K) l
    some { l' with files := { l'.files with log := some (imageOf K l.store ++ teeOf during) } }
  | .snapshot id during =>
    -- a commit has at most eight steps
    some { files := l.committing K id during 8, store := (l.frozen K id during).store }
  | .restart => (restore K l.files).map fun (files, store) => ⟨files, store⟩

/-- A fresh shard: `Aof::open` writes the magic. -/
def fresh : Live σ := ⟨{ log := some aof2Magic }, K.empty⟩

def history (events : List Event) : Option (Live σ) :=
  events.foldlM (Live.step K) (fresh K)

end History

def appended (events : List Event) : List (List Bytes) :=
  (events.flatMap Event.items).flatMap Item.commands

/-- **Exactly once.** After the history, a snapshot commit and a crash behind its first `k` file-system
steps, a boot restores every keyspace to what the appended commands build, each applied once. -/
def ExactlyOnce (events : List Event) (id : Nat) (during : List Item) (k : Nat) : Prop :=
  ∀ (σ : Type) (K : Keyspace σ), ∃ l f, history K events = some l ∧
    restore K (l.committing K id during k) =
      some (f, K.run (appended events ++ during.flatMap Item.commands))

/-! ## What a boot restores -/

section Restore

variable {σ : Type} (K : Keyspace σ) {f : Shard σ} {items : List Item}

theorem settlePrev_none {head : LogHead} (h : f.prev = none) : settlePrev head f = f := by
  simp only [settlePrev, h]

theorem restore_legacy (hok : ∀ it ∈ items, it.Ok) (hlog : f.log = some (logFile items)) (hprev : f.prev = none) :
    restore K f = some (f, runCommands K.apply ((f.snapshot.map Snapshot.view).getD K.empty)
      (items.flatMap Item.commands)) := by
  rw [restore, settleSnapshot, hlog, readLogHead_logFile hok]
  simp only [settlePrev_none hprev, map_some, hlog, replayedFrames_logFile hok, runCommands]
  cases hs : f.snapshot <;> simp

theorem restore_alone (hok : ∀ it ∈ items, it.Ok) (hlog : f.log = some (basedLog 0 items)) :
    restore K f = some (settlePrev .standsAlone f, K.run (items.flatMap Item.commands)) := by
  have hkeep : (settlePrev .standsAlone f).log = f.log := by
    rw [settlePrev]
    cases f.prev <;> rfl
  rw [restore, settleSnapshot, hlog, readLogHead_basedLog (by decide), if_pos rfl]
  simp only [map_some, hkeep, hlog, replayedFrames_basedLog (show 0 < 2 ^ 64 by decide) hok]
  rfl

theorem restore_after {id : Nat} {view : σ} (hok : ∀ it ∈ items, it.Ok) (hid : id < 2 ^ 64)
    (h0 : id ≠ 0) (hlog : f.log = some (basedLog id items))
    (hsnap : (settlePrev (.after id) f).snapshot = some ⟨view, some id⟩) : restore K f =
      some (settlePrev (.after id) f, runCommands K.apply view (items.flatMap Item.commands)) := by
  have hkeep : (settlePrev (.after id) f).log = f.log := by
    rw [settlePrev]
    cases f.prev with
    | none => rfl
    | some prev => simp only; split_ifs <;> rfl
  rw [restore, settleSnapshot, hlog, readLogHead_basedLog hid, if_neg h0]
  have hfound : snapshotId (settlePrev (.after id) f).snapshot = some id := by
    rw [hsnap]
    rfl
  simp only
  rw [if_pos hfound, map_some]
  simp only [if_true, hkeep, hlog, replayedFrames_basedLog hid hok, hsnap, map_some, getD_some, runCommands]

theorem settlePrev_current {id : Nat} {view : σ} (h : f.snapshot = some ⟨view, some id⟩) :
    (settlePrev (.after id) f).snapshot = some ⟨view, some id⟩ := by
  rw [settlePrev]
  cases f.prev with
  | none => exact h
  | some prev => simp [h, snapshotId]

theorem settlePrev_undo {id : Nat} {prev : Snapshot σ} (hprev : f.prev = some prev)
    (h : snapshotId f.snapshot ≠ some id) : (settlePrev (.after id) f).snapshot = some prev := by
  simp [settlePrev, hprev, h]

end Restore

/-! ## The steps of a commit -/

section Commit

variable {σ : Type} {K : Keyspace σ}

theorem foldl_append_live (during : List Item) (l : Live σ) : during.foldl (Live.append K) l =
      { files := { l.files with log := l.files.log.map fun file => during.foldl Item.write file }
        store := runCommands K.apply l.store (during.flatMap Item.commands) } := by
  induction during generalizing l with
  | nil => simp [runCommands]
  | cons it during ih =>
    rw [foldl_cons, ih, Live.append]
    simp [runCommands, Function.comp_def]

theorem teeOf_eq (during : List Item) : teeOf during = during.flatMap Item.bytes := by
  rw [teeOf, foldl_write, nil_append]

theorem committing_cases (l : Live σ) (id : Nat) (during : List Item) (k : Nat) (hprev : l.files.prev = none) :
    let f := l.committing K id during k
    let log := l.files.log.map fun file => during.foldl Item.write file
    (k = 0 ∧ f.snapshot = l.files.snapshot ∧ f.prev = none ∧ f.log = log) ∨
    (k = 1 ∧ f.snapshot = none ∧ f.prev = l.files.snapshot ∧ f.log = log) ∨
    (2 ≤ k ∧ k ≤ 6 ∧ f.snapshot = some ⟨l.store, some id⟩ ∧ f.prev = l.files.snapshot ∧ f.log = log) ∨
    (7 ≤ k ∧ f.snapshot = some ⟨l.store, some id⟩ ∧ f.log = some (basedLog id during) ∧
      (8 ≤ k → f.prev = none)) := by
  have hbased : aof2Magic ++ writeRecordMultibulk (baseFrame id) ++ teeOf during = basedLog id during := by
    rw [teeOf_eq, basedLog, append_assoc]
  rw [Live.committing, Live.frozen, foldl_append_live]
  obtain _ | _ | _ | _ | _ | _ | _ | k := k
  all_goals cases hs : l.files.snapshot <;>
    simp [commitSteps, CommitStep.run, hs, hprev, hbased]
  -- what is left: the log is swapped, and the kept snapshot may or may not be gone
  cases k <;> simp [CommitStep.run]

end Commit

/-! ## Files and commands stay paired -/

def Event.rebases : Event → Bool
  | .rewrite _ => true
  | .snapshot _ _ => true
  | _ => false

/-- The log was never rewritten, and no snapshot was ever taken. -/
def NeverBased (events : List Event) : Prop := ∀ e ∈ events, e.rebases = false

def snapshotIds (events : List Event) : List Nat :=
  events.filterMap fun e => match e with
    | .snapshot id _ => some id
    | _ => none

/-- `fresh_snapshot_id`: nonzero, and never the same for two commits. -/
structure FreshIds (ids : List Nat) : Prop where
  pos : ∀ id ∈ ids, id ≠ 0
  bound : ∀ id ∈ ids, id < 2 ^ 64
  nodup : ids.Nodup

theorem FreshIds.sublist {xs ys : List Nat} (h : FreshIds ys) (hsub : xs <+ ys) : FreshIds xs :=
  ⟨fun i hi => h.pos i (hsub.mem hi), fun i hi => h.bound i (hsub.mem hi), h.nodup.sublist hsub⟩

def Event.Ok (e : Event) : Prop := ∀ it ∈ e.items, it.Ok

section Paired

variable {σ : Type} (K : Keyspace σ)

/-- The snapshot and the log together hold the commands `cmds`, each once. `based` says whether the log names
its base, `ids` are the snapshot ids given out so far. -/
inductive Paired (based : Prop) (ids : List Nat) (cmds : List (List Bytes)) (f : Shard σ) : Prop
  | legacy (items : List Item) : ¬ based → (∀ it ∈ items, it.Ok) → f.snapshot = none →
      f.log = some (logFile items) → items.flatMap Item.commands = cmds → Paired based ids cmds f
  | alone (items : List Item) : based → (∀ it ∈ items, it.Ok) → f.log = some (basedLog 0 items) →
      K.run (items.flatMap Item.commands) = K.run cmds → Paired based ids cmds f
  | after (id : Nat) (pre : List (List Bytes)) (items : List Item) : based → (∀ it ∈ items, it.Ok) →
      id ∈ ids → f.snapshot = some ⟨K.run pre, some id⟩ → f.log = some (basedLog id items) →
      pre ++ items.flatMap Item.commands = cmds → Paired based ids cmds f

structure Settled (based : Prop) (ids : List Nat) (cmds : List (List Bytes)) (l : Live σ) : Prop where
  store : l.store = K.run cmds
  prev : l.files.prev = none
  paired : Paired K based ids cmds l.files

end Paired

theorem logFile_extend (items during : List Item) :
    during.foldl Item.write (logFile items) = logFile (items ++ during) := by
  rw [logFile, logFile, foldl_append]

theorem basedLog_extend (id : Nat) (items during : List Item) :
    during.foldl Item.write (basedLog id items) = basedLog id (items ++ during) := by
  rw [foldl_write, basedLog, basedLog, flatMap_append]
  simp only [append_assoc]

section Steps

variable {σ : Type} {K : Keyspace σ} {based : Prop} {ids : List Nat} {cmds : List (List Bytes)}
  {l : Live σ} {during : List Item}

theorem Paired.congr {f g : Shard σ} (h : Paired K based ids cmds f) (hs : g.snapshot = f.snapshot)
    (hl : g.log = f.log) : Paired K based ids cmds g := by
  cases h with
  | legacy items hb hok hsnap hlog hcmds =>
    exact .legacy items hb hok (hs.trans hsnap) (hl.trans hlog) hcmds
  | alone items hb hok hlog hrun => exact .alone items hb hok (hl.trans hlog) hrun
  | after id pre items hb hok hid hsnap hlog hcmds =>
    exact .after id pre items hb hok hid (hs.trans hsnap) (hl.trans hlog) hcmds

theorem Paired.snapshot_none {f : Shard σ} (h : Paired K based ids cmds f) (hbased : ¬ based) : f.snapshot = none := by
  cases h with
  | legacy _ _ _ hsnap => exact hsnap
  | alone _ hb => exact absurd hb hbased
  | after _ _ _ hb => exact absurd hb hbased

section Settled

variable (h : Settled K based ids cmds l)
include h

theorem Settled.restore (hids : FreshIds ids) : Persist.restore K l.files = some (l.files, K.run cmds) := by
  cases h.paired with
  | legacy items _ hok hsnap hlog hcmds =>
    rw [restore_legacy K hok hlog h.prev, hsnap, hcmds]
    rfl
  | alone items _ hok hlog hrun => rw [restore_alone K hok hlog, settlePrev_none h.prev, hrun]
  | after id pre items _ hok hid hsnap hlog hcmds =>
    have hfound : (settlePrev (.after id) l.files).snapshot = some ⟨K.run pre, some id⟩ :=
      settlePrev_current hsnap
    rw [restore_after K hok (hids.bound id hid) (hids.pos id hid) hlog hfound, settlePrev_none h.prev,
      ← K.run_append, hcmds]

theorem Settled.append (hok : ∀ it ∈ during, it.Ok) :
    Settled K based ids (cmds ++ during.flatMap Item.commands) (during.foldl (Live.append K) l) := by
  have hall : ∀ {items : List Item}, (∀ it ∈ items, it.Ok) → ∀ it ∈ items ++ during, it.Ok :=
    fun hitems => forall_mem_append.mpr ⟨hitems, hok⟩
  rw [foldl_append_live]
  refine ⟨by rw [h.store, K.run_append], h.prev, ?_⟩
  cases h.paired with
  | legacy items hbased hitems hsnap hlog hcmds =>
    refine .legacy (items ++ during) hbased (hall hitems) hsnap ?_ ?_
    · rw [hlog, map_some, logFile_extend]
    · rw [flatMap_append, hcmds]
  | alone items hbased hitems hlog hrun =>
    refine .alone (items ++ during) hbased (hall hitems) ?_ ?_
    · rw [hlog, map_some, basedLog_extend]
    · rw [flatMap_append, K.run_append, hrun, ← K.run_append]
  | after id pre items hbased hitems hid hsnap hlog hcmds =>
    refine .after id pre (items ++ during) hbased (hall hitems) hid hsnap ?_ ?_
    · rw [hlog, map_some, basedLog_extend]
    · rw [flatMap_append, ← append_assoc, hcmds]

theorem Settled.rewrite (hcmds : ∀ c ∈ cmds, CommandOk c)
    (hok : ∀ it ∈ during, it.Ok) : ∃ l', l.step K (.rewrite during) = some l' ∧
      Settled K True ids (cmds ++ during.flatMap Item.commands) l' := by
  have happ := h.append hok
  refine ⟨_, rfl, happ.store, happ.prev, ?_⟩
  refine .alone ((K.dump (K.run cmds)).map Item.command ++ during) trivial ?_ ?_ ?_
  · refine forall_mem_append.mpr ⟨forall_mem_map.mpr fun c hc d hd => ?_, hok⟩
    rw [mem_singleton.mp hd]
    exact K.dump_ok cmds hcmds c hc
  · have hbytes : ∀ cs : List (List Bytes), (cs.map Item.command).flatMap Item.bytes = records cs := by
      intro cs
      simp [records, flatMap_map, Item.bytes, Item.frames]
    simp only [imageOf, teeOf_eq, h.store, basedLog, flatMap_append, hbytes, append_assoc]
  · have hdump : ((K.dump (K.run cmds)).map Item.command).flatMap Item.commands = K.dump (K.run cmds) := by
      simp [flatMap_map, Item.commands]
    rw [flatMap_append, hdump, K.run_append, K.run_append]
    exact congrArg (fun s => runCommands K.apply s _) (K.dump_run cmds hcmds)

theorem Settled.restore_old {f : Shard σ} (hids : FreshIds ids) (hbased : based) (hlog : f.log = l.files.log)
    (hfiles : f.prev = l.files.snapshot ∧ ∀ id ∈ ids, snapshotId f.snapshot ≠ some id) :
    ∃ f', Persist.restore K f = some (f', K.run cmds) := by
  cases h.paired with
  | legacy items hnot => exact absurd hbased hnot
  | alone items _ hok hl hrun =>
    rw [← hrun]
    exact ⟨_, restore_alone K hok (hlog.trans hl)⟩
  | after id pre items _ hok hid hsnap hl hcmds =>
    have hprev : f.prev = some ⟨K.run pre, some id⟩ := hfiles.1.trans hsnap
    have hfound := settlePrev_undo hprev (hfiles.2 id hid)
    have := restore_after K hok (hids.bound id hid) (hids.pos id hid) (hlog.trans hl) hfound
    rw [← K.run_append, hcmds] at this
    exact ⟨_, this⟩

/-- A crash in the first commit ever, between its two renames: the new snapshot is loaded under the old
log, which still holds everything that is in the snapshot. -/
theorem Settled.crash_first {id k : Nat} (hok : ∀ it ∈ during, it.Ok) (hbased : ¬ based) (h2 : 2 ≤ k) (h6 : k ≤ 6) :
    ∃ f, Persist.restore K (l.committing K id during k) =
      some (f, runCommands K.apply (K.run cmds) (cmds ++ during.flatMap Item.commands)) := by
  have happ := h.append hok
  rw [foldl_append_live] at happ
  rcases committing_cases l id during k h.prev with ⟨rfl, _⟩ | ⟨rfl, _⟩ | ⟨_, _, hs, hp, hl⟩ | ⟨h7, _⟩
  · omega
  · omega
  · cases happ.paired with
    | alone _ hb => exact absurd hb hbased
    | after _ _ _ hb => exact absurd hb hbased
    | legacy items _ hitems hsnap hlog hcmds =>
      have hprev : (l.committing K id during k).prev = none := hp.trans hsnap
      refine ⟨l.committing K id during k, (restore_legacy K hitems (hl.trans hlog) hprev).trans ?_⟩
      rw [hs, hcmds, h.store]
      rfl
  · omega

/-- **A crash inside a commit, over a log that names its base:** the boot finds a matching pair, the old one
or the new one. -/
theorem Settled.crash {id k : Nat} (hids : FreshIds (id :: ids))
    (hok : ∀ it ∈ during, it.Ok) (hgood : based ∨ k < 2 ∨ 6 < k ∨ cmds = []) :
    ∃ f, Persist.restore K (l.committing K id during k) = some (f, K.run (cmds ++ during.flatMap Item.commands)) := by
  have hold : FreshIds ids := hids.sublist (sublist_cons_self _ _)
  have hnew : ∀ i ∈ ids, snapshotId (some (⟨l.store, some id⟩ : Snapshot σ)) ≠ some i := by
    intro i hi heq
    have : id = i := some.inj heq
    exact (nodup_cons.mp hids.nodup).1 (this ▸ hi)
  have happ := h.append hok
  rw [foldl_append_live] at happ
  rcases committing_cases l id during k h.prev with
    ⟨rfl, hs, hp, hl⟩ | ⟨rfl, hs, hp, hl⟩ | ⟨h2, h6, hs, hp, hl⟩ | ⟨h7, hs, hl, _⟩
  · -- nothing was done yet
    have hset : Settled K based ids (cmds ++ during.flatMap Item.commands)
        ⟨l.committing K id during 0, runCommands K.apply l.store (during.flatMap Item.commands)⟩ :=
      ⟨happ.store, hp, happ.paired.congr hs hl⟩
    exact ⟨_, hset.restore hold⟩
  · -- the old snapshot is out of the way
    by_cases hbased : based
    · refine happ.restore_old hold hbased hl ⟨hp, fun i _ => ?_⟩
      rw [hs]
      exact nofun
    · have hset : Settled K based ids (cmds ++ during.flatMap Item.commands)
          ⟨l.committing K id during 1, runCommands K.apply l.store (during.flatMap Item.commands)⟩ := by
        have hnone := h.paired.snapshot_none hbased
        exact ⟨happ.store, hp.trans hnone, happ.paired.congr (hs.trans hnone.symm) hl⟩
      exact ⟨_, hset.restore hold⟩
  · -- the new snapshot is in place, the old log too
    by_cases hbased : based
    · refine happ.restore_old hold hbased hl ⟨hp, ?_⟩
      rw [hs]
      exact hnew
    · have hcmds : cmds = [] := by
        rcases hgood with hb | hk | hk | hcmds
        · exact absurd hb hbased
        · omega
        · omega
        · exact hcmds
      subst hcmds
      exact h.crash_first hok hbased h2 h6
  · -- the new log is in place
    have hfound := settlePrev_current hs
    have := restore_after K hok (hids.bound id mem_cons_self) (hids.pos id mem_cons_self) hl hfound
    rw [h.store, ← K.run_append] at this
    exact ⟨_, this⟩

theorem Settled.snapshot {id : Nat} (hok : ∀ it ∈ during, it.Ok) : ∃ l', l.step K (.snapshot id during) = some l' ∧
      Settled K True (ids ++ [id]) (cmds ++ during.flatMap Item.commands) l' := by
  have happ := h.append hok
  rcases committing_cases l id during 8 h.prev with ⟨h8, _⟩ | ⟨h8, _⟩ | ⟨_, h8, _⟩ | ⟨_, hs, hl, hp⟩
  · omega
  · omega
  · omega
  · refine ⟨_, rfl, happ.store, hp le_rfl, .after id cmds during trivial hok (by simp) ?_ hl rfl⟩
    rw [hs, h.store]

end Settled

end Steps

/-! ## Whole histories -/

theorem appended_concat (events : List Event) (e : Event) :
    appended (events ++ [e]) = appended events ++ e.items.flatMap Item.commands := by
  simp [appended]

theorem neverBased_concat (events : List Event) (e : Event) :
    (¬ NeverBased (events ++ [e])) = (¬ NeverBased events ∨ e.rebases = true) := by
  simp [NeverBased, imp_iff_not_or]

theorem appended_ok {events : List Event} (h : ∀ e ∈ events, e.Ok) : ∀ c ∈ appended events, CommandOk c := by
  intro c hc
  obtain ⟨it, hit, hc⟩ := mem_flatMap.mp hc
  obtain ⟨e, he, hit⟩ := mem_flatMap.mp hit
  exact h e he it hit c hc

theorem history_settled {σ : Type} (K : Keyspace σ) (events : List Event) (hok : ∀ e ∈ events, e.Ok)
    (hids : FreshIds (snapshotIds events)) : ∃ l, history K events = some l ∧
      Settled K (¬ NeverBased events) (snapshotIds events) (appended events) l := by
  induction events using List.reverseRecOn with
  | nil =>
    refine ⟨fresh K, rfl, rfl, rfl, .legacy [] ?_ (by simp) rfl rfl rfl⟩
    simp [NeverBased]
  | append_singleton events e ih =>
    have hsplit : snapshotIds (events ++ [e]) = snapshotIds events ++ snapshotIds [e] := by
      simp [snapshotIds]
    have hok' : ∀ e ∈ events, e.Ok := fun x hx => hok x (mem_append_left _ hx)
    have he : e.Ok := hok e (by simp)
    rw [hsplit] at hids ⊢
    have hold := hids.sublist (sublist_append_left _ _)
    obtain ⟨l, hl, hset⟩ := ih hok' hold
    have hstep : history K (events ++ [e]) = l.step K e := by
      rw [history, foldlM_append, ← history, hl]
      simp
    rw [hstep, appended_concat, neverBased_concat]
    cases e with
    | append it =>
      simp only [Event.rebases, Bool.false_eq_true, or_false]
      refine ⟨_, rfl, ?_⟩
      simpa [snapshotIds, Event.items] using hset.append he
    | restart =>
      simp only [Event.rebases, Bool.false_eq_true, or_false]
      refine ⟨⟨l.files, K.run (appended events)⟩, ?_, ?_⟩
      · rw [Live.step, hset.restore hold]
        rfl
      · simpa [snapshotIds, Event.items] using
          (⟨rfl, hset.prev, hset.paired⟩ : Settled K _ _ _ ⟨l.files, K.run (appended events)⟩)
    | rewrite during =>
      simp only [Event.rebases, or_true]
      simpa [snapshotIds, Event.items] using hset.rewrite (appended_ok hok') he
    | snapshot id during =>
      simp only [Event.rebases, or_true]
      exact hset.snapshot he

/-! ## Exactly once -/

def counter : Keyspace Nat where
  empty := 0
  apply n _ := n + 1
  dump n := List.replicate n [[80]]
  dump_ok := by
    intro cmds _ c hc
    rw [eq_of_mem_replicate hc]
    exact commandOk_byte 80
  dump_run := by
    intro cmds _
    simp [runCommands]

theorem runCommands_counter (n : Nat) (cmds : List (List Bytes)) :
    runCommands counter.apply n cmds = n + cmds.length := by
  simp [runCommands, counter]

/-- **A commit is exactly-once except the first one.** A crash between the renames of the snapshot and of the
log doubles what is in the snapshot exactly when the log does not name its base. -/
theorem exactlyOnce_iff {events : List Event} {id : Nat} {during : List Item} (k : Nat)
    (hok : ∀ e ∈ events, e.Ok) (hduring : ∀ it ∈ during, it.Ok) (hids : FreshIds (id :: snapshotIds events)) :
    ExactlyOnce events id during k ↔ ¬ (NeverBased events ∧ 2 ≤ k ∧ k ≤ 6 ∧ appended events ≠ []) := by
  have hold : FreshIds (snapshotIds events) := hids.sublist (sublist_cons_self _ _)
  constructor
  · rintro h ⟨hnever, h2, h6, hne⟩
    -- a counter shows the double application
    obtain ⟨l, f, hl, hrestore⟩ := h Nat counter
    obtain ⟨l', hl', hset⟩ := history_settled counter events hok hold
    rw [hl] at hl'
    cases hl'
    have hfirst := @Settled.crash_first _ _ _ _ _ _ _ hset id _ hduring (not_not.mpr hnever) h2 h6
    obtain ⟨f', hcrash⟩ := hfirst
    rw [hrestore] at hcrash
    have hcount := congrArg Prod.snd (some.inj hcrash)
    simp only [Keyspace.run, runCommands_counter] at hcount
    have hlen : (appended events).length = 0 := by omega
    exact hne (length_eq_zero_iff.mp hlen)
  · intro h σ K
    obtain ⟨l, hl, hset⟩ := history_settled K events hok hold
    have hgood : (¬ NeverBased events) ∨ k < 2 ∨ 6 < k ∨ appended events = [] := by
      by_cases hnever : NeverBased events
      · by_cases hk : k < 2 ∨ 6 < k
        · tauto
        · by_contra hcon
          exact h ⟨hnever, by omega, by omega, by tauto⟩
      · exact .inl hnever
    obtain ⟨f, hf⟩ := hset.crash hids hduring hgood
    exact ⟨l, f, hl, hf⟩

theorem item_byte_ok (b : UInt8) : (Item.command [[b]]).Ok := by
  intro c hc
  rw [mem_singleton.mp hc]
  exact commandOk_byte b

/-- Behind a rewrite the commit is exactly-once, here with the crash right behind the snapshot's rename. -/
theorem exactlyOnce_behind_rewrite : ExactlyOnce [.append (.command [[80]]), .rewrite []] 7 [.command [[81]]] 2 := by
  refine (exactlyOnce_iff 2 ?_ ?_ ?_).mpr ?_
  · intro e he it hit
    simp only [mem_cons, not_mem_nil, or_false] at he
    rcases he with rfl | rfl
    · rw [mem_singleton.mp hit]
      exact item_byte_ok 80
    · cases hit
  · intro it hit
    rw [mem_singleton.mp hit]
    exact item_byte_ok 81
  · exact ⟨by decide, by decide, by decide⟩
  · rintro ⟨hnever, _⟩
    exact absurd (hnever (.rewrite []) (by simp)) (by decide)

/-- One command, then the first snapshot, and a crash right behind its rename: a counter restores to two. -/
theorem first_commit_doubles : ((history counter [.append (.command [[80]])]).bind fun l =>
      (restore counter (l.committing counter 7 [] 2)).map Prod.snd) = some 2 ∧
    ¬ ExactlyOnce [.append (.command [[80]])] 7 [] 2 := by
  have htwo : ((history counter [.append (.command [[80]])]).bind fun l =>
      (restore counter (l.committing counter 7 [] 2)).map Prod.snd) = some 2 := by
    decide +kernel
  refine ⟨htwo, fun h => ?_⟩
  obtain ⟨l, f, hl, hrestore⟩ := h Nat counter
  rw [hl, bind_some, hrestore] at htwo
  have hone : counter.run (appended [.append (.command [[80]])] ++ [].flatMap Item.commands) = 1 := by
    decide
  rw [map_some, hone] at htwo
  cases htwo

end Kevy.Persist
