import Kevy.Persist.CrashCut

/-!
# The snapshot a log continues

The first record of a log may be a `LOG_BASE` frame. It names the snapshot whose later writes the log holds,
or 0 for a log that is a complete image. A log without the frame is a legacy one: it is replayed over
whatever snapshot is there. `read_log_head` tells the three apart from the first bytes of the file.
-/

namespace Kevy.Persist

open Kevy.Lib Kevy.Resp List

def baseFrame (id : Nat) : List Bytes := [logBase, leBytes 8 id]

inductive LogHead
  | missing
  | legacy
  | standsAlone
  | after (id : Nat)
  deriving DecidableEq, Repr

def LogHead.ofFrame (args : Argv) : LogHead :=
  match baseOf args with
  | some 0 => .standsAlone
  | some id => .after id
  | none => .legacy

def readLogHead : (log : Option Bytes) → LogHead
  | none => .missing
  | some file =>
    -- the frame is well under this; a longer first record is not the frame
    let head := file.take 128
    if head.take aof2Magic.length ≠ aof2Magic then .legacy
    else match nextRecord head aof2Magic.length with
      | .ok payload _ =>
        match parseCommandInto payload with
        | .ok (some (args, _)) => LogHead.ofFrame args
        | _ => .legacy
      | _ => .legacy

/-! ## Heads of written logs -/

theorem readLogHead_short {c : List Bytes} (hc : FrameOk c)
    (hlen : aof2Magic.length + (writeRecordMultibulk c).length ≤ 128) (rest : Bytes) :
    readLogHead (some (aof2Magic ++ (writeRecordMultibulk c ++ rest))) = LogHead.ofFrame (Argv.ofArgs c) := by
  have hhead : (aof2Magic ++ (writeRecordMultibulk c ++ rest)).take 128 = aof2Magic ++ (writeRecordMultibulk c ++
        rest.take (128 - aof2Magic.length - (writeRecordMultibulk c).length)) := by
    rw [take_append, take_of_length_le (by omega), take_append, take_of_length_le (by omega)]
  obtain ⟨payload, hnext, hone⟩ := goodRecord_eq_some.mp (goodRecord_written hc
    (rest.take (128 - aof2Magic.length - (writeRecordMultibulk c).length)))
  have hat : nextRecord (aof2Magic ++ (writeRecordMultibulk c ++
      rest.take (128 - aof2Magic.length - (writeRecordMultibulk c).length))) aof2Magic.length =
      .ok payload (writeRecordMultibulk c).length := by
    refine nextRecord_ok_congr hnext ?_
    rw [drop_left, drop_zero]
  rw [readLogHead]
  simp only [hhead, take_left, ne_eq, not_true_eq_false, if_false, hat, parseCommandInto_of_oneCommand hone]

theorem readLogHead_of_not_base {c : List Bytes} (hc : FrameOk c) (hbase : baseOf (Argv.ofArgs c) = none)
    (rest : Bytes) : readLogHead (some (aof2Magic ++ (writeRecordMultibulk c ++ rest))) = .legacy := by
  rw [readLogHead]
  split_ifs with hmagic
  · rfl
  cases hn : nextRecord ((aof2Magic ++ (writeRecordMultibulk c ++ rest)).take 128)
      aof2Magic.length with
  | truncated => rfl
  | corrupt => rfl
  | ok payload n =>
    -- the record read from the head is the one written
    have hfull : nextRecord (aof2Magic ++ (writeRecordMultibulk c ++ rest)) aof2Magic.length = .ok payload n := by
      obtain ⟨len, _, _, _, _, _, _, hle, _⟩ := nextRecord_ok hn
      refine nextRecord_ok_congr hn ?_
      rw [length_take] at hle
      rw [drop_take, take_take, Nat.min_eq_left (by omega)]
    obtain ⟨payload', hnext, hone⟩ := goodRecord_eq_some.mp (goodRecord_written hc rest)
    have hsame : nextRecord (aof2Magic ++ (writeRecordMultibulk c ++ rest)) aof2Magic.length =
        .ok payload' (writeRecordMultibulk c).length :=
      nextRecord_ok_congr hnext (by rw [drop_left, drop_zero])
    rw [hfull] at hsame
    cases hsame
    simp only [parseCommandInto_of_oneCommand hone, LogHead.ofFrame, hbase]

variable {items : List Item}

theorem readLogHead_logFile (hok : ∀ it ∈ items, it.Ok) : readLogHead (some (logFile items)) = .legacy := by
  rw [logFile_eq]
  cases items with
  | nil => decide
  | cons it items =>
    have hit := hok it mem_cons_self
    cases it with
    | command args =>
      have hcmd := hit args (by simp [Item.commands])
      have := readLogHead_of_not_base hcmd.toFrameOk (baseOf_command hcmd) (items.flatMap Item.bytes)
      simpa [Item.bytes, Item.frames] using this
    | group cmds =>
      have := readLogHead_of_not_base frameOk_begin (baseOf_marker txnBegin)
        (records (cmds ++ [[txnCommit]]) ++ items.flatMap Item.bytes)
      simpa [Item.bytes, Item.frames] using this

/-! ## Logs with a base -/

/-- The log that continues the snapshot `id`, or stands alone for 0: the frame, then the items. -/
def basedLog (id : Nat) (items : List Item) : Bytes :=
  aof2Magic ++ (writeRecordMultibulk (baseFrame id) ++ items.flatMap Item.bytes)

theorem frameOk_base (id : Nat) : FrameOk (baseFrame id) := by
  refine ⟨⟨by simp [baseFrame], by simp [baseFrame, maxMultibulkLen], ?_⟩, ?_⟩
  · intro a ha
    simp only [baseFrame, mem_cons, not_mem_nil, or_false] at ha
    rcases ha with rfl | rfl
    · decide
    · rw [length_leBytes, maxBulkLen]
      decide
  · have h2 : (decimal 2).length = 1 := by decide
    have h12 : (decimal 12).length = 2 := by decide
    have h8 : (decimal 8).length = 1 := by decide
    simp [baseFrame, writeMultibulk, h2, h12, h8, crlf, logBase, maxRecord]

theorem baseOf_base {id : Nat} (hid : id < 2 ^ 64) : baseOf (Argv.ofArgs (baseFrame id)) = some id := by
  have hget := (frameOk_base id).get
  rw [baseOf, Argv.len_ofArgs, hget, hget]
  have h8 : ofLe (leBytes 8 id) = id := ofLe_leBytes_of_lt (by omega)
  simp [baseFrame, h8]

theorem readLogHead_basedLog {id : Nat} (hid : id < 2 ^ 64) (items : List Item) :
    readLogHead (some (basedLog id items)) = if id = 0 then .standsAlone else .after id := by
  have hlen : aof2Magic.length + (writeRecordMultibulk (baseFrame id)).length ≤ 128 := by
    have h2 : (decimal 2).length = 1 := by decide
    have h12 : (decimal 12).length = 2 := by decide
    have h8 : (decimal 8).length = 1 := by decide
    rw [writeRecordMultibulk, length_writeRecord]
    simp [baseFrame, writeMultibulk, h2, h12, h8, crlf, logBase, recordHeader, aof2Magic]
  rw [basedLog, readLogHead_short (frameOk_base id) hlen, LogHead.ofFrame, baseOf_base hid]
  split_ifs with h0
  · subst h0
    rfl
  · cases id with
    | zero => exact absurd rfl h0
    | succ n => rfl

/-! ## Replaying whole logs -/

def replayedFrames (log : Option Bytes) : List Argv :=
  match log with
  | none => []
  | some file => (streamV2 file false).frames

theorem replayedFrames_logFile (hok : ∀ it ∈ items, it.Ok) :
    replayedFrames (some (logFile items)) = (items.flatMap Item.commands).map Argv.ofArgs := streamV2_logFile hok

theorem replayedFrames_basedLog {id : Nat} (hid : id < 2 ^ 64) (hok : ∀ it ∈ items, it.Ok) :
    replayedFrames (some (basedLog id items)) = (items.flatMap Item.commands).map Argv.ofArgs := by
  have hskip : (walkFrame { pos := aof2Magic.length } (baseFrame id)).txn = none ∧
      (walkFrame { pos := aof2Magic.length } (baseFrame id)).out = [] := by
    simp [walkFrame, applyFrame, baseOf_base hid]
  have hwalk : walkV2 (writeRecordMultibulk (baseFrame id) ++ items.flatMap Item.bytes)
      aof2Magic.length =
      walkLoop (writeRecordMultibulk (baseFrame id) ++ items.flatMap Item.bytes).length
        (items.flatMap Item.bytes) (walkFrame { pos := aof2Magic.length } (baseFrame id)) :=
    walkLoop_frame (frameOk_base id) _ _ _
  have hpos := length_writeRecordMultibulk_pos (baseFrame id)
  have hfuel : ((items.flatMap Item.bytes).take (items.flatMap Item.bytes).length ++ List.replicate 0 0).length <
      (writeRecordMultibulk (baseFrame id) ++ items.flatMap Item.bytes).length := by
    rw [take_length, replicate_zero, append_nil, length_append]
    omega
  have hcut := (walkLoop_cut hok hskip.1 hfuel).1
  rw [take_length, replicate_zero, append_nil, hskip.2, survivors_all items _ le_rfl] at hcut
  rw [replayedFrames, basedLog, Replayed.frames, streamV2]
  simp only [drop_left, Bool.false_eq_true, false_and, if_false]
  rw [hwalk]
  simpa using hcut

end Kevy.Persist
