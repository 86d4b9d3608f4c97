import Kevy.Persist.Record

/-!
# Replaying a v2 log

`walk_v2` reads records one behind the other and hands their commands to the sink, holding back the
commands of an open transaction until its commit marker. `resync_slice` takes over behind a damaged
record when asked to: it hunts for the next record that is whole, has a matching checksum and holds
exactly one command, and applies records from there on.

A reader is modelled by the bytes it has left. What reaches the sink is kept in the walk as a list of
`Delivery`s, each with the offset of the record it came from; `spans` lists the records applied.
-/

namespace Kevy.Persist

open Kevy.Lib Kevy.Resp List

/-! ## Reserved frames -/

def txnBegin : Bytes := [0, 75, 69, 86, 89, 84, 88, 78, 66, 69, 71, 73, 78]

def txnCommit : Bytes := [0, 75, 69, 86, 89, 84, 88, 78, 67, 79, 77, 77, 73, 84]

def logBase : Bytes := [0, 75, 69, 86, 89, 76, 79, 71, 66, 65, 83, 69]

inductive TxnMarker
  | begin
  | commit
  deriving DecidableEq, Repr

/-- `txn_marker`: is this record one of the transaction brackets? -/
def txnMarker (args : Argv) : Option TxnMarker :=
  if args.len ≠ 1 then none
  else if args.get 0 = some txnBegin then some .begin
  else if args.get 0 = some txnCommit then some .commit
  else none

/-- `base_of`: the snapshot id a `LOG_BASE` frame names. -/
def baseOf (args : Argv) : Option Nat :=
  if args.len ≠ 2 ∨ args.get 0 ≠ some logBase then none
  else (args.get 1).bind fun id => if id.length = 8 then some (ofLe id) else none

/-! ## The walk -/

inductive ReplayStop
  | clean
  | truncatedTail
  | lengthOutranFile (claimed available : Nat)
  | corruptFrame (why : String)
  deriving DecidableEq, Repr

/-- A frame handed to the sink, and where its record starts. -/
structure Delivery where
  offset : Nat
  frame : Argv
  deriving DecidableEq, Repr

/-- `V2Walk`, with what the sink has received and the records applied so far. -/
structure V2Walk where
  stop : ReplayStop := .clean
  pos : Nat
  replayed : Nat := 0
  preview : Bytes := []
  txn : Option (List Delivery) := none
  txnAt : Nat := 0
  zeroTail : Nat := 0
  txnDiscarded : Nat := 0
  out : List Delivery := []
  spans : List (Nat × Nat) := []
  deriving DecidableEq, Repr

def V2Walk.settledEnd (w : V2Walk) : Nat := if w.txn.isSome then w.txnAt else w.pos

def previewOf (bytes : Bytes) : Bytes := bytes.take 16

/-- `route_frame`: deliver, hold back, or act on a marker. -/
def routeFrame (args : Argv) (w : V2Walk) : V2Walk :=
  match txnMarker args with
  | some .begin =>
    { w with
      txnDiscarded := if w.txn.isSome then w.txnDiscarded + 1 else w.txnDiscarded
      txn := some []
      txnAt := w.pos }
  | some .commit => { w with txn := none, out := w.out ++ w.txn.getD [] }
  | none =>
    match w.txn with
    | some buf => { w with txn := some (buf ++ [⟨w.pos, args⟩]) }
    | none => { w with out := w.out ++ [⟨w.pos, args⟩] }

/-- The accepting arm of `apply_record`, for a record of `consumed` bytes. -/
def applyFrame (args : Argv) (consumed : Nat) (w : V2Walk) : V2Walk :=
  -- which snapshot the log continues was settled before replay
  let w := if (baseOf args).isNone then
      let w := routeFrame args w
      { w with replayed := w.replayed + 1 }
    else w
  { w with pos := w.pos + consumed, spans := w.spans ++ [(w.pos, w.pos + consumed)] }

def applyRecord (payload : Bytes) (len : Nat) (w : V2Walk) : V2Walk × Bool :=
  match oneCommand payload with
  | some args => (applyFrame args (recordHeader + len) w, true)
  | none => ({ w with preview := previewOf payload }, false)

/-- What `next_header` finds: a header and the bytes behind it, or why the walk stops here. -/
inductive Header
  | record (len crc : Nat) (rest : Bytes)
  | stopped (stop : ReplayStop) (w : V2Walk)

def allZero (bytes : Bytes) : Bool := bytes.all (· == 0)

def nextHeader (r : Bytes) (w : V2Walk) : Header :=
  let header := r.take recordHeader
  let rest := r.drop recordHeader
  if header.length = 0 then .stopped .clean w
  else if header.length < recordHeader ∧ allZero header then
    .stopped .clean { w with zeroTail := header.length }
  else if header.length < recordHeader then .stopped .truncatedTail w
  else
    let len := ofLe (header.take 4)
    let crc := ofLe (header.drop 4)
    if len = 0 ∧ crc = 0 ∧ allZero rest then
      .stopped .clean { w with zeroTail := header.length + rest.length }
    else if len = 0 ∨ maxRecord < len then
      .stopped (.corruptFrame "record length out of range") { w with preview := previewOf header }
    else .record len crc rest

/-- The loop of `walk_v2`. A record takes more than eight bytes, so `r.length + 1` rounds are enough. -/
def walkLoop : (fuel : Nat) → (r : Bytes) → V2Walk → V2Walk
  | 0, _, w => w
  | fuel + 1, r, w =>
    match nextHeader r w with
    | .stopped stop w => { w with stop }
    | .record len crc rest =>
      let payload := rest.take len
      if payload.length < len then { w with stop := .lengthOutranFile len payload.length }
      else if (crc32c payload).toNat ≠ crc then
        { w with preview := previewOf payload, stop := .corruptFrame "record checksum mismatch" }
      else
        match applyRecord payload len w with
        | (w, true) => walkLoop fuel (rest.drop len) w
        | (w, false) =>
          { w with stop := .corruptFrame "checksummed record does not hold exactly one command" }

def walkV2 (r : Bytes) (startPos : Nat) : V2Walk := walkLoop (r.length + 1) r { pos := startPos }

/-! ## Resync -/

/-- The record at `q`, when it is whole, has a matching checksum and holds exactly one command. -/
def goodRecord (buf : Bytes) (q : Nat) : Option (Argv × Nat) :=
  match nextRecord buf q with
  | .ok payload consumed => (oneCommand payload).map (·, consumed)
  | _ => none

/-- The loop of `resync_scan`, with `fuel` offsets left to look at. -/
def resyncScanLoop (buf : Bytes) : (fuel q : Nat) → Option Nat
  | 0, _ => none
  | fuel + 1, q => if (goodRecord buf q).isSome then some q else resyncScanLoop buf fuel (q + 1)

/-- `resync_scan`: the first offset at or behind `from_` where a good record starts. -/
def resyncScan (buf : Bytes) (from_ : Nat) : Option Nat :=
  resyncScanLoop buf (buf.length - from_) from_

/-- What a resync has done so far: offsets of `ranges`, `out` and `spans` are absolute. -/
structure Resync where
  goodEnd : Nat := 0
  applied : Nat := 0
  ranges : List (Nat × Nat) := []
  out : List Delivery := []
  spans : List (Nat × Nat) := []
  deriving DecidableEq, Repr

/-- How a run of good records ended: at the end of what can be read, or at damage to scan from. -/
inductive RunEnd
  | truncated (torn : Bool)
  | damage (scanFrom : Nat)
  deriving DecidableEq, Repr

/-- The inner loop of `resync_slice`: apply records from `w` on. -/
def resyncRun (rest : Bytes) (base : Nat) : (fuel w : Nat) → Resync → Resync × RunEnd
  | 0, w, s => (s, .truncated (w < rest.length))
  | fuel + 1, w, s =>
    match nextRecord rest w with
    | .ok payload consumed =>
      match oneCommand payload with
      | some args =>
        let out := if (baseOf args).isNone then s.out ++ [⟨base + w, args⟩] else s.out
        resyncRun rest base fuel (w + consumed)
          { s with
            out
            applied := s.applied + 1
            goodEnd := w + consumed
            spans := s.spans ++ [(base + w, base + w + consumed)] }
      | none => (s, .damage (w + 1))
    | .truncated => (s, .truncated (w < rest.length))
    | .corrupt => (s, .damage (w + 1))

/-- The outer loop of `resync_slice`: hop to the next good record, apply the run there. -/
def resyncHops (rest : Bytes) (base : Nat) : (fuel scanFrom : Nat) → Resync → Resync × Bool
  | 0, _, s => (s, true)
  | fuel + 1, scanFrom, s =>
    match resyncScan rest scanFrom with
    | none => (s, true)
    | some g =>
      let s := { s with ranges := s.ranges ++ [(base + s.goodEnd, base + g)] }
      match resyncRun rest base (rest.length + 1) g s with
      | (s, .truncated torn) => (s, torn)
      | (s, .damage scanFrom) => resyncHops rest base fuel scanFrom s

/-- `resync_slice`: the damaged record starts at `rest[0]`, which is offset `base` of the file. -/
def resyncSlice (rest : Bytes) (base : Nat) : Resync × Bool :=
  resyncHops rest base (rest.length + 1) 1 {}

def resyncFallback (data : Bytes) (w : V2Walk) : V2Walk × List (Nat × Nat) :=
  let (s, endedTorn) := resyncSlice (data.drop w.pos) w.pos
  ({ w with
      replayed := w.replayed + s.applied
      pos := w.pos + s.goodEnd
      stop := if endedTorn then .truncatedTail else .clean
      out := w.out ++ s.out
      spans := w.spans ++ s.spans }, s.ranges)

/-! ## The replay of a file -/

structure ReplayReport where
  commands : Nat
  bytes : Nat
  replayedBytes : Nat
  droppedBytes : Nat
  zeroTail : Nat
  corrupt : Bool
  resyncedRanges : List (Nat × Nat)
  deriving DecidableEq, Repr

/-- A replay's report, its last state, and through it everything the sink received. -/
structure Replayed where
  report : ReplayReport
  walk : V2Walk

def streamV2 (data : Bytes) (resync : Bool) : Replayed :=
  let w := walkV2 (data.drop aof2Magic.length) aof2Magic.length
  let corrupt := match w.stop with
    | .corruptFrame _ => true
    | _ => false
  let (w, ranges) := if resync ∧ w.stop ≠ .clean then resyncFallback data w else (w, [])
  let end_ := if ranges.isEmpty then w.settledEnd else w.pos
  { walk := w
    report :=
      { commands := w.replayed
        bytes := data.length
        replayedBytes := end_
        droppedBytes := data.length - end_ - w.zeroTail
        zeroTail := w.zeroTail
        corrupt := corrupt || !ranges.isEmpty
        resyncedRanges := ranges } }

def Replayed.frames (r : Replayed) : List Argv := r.walk.out.map Delivery.frame

/-- `repair_tail`: the file cut back to where a replay settles. -/
def repairTail (data : Bytes) (resync : Bool) : Bytes :=
  let valid := (streamV2 data resync).report.replayedBytes
  if data.length ≤ valid then data else data.take valid

/-! ## Where a frame leaves the walk -/

@[simp] theorem pos_routeFrame (args : Argv) (w : V2Walk) : (routeFrame args w).pos = w.pos := by
  rw [routeFrame]
  rcases txnMarker args with _ | _ | _
  · cases w.txn <;> rfl
  · rfl
  · rfl

@[simp] theorem spans_routeFrame (args : Argv) (w : V2Walk) : (routeFrame args w).spans = w.spans := by
  rw [routeFrame]
  rcases txnMarker args with _ | _ | _
  · cases w.txn <;> rfl
  · rfl
  · rfl

@[simp] theorem pos_applyFrame (args : Argv) (n : Nat) (w : V2Walk) : (applyFrame args n w).pos = w.pos + n := by
  simp only [applyFrame]
  split_ifs <;> simp

@[simp] theorem spans_applyFrame (args : Argv) (n : Nat) (w : V2Walk) :
    (applyFrame args n w).spans = w.spans ++ [(w.pos, w.pos + n)] := by
  simp only [applyFrame]
  split_ifs <;> simp

/-! ## One round of the walk -/

/-- The walk stopped in `w'` without touching what it had done in `w`. -/
structure Halted (w w' : V2Walk) : Prop where
  pos : w'.pos = w.pos
  out : w'.out = w.out
  txn : w'.txn = w.txn
  txnAt : w'.txnAt = w.txnAt
  spans : w'.spans = w.spans
  replayed : w'.replayed = w.replayed

variable {buf : Bytes} {q n : Nat} {args : Argv}

theorem goodRecord_eq_some : goodRecord buf q = some (args, n) ↔
      ∃ payload, nextRecord buf q = .ok payload n ∧ oneCommand payload = some args := by
  rw [goodRecord]
  cases nextRecord buf q with
  | ok payload consumed => simp [and_comm]
  | truncated | corrupt => simp

theorem goodRecord_le (h : goodRecord buf q = some (args, n)) : recordHeader < n ∧ q + n ≤ buf.length := by
  obtain ⟨payload, hok, _⟩ := goodRecord_eq_some.mp h
  obtain ⟨len, _, hpos, _, _, _, rfl, hle, _⟩ := nextRecord_ok hok
  exact ⟨by omega, hle⟩

theorem goodRecord_congr {buf' : Bytes} {q' : Nat}
    (h : goodRecord buf q = some (args, n)) (hsame : (buf'.drop q').take n = (buf.drop q).take n) :
    goodRecord buf' q' = some (args, n) := by
  obtain ⟨payload, hok, hone⟩ := goodRecord_eq_some.mp h
  exact goodRecord_eq_some.mpr ⟨payload, nextRecord_ok_congr hok hsame, hone⟩

theorem nextHeader_record {r : Bytes} {w : V2Walk} {len crc : Nat} {rest : Bytes}
    (h : nextHeader r w = .record len crc rest) :
    recordHeader ≤ r.length ∧ len = ofLe (r.take 4) ∧ crc = ofLe ((r.drop 4).take 4) ∧
      rest = r.drop recordHeader ∧ 0 < len ∧ len ≤ maxRecord := by
  rw [nextHeader] at h
  simp only at h
  split_ifs at h with h0 h1 h2 h3 h4
  cases h
  have e1 : (r.take recordHeader).take 4 = r.take 4 := by
    rw [take_take]
    rfl
  have e2 : (r.take recordHeader).drop 4 = (r.drop 4).take 4 := by
    rw [drop_take]
    rfl
  rw [e1] at h4 ⊢
  rw [e2]
  rw [length_take] at h2
  exact ⟨by omega, rfl, rfl, rfl, by omega, by omega⟩

theorem nextHeader_stopped {r : Bytes} {w w' : V2Walk} {stop : ReplayStop} (h : nextHeader r w = .stopped stop w') :
    Halted w w' ∧ goodRecord r 0 = none ∧ (stop = .clean → ∀ b ∈ r, b = 0) := by
  have hzero : ∀ bs : Bytes, allZero bs = true → ∀ b ∈ bs, b = 0 := by
    intro bs hbs
    simpa [allZero] using hbs
  have hwhole (hlt : (r.take recordHeader).length < recordHeader) : r.take recordHeader = r :=
    take_of_length_le (by rw [length_take] at hlt; omega)
  have hshort (hlt : (r.take recordHeader).length < recordHeader) : goodRecord r 0 = none := by
    refine Option.eq_none_iff_forall_ne_some.mpr fun (args, n) hg => ?_
    have := goodRecord_le hg
    rw [hwhole hlt] at hlt
    omega
  have hrange (hbad : ofLe ((r.take recordHeader).take 4) = 0 ∨ maxRecord < ofLe ((r.take recordHeader).take 4)) :
      goodRecord r 0 = none := by
    refine Option.eq_none_iff_forall_ne_some.mpr fun (args, n) hg => ?_
    obtain ⟨payload, hok, _⟩ := goodRecord_eq_some.mp hg
    obtain ⟨len, hl, hpos, hmax, _⟩ := nextRecord_ok hok
    rw [drop_zero] at hl
    rw [take_take, show min 4 recordHeader = 4 from rfl] at hbad
    omega
  rw [nextHeader] at h
  simp only at h
  split_ifs at h with h0 h1 h2 h3 h4 <;> cases h
  · have hlt : (r.take recordHeader).length < recordHeader := h0 ▸ (by decide)
    rw [hwhole hlt] at h0
    exact ⟨⟨rfl, rfl, rfl, rfl, rfl, rfl⟩, hshort hlt, by rw [length_eq_zero_iff.mp h0]; simp⟩
  · exact ⟨⟨rfl, rfl, rfl, rfl, rfl, rfl⟩, hshort h1.1, fun _ => hzero r (hwhole h1.1 ▸ h1.2)⟩
  · exact ⟨⟨rfl, rfl, rfl, rfl, rfl, rfl⟩, hshort h2, by simp⟩
  · refine ⟨⟨rfl, rfl, rfl, rfl, rfl, rfl⟩, hrange (.inl h3.1), fun _ b hb => ?_⟩
    rw [← take_append_drop recordHeader r, ← take_append_drop 4 (r.take recordHeader)] at hb
    rcases mem_append.mp hb with hb | hb
    · rcases mem_append.mp hb with hb | hb
      · exact ofLe_eq_zero.mp h3.1 b hb
      · exact ofLe_eq_zero.mp h3.2.1 b hb
    · exact hzero _ h3.2.2 b hb
  · exact ⟨⟨rfl, rfl, rfl, rfl, rfl, rfl⟩, hrange h4, by simp⟩

/-- **One round of the walk.** Either a good record stands at the front, and the walk applies it and goes
on behind it; or none does, and the walk stops as it is. It stops clean only before zeros. -/
theorem walkLoop_succ (fuel : Nat) (r : Bytes) (w : V2Walk) : match goodRecord r 0 with
    | some (args, n) => walkLoop (fuel + 1) r w = walkLoop fuel (r.drop n) (applyFrame args n w)
    | none => Halted w (walkLoop (fuel + 1) r w) ∧ ((walkLoop (fuel + 1) r w).stop = .clean → ∀ b ∈ r, b = 0) := by
  rw [walkLoop]
  cases hh : nextHeader r w with
  | stopped stop w' =>
    obtain ⟨hhalt, hnone, hclean⟩ := nextHeader_stopped hh
    rw [hnone]
    exact ⟨{ hhalt with }, hclean⟩
  | record len crc rest =>
    obtain ⟨hlen, hl, hc, rfl, hpos, hmax⟩ := nextHeader_record hh
    have hstep : nextRecord r 0 = if r.length < recordHeader + len then .truncated
        else if (crc32c ((r.drop recordHeader).take len)).toNat ≠ crc then .corrupt
        else .ok ((r.drop recordHeader).take len) (recordHeader + len) := by
      rw [nextRecord]
      simp only [drop_zero]
      rw [← hl, ← hc, if_neg (by omega), if_neg (by omega)]
    have hp : ((r.drop recordHeader).take len).length < len ↔ r.length < recordHeader + len := by
      rw [length_take, length_drop]
      omega
    simp only [goodRecord, hstep, hp]
    split_ifs with hshort hcrc
    · exact ⟨⟨rfl, rfl, rfl, rfl, rfl, rfl⟩, by simp⟩
    · exact ⟨⟨rfl, rfl, rfl, rfl, rfl, rfl⟩, by simp⟩
    · rw [applyRecord, drop_drop]
      dsimp only
      cases oneCommand ((r.drop recordHeader).take len) with
      | some args => rfl
      | none => exact ⟨⟨rfl, rfl, rfl, rfl, rfl, rfl⟩, by simp⟩

end Kevy.Persist
