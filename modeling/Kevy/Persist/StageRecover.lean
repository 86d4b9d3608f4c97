import Kevy.Persist.StageRing

/-!
# What a staging ring owes its log

At an open, once the log was replayed and its torn tail repaired, `recover` compares the ring with the log:
the log's bytes past the length the header recorded must be the first undrained records, and the records
behind those were never written. `adopt` delivers them, a transaction only whole, and says how many of them
to append to the log.
-/

namespace Kevy.Persist

open Kevy.Lib Kevy.Resp List

/-! ## The log's identity -/

def idSpan : Nat := 4096

/-- `log_id`: a checksum of the log's first `span` bytes, with `span` in the high word. -/
def logId (log : Bytes) (span : Nat) : Nat := span * 2 ^ 32 + (crc32c (log.take span)).toNat

def identity (log : Bytes) : Nat × Nat := (logId log (min log.length idSpan), log.length)

theorem logId_span (log : Bytes) (span : Nat) : logId log span / 2 ^ 32 = span := by
  have : (crc32c (log.take span)).toNat < 2 ^ 32 := (crc32c (log.take span)).toNat_lt
  rw [logId]
  omega

/-! ## The verdict -/

inductive Recovery
  | discard (why : String)
  | replay (records : List Bytes) (torn : Bool)
  deriving DecidableEq, Repr

/-- The records a verdict hands to `adopt`. -/
def Recovery.records : Recovery → List Bytes
  | .discard _ => []
  | .replay records _ => records

/-- The loop of `recover` over the log's tail, of which `tail` is not matched yet: where it ends, or why the
ring is set aside. A record takes more than eight bytes, so `tail.length + 1` rounds are enough. -/
def matchTail (r : RingFile) (stop : Nat) : (fuel pos : Nat) → (tail : Bytes) → Except String Nat
  | 0, pos, _ => .ok pos
  | fuel + 1, pos, tail =>
    if tail = [] then .ok pos
    else
      match r.recordAt pos stop with
      | none => .error "the log holds bytes the ring never had"
      | some (start, len) =>
        if tail.length < len ∨ r.logical start len ≠ tail.take len then
          .error "the log's tail is not the ring's first records"
        else matchTail r stop fuel (start + len) (tail.drop len)

/-- The loop of `recover` over the records behind: the intact ones, and where they end. -/
def intactRecords (r : RingFile) (stop : Nat) : (fuel pos : Nat) → List Bytes × Nat
  | 0, pos => ([], pos)
  | fuel + 1, pos =>
    match r.recordAt pos stop with
    | none => ([], pos)
    | some (start, len) =>
      if r.recordIntact start len then
        let (records, last) := intactRecords r stop fuel (start + len)
        (r.logical start len :: records, last)
      else ([], pos)

def recover (r : RingFile) (head : StageHead) (id aofLen : Nat) (aofTail : Bytes) : Recovery :=
  if head.logId ≠ id then .discard "the ring continues another log"
  else if aofLen < head.aofLen then .discard "the log is shorter than the ring last saw it"
  else if aofLen - head.aofLen ≠ aofTail.length then .discard "the log's tail was not handed over whole"
  else
    match matchTail r head.commit (aofTail.length + 1) head.drained aofTail with
    | .error why => .discard why
    | .ok pos =>
      let (records, last) := intactRecords r head.commit (head.commit - pos + 1) pos
      .replay records (last ≠ head.commit)

def tailAfter (log : Bytes) (start stop cap : Nat) : Bytes :=
  if stop < start ∨ cap < stop - start then [] else (log.drop start).take (stop - start)

def recoverStage (log : Bytes) (ring : Option RingFile) : Option Recovery :=
  ring.bind fun r => r.openExisting.map fun head =>
    let span := head.logId / 2 ^ 32
    let id := if span ≤ log.length then logId log span else 0
    recover r head id log.length (tailAfter log head.aofLen log.length r.cap)

/-- The records `recover_stage` hands to `adopt`. -/
def owed (log : Bytes) (ring : Option RingFile) : List Bytes :=
  ((recoverStage log ring).map Recovery.records).getD []

/-- The loop of `Aof::adopt`: the walk and how many records lie before its last place outside a transaction. -/
def adoptLoop : (records : List Bytes) → (i settled : Nat) → V2Walk → V2Walk × Nat
  | [], _, settled, w => (w, settled)
  | record :: records, i, settled, w =>
    let payload := record.drop recordHeader
    match applyRecord payload payload.length w with
    | (w, true) => adoptLoop records (i + 1) (if w.txn.isNone then i + 1 else settled) w
    | (w, false) => (w, settled)

def adopt (records : List Bytes) : List Argv × List Bytes :=
  let (w, settled) := adoptLoop records 0 0 { pos := 0 }
  (w.out.map Delivery.frame, records.take settled)

/-! ## The loops of `recover` -/

variable {r : RingFile} {pos stop fuel : Nat} {cs ds : List (List Bytes)} {c : List Bytes}

theorem matchTail_nil : matchTail r stop (fuel + 1) pos [] = .ok pos := by
  rw [matchTail, if_pos rfl]

theorem matchTail_records {cs : List (List Bytes)} {fuel pos : Nat} (h : r.Holds pos stop (cs ++ ds))
    (hok : ∀ c ∈ cs, FrameOk c) (hfuel : (records cs).length < fuel) :
    ∃ last, matchTail r stop fuel pos (records cs) = .ok last ∧ r.Holds last stop ds := by
  induction cs generalizing fuel pos with
  | nil =>
    obtain ⟨fuel, rfl⟩ : ∃ f, fuel = f + 1 := ⟨fuel - 1, by omega⟩
    exact ⟨pos, matchTail_nil, h⟩
  | cons c cs ih =>
    obtain ⟨start, hat, hrec, _, hrest⟩ := h.recordAt (hok c mem_cons_self).fits
    have hpos := length_writeRecordMultibulk_pos c
    rw [records_cons, length_append] at hfuel
    obtain ⟨fuel, rfl⟩ : ∃ f, fuel = f + 1 := ⟨fuel - 1, by omega⟩
    obtain ⟨last, hmatch, hlast⟩ := @ih fuel _ hrest (forall_mem_cons.mp hok).2 (by omega)
    refine ⟨last, ?_, hlast⟩
    have hne : writeRecordMultibulk c ++ records cs ≠ [] := by
      intro hnil
      have := congrArg List.length hnil
      rw [length_append, length_nil] at this
      omega
    have hfirst : ¬ ((writeRecordMultibulk c ++ records cs).length < (writeRecordMultibulk c).length ∨
        r.logical start (writeRecordMultibulk c).length ≠
          (writeRecordMultibulk c ++ records cs).take (writeRecordMultibulk c).length) := by
      rw [hrec.bytes, take_left, length_append]
      simp
    rw [records_cons, matchTail, if_neg hne, hat]
    show (if _ then _ else _) = _
    rw [if_neg hfirst, drop_left, hmatch]

theorem intactRecords_holds (h : r.Holds pos stop cs) {fuel : Nat} (hok : ∀ c ∈ cs, FrameOk c)
    (hfuel : stop - pos < fuel) : intactRecords r stop fuel pos = (cs.map writeRecordMultibulk, stop) := by
  induction h generalizing fuel with
  | nil pos =>
    obtain ⟨fuel, rfl⟩ : ∃ f, fuel = f + 1 := ⟨fuel - 1, by omega⟩
    rw [intactRecords, RingFile.recordAt_nil (.nil pos)]
    rfl
  | @cons pos start stop c cs hlead hrec hrest ih =>
    have hle := hlead.le
    have hstop := hrest.le
    have hpos := length_writeRecordMultibulk_pos c
    obtain ⟨fuel, rfl⟩ : ∃ f, fuel = f + 1 := ⟨fuel - 1, by omega⟩
    rw [intactRecords, RingFile.recordAt_record hlead hrec (hok c mem_cons_self).fits hstop]
    show (if r.recordIntact start _ = true then _ else _) = _
    rw [if_pos hrec.intact, @ih fuel (forall_mem_cons.mp hok).2 (by omega), hrec.bytes]
    rfl

theorem recover_pending (h : r.Pending (cs ++ ds)) {aofLen : Nat}
    (hlen : aofLen = r.head.aofLen + (records cs).length) :
    recover r r.head r.head.logId aofLen (records cs) = .replay (ds.map writeRecordMultibulk) false := by
  obtain ⟨last, hmatch, hlast⟩ := @matchTail_records r r.commit ds cs ((records cs).length + 1)
    r.head.drained h.holds (fun c hc => h.ok c (mem_append_left _ hc)) (Nat.lt_succ_self _)
  have hds : ∀ c ∈ ds, FrameOk c := fun c hc => h.ok c (mem_append_right _ hc)
  have hcommit : r.head.commit = r.commit := rfl
  rw [recover, if_neg (by simp), if_neg (by omega), if_neg (by omega), hcommit, hmatch]
  simp only [intactRecords_holds hlast hds (Nat.lt_succ_self _), ne_eq, not_true_eq_false, decide_false]

theorem recover_empty (h : r.Pending []) (id aofLen : Nat) (aofTail : Bytes) :
    (recover r r.head id aofLen aofTail).records = [] := by
  have hdrained := RingFile.pending_nil.mp h
  have hcommit : r.head.commit = r.commit := rfl
  have hnone : r.recordAt r.commit r.commit = none := RingFile.recordAt_nil (.nil _)
  unfold recover
  split_ifs
  · rfl
  · rfl
  · rfl
  · rw [hdrained, hcommit]
    cases aofTail with
    | nil =>
      have hread := @intactRecords_holds r r.commit r.commit [] (.nil r.commit) (r.commit - r.commit + 1)
        (by simp) (Nat.lt_succ_self _)
      simp only [matchTail_nil, hread, Recovery.records, map_nil]
    | cons b bs =>
      rw [matchTail, if_neg (by simp), hnone]
      rfl

/-! ## The loop of `adopt` -/

variable {i settled : Nat} {w : V2Walk}

theorem adoptLoop_frame (hc : FrameOk c) (rest : List Bytes) : adoptLoop (writeRecordMultibulk c :: rest) i settled w =
      adoptLoop rest (i + 1) (if (walkFrame w c).txn.isNone then i + 1 else settled) (walkFrame w c) := by
  have happly : applyRecord (writeMultibulk c) (writeMultibulk c).length w = (walkFrame w c, true) := by
    rw [applyRecord, oneCommand_writeMultibulk hc.parseable, walkFrame, RingFile.length_record]
  rw [adoptLoop, RingFile.drop_record, happly]

theorem adoptLoop_held {cs : List (List Bytes)} {i : Nat} {w : V2Walk} {buf : List Delivery}
    (hok : ∀ c ∈ cs, CommandOk c) (hw : w.txn = some buf) :
    ∀ rest, adoptLoop (cs.map writeRecordMultibulk ++ rest) i settled w =
      adoptLoop rest (i + cs.length) settled (cs.foldl walkFrame w) := by
  induction cs generalizing i w buf with
  | nil => intro rest; rfl
  | cons c cs ih =>
    intro rest
    obtain ⟨htxn, _⟩ := walkFrame_held (hok c mem_cons_self) hw
    have hrest := @ih (i + 1) _ _ (forall_mem_cons.mp hok).2 htxn rest
    rw [map_cons, cons_append, adoptLoop_frame (hok c mem_cons_self).toFrameOk, htxn]
    show adoptLoop _ (i + 1) settled _ = _
    rw [hrest, length_cons, foldl_cons, Nat.add_right_comm, Nat.add_assoc]

theorem adoptLoop_item {it : Item} (hit : it.Ok) (hw : w.txn = none) (rest : List Bytes) :
    adoptLoop (it.frames.map writeRecordMultibulk ++ rest) i i w =
      adoptLoop rest (i + it.frames.length) (i + it.frames.length) (it.frames.foldl walkFrame w) := by
  cases it with
  | command args =>
    have hargs : CommandOk args := hit args (by simp [Item.commands])
    obtain ⟨htxn, _⟩ := walkFrame_command hargs hw
    show adoptLoop (writeRecordMultibulk args :: rest) i i w = adoptLoop rest (i + 1) (i + 1) (walkFrame w args)
    rw [adoptLoop_frame hargs.toFrameOk, htxn]
    rfl
  | group cmds =>
    have hcmds : ∀ c ∈ cmds, CommandOk c := hit
    obtain ⟨hbegin, _⟩ := walkFrame_begin w
    obtain ⟨hheld, _⟩ := foldl_held hcmds hbegin
    obtain ⟨hcommit, _⟩ := walkFrame_commit hheld
    simp only [Item.frames, map_cons, map_append, map_nil, cons_append, append_assoc,
      nil_append, foldl_cons, foldl_append, foldl_nil]
    rw [adoptLoop_frame frameOk_begin, hbegin]
    show adoptLoop _ (i + 1) i _ = _
    have hcount : i + 1 + cmds.length + 1 = i + ([txnBegin] :: (cmds ++ [[txnCommit]])).length := by
      rw [length_cons, length_append, length_singleton]
      omega
    rw [adoptLoop_held hcmds hbegin, adoptLoop_frame frameOk_commit, hcommit, hcount]
    rfl

theorem adoptLoop_items {items : List Item} {i : Nat} {w : V2Walk} (hok : ∀ it ∈ items, it.Ok) (hw : w.txn = none) :
    ∃ w', w'.txn = none ∧ w'.out.map Delivery.frame =
        w.out.map Delivery.frame ++ (items.flatMap Item.commands).map Argv.ofArgs ∧
      ∀ rest, adoptLoop ((items.flatMap Item.frames).map writeRecordMultibulk ++ rest) i i w =
        adoptLoop rest (i + (items.flatMap Item.frames).length) (i + (items.flatMap Item.frames).length) w' := by
  induction items generalizing i w with
  | nil => exact ⟨w, hw, by simp, fun rest => rfl⟩
  | cons it items ih =>
    have hit := hok it mem_cons_self
    obtain ⟨htxn, hout, _⟩ := foldl_item hit hw
    obtain ⟨w', hw', hout', hloop⟩ := @ih (i + it.frames.length) _ (forall_mem_cons.mp hok).2 htxn
    refine ⟨w', hw', ?_, fun rest => ?_⟩
    · rw [hout', hout]
      simp
    · rw [flatMap_cons, map_append, append_assoc, adoptLoop_item hit hw, hloop, length_append, Nat.add_assoc]

def openFrames : Option (List (List Bytes)) → List (List Bytes)
  | none => []
  | some cmds => [txnBegin] :: cmds

/-- **`adopt` delivers whole items only**, and appends their records: a transaction whose commit marker was
not staged is dropped. -/
theorem adopt_items {items : List Item} (hok : ∀ it ∈ items, it.Ok) {txn : Option (List (List Bytes))}
    (htxn : ∀ cmds, txn = some cmds → ∀ c ∈ cmds, CommandOk c) :
    adopt ((items.flatMap Item.frames ++ openFrames txn).map writeRecordMultibulk) =
      ((items.flatMap Item.commands).map Argv.ofArgs, (items.flatMap Item.frames).map writeRecordMultibulk) := by
  obtain ⟨w, hw, hout, hloop⟩ := @adoptLoop_items items 0 { pos := 0 } hok rfl
  have hopen : ∃ w', w'.out = w.out ∧
      adoptLoop ((items.flatMap Item.frames ++ openFrames txn).map writeRecordMultibulk) 0 0 { pos := 0 } =
        (w', (items.flatMap Item.frames).length) := by
    rw [map_append, hloop, Nat.zero_add]
    cases txn with
    | none => exact ⟨w, rfl, rfl⟩
    | some cmds =>
      obtain ⟨hbegin, hbeginOut, _⟩ := walkFrame_begin w
      have hcmds := htxn cmds rfl
      refine ⟨cmds.foldl walkFrame (walkFrame w [txnBegin]), (foldl_held hcmds hbegin).2.1.trans hbeginOut, ?_⟩
      have hheld := @adoptLoop_held (items.flatMap Item.frames).length cmds
        ((items.flatMap Item.frames).length + 1) _ _ hcmds hbegin []
      rw [append_nil] at hheld
      rw [openFrames, map_cons, adoptLoop_frame frameOk_begin, hbegin]
      exact hheld
  obtain ⟨w', hout', hrun⟩ := hopen
  rw [adopt, hrun]
  refine Prod.ext ?_ ?_
  · show w'.out.map Delivery.frame = _
    rw [hout', hout]
    rfl
  · show List.take _ _ = _
    rw [map_append, take_left' (by simp)]

end Kevy.Persist
