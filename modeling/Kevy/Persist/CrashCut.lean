import Kevy.Persist.Replay

/-!
# A v2 log cut by a crash

A log is written by `append`, and by `begin_group` / `end_group` around a transaction. A crash leaves some
byte prefix of it, perhaps followed by zeros. Replay then delivers the commands of the items that lie
wholly in the prefix: a cut record holds no command whatever its checksum says (`nextRecord_torn`), and
an open transaction is held back. `repair_tail` cuts the file exactly behind those items, so that further
appends continue them.
-/

namespace Kevy.Persist

open Kevy.Lib Kevy.Resp List

/-! ## Writing a log -/

def append (file : Bytes) (args : List Bytes) : Bytes := file ++ writeRecordMultibulk args

def beginGroup (file : Bytes) : Bytes := append file [txnBegin]

def endGroup (file : Bytes) : Bytes := append file [txnCommit]

/-- One thing a caller does to the log: a plain append, or a transaction. -/
inductive Item
  | command (args : List Bytes)
  | group (cmds : List (List Bytes))
  deriving DecidableEq, Repr

def Item.write (file : Bytes) : Item → Bytes
  | .command args => append file args
  | .group cmds => endGroup (cmds.foldl append (beginGroup file))

/-- The file after a fresh log was opened and the items were written. -/
def logFile (items : List Item) : Bytes := items.foldl Item.write aof2Magic

def Item.commands : Item → List (List Bytes)
  | .command args => [args]
  | .group cmds => cmds

def Item.frames : Item → List (List Bytes)
  | .command args => [args]
  | .group cmds => [txnBegin] :: (cmds ++ [[txnCommit]])

/-- What delivering commands whose records start at `o` looks like. -/
def deliveries : (o : Nat) → List (List Bytes) → List Delivery
  | _, [] => []
  | o, c :: cs => ⟨o, Argv.ofArgs c⟩ :: deliveries (o + (writeRecordMultibulk c).length) cs

def Item.deliveries (o : Nat) : Item → List Delivery
  | .command args => Persist.deliveries o [args]
  | .group cmds => Persist.deliveries (o + (writeRecordMultibulk [txnBegin]).length) cmds

def records (frames : List (List Bytes)) : Bytes := frames.flatMap writeRecordMultibulk

def Item.bytes (it : Item) : Bytes := records it.frames

def survivors : List Item → (k : Nat) → List Item
  | [], _ => []
  | it :: items, k =>
    if it.bytes.length ≤ k then it :: survivors items (k - it.bytes.length) else []

@[simp] theorem records_nil : records [] = [] := rfl

@[simp] theorem records_cons (c : List Bytes) (cs : List (List Bytes)) :
    records (c :: cs) = writeRecordMultibulk c ++ records cs := rfl

@[simp] theorem records_append (cs ds : List (List Bytes)) : records (cs ++ ds) = records cs ++ records ds := by
  simp [records]

@[simp] theorem frames_deliveries (cs : List (List Bytes)) : ∀ o : Nat,
    (deliveries o cs).map Delivery.frame = cs.map Argv.ofArgs := by
  induction cs with
  | nil => intro o; rfl
  | cons c cs ih => intro o; rw [deliveries, map_cons, ih, map_cons]

@[simp] theorem Item.frames_deliveries (it : Item) (o : Nat) :
    (it.deliveries o).map Delivery.frame = it.commands.map Argv.ofArgs := by
  cases it <;> simp [Item.deliveries, Item.commands]

theorem foldl_append_records (cs : List (List Bytes)) : ∀ file : Bytes, cs.foldl append file = file ++ records cs := by
  induction cs with
  | nil => simp
  | cons c cs ih => intro file; rw [foldl_cons, ih, append]; simp

theorem Item.write_eq (file : Bytes) (it : Item) : it.write file = file ++ it.bytes := by
  cases it with
  | command args => simp [Item.write, append, Item.bytes, Item.frames]
  | group cmds =>
    rw [Item.write, endGroup, foldl_append_records, beginGroup, append, append]
    simp [Item.bytes, Item.frames]

theorem foldl_write (items : List Item) : ∀ file : Bytes,
    items.foldl Item.write file = file ++ items.flatMap Item.bytes := by
  induction items with
  | nil => simp
  | cons it items ih => intro file; rw [foldl_cons, ih, Item.write_eq]; simp

theorem logFile_eq (items : List Item) : logFile items = aof2Magic ++ items.flatMap Item.bytes :=
  foldl_write items aof2Magic

/-! ## Frames a replay can read -/

structure FrameOk (c : List Bytes) : Prop where
  parseable : Parseable c
  fits : (writeMultibulk c).length ≤ maxRecord

/-- A command that is not one of the reserved frames. -/
structure CommandOk (c : List Bytes) : Prop extends FrameOk c where
  notBegin : c ≠ [txnBegin]
  notCommit : c ≠ [txnCommit]
  notBase : ∀ id, id.length = 8 → c ≠ [logBase, id]

def Item.Ok (it : Item) : Prop := ∀ c ∈ it.commands, CommandOk c

theorem frameOk_begin : FrameOk [txnBegin] := ⟨⟨by simp, by decide, by decide⟩, by decide⟩

theorem frameOk_commit : FrameOk [txnCommit] := ⟨⟨by simp, by decide, by decide⟩, by decide⟩

theorem commandOk_byte (b : UInt8) : CommandOk [[b]] where
  parseable := ⟨by simp, by simp [maxMultibulkLen], by simp [maxBulkLen]⟩
  fits := by
    have : (decimal 1).length = 1 := by decide
    simp [writeMultibulk, this, crlf, maxRecord]
  notBegin := by simp [txnBegin]
  notCommit := by simp [txnCommit]
  notBase := by simp

theorem Item.Ok.frames {it : Item} (h : it.Ok) : ∀ c ∈ it.frames, FrameOk c := by
  intro c hc
  cases it with
  | command args => exact (h c hc).toFrameOk
  | group cmds =>
    simp only [Item.frames, mem_cons, mem_append, not_mem_nil, or_false] at hc
    rcases hc with rfl | hc | rfl
    · exact frameOk_begin
    · exact (h c hc).toFrameOk
    · exact frameOk_commit

theorem FrameOk.get {args : List Bytes} (h : FrameOk args) (i : Nat) : (Argv.ofArgs args).get i = args[i]? := by
  refine Argv.get_ofArgs args ?_ i
  have h1 := (frame_writeMultibulk h.parseable).length_args_le
  have h2 := h.fits
  rw [maxRecord] at h2
  omega

variable {c : List Bytes}

theorem txnMarker_command (h : CommandOk c) : txnMarker (Argv.ofArgs c) = none := by
  rw [txnMarker, Argv.len_ofArgs]
  by_cases h1 : c.length = 1
  · obtain ⟨a, rfl⟩ := length_eq_one_iff.mp h1
    have hb : a ≠ txnBegin := fun ha => h.notBegin (by rw [ha])
    have hc : a ≠ txnCommit := fun ha => h.notCommit (by rw [ha])
    rw [h.toFrameOk.get]
    simp [hb, hc]
  · rw [if_pos h1]

theorem baseOf_command (h : CommandOk c) : baseOf (Argv.ofArgs c) = none := by
  rw [baseOf, Argv.len_ofArgs, h.toFrameOk.get, h.toFrameOk.get]
  split_ifs with h1
  · rfl
  · rw [not_or, not_not, not_not] at h1
    obtain ⟨a, id, rfl⟩ := length_eq_two.mp h1.1
    have ha : a = logBase := by simpa using h1.2
    subst ha
    have hid : id.length ≠ 8 := fun h8 => h.notBase id h8 rfl
    simp [hid]

/-! ## Walking whole records -/

def walkFrame (w : V2Walk) (c : List Bytes) : V2Walk :=
  applyFrame (Argv.ofArgs c) (writeRecordMultibulk c).length w

theorem writeMultibulk_length_pos (c : List Bytes) : 0 < (writeMultibulk c).length := by
  simp [writeMultibulk]

theorem length_writeRecordMultibulk_pos (c : List Bytes) : 0 < (writeRecordMultibulk c).length := by
  rw [writeRecordMultibulk, length_writeRecord]
  have := writeMultibulk_length_pos c
  omega

theorem goodRecord_written (h : FrameOk c) (rest : Bytes) : goodRecord (writeRecordMultibulk c ++ rest) 0 =
      some (Argv.ofArgs c, (writeRecordMultibulk c).length) := by
  refine goodRecord_eq_some.mpr ⟨writeMultibulk c, ?_, oneCommand_writeMultibulk h.parseable⟩
  rw [writeRecordMultibulk, length_writeRecord]
  exact nextRecord_writeRecord (writeMultibulk_length_pos c) h.fits rest

theorem walkLoop_frame (h : FrameOk c) (fuel : Nat) (rest : Bytes) (w : V2Walk) :
    walkLoop (fuel + 1) (writeRecordMultibulk c ++ rest) w = walkLoop fuel rest (walkFrame w c) := by
  have hstep := walkLoop_succ fuel (writeRecordMultibulk c ++ rest) w
  simp only [goodRecord_written h rest, drop_left] at hstep
  exact hstep

theorem walkLoop_records {fs : List (List Bytes)} {fuel : Nat} {rest : Bytes} {w : V2Walk} (hok : ∀ c ∈ fs, FrameOk c)
    (hfuel : (records fs ++ rest).length < fuel) :
    ∃ fuel', rest.length < fuel' ∧
      walkLoop fuel (records fs ++ rest) w = walkLoop fuel' rest (fs.foldl walkFrame w) := by
  induction fs generalizing fuel rest w with
  | nil => exact ⟨fuel, hfuel, rfl⟩
  | cons c fs ih =>
    have hpos := length_writeRecordMultibulk_pos c
    rw [records_cons, append_assoc, length_append] at hfuel
    obtain ⟨fuel, rfl⟩ : ∃ f, fuel = f + 1 := ⟨fuel - 1, by omega⟩
    obtain ⟨fuel', hlt, hw⟩ := @ih fuel rest (walkFrame w c) (forall_mem_cons.mp hok).2 (by omega)
    refine ⟨fuel', hlt, ?_⟩
    rw [records_cons, append_assoc, walkLoop_frame (hok c mem_cons_self), hw]
    rfl

theorem walkLoop_torn (h : FrameOk c) {cut rest : Bytes}
    (hcut : cut ++ rest = writeRecordMultibulk c) (hrest : rest ≠ []) (z fuel : Nat) (w : V2Walk) :
    Halted w (walkLoop (fuel + 1) (cut ++ List.replicate z 0) w) := by
  have hstep := walkLoop_succ fuel (cut ++ List.replicate z 0) w
  split at hstep
  · rename_i hg
    obtain ⟨payload, hok, hone⟩ := goodRecord_eq_some.mp hg
    rw [nextRecord_torn hcut hrest h.fits hok] at hone
    cases hone
  · exact hstep.1

theorem exists_cut_record {fs : List (List Bytes)} {k : Nat} (h : k < (records fs).length) :
    ∃ front c back cut rest, fs = front ++ c :: back ∧ cut ++ rest = writeRecordMultibulk c ∧
      rest ≠ [] ∧ (records fs).take k = records front ++ cut := by
  induction fs generalizing k with
  | nil => simp at h
  | cons c fs ih =>
    rw [records_cons, length_append] at h
    by_cases hk : k < (writeRecordMultibulk c).length
    · refine ⟨[], c, fs, (writeRecordMultibulk c).take k, (writeRecordMultibulk c).drop k, rfl,
        take_append_drop _ _, ?_, ?_⟩
      · intro hnil
        have := congrArg List.length hnil
        rw [length_drop, length_nil] at this
        omega
      · rw [records_cons, take_append_of_le_length (by omega)]
        rfl
    · obtain ⟨front, d, back, cut, rest, rfl, hcut, hrest, htake⟩ :=
        ih (k := k - (writeRecordMultibulk c).length) (by omega)
      refine ⟨c :: front, d, back, cut, rest, rfl, hcut, hrest, ?_⟩
      rw [records_cons, take_append, take_of_length_le (by omega), htake, records_cons, append_assoc]

/-! ## Routing -/

theorem baseOf_marker (name : Bytes) : baseOf (Argv.ofArgs [name]) = none := by
  rw [baseOf, Argv.len_ofArgs, if_pos (by simp)]

theorem txnMarker_begin : txnMarker (Argv.ofArgs [txnBegin]) = some .begin := by decide

theorem txnMarker_commit : txnMarker (Argv.ofArgs [txnCommit]) = some .commit := by decide

variable {w : V2Walk}

theorem walkFrame_command (h : CommandOk c) (hw : w.txn = none) :
    (walkFrame w c).txn = none ∧ (walkFrame w c).out = w.out ++ [⟨w.pos, Argv.ofArgs c⟩] ∧
      (walkFrame w c).pos = w.pos + (writeRecordMultibulk c).length := by
  simp [walkFrame, applyFrame, routeFrame, baseOf_command h, txnMarker_command h, hw]

theorem walkFrame_held (h : CommandOk c) {buf : List Delivery} (hw : w.txn = some buf) :
    (walkFrame w c).txn = some (buf ++ [⟨w.pos, Argv.ofArgs c⟩]) ∧ (walkFrame w c).out = w.out ∧
      (walkFrame w c).txnAt = w.txnAt ∧ (walkFrame w c).pos = w.pos + (writeRecordMultibulk c).length := by
  simp [walkFrame, applyFrame, routeFrame, baseOf_command h, txnMarker_command h, hw]

theorem walkFrame_begin (w : V2Walk) : (walkFrame w [txnBegin]).txn = some [] ∧ (walkFrame w [txnBegin]).out = w.out ∧
      (walkFrame w [txnBegin]).txnAt = w.pos ∧
      (walkFrame w [txnBegin]).pos = w.pos + (writeRecordMultibulk [txnBegin]).length := by
  simp [walkFrame, applyFrame, routeFrame, baseOf_marker, txnMarker_begin]

theorem walkFrame_commit {buf : List Delivery} (hw : w.txn = some buf) :
    (walkFrame w [txnCommit]).txn = none ∧ (walkFrame w [txnCommit]).out = w.out ++ buf ∧
      (walkFrame w [txnCommit]).pos = w.pos + (writeRecordMultibulk [txnCommit]).length := by
  simp [walkFrame, applyFrame, routeFrame, baseOf_marker, txnMarker_commit, hw]

theorem foldl_held {cs : List (List Bytes)} {w : V2Walk} {buf : List Delivery} (hok : ∀ c ∈ cs, CommandOk c)
    (hw : w.txn = some buf) :
    (cs.foldl walkFrame w).txn = some (buf ++ deliveries w.pos cs) ∧
      (cs.foldl walkFrame w).out = w.out ∧ (cs.foldl walkFrame w).txnAt = w.txnAt ∧
      (cs.foldl walkFrame w).pos = w.pos + (records cs).length := by
  induction cs generalizing w buf with
  | nil => exact ⟨by simpa [deliveries] using hw, rfl, rfl, rfl⟩
  | cons c cs ih =>
    obtain ⟨h1, h2, h3, h4⟩ := walkFrame_held (hok c mem_cons_self) hw
    obtain ⟨e1, e2, e3, e4⟩ := ih (forall_mem_cons.mp hok).2 h1
    refine ⟨?_, ?_, ?_, ?_⟩
    · rw [foldl_cons, e1, append_assoc, h4]
      rfl
    · rw [foldl_cons, e2, h2]
    · rw [foldl_cons, e3, h3]
    · rw [foldl_cons, e4, h4, records_cons, length_append]
      omega

theorem foldl_item {it : Item} (h : it.Ok) (hw : w.txn = none) : (it.frames.foldl walkFrame w).txn = none ∧
      (it.frames.foldl walkFrame w).out = w.out ++ it.deliveries w.pos ∧
      (it.frames.foldl walkFrame w).pos = w.pos + it.bytes.length := by
  cases it with
  | command args =>
    obtain ⟨h1, h2, h3⟩ := walkFrame_command (h args (by simp [Item.commands])) hw
    refine ⟨h1, ?_, ?_⟩
    · simpa [Item.frames, Item.deliveries, deliveries] using h2
    · simpa [Item.frames, Item.bytes] using h3
  | group cmds =>
    obtain ⟨b1, b2, b3, b4⟩ := walkFrame_begin w
    obtain ⟨e1, e2, _, e4⟩ := @foldl_held cmds _ _ h b1
    obtain ⟨c1, c2, c3⟩ := walkFrame_commit e1
    have hfold : (Item.group cmds).frames.foldl walkFrame w =
        walkFrame (cmds.foldl walkFrame (walkFrame w [txnBegin])) [txnCommit] := by
      simp [Item.frames]
    rw [hfold]
    refine ⟨c1, ?_, ?_⟩
    · rw [c2, e2, b2, b4, nil_append]
      rfl
    · rw [c3, e4, b4]
      simp [Item.bytes, Item.frames]
      omega

theorem foldl_cut_item {it : Item} {front back : List (List Bytes)}
    (h : ∀ d ∈ front, d ∈ it.commands → CommandOk d) (hf : it.frames = front ++ c :: back) (hw : w.txn = none) :
    (front.foldl walkFrame w).out = w.out ∧
      (if (front.foldl walkFrame w).txn.isSome then (front.foldl walkFrame w).txnAt
        else (front.foldl walkFrame w).pos) = w.pos := by
  cases it with
  | command args =>
    have hfront : front = [] := by
      have := congrArg List.length hf
      simp [Item.frames] at this
      exact length_eq_zero_iff.mp (by omega)
    subst hfront
    simp [hw]
  | group cmds =>
    cases front with
    | nil => simp [hw]
    | cons b front =>
      simp only [Item.frames, cons_append, List.cons.injEq] at hf
      obtain ⟨rfl, hf⟩ := hf
      -- what was read of the transaction lies before its commit marker
      have hfront : ∀ d ∈ front, CommandOk d := by
        intro d hd
        have hpre : front <+: cmds := by
          have h1 : front <+: cmds ++ [[txnCommit]] := ⟨c :: back, hf.symm⟩
          rcases prefix_concat_iff.mp h1 with heq | hpre
          · have := congrArg List.length hf
            rw [heq] at this
            simp at this
          · exact hpre
        exact h d (mem_cons_of_mem _ hd) (hpre.subset hd)
      obtain ⟨b1, b2, b3, _⟩ := walkFrame_begin w
      obtain ⟨e1, e2, e3, _⟩ := foldl_held hfront b1
      rw [foldl_cons, e1, e2, e3, b2, b3]
      simp

/-! ## The cut log -/

theorem walkLoop_cut {items : List Item} {k z fuel : Nat} {w : V2Walk} (hok : ∀ it ∈ items, it.Ok) (hw : w.txn = none)
    (hfuel : ((items.flatMap Item.bytes).take k ++ List.replicate z 0).length < fuel) :
    (walkLoop fuel ((items.flatMap Item.bytes).take k ++ List.replicate z 0) w).out.map Delivery.frame =
      w.out.map Delivery.frame ++ ((survivors items k).flatMap Item.commands).map Argv.ofArgs ∧
    (walkLoop fuel ((items.flatMap Item.bytes).take k ++ List.replicate z 0) w).settledEnd =
      w.pos + ((survivors items k).flatMap Item.bytes).length := by
  induction items generalizing k z fuel w with
  | nil =>
    obtain ⟨fuel, rfl⟩ : ∃ f, fuel = f + 1 := ⟨fuel - 1, by omega⟩
    have hh := @walkLoop_torn _ frameOk_begin [] _ rfl (by decide) z fuel w
    rw [nil_append] at hh
    simp only [flatMap_nil, take_nil, nil_append]
    rw [V2Walk.settledEnd, hh.out, hh.txn, hw, hh.pos]
    simp [survivors]
  | cons it items ih =>
    have hit := hok it mem_cons_self
    rw [flatMap_cons] at hfuel ⊢
    by_cases hk : it.bytes.length ≤ k
    · -- the item is whole
      have htake : (it.bytes ++ items.flatMap Item.bytes).take k ++ List.replicate z 0 =
          records it.frames ++ ((items.flatMap Item.bytes).take (k - it.bytes.length) ++ List.replicate z 0) := by
        rw [take_append, take_of_length_le hk, append_assoc]
        rfl
      rw [htake] at hfuel ⊢
      obtain ⟨fuel', hlt, hwalk⟩ := walkLoop_records (w := w) hit.frames hfuel
      obtain ⟨t1, t2, t3⟩ := foldl_item hit hw
      obtain ⟨i1, i2⟩ := ih (forall_mem_cons.mp hok).2 t1 hlt
      rw [hwalk, i1, i2, t2, t3, survivors, if_pos hk]
      constructor
      · simp
      · rw [flatMap_cons, length_append]
        omega
    · -- the cut is inside the item
      have htake : (it.bytes ++ items.flatMap Item.bytes).take k = (records it.frames).take k := by
        rw [take_append_of_le_length (by omega)]
        rfl
      obtain ⟨front, c, back, cut, rest, hf, hcut, hrest, hrec⟩ :=
        @exists_cut_record it.frames k (by rw [Item.bytes] at hk; omega)
      rw [htake, hrec, append_assoc] at hfuel ⊢
      have hfront : ∀ d ∈ front, FrameOk d := fun d hd => hit.frames d (by simp [hf, hd])
      have hc : FrameOk c := hit.frames c (by simp [hf])
      obtain ⟨fuel', hlt, hwalk⟩ := walkLoop_records (w := w) hfront hfuel
      obtain ⟨fuel', rfl⟩ : ∃ f, fuel' = f + 1 := ⟨fuel' - 1, by omega⟩
      have hh := walkLoop_torn hc hcut hrest z fuel' (front.foldl walkFrame w)
      obtain ⟨o1, o2⟩ := foldl_cut_item (fun d _ hd => hit d hd) hf hw
      rw [hwalk, V2Walk.settledEnd, hh.out, hh.txn, hh.txnAt, hh.pos, o1, o2, survivors, if_neg hk]
      simp

theorem survivors_bytes (items : List Item) (k : Nat) :
    ∃ rest, (items.flatMap Item.bytes).take k = (survivors items k).flatMap Item.bytes ++ rest := by
  induction items generalizing k with
  | nil => exact ⟨[], by simp [survivors]⟩
  | cons it items ih =>
    rw [flatMap_cons, survivors]
    by_cases hk : it.bytes.length ≤ k
    · obtain ⟨rest, hrest⟩ := ih (k - it.bytes.length)
      refine ⟨rest, ?_⟩
      rw [if_pos hk, take_append, take_of_length_le hk, hrest, flatMap_cons, append_assoc]
    · rw [if_neg hk]
      exact ⟨_, rfl⟩

theorem survivors_all : ∀ (items : List Item) (k : Nat), (items.flatMap Item.bytes).length ≤ k →
    survivors items k = items := by
  intro items
  induction items with
  | nil => intros; rfl
  | cons it items ih =>
    intro k h
    rw [flatMap_cons, length_append] at h
    rw [survivors, if_pos (by omega), ih _ (by omega)]

variable {items : List Item}

theorem survivors_mem {k : Nat} {it : Item} (h : it ∈ survivors items k) : it ∈ items := by
  induction items generalizing k it with
  | nil => simp [survivors] at h
  | cons jt items ih =>
    rw [survivors] at h
    split_ifs at h
    · rcases mem_cons.mp h with rfl | h
      · exact mem_cons_self
      · exact mem_cons_of_mem _ (ih h)
    · simp at h

def crashed (items : List Item) (k z : Nat) : Bytes := (logFile items).take k ++ List.replicate z 0

theorem crashed_eq {k : Nat} (hk : aof2Magic.length ≤ k) (z : Nat) : crashed items k z = aof2Magic ++
      ((items.flatMap Item.bytes).take (k - aof2Magic.length) ++ List.replicate z 0) := by
  rw [crashed, logFile_eq, take_append, take_of_length_le hk, append_assoc]

theorem streamV2_crashed (hok : ∀ it ∈ items, it.Ok) {k : Nat} (hk : aof2Magic.length ≤ k) (z : Nat) :
    (streamV2 (crashed items k z) false).frames =
      ((survivors items (k - aof2Magic.length)).flatMap Item.commands).map Argv.ofArgs ∧
    (streamV2 (crashed items k z) false).report.replayedBytes =
      (logFile (survivors items (k - aof2Magic.length))).length := by
  have hwalk : ∀ r, walkLoop (r.length + 1) r { pos := aof2Magic.length } = walkV2 r aof2Magic.length :=
    fun r => rfl
  obtain ⟨h1, h2⟩ := walkLoop_cut (k := k - aof2Magic.length) (z := z) (w := { pos := aof2Magic.length })
    hok rfl (Nat.lt_succ_self _)
  rw [hwalk] at h1 h2
  rw [crashed_eq hk, logFile_eq, Replayed.frames, streamV2]
  simp only [drop_left, Bool.false_eq_true, false_and, if_false]
  refine ⟨by simpa using h1, ?_⟩
  rw [length_append, ← h2]
  rfl

theorem streamV2_logFile (hok : ∀ it ∈ items, it.Ok) :
    (streamV2 (logFile items) false).frames = (items.flatMap Item.commands).map Argv.ofArgs := by
  have hlen : (logFile items).length = aof2Magic.length + (items.flatMap Item.bytes).length := by
    rw [logFile_eq, length_append]
  have hwhole := (streamV2_crashed hok (k := (logFile items).length) (by omega) 0).1
  rwa [crashed, take_length, replicate_zero, append_nil, survivors_all items _ (by omega)] at hwhole

theorem repairTail_crashed (hok : ∀ it ∈ items, it.Ok) {k : Nat} (hk : aof2Magic.length ≤ k) (z : Nat) :
    repairTail (crashed items k z) false = logFile (survivors items (k - aof2Magic.length)) := by
  obtain ⟨rest, hrest⟩ := survivors_bytes items (k - aof2Magic.length)
  have hdata : crashed items k z = logFile (survivors items (k - aof2Magic.length)) ++
      (rest ++ List.replicate z 0) := by
    rw [crashed_eq hk, hrest, logFile_eq]
    simp
  have hvalid := (streamV2_crashed hok hk z).2
  rw [repairTail, hvalid]
  split_ifs with hle
  · have hnil : rest ++ List.replicate z 0 = [] := by
      rw [hdata, length_append] at hle
      exact length_eq_zero_iff.mp (by omega)
    rw [hdata, hnil, append_nil]
  · rw [hdata, take_left]

/-- **A crash cut loses exactly the unfinished end of the log.** Whatever byte prefix of the log survives,
with any number of zeros behind it, strict replay delivers the commands of the appends and transactions
that lie wholly in the prefix, in order, and nothing else; and behind `repair_tail` further appends
replay as those commands followed by the new ones. -/
theorem replay_crashed (items new : List Item) (hok : ∀ it ∈ items, it.Ok)
    (hnew : ∀ it ∈ new, it.Ok) (k z : Nat) (hk : aof2Magic.length ≤ k) : (streamV2 (crashed items k z) false).frames =
      ((survivors items (k - aof2Magic.length)).flatMap Item.commands).map Argv.ofArgs ∧
    (streamV2 (new.foldl Item.write (repairTail (crashed items k z) false)) false).frames =
      ((survivors items (k - aof2Magic.length)).flatMap Item.commands ++
        new.flatMap Item.commands).map Argv.ofArgs := by
  refine ⟨(streamV2_crashed hok hk z).1, ?_⟩
  rw [repairTail_crashed hok hk z]
  -- the repaired and extended file is the log of the surviving and the new items
  generalize hs : survivors items (k - aof2Magic.length) = kept
  have hkept : ∀ it ∈ kept ++ new, it.Ok := by
    intro it hit
    rcases mem_append.mp hit with hit | hit
    · rw [← hs] at hit
      exact hok it (survivors_mem hit)
    · exact hnew it hit
  rw [logFile, ← foldl_append, ← flatMap_append]
  exact streamV2_logFile hkept

/-- `SET k v`, then a transaction cut inside its commit marker, then `DEL k` on the repaired log. -/
theorem replay_crashed_set_then_open_group :
    (streamV2 (crashed [.command [[83, 69, 84], [107], [118]], .group [[[68, 69, 76], [107]]]] 120 3)
        false).frames = [Argv.ofArgs [[83, 69, 84], [107], [118]]] ∧
    (streamV2 ([Item.command [[68, 69, 76], [107]]].foldl Item.write (repairTail
        (crashed [.command [[83, 69, 84], [107], [118]], .group [[[68, 69, 76], [107]]]] 120 3) false)) false).frames =
      [Argv.ofArgs [[83, 69, 84], [107], [118]], Argv.ofArgs [[68, 69, 76], [107]]] := by
  have hset : CommandOk [[83, 69, 84], [107], [118]] :=
    ⟨⟨⟨by simp, by decide, by decide⟩, by decide⟩, by decide, by decide, by simp⟩
  have hdel : CommandOk [[68, 69, 76], [107]] :=
    ⟨⟨⟨by simp, by decide, by decide⟩, by decide⟩, by decide, by decide, by
      rintro id _ h
      simp [logBase] at h⟩
  have h := replay_crashed [.command [[83, 69, 84], [107], [118]], .group [[[68, 69, 76], [107]]]]
    [.command [[68, 69, 76], [107]]] (by simp [Item.Ok, Item.commands, hset, hdel])
    (by simp [Item.Ok, Item.commands, hdel]) 120 3 (by decide)
  have hs : survivors [.command [[83, 69, 84], [107], [118]], .group [[[68, 69, 76], [107]]]]
      (120 - aof2Magic.length) = [.command [[83, 69, 84], [107], [118]]] := by decide +kernel
  rw [hs] at h
  exact h

/-- An appended `LOG_BASE` frame is neither a marker nor too long, and replay skips it. -/
theorem replay_skips_log_base : [logBase, [1, 0, 0, 0, 0, 0, 0, 0]] ≠ [txnBegin] ∧
    [logBase, [1, 0, 0, 0, 0, 0, 0, 0]] ≠ [txnCommit] ∧
    (writeMultibulk [logBase, [1, 0, 0, 0, 0, 0, 0, 0]]).length ≤ maxRecord ∧
    survivors [.command [logBase, [1, 0, 0, 0, 0, 0, 0, 0]]] 100 = [.command [logBase, [1, 0, 0, 0, 0, 0, 0, 0]]] ∧
    (streamV2 (crashed [.command [logBase, [1, 0, 0, 0, 0, 0, 0, 0]]] 109 0) false).frames = [] := by
  decide +kernel

/-! ## Crash after crash -/

/-- What is appended to a log before a crash, and what the crash leaves: the first `k` bytes and `z` zeros. -/
structure Round where
  new : List Item
  k : Nat
  z : Nat

/-- A log that is written to, cut by a crash and repaired, again and again. -/
def afterCrashes (rounds : List Round) : Bytes :=
  rounds.foldl (fun file r => repairTail ((r.new.foldl Item.write file).take r.k ++ List.replicate r.z 0) false) aof2Magic

def kept (rounds : List Round) : List Item :=
  rounds.foldl (fun items r => survivors (items ++ r.new) (r.k - aof2Magic.length)) []

/-- **However many crashes**, the repaired log is the log of the items that every one of them left whole. -/
theorem repaired_log_keeps_items (rounds : List Round) (hok : ∀ r ∈ rounds, ∀ it ∈ r.new, it.Ok)
    (hk : ∀ r ∈ rounds, aof2Magic.length ≤ r.k) : afterCrashes rounds = logFile (kept rounds) ∧
    (streamV2 (afterCrashes rounds) false).frames = ((kept rounds).flatMap Item.commands).map Argv.ofArgs := by
  have hlog : afterCrashes rounds = logFile (kept rounds) ∧ ∀ it ∈ kept rounds, it.Ok := by
    induction rounds using List.reverseRecOn with
    | nil => exact ⟨rfl, by simp [kept]⟩
    | append_singleton rounds r ih =>
      rw [forall_mem_append, forall_mem_singleton] at hok hk
      obtain ⟨hfile, hkept⟩ := ih hok.1 hk.1
      have hall := forall_mem_append.mpr ⟨hkept, hok.2⟩
      rw [afterCrashes, kept, foldl_append, foldl_append, ← afterCrashes, ← kept, hfile]
      refine ⟨?_, fun it hit => hall it (survivors_mem hit)⟩
      rw [foldl_cons, foldl_nil, logFile, ← foldl_append]
      exact repairTail_crashed hall hk.2 r.z
  exact ⟨hlog.1, by rw [hlog.1, streamV2_logFile hlog.2]⟩

theorem repaired_log_keeps_items_twice :
    afterCrashes [⟨[.command [[80]], .command [[81]]], 30, 2⟩, ⟨[.command [[82]]], 60, 0⟩] =
      logFile [.command [[80]], .command [[82]]] :=
  (repaired_log_keeps_items _ (by simp [Item.Ok, Item.commands, commandOk_byte]) (by decide)).1.trans (by decide +kernel)

end Kevy.Persist
