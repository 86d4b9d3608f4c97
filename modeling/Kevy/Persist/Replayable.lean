import Kevy.Persist.CrashCut

/-!
# Which appended commands a replay reads

`Aof::append` takes a command of any size: it writes the frame, its length cut to 32 bits and its
checksum, and reports success. The reader has limits the writer does not look at: a record of at most
`MAX_RECORD` bytes that holds one command within the request parser's bounds. The frame of a command
outside them never reads as a record (`goodRecord_unreadable`), so a strict replay stops there.
-/

namespace Kevy.Persist

open Kevy.Lib Kevy.Resp List

/-! ## A frame is read as itself or not at all -/

theorem line_unique {line line' rest rest' : Bytes} (h : NoCrlf line) (h' : NoCrlf line')
    (heq : line ++ crlf ++ rest = line' ++ crlf ++ rest') : line = line' ∧ rest = rest' := by
  have hlen : line.length = line'.length := by
    have h1 := crlfIn_noCrlf h rest
    rw [heq, crlfIn_noCrlf h' rest'] at h1
    exact (Option.some.inj h1).symm
  obtain ⟨h1, h2⟩ := append_inj heq (by simp [hlen])
  exact ⟨append_cancel_right h1, h2⟩

theorem bulkFrames_unique {bs : List Bulk} {args : List Bytes} {rest : Bytes} (hok : ∀ b ∈ bs, b.Ok)
    (hlen : bs.length = args.length)
    (heq : bulkFrames bs ++ rest = bulkFrames (args.map fun a => ⟨decimal a.length, a⟩)) :
    bs.map Bulk.data = args ∧ rest = [] := by
  induction bs generalizing args rest with
  | nil =>
    obtain rfl : args = [] := length_eq_zero_iff.mp hlen.symm
    exact ⟨rfl, heq⟩
  | cons b bs ih =>
    obtain ⟨a, args, rfl⟩ : ∃ a args', args = a :: args' :=
      exists_cons_of_ne_nil (fun h => by simp [h] at hlen)
    have hb := hok b mem_cons_self
    have hline : b.header ++ crlf ++ (b.data ++ (crlf ++ (bulkFrames bs ++ rest))) = decimal a.length ++ crlf ++
          (a ++ (crlf ++ bulkFrames (args.map fun a => ⟨decimal a.length, a⟩))) := by
      simpa [Bulk.frame] using heq
    obtain ⟨hheader, hbody⟩ := line_unique hb.noCrlf (noCrlf_decimal a.length) hline
    have hsize : b.data.length = a.length := by
      have h1 := hb.header
      rw [hheader] at h1
      exact_mod_cast parseInt_decimal_some h1
    obtain ⟨hdata, htail⟩ := append_inj hbody hsize
    obtain ⟨hrest, hnil⟩ := ih (forall_mem_cons.mp hok).2 (by simpa using hlen) (append_cancel_left htail)
    exact ⟨by rw [map_cons, hdata, hrest], hnil⟩

theorem parseOneInto_writeMultibulk {args : List Bytes} (hne : args ≠ []) {argv : Argv} {n : Nat}
    (h : parseOneInto (writeMultibulk args) = .ok (some (argv, n))) :
    Parseable args ∧ argv = Argv.ofArgs args ∧ n = (writeMultibulk args).length := by
  obtain ⟨f, fargs, rest, hf, hcut, rfl, rfl⟩ := parseOneInto_sound h
  have hwrite : writeMultibulk args = star :: (decimal args.length ++ crlf ++
      bulkFrames (args.map fun a => ⟨decimal a.length, a⟩)) := by
    rw [writeMultibulk_eq, multiFrame]
    rfl
  cases hf with
  | @inline line hno hstar =>
    rw [hwrite] at hcut
    cases line with
    | nil => exact absurd (List.cons.inj hcut).1 (by decide)
    | cons b line => exact absurd (congrArg some (List.cons.inj hcut).1).symm hstar
  | @null header v hv hneg =>
    have hline : decimal args.length ++ crlf ++ bulkFrames (args.map fun a => ⟨decimal a.length, a⟩) =
        header ++ crlf ++ rest := by
      rw [hwrite] at hcut
      simpa using (List.cons.inj hcut).2
    obtain ⟨rfl, _⟩ := line_unique (noCrlf_decimal _) (noCrlf_of_parseInt hv) hline
    have := parseInt_decimal_some hv
    omega
  | @multi header bs hok =>
    have hline : header ++ crlf ++ (bulkFrames bs ++ rest) = decimal args.length ++ crlf ++
        bulkFrames (args.map fun a => ⟨decimal a.length, a⟩) := by
      rw [hwrite] at hcut
      simpa [multiFrame] using (List.cons.inj hcut).2.symm
    obtain ⟨rfl, hbody⟩ := line_unique (noCrlf_of_parseInt hok.count) (noCrlf_decimal _) hline
    have hcount : bs.length = args.length := by exact_mod_cast parseInt_decimal_some hok.count
    obtain ⟨hargs, hnil⟩ := bulkFrames_unique hok.bulks hcount hbody
    refine ⟨⟨hne, hcount ▸ hok.limit, ?_⟩, by rw [hargs], ?_⟩
    · intro a ha
      rw [← hargs] at ha
      obtain ⟨b, hb, rfl⟩ := List.mem_map.mp ha
      exact (hok.bulks b hb).limit
    · rw [hcut, hnil, append_nil]

theorem oneCommand_front {args : List Bytes} (hne : args ≠ []) {payload : Bytes}
    (hfront : payload <+: writeMultibulk args) {argv : Argv} (h : oneCommand payload = some argv) :
    Parseable args ∧ payload = writeMultibulk args := by
  obtain ⟨ext, hext⟩ := hfront
  have hwhole := stable_parseCommandInto.item (parseCommandInto_of_oneCommand h) ext
  rw [hext] at hwhole
  rcases hone : parseOneInto (writeMultibulk args) with e | _ | ⟨argv', n⟩
  · rw [parseCommandInto, skip_error stable_parseOneInto.toConsumes hone] at hwhole
    cases hwhole
  · rw [parseCommandInto, skip_none hone] at hwhole
    cases hwhole
  obtain ⟨hok, rfl, rfl⟩ := parseOneInto_writeMultibulk hne hone
  have hitem : (Argv.ofArgs args).isEmpty = false := by simpa using hne
  rw [parseCommandInto, skip_item stable_parseOneInto.toConsumes hone hitem] at hwhole
  have hlen : (writeMultibulk args).length = payload.length := by
    have := Except.ok.inj hwhole
    exact (Prod.mk.inj (Option.some.inj this)).2
  exact ⟨hok, (IsPrefix.eq_of_length ⟨ext, hext⟩ hlen.symm)⟩

/-- **No record for a command outside the reader's limits**: whatever the cut length field selects of it,
the bytes of such a record are never one that holds exactly one command. -/
theorem goodRecord_unreadable {c : List Bytes} (hne : c ≠ []) (hbad : ¬ FrameOk c) (rest : Bytes) :
    goodRecord (writeRecordMultibulk c ++ rest) 0 = none := by
  rw [Option.eq_none_iff_forall_ne_some]
  rintro ⟨argv, n⟩ hgood
  obtain ⟨payload, hok, hone⟩ := goodRecord_eq_some.mp hgood
  obtain ⟨len, hlen, hpos, hmax, hpay, hplen, _⟩ := nextRecord_ok hok
  have hbuf : writeRecordMultibulk c ++ rest =
      leBytes 4 (writeMultibulk c).length ++ (leBytes 4 (crc32c (writeMultibulk c)).toNat ++
        (writeMultibulk c ++ rest)) := by
    rw [writeRecordMultibulk, writeRecord, append_assoc, append_assoc]
  -- the length field holds the length modulo 2^32, so it selects a front of the frame
  have hmod : len = (writeMultibulk c).length % 256 ^ 4 := by
    rw [hlen, drop_zero, hbuf, take_append_of_le_length (by simp), take_of_length_le (by simp), ofLe_leBytes]
  have hfront : payload <+: writeMultibulk c := by
    have hle : len ≤ (writeMultibulk c).length := hmod ▸ Nat.mod_le _ _
    have hdrop : (writeRecordMultibulk c ++ rest).drop (0 + recordHeader) = writeMultibulk c ++ rest := by
      rw [hbuf, ← append_assoc]
      exact drop_left' (by simp [recordHeader])
    rw [hpay, hdrop, take_append_of_le_length hle]
    exact take_prefix _ _
  obtain ⟨hparse, rfl⟩ := oneCommand_front hne hfront hone
  exact hbad ⟨hparse, hplen ▸ hmax⟩

/-! ## The whole log -/

/-- What a caller may log: a command with a name, none of the log's own reserved frames. -/
structure Loggable (c : List Bytes) : Prop where
  nonempty : c ≠ []
  notBegin : c ≠ [txnBegin]
  notCommit : c ≠ [txnCommit]
  notBase : ∀ id, id.length = 8 → c ≠ [logBase, id]

theorem Loggable.commandOk {c : List Bytes} (h : Loggable c) (hok : FrameOk c) : CommandOk c :=
  ⟨hok, h.notBegin, h.notCommit, h.notBase⟩

/-- A strict replay of the intact log delivers every command appended, argument for argument, and finds
nothing corrupt. -/
structure Replays (items : List Item) : Prop where
  delivered : (streamV2 (logFile items) false).frames = (items.flatMap Item.commands).map Argv.ofArgs
  arguments : ∀ args ∈ items.flatMap Item.commands, ∀ i, (Argv.ofArgs args).get i = args[i]?
  intact : (streamV2 (logFile items) false).report.corrupt = false

theorem mem_commands_of_unreadable {it : Item} {c : List Bytes} (hc : c ∈ it.frames)
    (hbad : ¬ FrameOk c) : c ∈ it.commands := by
  cases it with
  | command args => exact hc
  | group cmds =>
    simp only [Item.frames, mem_cons, mem_append, not_mem_nil, or_false] at hc
    rcases hc with rfl | hc | rfl
    · exact absurd frameOk_begin hbad
    · exact hc
    · exact absurd frameOk_commit hbad

theorem exists_first_unreadable {it : Item} (h : ∃ c ∈ it.commands, ¬ FrameOk c) :
    ∃ front c back, it.frames = front ++ c :: back ∧ (∀ d ∈ front, FrameOk d) ∧ ¬ FrameOk c := by
  obtain ⟨c, hc, hbad⟩ := h
  refine exists_first ⟨c, ?_, hbad⟩
  cases it with
  | command args => exact hc
  | group cmds => simp [Item.frames, show c ∈ cmds from hc]

theorem walkV2_eq (r : Bytes) (startPos : Nat) :
    walkV2 r startPos = walkLoop (r.length + 1) r { pos := startPos } := rfl

theorem frames_strict (items : List Item) : (streamV2 (logFile items) false).frames =
    (walkV2 (items.flatMap Item.bytes) aof2Magic.length).out.map Delivery.frame := by
  rw [logFile_eq, Replayed.frames, streamV2]
  simp only [drop_left, Bool.false_eq_true, false_and, if_false]

theorem walkLoop_unreadable : ∀ {items : List Item} {fuel : Nat} {w : V2Walk},
    (∀ it ∈ items, ∀ c ∈ it.commands, Loggable c) → (∃ it ∈ items, ∃ c ∈ it.commands, ¬ FrameOk c) → w.txn = none →
    (items.flatMap Item.bytes).length < fuel → (walkLoop fuel (items.flatMap Item.bytes) w).out.length <
      w.out.length + (items.flatMap Item.commands).length := by
  intro items
  induction items with
  | nil => rintro fuel w _ ⟨it, hit, _⟩; cases hit
  | cons it items ih =>
    intro fuel w hlog hbad hw hfuel
    rw [flatMap_cons] at hfuel ⊢
    by_cases hit : ∀ c ∈ it.commands, FrameOk c
    · -- the item reads back: the unreadable command is further on
      have hok : it.Ok := fun c hc => (hlog it mem_cons_self c hc).commandOk (hit c hc)
      obtain ⟨fuel', hlt, hwalk⟩ := walkLoop_records (w := w) hok.frames hfuel
      obtain ⟨t1, t2, _⟩ := foldl_item hok hw
      have hlen : (it.deliveries w.pos).length = it.commands.length := by
        have hframes := congrArg List.length (it.frames_deliveries w.pos)
        rwa [length_map, length_map] at hframes
      have hrest := ih (w := it.frames.foldl walkFrame w) (forall_mem_cons.mp hlog).2 ?_ t1 hlt
      · rw [Item.bytes, hwalk, flatMap_cons, length_append]
        rw [t2, length_append, hlen] at hrest
        omega
      · obtain ⟨d, hd, c, hc, hc'⟩ := hbad
        rcases mem_cons.mp hd with rfl | hd
        · exact absurd (hit c hc) hc'
        · exact ⟨d, hd, c, hc, hc'⟩
    · -- the walk stops at the first unreadable frame of the item, with nothing of it delivered
      push Not at hit
      obtain ⟨front, c, back, hf, hfront, hc⟩ := exists_first_unreadable hit
      have hcmd : c ∈ it.commands := mem_commands_of_unreadable (by rw [hf]; simp) hc
      have hsound : ∀ d ∈ front, d ∈ it.commands → CommandOk d := fun d hd hd' =>
        (hlog it mem_cons_self d hd').commandOk (hfront d hd)
      obtain ⟨o1, _⟩ := foldl_cut_item hsound hf hw
      have hbytes : it.bytes ++ items.flatMap Item.bytes = records front ++
          (writeRecordMultibulk c ++ (records back ++ items.flatMap Item.bytes)) := by
        rw [Item.bytes, hf]
        simp
      rw [hbytes] at hfuel ⊢
      obtain ⟨fuel', hlt, hwalk⟩ := walkLoop_records (w := w) hfront hfuel
      obtain ⟨fuel', rfl⟩ : ∃ f, fuel' = f + 1 := ⟨fuel' - 1, by omega⟩
      have hnone := goodRecord_unreadable (hlog it mem_cons_self c hcmd).nonempty hc
        (records back ++ items.flatMap Item.bytes)
      have hpos : 0 < it.commands.length := length_pos_of_mem hcmd
      have hhalt := walkLoop_succ fuel' (writeRecordMultibulk c ++ (records back ++ items.flatMap Item.bytes))
        (front.foldl walkFrame w)
      rw [hnone] at hhalt
      rw [hwalk, hhalt.1.out, o1, flatMap_cons, length_append]
      omega

theorem frameOk_of_replays {items : List Item}
    (hlog : ∀ it ∈ items, ∀ c ∈ it.commands, Loggable c) (h : Replays items) :
    ∀ it ∈ items, ∀ c ∈ it.commands, FrameOk c := by
  by_contra hbad
  push Not at hbad
  have hlt := walkLoop_unreadable (w := { pos := aof2Magic.length }) hlog hbad rfl (Nat.lt_succ_self _)
  have hlen := congrArg List.length h.delivered
  rw [frames_strict, walkV2_eq, length_map, length_map] at hlen
  simp only [length_nil, Nat.zero_add] at hlt
  exact absurd hlen (Nat.ne_of_lt hlt)

theorem replays_of_frameOk {items : List Item} (hlog : ∀ it ∈ items, ∀ c ∈ it.commands, Loggable c)
    (h : ∀ it ∈ items, ∀ c ∈ it.commands, FrameOk c) : Replays items := by
  have hok : ∀ it ∈ items, it.Ok := fun it hit c hc => (hlog it hit c hc).commandOk (h it hit c hc)
  refine ⟨streamV2_logFile hok, ?_, ?_⟩
  · intro c hc i
    obtain ⟨it, hit, hc⟩ := mem_flatMap.mp hc
    exact (h it hit c hc).get i
  · -- every record is applied, so the walk ends where the file does
    have hbytes : items.flatMap Item.bytes = records (items.flatMap Item.frames) ++ [] := by
      rw [append_nil, records, flatMap_assoc]
      rfl
    have hframes : ∀ c ∈ items.flatMap Item.frames, FrameOk c := by
      intro c hc
      obtain ⟨it, hit, hc⟩ := mem_flatMap.mp hc
      exact (hok it hit).frames c hc
    have hstop : (walkV2 (items.flatMap Item.bytes) aof2Magic.length).stop = .clean := by
      rw [walkV2_eq, hbytes]
      obtain ⟨fuel, hlt, hwalk⟩ := @walkLoop_records _ _ [] { pos := aof2Magic.length }
        hframes (Nat.lt_succ_self _)
      obtain ⟨fuel, rfl⟩ : ∃ f, fuel = f + 1 := ⟨fuel - 1, by omega⟩
      rw [hwalk, walkLoop]
      rfl
    rw [logFile_eq, streamV2]
    simp only [drop_left, Bool.false_eq_true, false_and, if_false, hstop]
    rfl

/-- **An append is replayable exactly within the reader's limits.** Whatever is logged, as single commands
and transactions, a strict replay of the intact file delivers it all if and only if each command has at
most `MAX_MULTIBULK_LEN` arguments of at most `MAX_BULK_LEN` bytes and a frame of at most `MAX_RECORD`
bytes; `append` asks for none of the three. -/
theorem replays_iff_within_limits (items : List Item) (hlog : ∀ it ∈ items, ∀ c ∈ it.commands, Loggable c) :
    Replays items ↔ ∀ it ∈ items, ∀ c ∈ it.commands, c.length ≤ maxMultibulkLen ∧
      (∀ a ∈ c, a.length ≤ maxBulkLen) ∧ (writeMultibulk c).length ≤ maxRecord := by
  constructor
  · intro h it hit c hc
    obtain ⟨hparse, hfits⟩ := frameOk_of_replays hlog h it hit c hc
    exact ⟨hparse.count, hparse.bulk, hfits⟩
  · intro h
    refine replays_of_frameOk hlog fun it hit c hc => ?_
    obtain ⟨hcount, hbulk, hfits⟩ := h it hit c hc
    exact ⟨⟨(hlog it hit c hc).nonempty, hcount, hbulk⟩, hfits⟩

def setCommand (value : Bytes) : List Bytes := [[83, 69, 84], [107], value]

theorem loggable_set (value : Bytes) : Loggable (setCommand value) where
  nonempty := by simp [setCommand]
  notBegin := by simp [setCommand]
  notCommit := by simp [setCommand]
  notBase := by simp [setCommand]

theorem replays_iff_within_limits_set : Replays [.command (setCommand [118]), .group [setCommand [118]]] := by
  refine (replays_iff_within_limits _ ?_).mpr ?_
  · simpa [Item.commands] using loggable_set [118]
  · simp only [mem_cons, not_mem_nil, or_false, forall_eq_or_imp, forall_eq, Item.commands]
    decide

theorem not_replays_of_oversized {value : Bytes} (h : maxBulkLen < value.length) :
    ¬ Replays [.command (setCommand value)] := by
  intro hreplays
  have hlog : ∀ it ∈ [Item.command (setCommand value)], ∀ c ∈ it.commands, Loggable c := by
    simpa [Item.commands] using loggable_set value
  have hok := frameOk_of_replays hlog hreplays _ mem_cons_self (setCommand value) (by simp [Item.commands])
  exact absurd (hok.parseable.bulk value (by simp [setCommand])) (Nat.not_le.mpr h)

/-- A value one byte above the parser's bulk limit is logged, and the log does not replay. -/
theorem oversized_value_is_lost : Loggable (setCommand (List.replicate (2 ^ 29 + 1) 0)) ∧
      ¬ Replays [.command (setCommand (List.replicate (2 ^ 29 + 1) 0))] := by
  refine ⟨loggable_set _, not_replays_of_oversized ?_⟩
  rw [length_replicate]
  decide

end Kevy.Persist
