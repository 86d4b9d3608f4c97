import Kevy.Seg.Manifest

/-!
# Recovery of the manifest

A record reads back as its body, and a strict front of a record does not read. A ledger whose file is a row of whole
records opens to its live set, and a torn append behind them is cut off, as long as nothing in the torn bytes reads as
a record of its own.
-/

namespace Kevy.Seg

open Kevy.Lib Kevy.Persist Kevy.Resp List

variable {Name : Type} {names : NameCodec Name}

/-! ## Records read back -/

theorem reads_part {part : Bytes} (h : part.length < 2 ^ 32) : Reads () readPart (encodePart part) part := by
  have hlen : ofLe (leBytes 4 part.length) = part.length := ofLe_leBytes_of_lt h
  refine (Reads.readExact (length_leBytes 4 _)).bind ?_
  rw [hlen]
  exact Reads.readExact rfl

theorem length_encodePart (part : Bytes) : (encodePart part).length = 4 + part.length := by
  rw [encodePart, length_append, length_leBytes]

theorem reads_fields {e : Entry Name} (h : (encodeEntry names e).length < 2 ^ 32) :
    Reads () readFields (encodeEntry names e) (names.bytes e.file, e.info, e.minKey, e.maxKey, e.records) := by
  simp only [encodeEntry, length_append, length_encodePart] at h
  refine (reads_part (by omega)).bind ((reads_part (by omega)).bind ((reads_part (by omega)).bind
    ((reads_part (by omega)).bind ?_)))
  have hrecords : UInt64.ofNat (ofLe (leBytes 8 e.records.toNat)) = e.records := by
    rw [ofLe_leBytes_of_lt e.records.toNat_lt]
    exact UInt64.ofNat_toNat
  have hlast : Reads () (readExact () 8) (leBytes 8 e.records.toNat) _ := Reads.readExact (length_leBytes 8 e.records.toNat)
  have hmap := hlast.map (g := fun bs => (names.bytes e.file, e.info, e.minKey, e.maxKey, UInt64.ofNat (ofLe bs)))
  rwa [hrecords] at hmap

theorem decodeEntry_encodeEntry {e : Entry Name} (h : (encodeEntry names e).length < 2 ^ 32) :
    decodeEntry names (encodeEntry names e) = some e := by
  have hread := (reads_fields h).whole []
  rw [append_nil] at hread
  unfold decodeEntry
  rw [hread]
  dsimp only
  rw [names.fromUtf8_bytes]
  rfl

variable {body : Bytes}

theorem reads_frame (h : body.length < 2 ^ 32) :
    Reads () readFrame (envelope body) ((crc32c body).toNat, body) := by
  have hlen : ofLe (leBytes 4 body.length) = body.length := ofLe_leBytes_of_lt h
  have hcrc : ofLe (leBytes 4 (crc32c body).toNat) = (crc32c body).toNat := ofLe_leBytes_of_lt (crc32c body).toNat_lt
  refine (Reads.readExact (length_leBytes 4 _)).bind ((Reads.readExact (length_leBytes 4 _)).bind ?_)
  rw [hcrc]
  exact (Reads.readExact hlen.symm).map

theorem readRecord_envelope (h : body.length < 2 ^ 32) (rest : Bytes) :
    readRecord (envelope body ++ rest) = some (body, rest) := by
  unfold readRecord
  rw [(reads_frame h).whole rest]
  exact if_pos rfl

variable {torn : Bytes}

theorem readRecord_torn (h : body.length < 2 ^ 32) (hfront : torn <+: envelope body)
    (hne : torn ≠ envelope body) : readRecord torn = none := by
  unfold readRecord
  rw [(reads_frame h).short torn hfront hne]

theorem length_envelope (body : Bytes) : (envelope body).length = 8 + body.length := by
  rw [envelope, length_append, length_append, length_leBytes, length_leBytes]
  omega

theorem torn_looks (h : body.length ≤ maxRecordBytes) (hfront : torn <+: envelope body)
    (hne : torn ≠ envelope body) : wholeRecordsEnd torn = false ∧ plausibleLen torn = true := by
  have hlt : torn.length < 8 + body.length := by
    have hle := hfront.length_le
    rw [length_envelope] at hle
    rcases Nat.lt_or_ge torn.length (8 + body.length) with hlt | hge
    · exact hlt
    · exact absurd (hfront.eq_of_length_le (by rw [length_envelope]; exact hge)) hne
  unfold wholeRecordsEnd plausibleLen
  rcases Nat.lt_or_ge torn.length 4 with hshort | hlong
  · have hnot : ¬ 4 ≤ torn.length := by omega
    simp [hshort, hnot]
  · have htake : ofLe (torn.take 4) = body.length := by
      have hsame : torn.take 4 = leBytes 4 body.length := by
        rw [prefix_iff_eq_take.mp hfront, take_take, Nat.min_eq_left hlong, envelope, take_left' (by simp)]
      rw [hsame]
      exact ofLe_leBytes_of_lt (lt_of_le_of_lt h (by decide))
    have hnot : ¬ 8 + body.length ≤ torn.length := by omega
    rw [htake]
    simp [hnot, h]

/-! ## Replay -/

section Replay

variable [LinearOrder Name] {live live' : List (Entry Name)} {bodies : List Bytes}

def applyAll (names : NameCodec Name) (live : List (Entry Name)) : List Bytes → Except Corrupt (List (Entry Name))
  | [] => .ok live
  | body :: bodies =>
    match apply names live body with
    | .error e => .error e
    | .ok live => applyAll names live bodies

theorem applyAll_cons {live1 : List (Entry Name)} (h : apply names live body = .ok live1) :
    applyAll names live (body :: bodies) = applyAll names live1 bodies := by
  rw [applyAll, h]

theorem applyAll_cons_inv (h : applyAll names live (body :: bodies) = .ok live') :
    ∃ live1, apply names live body = .ok live1 ∧ applyAll names live1 bodies = .ok live' := by
  rw [applyAll] at h
  cases happly : apply names live body with
  | error e =>
    rw [happly] at h
    cases h
  | ok live1 =>
    rw [happly] at h
    exact ⟨live1, rfl, h⟩

theorem applyAll_append {more : List Bytes} (h : applyAll names live bodies = .ok live') :
    applyAll names live (bodies ++ more) = applyAll names live' more := by
  induction bodies generalizing live with
  | nil =>
    cases h
    rfl
  | cons body bodies ih =>
    obtain ⟨live1, happly, hrest⟩ := applyAll_cons_inv h
    rw [cons_append, applyAll_cons happly, ih hrest]

theorem replay_record {live1 : List (Entry Name)} (hsize : body.length ≤ maxRecordBytes)
    (h : apply names live body = .ok live1) (fuel good : Nat) (rest : Bytes) :
    replay names (fuel + 1) (envelope body ++ rest) good live = replay names fuel rest (good + (8 + body.length)) live1 := by
  have hne : envelope body ++ rest ≠ [] := by
    intro hnil
    have hzero := congrArg List.length hnil
    rw [length_append, length_envelope, length_nil] at hzero
    omega
  rw [replay, if_neg hne, readRecord_envelope (lt_of_le_of_lt hsize (by decide))]
  dsimp only
  rw [h]

theorem replay_whole (hsize : ∀ b ∈ bodies, b.length ≤ maxRecordBytes) (h : applyAll names live bodies = .ok live')
    (fuel : Nat) (tail : Bytes) (good : Nat) :
    replay names (bodies.length + fuel) (bodies.flatMap envelope ++ tail) good live =
      replay names fuel tail (good + (bodies.flatMap envelope).length) live' := by
  induction bodies generalizing live good with
  | nil =>
    cases h
    rw [length_nil, Nat.zero_add]
    rfl
  | cons body bodies ih =>
    obtain ⟨live1, happly, hrest⟩ := applyAll_cons_inv h
    rw [length_cons, Nat.add_right_comm, flatMap_cons, append_assoc,
      replay_record (hsize body mem_cons_self) happly, ih (forall_mem_cons.mp hsize).2 hrest,
      length_append, length_envelope, Nat.add_assoc good]

theorem replay_nil (fuel good : Nat) : replay names (fuel + 1) [] good live = .ok (good, live) := if_pos rfl

theorem replay_torn (h : body.length ≤ maxRecordBytes) (hfront : torn <+: envelope body)
    (hne : torn ≠ envelope body) (fuel good : Nat) : replay names (fuel + 1) torn good live =
      if validRecordFollows torn then .error ⟨"manifest length field"⟩ else .ok (good, live) := by
  obtain ⟨hwhole, hplausible⟩ := torn_looks h hfront hne
  by_cases hnil : torn = []
  · rw [hnil, replay_nil]
    rfl
  · unfold replay
    rw [if_neg hnil, readRecord_torn (lt_of_le_of_lt h (by decide)) hfront hne]
    dsimp only
    rw [hwhole, hplausible]
    rfl

/-- The file of the ledger is a row of whole records that make its live set. -/
structure Manifest.Recorded (names : NameCodec Name) (m : Manifest Name) : Prop where
  records : ∃ bodies, m.file = bodies.flatMap envelope ∧ (∀ b ∈ bodies, b.length ≤ maxRecordBytes) ∧
    applyAll names [] bodies = .ok m.live
  sorted : m.live.Pairwise fun a b => a.file < b.file
  bounded : ∀ e ∈ m.live, (Manifest.addBody names e).length ≤ maxRecordBytes

namespace Manifest

variable {m : Manifest Name}

theorem length_flatMap_ge (bodies : List Bytes) : bodies.length ≤ (bodies.flatMap envelope).length := by
  induction bodies with
  | nil => exact le_rfl
  | cons body bodies ih =>
    rw [flatMap_cons, length_append, length_envelope, length_cons]
    omega

theorem replay_file (hm : m.Recorded names) (tail : Bytes) :
    ∃ fuel, replay names ((m.file ++ tail).length + 1) (m.file ++ tail) 0 [] =
      replay names (fuel + 1) tail m.file.length m.live := by
  obtain ⟨bodies, hfile, hsize, happly⟩ := hm.records
  have hlen := length_flatMap_ge bodies
  obtain ⟨fuel, hfuel⟩ : ∃ fuel, (m.file ++ tail).length + 1 = bodies.length + (fuel + 1) :=
    ⟨(m.file ++ tail).length - bodies.length, by rw [length_append, hfile]; omega⟩
  refine ⟨fuel, ?_⟩
  rw [hfuel]
  nth_rewrite 1 [hfile]
  rw [replay_whole hsize happly, Nat.zero_add, ← hfile]

theorem openFile_tail (hm : m.Recorded names) (tail : Bytes)
    (htail : ∀ fuel good, replay names (fuel + 1) tail good m.live = .ok (good, m.live)) :
    openFile names (m.file ++ tail) = .ok m := by
  obtain ⟨fuel, hreplay⟩ := replay_file hm tail
  unfold openFile
  rw [hreplay, htail]
  dsimp only
  congr 1
  split_ifs with hlonger
  · rw [take_left]
  · rw [length_append, gt_iff_lt, Nat.lt_add_right_iff_pos, Nat.pos_iff_ne_zero, not_not, length_eq_zero_iff] at hlonger
    rw [hlonger, append_nil]

theorem openFile_file (hm : m.Recorded names) : openFile names m.file = .ok m := by
  have hopen := openFile_tail hm [] fun fuel good => replay_nil fuel good
  rwa [append_nil] at hopen

/-- **Opening** after a torn append gives back the ledger before it, unless the torn bytes hold a record. -/
theorem openFile_torn (hm : m.Recorded names) (h : body.length ≤ maxRecordBytes)
    (hfront : torn <+: envelope body) (hne : torn ≠ envelope body) : openFile names (m.file ++ torn) =
      if validRecordFollows torn then .error ⟨"manifest length field"⟩ else .ok m := by
  split_ifs with hrecord
  · obtain ⟨fuel, hreplay⟩ := replay_file hm torn
    unfold openFile
    rw [hreplay, replay_torn h hfront hne, if_pos hrecord]
  · exact openFile_tail hm torn fun fuel good => by rw [replay_torn h hfront hne, if_neg hrecord]

end Manifest

end Replay

end Kevy.Seg
