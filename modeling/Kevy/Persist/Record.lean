import Kevy.Lib.LittleEndian
import Kevy.Resp.Grammar

/-!
# The v2 record envelope

A v2 log is the magic and a row of records `[u32-LE length][u32-LE crc32c][payload]`, each payload one
command in multi-bulk form. This module has the writers (`write_multibulk`, `write_record`), the reader of
one record (`next_record`), and what the two have to do with each other: a written record reads back as
its command, and a record cut short with zeros behind it never reads as one (`nextRecord_torn`).
-/

namespace Kevy.Persist

open Kevy.Lib Kevy.Resp List Option

/-! ## CRC32C -/

/-- One entry of the byte table: eight shift steps of the reflected Castagnoli polynomial. -/
def crcTable (i : UInt32) : UInt32 :=
  let step (crc : UInt32) : UInt32 :=
    if crc &&& 1 ≠ 0 then (crc >>> 1) ^^^ 0x82F63B78 else crc >>> 1
  step (step (step (step (step (step (step (step i)))))))

def crcByte (crc : UInt32) (b : UInt8) : UInt32 :=
  (crc >>> 8) ^^^ crcTable ((crc ^^^ b.toUInt32) &&& 0xFF)

def crc32cAppend (crc : UInt32) (data : Bytes) : UInt32 := ~~~ data.foldl crcByte (~~~ crc)

def crc32c (data : Bytes) : UInt32 := crc32cAppend 0 data

example : crc32c [49, 50, 51, 52, 53, 54, 55, 56, 57] = 0xE3069283 := by decide +kernel

/-! ## Writing -/

def aof2Magic : Bytes := [75, 69, 86, 89, 65, 79, 70, 50, 10]

def recordHeader : Nat := 8

def maxRecord : Nat := 2 ^ 30

def decimal (n : Nat) : Bytes := (Nat.toDigits 10 n).map fun c => UInt8.ofNat c.toNat

def writeMultibulk (args : List Bytes) : Bytes :=
  star :: decimal args.length ++ crlf ++
    args.flatMap fun a => dollar :: decimal a.length ++ crlf ++ a ++ crlf

def writeRecord (payload : Bytes) : Bytes :=
  leBytes 4 payload.length ++ leBytes 4 (crc32c payload).toNat ++ payload

def writeRecordMultibulk (args : List Bytes) : Bytes := writeRecord (writeMultibulk args)

/-! ## Reading -/

inductive RecordStep
  | ok (payload : Bytes) (consumed : Nat)
  | truncated
  | corrupt
  deriving DecidableEq, Repr

def nextRecord (buf : Bytes) (pos : Nat) : RecordStep :=
  let rest := buf.drop pos
  if rest.length < recordHeader then .truncated
  else
    let len := ofLe (rest.take 4)
    if len = 0 ∨ maxRecord < len then .corrupt
    else
      let crc := ofLe ((rest.drop 4).take 4)
      if rest.length < recordHeader + len then .truncated
      else
        let payload := (rest.drop recordHeader).take len
        if (crc32c payload).toNat ≠ crc then .corrupt
        else .ok payload (recordHeader + len)

def oneCommand (payload : Bytes) : Option Argv :=
  match parseCommandInto payload with
  | .ok (some (args, used)) => if used = payload.length then some args else none
  | _ => none

/-! ## Decimal counts -/

theorem isAsciiDigit_digitChar {d : Nat} (h : d < 10) : isAsciiDigit (UInt8.ofNat d.digitChar.toNat) = true ∧
      (UInt8.ofNat d.digitChar.toNat).toNat = 48 + d := by
  revert d
  decide

theorem parseDigits_decimal (n : Nat) (h : n < 2 ^ 63) : parseDigits 0 (decimal n) = some (n : Int) := by
  induction n using Nat.strongRecOn with
  | ind n ih =>
    by_cases hn : n < 10
    · obtain ⟨h1, h2⟩ := isAsciiDigit_digitChar hn
      rw [decimal, Nat.toDigits_of_lt_base hn, map_singleton, parseDigits, if_pos h1,
        pushDigit_eq _ (by omega) h1 (by rw [h2]; omega), h2, bind_some, parseDigits]
      congr 1
      omega
    · obtain ⟨h1, h2⟩ := isAsciiDigit_digitChar (Nat.mod_lt n (by decide : 0 < 10))
      have hrec := ih (n / 10) (by omega) (by omega)
      rw [decimal] at hrec
      rw [decimal, Nat.toDigits_of_base_le (by decide) (by omega), map_append,
        parseDigits_append, hrec, bind_some, map_singleton, parseDigits, if_pos h1,
        pushDigit_eq _ (by omega) h1 (by rw [h2]; omega), h2, bind_some, parseDigits]
      congr 1
      omega

theorem decimal_ne_nil (n : Nat) : decimal n ≠ [] := by
  simp [decimal, Nat.toDigits_ne_nil]

variable {n : Nat}

theorem parseInt_decimal (h : n < 2 ^ 63) : parseInt (decimal n) = some (n : Int) := by
  have hd := parseDigits_decimal n h
  obtain ⟨d, ds, hcons⟩ := exists_cons_of_ne_nil (decimal_ne_nil n)
  have hdig : isAsciiDigit d = true := parseDigits_digits hd d (by simp [hcons])
  rw [hcons] at hd ⊢
  simp [parseInt, splitSign_digit hdig, hd]

theorem ofNat_digit {d : Nat} (h : d < 10) : UInt8.ofNat (48 + d) = UInt8.ofNat d.digitChar.toNat := by
  revert d
  decide

theorem usize_lt (h : n < 2 ^ 64) : n < 10 ^ 20 := Nat.lt_of_lt_of_le h (by decide)

theorem length_decimal_le {count : Nat} (h : count < 2 ^ 64) : (decimal count).length ≤ 20 := by
  rw [decimal, length_map]
  exact (Nat.length_toDigits_le_iff (by decide) (by decide)).mpr (usize_lt h)

theorem isAsciiDigit_decimal (n : Nat) : ∀ b ∈ decimal n, isAsciiDigit b = true := by
  intro b hb
  obtain ⟨c, hc, rfl⟩ := List.mem_map.mp hb
  have hdigit := Nat.isDigit_of_mem_toDigits (by decide) (by decide) hc
  rw [Char.isDigit, Bool.and_eq_true, decide_eq_true_iff, decide_eq_true_iff, ge_iff_le,
    UInt32.le_iff_toNat_le, UInt32.le_iff_toNat_le] at hdigit
  obtain ⟨h1, h2⟩ := hdigit
  change 48 ≤ c.toNat at h1
  change c.toNat ≤ 57 at h2
  rw [isAsciiDigit, decide_eq_true_iff, UInt8.le_iff_toNat_le, UInt8.le_iff_toNat_le,
    UInt8.toNat_ofNat_of_lt' (by change c.toNat < 256; omega)]
  exact ⟨h1, h2⟩

def digitsValue (digits : Bytes) : Nat := digits.foldl (fun n b => 10 * n + (b.toNat - 48)) 0

theorem digitsValue_decimal (n : Nat) : digitsValue (decimal n) = n := by
  induction n using Nat.strongRecOn with
  | ind n ih =>
    by_cases hn : n < 10
    · rw [decimal, Nat.toDigits_of_lt_base hn, map_singleton, digitsValue]
      simp only [foldl_cons, foldl_nil, (isAsciiDigit_digitChar hn).2]
      omega
    · have hlast := (isAsciiDigit_digitChar (Nat.mod_lt n (by decide : 0 < 10))).2
      have hrec := ih (n / 10) (by omega)
      rw [decimal] at hrec
      rw [decimal, Nat.toDigits_of_base_le (by decide) (by omega), map_append, digitsValue,
        foldl_append, ← digitsValue, hrec]
      simp only [map_cons, map_nil, foldl_cons, foldl_nil, hlast]
      omega

def parseDecimal (digits : Bytes) : Option Nat :=
  if digits ≠ [] ∧ digits.all isAsciiDigit ∧ digitsValue digits < 2 ^ 64 then some (digitsValue digits) else none

theorem parseDecimal_decimal (h : n < 2 ^ 64) : parseDecimal (decimal n) = some n := by
  rw [parseDecimal, digitsValue_decimal, if_pos ⟨decimal_ne_nil n, List.all_eq_true.mpr (isAsciiDigit_decimal n), h⟩]

theorem noCrlf_decimal (n : Nat) : NoCrlf (decimal n) := by
  apply noCrlf_of_cr_not_mem
  intro hmem
  have := isAsciiDigit_decimal n cr hmem
  revert this
  decide

theorem pushDigit_some {acc v : Int} {b : UInt8} (h : pushDigit acc b = some v) : v = acc * 10 + (b.toNat - 48) := by
  have hchecked : ∀ {x w : Int}, checkedI64 x = some w → w = x := by
    intro x w hw
    rw [checkedI64] at hw
    split_ifs at hw
    exact (some.inj hw).symm
  obtain ⟨a, ha, hv⟩ := bind_eq_some_iff.mp h
  rw [hchecked hv, hchecked ha]

theorem parseDigits_decimal_some (n : Nat) : ∀ {v : Int}, parseDigits 0 (decimal n) = some v → v = n := by
  induction n using Nat.strongRecOn with
  | ind n ih =>
    intro v h
    by_cases hn : n < 10
    · obtain ⟨h1, h2⟩ := isAsciiDigit_digitChar hn
      rw [decimal, Nat.toDigits_of_lt_base hn, map_singleton, parseDigits, if_pos h1] at h
      obtain ⟨acc, hacc, hv⟩ := bind_eq_some_iff.mp h
      have := pushDigit_some hacc
      rw [parseDigits] at hv
      cases hv
      omega
    · obtain ⟨h1, h2⟩ := isAsciiDigit_digitChar (Nat.mod_lt n (by decide : 0 < 10))
      rw [decimal, Nat.toDigits_of_base_le (by decide) (by omega), map_append, parseDigits_append] at h
      obtain ⟨high, hhigh, h⟩ := bind_eq_some_iff.mp h
      have hdiv := ih (n / 10) (by omega) hhigh
      rw [map_singleton, parseDigits, if_pos h1] at h
      obtain ⟨acc, hacc, hv⟩ := bind_eq_some_iff.mp h
      have := pushDigit_some hacc
      rw [parseDigits] at hv
      cases hv
      omega

theorem parseInt_decimal_some {v : Int} (h : parseInt (decimal n) = some v) : v = n := by
  obtain ⟨d, ds, hcons⟩ := exists_cons_of_ne_nil (decimal_ne_nil n)
  have hdig : isAsciiDigit d = true := isAsciiDigit_decimal n d (by simp [hcons])
  obtain ⟨acc, hacc, _, rfl⟩ := parseInt_eq_some h
  rw [hcons, splitSign_digit hdig, ← hcons] at hacc ⊢
  exact parseDigits_decimal_some n hacc

/-! ## Written commands read back -/

/-- A command the request parser can read: some arguments, within the parser's limits. -/
structure Parseable (args : List Bytes) : Prop where
  nonempty : args ≠ []
  count : args.length ≤ maxMultibulkLen
  bulk : ∀ a ∈ args, a.length ≤ maxBulkLen

theorem writeMultibulk_eq (args : List Bytes) : writeMultibulk args =
    multiFrame (decimal args.length) (args.map fun a => ⟨decimal a.length, a⟩) := by
  simp [writeMultibulk, multiFrame, bulkFrames, flatMap_map, Bulk.frame]

variable {args : List Bytes}

theorem multiOk_writeMultibulk (h : Parseable args) :
    MultiOk (decimal args.length) (args.map fun a => ⟨decimal a.length, a⟩) := by
  refine ⟨?_, by simpa using h.count, ?_⟩
  · have := h.count
    rw [length_map, parseInt_decimal (by rw [maxMultibulkLen] at this; omega)]
  · intro b hb
    obtain ⟨a, ha, rfl⟩ := List.mem_map.mp hb
    have hlen := h.bulk a ha
    exact ⟨parseInt_decimal (by rw [maxBulkLen] at hlen; omega), hlen⟩

theorem frame_writeMultibulk (h : Parseable args) : Frame (writeMultibulk args) args := by
  have := Frame.multi (multiOk_writeMultibulk h)
  rw [← writeMultibulk_eq, List.map_map] at this
  simpa [Function.comp_def] using this

theorem oneCommand_writeMultibulk (h : Parseable args) :
    oneCommand (writeMultibulk args) = some (Argv.ofArgs args) := by
  have hne : (Argv.ofArgs args).isEmpty = false := by
    simpa using h.nonempty
  have hp := parseOneInto_frame (frame_writeMultibulk h) []
  rw [append_nil] at hp
  rw [oneCommand, parseCommandInto, skip_item stable_parseOneInto.toConsumes hp hne]
  simp

variable {payload : Bytes}

theorem parseCommandInto_of_oneCommand {args : Argv} (h : oneCommand payload = some args) :
    parseCommandInto payload = .ok (some (args, payload.length)) := by
  rw [oneCommand] at h
  rcases hp : parseCommandInto payload with e | _ | ⟨a, n⟩ <;> rw [hp] at h
  · cases h
  · cases h
  · simp only at h
    split_ifs at h with hn
    cases h
    rw [hn]

theorem getLast?_of_oneCommand {args : Argv} (h : oneCommand payload = some args) : payload.getLast? = some lf := by
  have hp := parseCommandInto_of_oneCommand h
  -- the parse ends where its last frame does
  obtain ⟨k, hk, hlast⟩ :=
    exists_skips Argv.isEmpty stable_parseOneInto.toConsumes payload
  rw [parseCommandInto, hk.skip_eq stable_parseOneInto.toConsumes,
    skip_eq_of_nonempty stable_parseOneInto.toConsumes hlast] at hp
  rcases hone : parseOneInto (payload.drop k) with e | _ | ⟨argv', n⟩
  · rw [hone] at hp; cases hp
  · rw [hone] at hp; cases hp
  rw [hone, shift_some] at hp
  have hn : k + n = payload.length := by
    have := Except.ok.inj hp
    simpa using (Prod.mk.inj (some.inj this)).2
  obtain ⟨f, fargs, rest, hf, hcut, rfl, _⟩ := parseOneInto_sound hone
  have hrest : rest = [] := by
    have := congrArg List.length hcut
    rw [length_drop, length_append] at this
    exact length_eq_zero_iff.mp (by omega)
  obtain ⟨body, rfl⟩ := hf.crlf_suffix
  rw [hrest, append_nil] at hcut
  rw [← take_append_drop k payload, hcut]
  simp [crlf]

/-! ## Frames without an envelope -/

/-- `v1_walk`: what is delivered, and the error or the bytes of the tail. -/
def v1Walk (data : Bytes) : List Argv × Except ProtocolError Bytes := parseAll parseCommandInto data

/-- **A stream of frames that ends inside one is read as the commands before it**, by the replay of a v1 log and from a
connection, whose reads may cut it anywhere. -/
theorem cut_stream_reads_back (cmds : List (List Bytes)) (c : List Bytes) (front missing : Bytes) (chunks : List Bytes)
    (hok : ∀ x ∈ c :: cmds, Parseable x) (hfront : front ++ missing = writeMultibulk c) (hmissing : missing ≠ [])
    (hchunks : chunks.flatten = cmds.flatMap writeMultibulk ++ front) :
    v1Walk chunks.flatten = (cmds.map Argv.ofArgs, .ok front) ∧
    feedAll parseCommandInto chunks = (cmds.map Argv.ofArgs, .ok front) := by
  rw [feedAll_eq stable_parseCommandInto, v1Walk, and_self, hchunks]
  obtain ⟨hc, hcmds⟩ := forall_mem_cons.mp hok
  clear hchunks hok
  have hread {c : List Bytes} (hc : Parseable c) := parseCommandInto_of_oneCommand (oneCommand_writeMultibulk hc)
  induction cmds with
  | nil => exact parseAll_none (stable_parseCommandInto.waits hmissing (hfront ▸ hread hc))
  | cons x cmds ih =>
    obtain ⟨hx, hcmds⟩ := forall_mem_cons.mp hcmds
    rw [flatMap_cons, append_assoc, parseAll_some stable_parseCommandInto.toConsumes
      (stable_parseCommandInto.item (hread hx) _), drop_left, ih hcmds, map_cons]

theorem cut_stream_reads_back_ping : v1Walk (writeMultibulk [[80]] ++ [42]) = ([Argv.ofArgs [[80]]], .ok [42]) := by
  have hok : Parseable [[80]] := ⟨by simp, by decide, by decide⟩
  exact (cut_stream_reads_back [[[80]]] [[80]] [42] (writeMultibulk [[80]]).tail [writeMultibulk [[80]], [42]]
    (by simp [hok]) (by decide +kernel) (by decide +kernel) (by simp)).1

/-! ## One record -/

@[simp] theorem length_writeRecord (payload : Bytes) :
    (writeRecord payload).length = recordHeader + payload.length := by
  simp only [writeRecord, recordHeader, length_append, length_leBytes]

theorem nextRecord_ok {buf : Bytes} {pos n : Nat} (h : nextRecord buf pos = .ok payload n) :
    ∃ len, len = ofLe ((buf.drop pos).take 4) ∧ 0 < len ∧ len ≤ maxRecord ∧
      payload = (buf.drop (pos + recordHeader)).take len ∧ payload.length = len ∧
      n = recordHeader + len ∧ pos + n ≤ buf.length ∧ (crc32c payload).toNat = ofLe ((buf.drop (pos + 4)).take 4) := by
  rw [nextRecord] at h
  simp only at h
  split_ifs at h with h1 h2 h3 h4
  cases h
  rw [length_drop] at h3
  refine ⟨_, rfl, by omega, by omega, by rw [drop_drop], ?_, rfl, ?_, ?_⟩
  · rw [length_take, length_drop, length_drop]
    omega
  · simp only [recordHeader] at h3 ⊢
    omega
  · rw [not_not.mp h4, drop_drop]

theorem nextRecord_ok_congr {buf buf' : Bytes} {pos pos' n : Nat} (h : nextRecord buf pos = .ok payload n)
    (hsame : (buf'.drop pos').take n = (buf.drop pos).take n) : nextRecord buf' pos' = .ok payload n := by
  obtain ⟨len, hlen, hpos, hmax, hpay, hplen, rfl, hle, hcrc⟩ := nextRecord_ok h
  have hl : (buf.drop pos).length = buf.length - pos := length_drop
  have hl' : recordHeader + len ≤ (buf'.drop pos').length := by
    have := congrArg List.length hsame
    rw [length_take, length_take] at this
    omega
  -- any window inside the record reads the same
  have hwin : ∀ i m, i + m ≤ recordHeader + len →
      ((buf'.drop pos').drop i).take m = ((buf.drop pos).drop i).take m := by
    intro i m him
    have := congrArg (fun l => (l.drop i).take m) hsame
    simpa only [drop_take, take_take, show min m (recordHeader + len - i) = m by omega]
      using this
  have h0 := hwin 0 4 (by simp only [recordHeader]; omega)
  have h4 := hwin 4 4 (by simp only [recordHeader]; omega)
  have h8 := hwin recordHeader len (by omega)
  rw [drop_zero, drop_zero] at h0
  rw [nextRecord]
  simp only
  rw [h0, ← hlen, h4, h8, drop_drop, drop_drop, ← hcrc, ← hpay]
  rw [if_neg (by simp only [recordHeader] at hl' ⊢; omega), if_neg (by omega), if_neg (by omega), if_neg (by simp)]

theorem nextRecord_writeRecord (h0 : 0 < payload.length) (hmax : payload.length ≤ maxRecord) (rest : Bytes) :
    nextRecord (writeRecord payload ++ rest) 0 = .ok payload (recordHeader + payload.length) := by
  have hlen : ofLe (leBytes 4 payload.length) = payload.length :=
    ofLe_leBytes_of_lt (by rw [maxRecord] at hmax; omega)
  have hcrc : ofLe (leBytes 4 (crc32c payload).toNat) = (crc32c payload).toNat :=
    ofLe_leBytes_of_lt (by have := (crc32c payload).toNat_lt; omega)
  have hcut : writeRecord payload ++ rest =
      leBytes 4 payload.length ++ (leBytes 4 (crc32c payload).toNat ++ (payload ++ rest)) := by
    simp [writeRecord]
  have t4 : (writeRecord payload ++ rest).take 4 = leBytes 4 payload.length := by
    rw [hcut, take_left' (by simp)]
  have d4 : (writeRecord payload ++ rest).drop 4 = leBytes 4 (crc32c payload).toNat ++ (payload ++ rest) := by
    rw [hcut, drop_left' (by simp)]
  have d8 : (writeRecord payload ++ rest).drop recordHeader = payload ++ rest := by
    rw [show recordHeader = 4 + 4 from rfl, ← drop_drop, d4, drop_left' (by simp)]
  rw [nextRecord]
  simp only [drop_zero]
  rw [t4, hlen, d4, d8, take_left, take_left' (length_leBytes _ _), hcrc]
  rw [if_neg (by simp; omega), if_neg (by omega), if_neg (by simp), if_neg (by simp)]

/-! ## Torn records -/

/-- The front of a record with zeros where the rest should be holds no command: were its last payload
byte one of the zeros it could not end a command, and otherwise nothing was missing. -/
theorem nextRecord_torn {cut rest : Bytes} {z : Nat} (h : cut ++ rest = writeRecord payload)
    (hrest : rest ≠ []) (hmax : payload.length ≤ maxRecord) {payload' : Bytes}
    (hok : nextRecord (cut ++ List.replicate z 0) 0 = .ok payload' n) : oneCommand payload' = none := by
  obtain ⟨len, hlen, hpos, _, hpay, hplen, rfl, hle, _⟩ := nextRecord_ok hok
  rw [Nat.zero_add] at hpay hle
  by_contra hsome
  obtain ⟨args, hargs⟩ := ne_none_iff_exists'.mp hsome
  have hlast := getLast?_of_oneCommand hargs
  have hget : (cut ++ List.replicate z 0)[recordHeader + (len - 1)]? = some lf := by
    rw [getLast?_eq_getElem?, hplen, hpay, getElem?_take_of_lt (by omega), getElem?_drop] at hlast
    exact hlast
  by_cases hin : recordHeader + (len - 1) < cut.length
  · -- the whole record would be there
    have htotal := congrArg List.length h
    rw [length_append, length_writeRecord] at htotal
    have hrl : 0 < rest.length := length_pos_iff.mpr hrest
    have h4 : (cut ++ List.replicate z 0).take 4 = leBytes 4 payload.length := by
      have hc4 : 4 ≤ cut.length := by simp only [recordHeader] at hin; omega
      have e1 : (cut ++ List.replicate z 0).take 4 = cut.take 4 :=
        take_append_of_le_length hc4
      have e2 : (cut ++ rest).take 4 = cut.take 4 := take_append_of_le_length hc4
      rw [e1, ← e2, h, writeRecord, append_assoc, take_left' (length_leBytes _ _)]
    rw [drop_zero, h4, ofLe_leBytes_of_lt (by rw [maxRecord] at hmax; omega)] at hlen
    omega
  · rw [getElem?_append_right (by omega), getElem?_replicate] at hget
    split_ifs at hget
    cases hget

theorem nextRecord_zeros (z pos : Nat) (payload : Bytes) (n : Nat) :
    nextRecord (List.replicate z 0) pos ≠ .ok payload n := by
  intro h
  obtain ⟨len, hlen, hpos, _⟩ := nextRecord_ok h
  have hzero : ofLe (((List.replicate z (0 : UInt8)).drop pos).take 4) = 0 := by
    rw [ofLe_eq_zero]
    intro b hb
    exact eq_of_mem_replicate (mem_of_mem_drop (mem_of_mem_take hb))
  omega

end Kevy.Persist
