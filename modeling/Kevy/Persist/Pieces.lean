import Kevy.Persist.Checksum

/-!
# Records written in pieces

The append path never joins a command's frame: `for_each_piece` feeds it to a callback as runs of framing
bytes from a small stack buffer and argument bodies from the caller's slices, once to take the length and
the checksum (`record_header`) and once more to write it (`write_frame`). The pieces join to
`write_multibulk`'s bytes and the two passes to `write_record`'s, the stack buffers are never overrun, and
the payload parses back to its command.

An outer `none` is a panic: an index outside one of the fixed buffers.
-/

namespace Kevy.Persist

open Kevy.Lib Kevy.Resp List Option

/-! ## The code -/

/-- `RUN`. -/
def runCapacity : Nat := 2 + 2 * (1 + 20 + 2)

/-- The digit loop of `put_count` with `i` places left in front of `digits`. -/
def countDigits : (i : Nat) → (x : Nat) → (digits : Bytes) → Option Bytes
  | 0, _, _ => none
  | i + 1, x, digits =>
    let digits := UInt8.ofNat (48 + x % 10) :: digits
    if x / 10 = 0 then some digits else countDigits i (x / 10) digits

/-- `put_count`: the bytes in use of the run buffer, with `<tag><decimal count>\r\n` behind them. -/
def putCount (run : Bytes) (tag : UInt8) (count : Nat) : Option Bytes := do
  let d ← countDigits 20 count []
  let run := run ++ tag :: d ++ crlf
  if run.length ≤ runCapacity then some run else none

section
variable {σ ε : Type}

/-- The loop of `for_each_piece` over the arguments that are left. -/
def pieceLoop (f : σ → Bytes → Except ε σ) : (run : Bytes) → List Bytes → σ → Option (Except ε σ)
  | run, [], s => some (f s run)
  | run, a :: args, s => do
    let run ← putCount run dollar a.length
    match (f s run).bind fun s => f s a with
    | .error e => some (.error e)
    | .ok s => pieceLoop f crlf args s

/-- `for_each_piece`, the callback's captured state passed along. -/
def forEachPiece (f : σ → Bytes → Except ε σ) (args : List Bytes) (s : σ) : Option (Except ε σ) := do
  let run ← putCount [] star args.length
  pieceLoop f run args s

/-- `write_frame` into a sink with its `write_all`. -/
def writeFrame (writeAll : σ → Bytes → Except ε σ) (w : σ) (head : Option Bytes) (args : List Bytes) :
    Option (Except ε σ) :=
  match head with
  | none => forEachPiece writeAll args w
  | some h =>
    match writeAll w h with
    | .error e => some (.error e)
    | .ok w => forEachPiece writeAll args w

end

/-- `write_all` of a `Vec<u8>`, which never fails. -/
def extend (ε : Type) (w p : Bytes) : Except ε Bytes := .ok (w ++ p)

/-- `record_header`. -/
def recordHeaderOf (args : List Bytes) : Option Bytes := do
  let r : Except Empty (Nat × UInt32) ←
    forEachPiece (fun s p => .ok (s.1 + p.length, crc32cSw s.2 p)) args (0, 0)
  match r with
  | .ok (len, crc) => some (leBytes 4 len ++ leBytes 4 crc.toNat)

/-! ## The stack buffers are large enough -/

theorem countDigits_eq (i x : Nat) (digits : Bytes) (hx : x < 10 ^ i) (hi : 0 < i) :
    countDigits i x digits = some (decimal x ++ digits) := by
  induction i generalizing x digits with
  | zero => exact absurd hi (Nat.lt_irrefl 0)
  | succ i ih =>
    rw [countDigits]
    by_cases h0 : x / 10 = 0
    · have hlt : x < 10 := by omega
      rw [if_pos h0, Nat.mod_eq_of_lt hlt, ofNat_digit hlt, decimal, Nat.toDigits_of_lt_base hlt]
      rfl
    · have hi : 0 < i := by
        rcases Nat.eq_zero_or_pos i with rfl | hi
        · rw [Nat.pow_one] at hx
          omega
        · exact hi
      have hdiv : x / 10 < 10 ^ i := by
        rw [Nat.pow_succ] at hx
        omega
      rw [if_neg h0, ih _ _ hdiv hi, ofNat_digit (Nat.mod_lt x (by decide)), decimal, decimal,
        Nat.toDigits_of_base_le (by decide) (by omega : 10 ≤ x), map_append]
      simp

theorem putCount_eq {run : Bytes} (tag : UInt8) {count : Nat} (hrun : run.length ≤ 25) (hcount : count < 2 ^ 64) :
    putCount run tag count = some (run ++ tag :: decimal count ++ crlf) := by
  have hlen := length_decimal_le hcount
  rw [putCount, countDigits_eq 20 count [] (usize_lt hcount) (by decide), append_nil]
  refine if_pos ?_
  simp only [length_append, length_cons, crlf, length_nil, runCapacity]
  omega

theorem length_count_le (tag : UInt8) {count : Nat} (hcount : count < 2 ^ 64) :
    (tag :: decimal count ++ crlf).length ≤ 23 := by
  have hlen := length_decimal_le hcount
  simp only [length_append, length_cons, crlf, length_nil]
  omega

/-! ## The pieces -/

/-- The pieces of the arguments that are left, behind the framing bytes `run`. -/
def argvPieces : (run : Bytes) → List Bytes → List Bytes
  | run, [] => [run]
  | run, a :: args => (run ++ dollar :: decimal a.length ++ crlf) :: a :: argvPieces crlf args

/-- An argument vector of the machine: its count and its lengths are `usize`s. -/
structure Addressable (args : List Bytes) : Prop where
  count : args.length < 2 ^ 64
  arg : ∀ a ∈ args, a.length < 2 ^ 64

section
variable {σ ε : Type} {f : σ → Bytes → Except ε σ}

theorem pieceLoop_eq {args : List Bytes} {run : Bytes} (hargs : ∀ a ∈ args, a.length < 2 ^ 64)
    (hrun : run.length ≤ 25) : ∀ s : σ, pieceLoop f run args s = some ((argvPieces run args).foldlM f s) := by
  induction args generalizing run with
  | nil =>
    intro s
    rw [pieceLoop, argvPieces, foldlM_cons]
    cases f s run <;> rfl
  | cons a args ih =>
    intro s
    have hrest := @ih crlf (forall_mem_cons.mp hargs).2 (by decide)
    rw [pieceLoop, putCount_eq dollar hrun (hargs a mem_cons_self), argvPieces, foldlM_cons]
    simp only [bind_eq_bind, bind_some, foldlM_cons]
    cases f s (run ++ dollar :: decimal a.length ++ crlf) with
    | error e => rfl
    | ok s =>
      change (match f s a with
        | .error e => some (.error e)
        | .ok s => pieceLoop f crlf args s) = some (f s a >>= fun s => (argvPieces crlf args).foldlM f s)
      cases f s a with
      | error e => rfl
      | ok s => exact hrest s

theorem forEachPiece_eq {args : List Bytes} (h : Addressable args) (s : σ) : forEachPiece f args s =
      some ((argvPieces (star :: decimal args.length ++ crlf) args).foldlM f s) := by
  rw [forEachPiece, putCount_eq star (by decide) h.count, nil_append]
  exact pieceLoop_eq h.arg (Nat.le_trans (length_count_le star h.count) (by decide)) s

end

theorem flatten_argvPieces (args : List Bytes) (run : Bytes) : (argvPieces run args).flatten =
    run ++ args.flatMap fun a => dollar :: decimal a.length ++ crlf ++ a ++ crlf := by
  induction args generalizing run with
  | nil => rw [argvPieces, flatten_singleton, flatMap_nil, append_nil]
  | cons a args ih =>
    rw [argvPieces, flatten_cons, flatten_cons, ih, flatMap_cons]
    simp only [append_assoc, cons_append]

theorem flatten_framePieces (args : List Bytes) :
    (argvPieces (star :: decimal args.length ++ crlf) args).flatten = writeMultibulk args :=
  flatten_argvPieces args _

theorem crc32cSw_append (crc : UInt32) (xs ys : Bytes) : crc32cSw crc (xs ++ ys) = crc32cSw (crc32cSw crc xs) ys := by
  rw [crc32cSw_eq, crc32cSw_eq, crc32cSw_eq, crc32cAppend_append]

theorem crc32cSw_nil (crc : UInt32) : crc32cSw crc [] = crc := by
  simp [crc32cSw_eq, crc32cAppend]

theorem foldl_crc (ps : List Bytes) (crc : UInt32) : ps.foldl crc32cSw crc = crc32cSw crc ps.flatten := by
  induction ps generalizing crc with
  | nil => rw [foldl_nil, flatten_nil, crc32cSw_nil]
  | cons p ps ih => rw [foldl_cons, ih, flatten_cons, crc32cSw_append]

theorem foldl_length (ps : List Bytes) (s : Nat × UInt32) : ps.foldl (fun s p => (s.1 + p.length, crc32cSw s.2 p)) s =
      (s.1 + ps.flatten.length, crc32cSw s.2 ps.flatten) := by
  induction ps generalizing s with
  | nil => rw [foldl_nil, flatten_nil, crc32cSw_nil, length_nil, Nat.add_zero]
  | cons p ps ih =>
    rw [foldl_cons, ih, flatten_cons, length_append, crc32cSw_append, Nat.add_assoc]

theorem foldl_extend (ps : List Bytes) (w : Bytes) : ps.foldl (· ++ ·) w = w ++ ps.flatten := by
  induction ps generalizing w with
  | nil => rw [foldl_nil, flatten_nil, append_nil]
  | cons p ps ih => rw [foldl_cons, ih, flatten_cons, append_assoc]

variable {args : List Bytes}

theorem recordHeaderOf_eq (h : Addressable args) : recordHeaderOf args = some (leBytes 4 (writeMultibulk args).length ++
      leBytes 4 (crc32c (writeMultibulk args)).toNat) := by
  have hpure : (argvPieces (star :: decimal args.length ++ crlf) args).foldlM
      (fun s p => (pure (s.1 + p.length, crc32cSw s.2 p) : Except Empty (Nat × UInt32))) (0, 0) = _ :=
    foldlM_pure
  rw [recordHeaderOf, forEachPiece_eq h]
  simp only [bind_eq_bind, bind_some]
  change (match (argvPieces (star :: decimal args.length ++ crlf) args).foldlM
      (fun s p => (pure (s.1 + p.length, crc32cSw s.2 p) : Except Empty (Nat × UInt32))) (0, 0) with
    | .ok (len, crc) => some (leBytes 4 len ++ leBytes 4 crc.toNat)) = _
  rw [hpure, foldl_length, flatten_framePieces, crc32cSw_eq, Nat.zero_add]
  rfl

theorem forEachPiece_extend {ε : Type} (h : Addressable args) (w : Bytes) :
    forEachPiece (extend ε) args w = some (.ok (w ++ writeMultibulk args)) := by
  have hpure : (argvPieces (star :: decimal args.length ++ crlf) args).foldlM
      (fun w p => (pure (w ++ p) : Except ε Bytes)) w = _ := foldlM_pure
  rw [forEachPiece_eq h]
  change some ((argvPieces (star :: decimal args.length ++ crlf) args).foldlM
      (fun w p => (pure (w ++ p) : Except ε Bytes)) w) = _
  rw [hpure, foldl_extend, flatten_framePieces]
  rfl

/-! ## The payload parses back -/

/-- `parse_command` reads the frame of `args` to its end and gives back a vector of these arguments. -/
def ParsesBack (args : List Bytes) : Prop :=
  ∃ argv, parseCommandInto (writeMultibulk args) = .ok (some (argv, (writeMultibulk args).length)) ∧
    argv.len = args.length ∧ ∀ i, argv.get i = args[i]?

theorem parseCommandInto_writeMultibulk (h : Parseable args) : parseCommandInto (writeMultibulk args) =
      .ok (some (Argv.ofArgs args, (writeMultibulk args).length)) := by
  have hne : (Argv.ofArgs args).isEmpty = false := by
    simpa using h.nonempty
  have hp := parseOneInto_frame (frame_writeMultibulk h) []
  rw [append_nil] at hp
  rw [parseCommandInto, skip_item stable_parseOneInto.toConsumes hp hne]

theorem parseCommandInto_empty : parseCommandInto (writeMultibulk []) = .ok none := by decide

theorem exists_get_ofArgs_ne (hargs : ∀ a ∈ args, a.length < 2 ^ 32)
    (hwide : 2 ^ 32 ≤ args.flatten.length) : ∃ i, (Argv.ofArgs args).get i ≠ args[i]? := by
  -- the first argument that ends at or behind 4 GiB
  have hex : ∃ i, 2 ^ 32 ≤ (args.take (i + 1)).flatten.length :=
    ⟨args.length, by rwa [take_of_length_le (by omega)]⟩
  have hend := Nat.find_spec hex
  have hmin := fun j (hj : j < Nat.find hex) => Nat.find_min hex hj
  generalize Nat.find hex = i at hend hmin
  have hstart : (args.take i).flatten.length < 2 ^ 32 := by
    cases i with
    | zero => simp
    | succ j => exact Nat.lt_of_not_le (hmin j (Nat.lt_succ_self j))
  have hi : i < args.length := by
    by_contra hge
    rw [take_of_length_le (by omega)] at hend hstart
    omega
  refine ⟨i, ?_⟩
  have hsucc : (args.take (i + 1)).flatten.length = (args.take i).flatten.length + args[i].length := by
    rw [take_add_one, getElem?_eq_getElem hi, flatten_append, length_append]
    simp
  have hlen := hargs args[i] (getElem_mem hi)
  have hfirst : (if i = 0 then 0 else ((Argv.ofArgs args).ends.getD (i - 1) 0).toNat) =
      (args.take i).flatten.length := by
    split_ifs with h0
    · simp [h0]
    · rw [getD_eq_getElem?_getD, Argv.ends_ofArgs args (i - 1) (by omega), getD_some,
        Nat.sub_add_cancel (by omega), UInt32.toNat_ofNat_of_lt' hstart]
  have hstop : (UInt32.ofNat (args.take (i + 1)).flatten.length).toNat < (args.take i).flatten.length := by
    rw [UInt32.toNat_ofNat', hsucc, Nat.mod_eq_sub_mod (by omega), Nat.mod_eq_of_lt (by omega)]
    omega
  rw [Argv.get, Argv.ends_ofArgs args i hi, getElem?_eq_getElem hi]
  change Resp.slice _ (if i = 0 then 0 else _) _ ≠ _
  rw [hfirst, Resp.slice, if_neg (by omega)]
  exact (some_ne_none _).symm

theorem parsesBack_iff (hcount : args.length ≤ maxMultibulkLen) (hbulk : ∀ a ∈ args, a.length ≤ maxBulkLen) :
    ParsesBack args ↔ args ≠ [] ∧ args.flatten.length < 2 ^ 32 := by
  by_cases hne : args = []
  · subst hne
    refine iff_of_false ?_ (fun h => h.1 rfl)
    rintro ⟨argv, hp, _⟩
    rw [parseCommandInto_empty] at hp
    cases hp
  have hp := parseCommandInto_writeMultibulk ⟨hne, hcount, hbulk⟩
  constructor
  · rintro ⟨argv, hp', _, hget⟩
    rw [hp] at hp'
    cases hp'
    refine ⟨hne, Nat.lt_of_not_le fun hwide => ?_⟩
    obtain ⟨i, hi⟩ := exists_get_ofArgs_ne (fun a ha => Nat.lt_of_le_of_lt (hbulk a ha) (by decide)) hwide
    exact hi (hget i)
  · rintro ⟨_, hfit⟩
    exact ⟨_, hp, Argv.len_ofArgs args, Argv.get_ofArgs args hfit⟩

/-- **Records written in pieces** are the reference encoding: the two passes of the append path write what
`write_record` and `write_multibulk` write, the checksum continued over the pieces is that of the whole,
and within the parser's limits the payload parses back to exactly its command unless the command is empty
or its arguments take 4 GiB. -/
theorem pieces_write_the_record (ε : Type) (args : List Bytes) (h : Addressable args) :
    (∃ head, recordHeaderOf args = some head ∧
      ∀ w, writeFrame (extend ε) w (some head) args = some (.ok (w ++ writeRecordMultibulk args))) ∧
    (∀ w, writeFrame (extend ε) w none args = some (.ok (w ++ writeMultibulk args))) ∧
    forEachPiece (fun crc p => (.ok (crc32cSw crc p) : Except ε UInt32)) args 0 =
      some (.ok (crc32cSw 0 (writeMultibulk args))) ∧
    (args.length ≤ maxMultibulkLen → (∀ a ∈ args, a.length ≤ maxBulkLen) →
      (ParsesBack args ↔ args ≠ [] ∧ args.flatten.length < 2 ^ 32)) := by
  refine ⟨⟨_, recordHeaderOf_eq h, fun w => ?_⟩, forEachPiece_extend h, ?_, parsesBack_iff⟩
  · rw [writeFrame, extend]
    simp only
    rw [forEachPiece_extend h, append_assoc]
    rfl
  · have hpure : (argvPieces (star :: decimal args.length ++ crlf) args).foldlM
        (fun crc p => (pure (crc32cSw crc p) : Except ε UInt32)) 0 = _ := foldlM_pure
    rw [forEachPiece_eq h]
    change some ((argvPieces (star :: decimal args.length ++ crlf) args).foldlM
        (fun crc p => (pure (crc32cSw crc p) : Except ε UInt32)) 0) = _
    rw [hpure, foldl_crc, flatten_framePieces]
    rfl

theorem pieces_write_the_record_set : Addressable [[83, 69, 84], [107], []] ∧ ParsesBack [[83, 69, 84], [107], []] := by
  have h : Addressable [[83, 69, 84], [107], []] := ⟨by decide, by decide⟩
  exact ⟨h, ((pieces_write_the_record Empty _ h).2.2.2 (by decide) (by decide)).mpr
    ⟨by decide, by decide⟩⟩

/-- The empty command is written, and its frame is skipped by the parser as one that holds nothing. -/
theorem empty_command_is_skipped : writeFrame (extend Empty) [] none [] = some (.ok (writeMultibulk [])) ∧
      ¬ ParsesBack [] := by
  refine ⟨by decide, ?_⟩
  rintro ⟨argv, hp, _⟩
  rw [parseCommandInto_empty] at hp
  cases hp

end Kevy.Persist
