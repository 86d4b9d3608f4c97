import Mathlib.Data.List.Basic
import Mathlib.Data.List.Induction
import Mathlib.Tactic.Ring
import Mathlib.Tactic.Linarith

/-!
# RESP requests: buffers, argument vectors, header scanning

The pieces the two request parsers of `kevy-resp` share: byte buffers with Rust's slicing, the owned
and the borrowed argument vector (both keep `u32` offsets), `find_crlf`, and the checked `i64`
reader `parse_int`.
-/

namespace Kevy.Resp

open List Option

abbrev Bytes := List UInt8

abbrev cr : UInt8 := 13
/-- `\n`. -/
abbrev lf : UInt8 := 10
/-- `*`, the first byte of a multi-bulk request. -/
abbrev star : UInt8 := 42
/-- `$`, the first byte of a bulk string. -/
abbrev dollar : UInt8 := 36
abbrev plus : UInt8 := 43
abbrev minus : UInt8 := 45

abbrev crlf : Bytes := [cr, lf]

/-- `ProtocolError`: the stream is corrupt, with the reason. -/
inductive ProtocolError
  | malformed (why : String)
  deriving DecidableEq, Repr

/-- `&buf[start..stop]`; `none` where Rust's slice index panics. -/
def slice (buf : Bytes) (start stop : Nat) : Option Bytes :=
  if start ≤ stop ∧ stop ≤ buf.length then some ((buf.drop start).take (stop - start)) else none

theorem slice_append (pre mid rest : Bytes) :
    slice (pre ++ mid ++ rest) pre.length (pre.length + mid.length) = some mid := by
  rw [slice, if_pos (by simp)]
  simp

/-! ## The owned argument vector -/

/-- `Argv`: all argument bytes in one buffer, and where each argument ends in it (`u32`). -/
structure Argv where
  buf : Bytes := []
  ends : List UInt32 := []
  deriving DecidableEq, Repr

namespace Argv

/-- `Argv::push`; the end offset is cut to 32 bits (`as u32`). -/
def push (a : Argv) (arg : Bytes) : Argv :=
  { buf := a.buf ++ arg, ends := a.ends ++ [UInt32.ofNat (a.buf ++ arg).length] }

def len (a : Argv) : Nat := a.ends.length

def isEmpty (a : Argv) : Bool := a.ends.isEmpty

def get (a : Argv) (i : Nat) : Option Bytes := do
  let stop ← a.ends[i]?
  let start := if i = 0 then 0 else (a.ends.getD (i - 1) 0).toNat
  slice a.buf start stop.toNat

/-- The argument vector that pushes `args` one by one (`Argv::from`). -/
def ofArgs (args : List Bytes) : Argv := args.foldl push {}

theorem ofArgs_concat (args : List Bytes) (arg : Bytes) : ofArgs (args ++ [arg]) = (ofArgs args).push arg := by
  simp [ofArgs]

theorem buf_ofArgs (args : List Bytes) : (ofArgs args).buf = args.flatten := by
  induction args using List.reverseRecOn with
  | nil => rfl
  | append_singleton args arg ih => rw [ofArgs_concat, push, ih]; simp

@[simp] theorem len_ofArgs (args : List Bytes) : (ofArgs args).len = args.length := by
  induction args using List.reverseRecOn with
  | nil => rfl
  | append_singleton args arg ih =>
    rw [ofArgs_concat, length_append, ← ih]
    simp [push, len]

@[simp] theorem isEmpty_ofArgs (args : List Bytes) : (ofArgs args).isEmpty = args.isEmpty := by
  have h := len_ofArgs args
  rw [len] at h
  cases args with
  | nil => rfl
  | cons arg args =>
    have : (ofArgs (arg :: args)).ends ≠ [] := by
      intro hnil
      rw [hnil] at h
      simp at h
    simpa [isEmpty] using this

theorem ends_ofArgs (args : List Bytes) (i : Nat) (hi : i < args.length) :
    (ofArgs args).ends[i]? = some (UInt32.ofNat (args.take (i + 1)).flatten.length) := by
  induction args using List.reverseRecOn with
  | nil => simp at hi
  | append_singleton args arg ih =>
    have hlen : (ofArgs args).ends.length = args.length := len_ofArgs args
    rw [ofArgs_concat, push]
    rw [length_append, length_singleton] at hi
    by_cases h : i < args.length
    · rw [getElem?_append_left (by omega), ih h, take_append_of_le_length (by omega)]
    · have hi' : i = args.length := by omega
      subst hi'
      rw [getElem?_append_right (by omega), hlen, Nat.sub_self, take_of_length_le (by simp), buf_ofArgs]
      simp

theorem get_ofArgs (args : List Bytes) (hfit : args.flatten.length < 2 ^ 32) (i : Nat) :
    (ofArgs args).get i = args[i]? := by
  by_cases hi : i < args.length
  · have hmono : ∀ j, (args.take j).flatten.length < 2 ^ 32 := by
      intro j
      have h := congrArg (fun l => (List.flatten l).length) (take_append_drop j args)
      simp only [flatten_append, length_append] at h
      omega
    have hstart : (if i = 0 then 0 else ((ofArgs args).ends.getD (i - 1) 0).toNat) =
        (args.take i).flatten.length := by
      split_ifs with h0
      · simp [h0]
      · rw [getD_eq_getElem?_getD, ends_ofArgs args (i - 1) (by omega), getD_some,
          UInt32.toNat_ofNat_of_lt' (hmono _), Nat.sub_add_cancel (by omega)]
    have hsplit : args.flatten = (args.take i).flatten ++ args[i] ++ (args.drop (i + 1)).flatten := by
      conv_lhs => rw [← take_append_drop i args, drop_eq_getElem_cons hi, flatten_append, flatten_cons, ← append_assoc]
    have hstop : (args.take (i + 1)).flatten.length = (args.take i).flatten.length + args[i].length := by
      rw [take_succ_eq_append_getElem hi, flatten_append, length_append, flatten_singleton]
    rw [get, ends_ofArgs args i hi]
    change slice _ (if i = 0 then 0 else _) _ = _
    rw [hstart, UInt32.toNat_ofNat_of_lt' (hmono _), hstop, buf_ofArgs, hsplit, slice_append, getElem?_eq_getElem hi]
  · have hnone : (ofArgs args).ends[i]? = none := by
      rw [List.getElem?_eq_none_iff]
      have := len_ofArgs args
      rw [len] at this
      omega
    rw [get, hnone, List.getElem?_eq_none (by omega)]
    rfl

end Argv

/-! ## The borrowed argument vector -/

/-- `ArgvBorrowed`: `(start, end)` ranges into the caller's buffer, `u32` each. -/
structure ArgvBorrowed where
  input : Bytes
  ranges : List (UInt32 × UInt32) := []
  deriving DecidableEq, Repr

namespace ArgvBorrowed

def pushRange (a : ArgvBorrowed) (start stop : Nat) : ArgvBorrowed :=
  { a with ranges := a.ranges ++ [(UInt32.ofNat start, UInt32.ofNat stop)] }

def len (a : ArgvBorrowed) : Nat := a.ranges.length

def isEmpty (a : ArgvBorrowed) : Bool := a.ranges.isEmpty

def get (a : ArgvBorrowed) (i : Nat) : Option Bytes := do
  let (s, e) ← a.ranges[i]?
  slice a.input s.toNat e.toNat

def ofRanges (input : Bytes) (ranges : List (Nat × Nat)) : ArgvBorrowed :=
  { input, ranges := ranges.map fun r => (UInt32.ofNat r.1, UInt32.ofNat r.2) }

theorem ofRanges_pushRange (input : Bytes) (ranges : List (Nat × Nat)) (start stop : Nat) :
    (ofRanges input ranges).pushRange start stop = ofRanges input (ranges ++ [(start, stop)]) := by
  simp [ofRanges, pushRange]

theorem foldl_pushRange (input : Bytes) (rs : List (Nat × Nat)) : ∀ ranges,
    rs.foldl (fun a r => a.pushRange r.1 r.2) (ofRanges input ranges) = ofRanges input (ranges ++ rs) := by
  induction rs with
  | nil => simp
  | cons r rs ih =>
    intro ranges
    rw [foldl_cons, ofRanges_pushRange, ih]
    simp

end ArgvBorrowed

/-! ## Scanning for CRLF -/

/-- Offset of the first `\r\n` of a buffer. -/
def crlfIn : Bytes → Option Nat
  | a :: b :: rest => if a = cr ∧ b = lf then some 0 else (crlfIn (b :: rest)).map (· + 1)
  | _ => none

/-- `find_crlf`: the index of the first `\r\n` at or after `start`. -/
def findCrlf (buf : Bytes) (start : Nat) : Option Nat :=
  (crlfIn (buf.drop start)).map (start + ·)

/-- Bytes before the first CRLF found do not matter, only that they hold none. -/
def NoCrlf (line : Bytes) : Prop := crlfIn (line ++ crlf) = some line.length

theorem crlfIn_cons_cons (a b : UInt8) (rest : Bytes) : crlfIn (a :: b :: rest) =
      if a = cr ∧ b = lf then some 0 else (crlfIn (b :: rest)).map (· + 1) := rfl

theorem crlfIn_spec : ∀ {l : Bytes} {i : Nat}, crlfIn l = some i →
    ∃ line rest, l = line ++ crlf ++ rest ∧ line.length = i ∧ NoCrlf line
  | [], i, h => by simp [crlfIn] at h
  | [_], i, h => by simp [crlfIn] at h
  | a :: b :: rest, i, h => by
    rw [crlfIn_cons_cons] at h
    split_ifs at h with hab
    · obtain ⟨rfl, rfl⟩ := hab
      cases h
      exact ⟨[], rest, rfl, rfl, rfl⟩
    · obtain ⟨j, hj, rfl⟩ := map_eq_some_iff.mp h
      obtain ⟨line, tail, hl, hlen, hno⟩ := crlfIn_spec hj
      refine ⟨a :: line, tail, by simp [hl], by simp [hlen], ?_⟩
      -- the pair `a b` is not the CRLF, whether or not `b` starts it
      have hb : ∃ l', line ++ crlf = b :: l' := by
        cases line with
        | nil =>
          simp only [nil_append, crlf, cons_append, List.cons.injEq] at hl
          exact ⟨[lf], by rw [hl.1]; rfl⟩
        | cons c line =>
          simp only [cons_append, List.cons.injEq] at hl
          exact ⟨line ++ crlf, by rw [hl.1]; rfl⟩
      obtain ⟨l', hl'⟩ := hb
      rw [NoCrlf, cons_append, hl', crlfIn_cons_cons, if_neg hab, ← hl']
      rw [NoCrlf] at hno
      rw [hno]
      simp

theorem crlfIn_append : ∀ {l : Bytes} {i : Nat} (ext : Bytes), crlfIn l = some i → crlfIn (l ++ ext) = some i
  | [], _, _, h => by simp [crlfIn] at h
  | [_], _, _, h => by simp [crlfIn] at h
  | a :: b :: rest, i, ext, h => by
    rw [crlfIn_cons_cons] at h
    rw [cons_append, cons_append, crlfIn_cons_cons]
    split_ifs at h ⊢ with hab
    · exact h
    · obtain ⟨j, hj, rfl⟩ := map_eq_some_iff.mp h
      have := crlfIn_append ext hj
      rw [cons_append] at this
      rw [this]
      rfl

theorem crlfIn_noCrlf {line : Bytes} (h : NoCrlf line) (rest : Bytes) :
    crlfIn (line ++ crlf ++ rest) = some line.length :=
  crlfIn_append rest h

theorem noCrlf_of_cr_not_mem : ∀ {line : Bytes}, cr ∉ line → NoCrlf line
  | [], _ => rfl
  | a :: line, h => by
    have ha : a ≠ cr := fun he => h (by simp [he])
    have hline : cr ∉ line := fun hmem => h (mem_cons_of_mem _ hmem)
    have ih := noCrlf_of_cr_not_mem hline
    obtain ⟨b, l', hl'⟩ : ∃ b l', line ++ crlf = b :: l' := by
      cases line with
      | nil => exact ⟨cr, [lf], rfl⟩
      | cons c line => exact ⟨c, line ++ crlf, rfl⟩
    rw [NoCrlf] at ih
    rw [NoCrlf, cons_append, hl', crlfIn_cons_cons, if_neg (fun hh => ha hh.1), ← hl', ih]
    simp

/-- The line `header` and its CRLF stand at `start`, and `next` is the offset behind them. -/
structure LineAt (buf : Bytes) (start : Nat) (header : Bytes) (next : Nat) : Prop where
  cut : buf.drop start = header ++ crlf ++ buf.drop next
  next_eq : next = start + header.length + 2
  le : next ≤ buf.length

variable {buf : Bytes} {start : Nat}

theorem LineAt.of_drop {header rest : Bytes} (h : buf.drop start = header ++ crlf ++ rest) :
    LineAt buf start header (start + header.length + 2) := by
  have hlen := congrArg List.length h
  simp only [length_drop, length_append, crlf, length_cons, length_nil] at hlen
  refine ⟨?_, rfl, by omega⟩
  have hdrop : buf.drop (start + header.length + 2) = rest := by
    rw [Nat.add_assoc, ← drop_drop, h, ← drop_drop]
    simp
  rw [hdrop, h]

theorem findCrlf_spec {i : Nat} (h : findCrlf buf start = some i) :
    ∃ line, LineAt buf start line (i + 2) ∧ NoCrlf line := by
  obtain ⟨j, hj, rfl⟩ := map_eq_some_iff.mp h
  obtain ⟨line, rest, hl, rfl, hno⟩ := crlfIn_spec hj
  exact ⟨line, .of_drop hl, hno⟩

theorem findCrlf_append {i : Nat} (ext : Bytes)
    (h : findCrlf buf start = some i) : findCrlf (buf ++ ext) start = some i := by
  obtain ⟨line, hline, -⟩ := findCrlf_spec h
  obtain ⟨j, hj, hi⟩ := map_eq_some_iff.mp h
  have hle := hline.le
  rw [findCrlf, drop_append_of_le_length (by omega), crlfIn_append ext hj]
  exact congrArg some hi

theorem findCrlf_line {line rest : Bytes} (hbuf : buf.drop start = line ++ crlf ++ rest)
    (h : NoCrlf line) : findCrlf buf start = some (start + line.length) ∧
      (buf.drop start).take (start + line.length - start) = line := by
  rw [findCrlf, hbuf, crlfIn_noCrlf h, Nat.add_sub_cancel_left, append_assoc, take_left]
  exact ⟨rfl, rfl⟩

theorem findCrlf_tag (tag : UInt8) {line : Bytes} (h : NoCrlf line) (rest : Bytes) :
    findCrlf (tag :: line ++ crlf ++ rest) 1 = some (1 + line.length) ∧
      ((tag :: line ++ crlf ++ rest).drop 1).take (1 + line.length - 1) = line :=
  findCrlf_line rfl h

theorem length_tag_line (tag : UInt8) (line : Bytes) : (tag :: line ++ crlf).length = 1 + line.length + 2 := by
  simp [crlf]
  omega

/-! ## Checked integers -/

/-- A value that fits `i64`, as `checked_mul` and `checked_add` test it. -/
def checkedI64 (x : Int) : Option Int := if -2 ^ 63 ≤ x ∧ x < 2 ^ 63 then some x else none

def isAsciiDigit (b : UInt8) : Bool := decide (48 ≤ b ∧ b ≤ 57)

def pushDigit (acc : Int) (b : UInt8) : Option Int := do
  let a ← checkedI64 (acc * 10)
  checkedI64 (a + (b.toNat - 48))

/-- The digit loop of `parse_int`. -/
def parseDigits (acc : Int) : Bytes → Option Int
  | [] => some acc
  | b :: bs => if isAsciiDigit b then (pushDigit acc b).bind (parseDigits · bs) else none

def splitSign : Bytes → Bool × Bytes
  | 45 :: bs => (true, bs)
  | 43 :: bs => (false, bs)
  | bs => (false, bs)

def parseInt (bytes : Bytes) : Option Int :=
  if bytes.isEmpty then none
  else if (splitSign bytes).2.isEmpty then none
  else (parseDigits 0 (splitSign bytes).2).map fun acc => if (splitSign bytes).1 then -acc else acc

theorem digit_bounds {c : UInt8} (h : isAsciiDigit c = true) : 48 ≤ c.toNat ∧ c.toNat ≤ 57 := by
  simpa [isAsciiDigit, UInt8.le_iff_toNat_le] using h

theorem pushDigit_eq (acc : Int) {c : UInt8} (h0 : 0 ≤ acc) (hc : isAsciiDigit c = true)
    (hlt : acc * 10 + (c.toNat - 48) < 2 ^ 63) : pushDigit acc c = some (acc * 10 + (c.toNat - 48)) := by
  have hb := digit_bounds hc
  simp only [pushDigit, checkedI64]
  rw [if_pos (by omega)]
  simp only [bind_eq_bind, bind_some]
  rw [if_pos (by omega)]

theorem parseDigits_digits {digits : Bytes} {acc v : Int} (h : parseDigits acc digits = some v) :
    ∀ b ∈ digits, isAsciiDigit b = true := by
  induction digits generalizing acc v with
  | nil => simp
  | cons b bs ih =>
    rw [parseDigits] at h
    split_ifs at h with hb
    obtain ⟨a, _, ha⟩ := bind_eq_some_iff.mp h
    intro c hc
    rcases mem_cons.mp hc with rfl | hc
    · exact hb
    · exact ih ha c hc

theorem parseDigits_append {ds es : Bytes} {acc : Int} :
    parseDigits acc (ds ++ es) = (parseDigits acc ds).bind (parseDigits · es) := by
  induction ds generalizing acc with
  | nil => rfl
  | cons b ds ih =>
    rw [cons_append, parseDigits, parseDigits]
    split_ifs with hb
    · cases hp : pushDigit acc b with
      | none => rfl
      | some a => exact ih
    · rfl

theorem isAsciiDigit_ne_cr {b : UInt8} (h : isAsciiDigit b = true) : b ≠ cr := by
  rintro rfl
  exact absurd h (by decide)

theorem splitSign_cases (bytes : Bytes) : (∃ bs, bytes = minus :: bs ∧ splitSign bytes = (true, bs)) ∨
    (∃ bs, bytes = plus :: bs ∧ splitSign bytes = (false, bs)) ∨
    (splitSign bytes = (false, bytes) ∧ ∀ b bs, bytes = b :: bs → b ≠ minus ∧ b ≠ plus) := by
  cases bytes with
  | nil => right; right; exact ⟨rfl, by simp⟩
  | cons b bs =>
    by_cases h1 : b = minus
    · subst h1; left; exact ⟨bs, rfl, rfl⟩
    by_cases h2 : b = plus
    · subst h2; right; left; exact ⟨bs, rfl, rfl⟩
    right; right
    refine ⟨?_, ?_⟩
    · rw [splitSign]
      · intro bs' hbs'; exact h1 (List.cons.inj hbs').1
      · intro bs' hbs'; exact h2 (List.cons.inj hbs').1
    · rintro c cs hc
      obtain ⟨rfl, rfl⟩ := List.cons.inj hc
      exact ⟨h1, h2⟩

theorem splitSign_digit {c : UInt8} (hc : isAsciiDigit c = true) (ds : Bytes) :
    splitSign (c :: ds) = (false, c :: ds) := by
  have h1 : c ≠ minus := by rintro rfl; exact absurd hc (by decide)
  have h2 : c ≠ plus := by rintro rfl; exact absurd hc (by decide)
  rcases splitSign_cases (c :: ds) with ⟨bs, hbs, _⟩ | ⟨bs, hbs, _⟩ | ⟨hs, _⟩
  · exact absurd (List.cons.inj hbs).1 h1
  · exact absurd (List.cons.inj hbs).1 h2
  · exact hs

variable {bytes : Bytes} {v : Int}

theorem parseInt_eq_some (h : parseInt bytes = some v) : ∃ acc, parseDigits 0 (splitSign bytes).2 = some acc ∧
      (splitSign bytes).2 ≠ [] ∧ v = if (splitSign bytes).1 then -acc else acc := by
  rw [parseInt] at h
  split_ifs at h with h1 h2 hneg
  all_goals
    obtain ⟨acc, hacc, hv⟩ := map_eq_some_iff.mp h
    exact ⟨acc, hacc, by simpa using h2, by simp [hneg, hv]⟩

theorem parseInt_cr_not_mem (h : parseInt bytes = some v) : cr ∉ bytes := by
  obtain ⟨acc, hacc, _⟩ := parseInt_eq_some h
  have hd := parseDigits_digits hacc
  have hd' : cr ∉ (splitSign bytes).2 := fun hmem => isAsciiDigit_ne_cr (hd _ hmem) rfl
  rcases splitSign_cases bytes with ⟨bs, rfl, hs⟩ | ⟨bs, rfl, hs⟩ | ⟨hs, _⟩
  · rw [hs] at hd'; simpa [cr, minus] using hd'
  · rw [hs] at hd'; simpa [cr, plus] using hd'
  · rwa [hs] at hd'

theorem noCrlf_of_parseInt (h : parseInt bytes = some v) : NoCrlf bytes :=
  noCrlf_of_cr_not_mem (parseInt_cr_not_mem h)

end Kevy.Resp
