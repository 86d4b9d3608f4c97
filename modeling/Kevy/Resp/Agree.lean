import Mathlib.Data.List.Forall2
import Kevy.Resp.Borrowed

/-!
# The two request parsers agree, except on signed zero lengths

Both parsers accept a frame with the same length and the same arguments unless a bulk header spells
zero with a minus sign (`$-0`): the owned parser takes it, the borrowed one calls it negative. A second
limit is the width of the stored offsets: from 4 GiB on they wrap in both argument vectors, and not at
the same places.
-/

namespace Kevy.Resp

open Kevy.Lib List

/-! ## Ranges that read back their arguments -/

/-- The range reads the argument, and ends before the last two bytes of the frame. -/
def Reads (buf : Bytes) (frameEnd : Nat) (r : Nat × Nat) (arg : Bytes) : Prop :=
  slice buf r.1 r.2 = some arg ∧ r.1 ≤ r.2 ∧ r.2 + 2 ≤ frameEnd

variable {buf : Bytes} {frameEnd : Nat} {args : List Bytes}

theorem ArgvBorrowed.get_ofRanges {ranges : List (Nat × Nat)} (h : List.Forall₂ (Reads buf frameEnd) ranges args)
    (hend : frameEnd < 2 ^ 32 + 2) (i : Nat) : (ArgvBorrowed.ofRanges buf ranges).get i = args[i]? := by
  rw [ArgvBorrowed.get, ArgvBorrowed.ofRanges]
  simp only [getElem?_map]
  induction h generalizing i with
  | nil => rfl
  | @cons r arg ranges args hr _ ih =>
    cases i with
    | zero =>
      obtain ⟨hs, hle, hb⟩ := hr
      simp only [getElem?_cons_zero, Option.map_some, Option.bind_eq_bind, Option.bind_some]
      rw [UInt32.toNat_ofNat_of_lt' (by show r.1 < 2 ^ 32; omega),
        UInt32.toNat_ofNat_of_lt' (by show r.2 < 2 ^ 32; omega), hs]
    | succ i => exact ih i

theorem reads_bulkRanges : ∀ {bs : List Bulk} {pre rest : Bytes},
    buf = pre ++ (bulkFrames bs ++ rest) → (pre ++ bulkFrames bs).length ≤ frameEnd →
    List.Forall₂ (Reads buf frameEnd) (bulkRanges pre.length bs) (bs.map Bulk.data) := by
  intro bs
  induction bs with
  | nil => intros; exact .nil
  | cons b bs ih =>
    intro pre rest hbuf hend
    have hlen := length_frame b
    refine .cons ⟨?_, by omega, ?_⟩ ?_
    · have hsplit : buf = (pre ++ (dollar :: b.header ++ crlf)) ++ b.data ++ (crlf ++ (bulkFrames bs ++ rest)) := by
        rw [hbuf]
        simp [Bulk.frame]
      have hpre : (pre ++ (dollar :: b.header ++ crlf)).length = pre.length + 1 + b.header.length + 2 := by
        simp [crlf]
        omega
      rw [hsplit, ← hpre]
      exact slice_append _ _ _
    · simp only [bulkFrames_cons, length_append] at hend
      simp only
      omega
    · have := @ih (pre ++ b.frame) rest (by rw [hbuf]; simp) (by simpa using hend)
      simpa using this

theorem scanInline_cons (b : UInt8) (line : Bytes) (i : Nat) (tok : Option Nat) : scanInline (b :: line) i tok =
      if isAsciiWhitespace b then
        match tok with
        | some start => (start, i) :: scanInline line (i + 1) none
        | none => scanInline line (i + 1) none
      else scanInline line (i + 1) (some (tok.getD i)) := by
  cases tok <;> rfl

theorem reads_scanInline {line pre cur rest : Bytes} {tok : Option Nat} (hbuf : buf = pre ++ (cur ++ (line ++ rest)))
    (hend : (pre ++ (cur ++ line)).length + 2 ≤ frameEnd) (htok : tok = (if cur = [] then none else some pre.length)) :
    List.Forall₂ (Reads buf frameEnd) (scanInline line (pre.length + cur.length) tok) (tokensFrom cur line) := by
  induction line generalizing pre cur rest tok with
  | nil =>
    rw [tokensFrom_end]
    split_ifs at htok ⊢ with hc
    · subst htok
      exact .nil
    · subst htok
      refine .cons ⟨?_, by simp, ?_⟩ .nil
      · rw [hbuf, nil_append, ← append_assoc]
        exact slice_append _ _ _
      · simp at hend ⊢
        omega
  | cons b line ih =>
    rw [scanInline_cons]
    split_ifs with hb
    · rw [tokensFrom_space hb]
      have htail := @ih (pre ++ (cur ++ [b])) [] rest none (by rw [hbuf]; simp) (by simp at hend ⊢; omega) rfl
      have hi : (pre ++ (cur ++ [b])).length + ([] : Bytes).length = pre.length + cur.length + 1 := by
        simp
        omega
      rw [hi] at htail
      split_ifs at htok ⊢ with hc
      · subst htok
        exact htail
      · subst htok
        refine .cons ⟨?_, by simp, ?_⟩ htail
        · rw [hbuf, ← append_assoc]
          exact slice_append _ _ _
        · simp at hend ⊢
          omega
    · rw [tokensFrom_char hb]
      have htail := @ih pre (cur ++ [b]) rest (some pre.length)
        (by rw [hbuf]; simp) (by simp at hend ⊢; omega) (by simp)
      have htok' : some (tok.getD (pre.length + cur.length)) = some pre.length := by
        rw [htok]
        by_cases hc : cur = [] <;> simp [hc]
      rw [length_append, length_singleton] at htail
      rw [htok']
      exact htail

/-! ## One frame of the borrowed parser -/

variable {header : Bytes}

theorem parseMultibulkBorrowed_header {count : Nat} (rest : Bytes)
    (hv : parseInt header = some (count : Int)) (hmax : count ≤ maxMultibulkLen) :
    parseMultibulkBorrowed (star :: header ++ crlf ++ rest) =
      bulkLoop parseBulkLen (fun a r => a.pushRange r.1 r.2) (star :: header ++ crlf ++ rest) count
        (star :: header ++ crlf).length (ArgvBorrowed.ofRanges (star :: header ++ crlf ++ rest) []) := by
  rw [parseMultibulkBorrowed_eq, behindCount_count hv hmax]
  rfl

variable {rest : Bytes}

theorem parseOneBorrowed_star : parseOneBorrowed (star :: rest) = parseMultibulkBorrowed (star :: rest) := by
  rw [parseOneBorrowed, if_pos (by simp)]

theorem parseOneBorrowed_plain {f : Bytes} (h : PlainFrame f args)
    (rest : Bytes) : ∃ ranges, List.Forall₂ (Reads (f ++ rest) f.length) ranges args ∧ parseOneBorrowed (f ++ rest) =
        .ok (some (ArgvBorrowed.ofRanges (f ++ rest) ranges, f.length)) := by
  cases h with
  | @inline line hno hstar =>
    have hhead := mt (head?_line rest).mp hstar
    refine ⟨scanInline line 0 none, ?_, ?_⟩
    · have := @reads_scanInline (line ++ crlf ++ rest) (line ++ crlf).length line [] [] (crlf ++ rest) none
        (by simp) (by simp [crlf]) rfl
      rwa [tokensFrom_nil] at this
    · obtain ⟨hf, hwin⟩ := @findCrlf_line (line ++ crlf ++ rest) 0 line rest rfl hno
      have hempty : ({ input := line ++ crlf ++ rest } : ArgvBorrowed) =
          ArgvBorrowed.ofRanges (line ++ crlf ++ rest) [] := rfl
      rw [parseOneBorrowed, if_neg hhead, parseInlineBorrowed, hf]
      simp only [drop_zero, Nat.sub_zero, Nat.zero_add] at hwin ⊢
      rw [hwin, hempty, ArgvBorrowed.foldl_pushRange]
      simp [crlf]
  | @null header v hv hneg =>
    refine ⟨[], .nil, ?_⟩
    rw [cons_append, cons_append, parseOneBorrowed_star, ← cons_append, ← cons_append, parseMultibulkBorrowed_eq,
      behindCount_null hv hneg]
    rfl
  | @multi header bs hok hu =>
    have hbuf : multiFrame header bs ++ rest = star :: header ++ crlf ++ (bulkFrames bs ++ rest) := by
      rw [multiFrame, append_assoc]
    refine ⟨bulkRanges (star :: header ++ crlf).length bs, ?_, ?_⟩
    · exact reads_bulkRanges hbuf (by rw [multiFrame])
    · have hloop := @bulkLoop_bulkFrames _ ArgvBorrowed _ _ (fun a r => a.pushRange r.1 r.2) readsHeaders_parseBulkLen _ _ _ 0
        (ArgvBorrowed.ofRanges (multiFrame header bs ++ rest) []) hok.bulks hu hbuf
      rw [ArgvBorrowed.foldl_pushRange, nil_append, Nat.add_zero] at hloop
      rw [hbuf] at hloop ⊢
      rw [show star :: header ++ crlf ++ (bulkFrames bs ++ rest) =
        star :: (header ++ crlf ++ (bulkFrames bs ++ rest)) from rfl, parseOneBorrowed_star]
      have hhdr := parseMultibulkBorrowed_header (bulkFrames bs ++ rest) hok.count hok.limit
      exact hhdr.trans hloop

theorem parseOneBorrowed_sound {argv : ArgvBorrowed} {n : Nat} (h : parseOneBorrowed buf = .ok (some (argv, n))) :
    ∃ f args rest, PlainFrame f args ∧ buf = f ++ rest := by
  rw [parseOneBorrowed] at h
  split_ifs at h with hstar
  · rw [parseMultibulkBorrowed_eq] at h
    obtain ⟨header, rest, rfl, ⟨v, hv, hneg⟩ | ⟨count, hcount, hmax, hbody⟩⟩ := behindCount_item hstar h
    · exact ⟨_, [], rest, .null hv hneg, rfl⟩
    obtain ⟨bs, hlen, hbs, hu, hcut⟩ := bulkLoop_sound readsHeaders_parseBulkLen hbody
    rw [drop_left] at hcut
    have hok : MultiOk header bs := ⟨by rw [hcount, hlen], by omega, hbs⟩
    refine ⟨_, _, (star :: header ++ crlf ++ rest).drop n, .multi hok hu, ?_⟩
    conv_lhs => rw [hcut]
    simp [multiFrame]
  · cases hc : findCrlf buf 0 with
    | none => rw [parseInlineBorrowed, hc] at h; cases h
    | some eol =>
    obtain ⟨line, rest, hbuf, hno, hhead⟩ := exists_line hstar hc
    exact ⟨_, _, _, .inline hno hhead, hbuf⟩

variable {e : ProtocolError}

theorem parseOneBorrowed_error (h : parseOneBorrowed buf = .error e) (ext : Bytes) :
    parseOneBorrowed (buf ++ ext) = .error e := by
  rw [parseOneBorrowed] at h
  split_ifs at h with hstar
  · rw [parseMultibulkBorrowed_eq] at h
    rw [parseOneBorrowed, if_pos (head?_append_star hstar ext), parseMultibulkBorrowed_eq]
    exact behindCount_error (fun count pos hbody => bulkLoop_error readsHeaders_parseBulkLen ext hbody) h ext
  · rw [parseInlineBorrowed] at h
    cases hc : findCrlf buf 0 <;> rw [hc] at h <;> cases h

theorem consumes_parseOneBorrowed : Consumes parseOneBorrowed where
  nil := rfl
  used := by
    intro buf argv n h
    obtain ⟨f, args, rest, hf, rfl⟩ := parseOneBorrowed_sound h
    obtain ⟨ranges, _, hp⟩ := parseOneBorrowed_plain hf rest
    rw [hp] at h
    cases h
    obtain ⟨body, rfl⟩ := hf.frame.crlf_suffix
    simp

/-! ## A signed zero length -/

/-- The front of a multi-bulk frame through the header of the bulk string behind `pre`. -/
def throughHeader (header : Bytes) (pre : List Bulk) (b : Bulk) : Bytes :=
  star :: header ++ crlf ++ bulkFrames pre ++ (dollar :: b.header ++ crlf)

theorem throughHeader_append (header : Bytes) (pre : List Bulk) (b : Bulk) (post : List Bulk) :
    throughHeader header pre b ++ (b.data ++ crlf ++ bulkFrames post) = multiFrame header (pre ++ b :: post) := by
  simp [throughHeader, multiFrame, Bulk.frame]

variable {pre post : List Bulk} {b : Bulk}

/-- Behind unsigned bulk strings the parser stands at the header of the next one. -/
theorem parseOneBorrowed_through (hok : MultiOk header (pre ++ b :: post))
    (hpre : ∀ c ∈ pre, c.Unsigned) {buf line : Bytes}
    (hbuf : buf = star :: header ++ crlf ++ (bulkFrames pre ++ dollar :: line)) :
    ∃ p k, buf.drop (p + 1) = line ∧ parseOneBorrowed buf = andNext (parseBulkLen buf p) k := by
  have hloop := @bulkLoop_bulkFrames _ ArgvBorrowed _ _ (fun a r => a.pushRange r.1 r.2) readsHeaders_parseBulkLen _ _ _
    (post.length + 1) (ArgvBorrowed.ofRanges buf []) (fun c hc => hok.bulks c (by simp [hc])) hpre hbuf
  have hhdr := parseMultibulkBorrowed_header (bulkFrames pre ++ dollar :: line) hok.count hok.limit
  rw [show (pre ++ b :: post).length = pre.length + (post.length + 1) by simp, ← hbuf] at hhdr
  have hone : parseOneBorrowed buf = parseMultibulkBorrowed buf := by
    rw [hbuf, cons_append, cons_append, parseOneBorrowed_star]
  have hdrop : buf.drop (star :: header ++ crlf ++ bulkFrames pre).length = dollar :: line := by
    rw [hbuf, ← append_assoc, drop_left]
  obtain ⟨hget, hline⟩ := getElem?_of_drop hdrop
  rw [hone, hhdr, hloop, bulkLoop, hget]
  exact ⟨_, _, hline, if_neg (not_not.mpr rfl)⟩

theorem parseOneBorrowed_signed
    (hok : MultiOk header (pre ++ b :: post)) (hpre : ∀ c ∈ pre, c.Unsigned) (hb : ¬ b.Unsigned)
    (rest : Bytes) : parseOneBorrowed (throughHeader header pre b ++ rest) =
      .error (.malformed "negative bulk length in request") := by
  have hbuf : throughHeader header pre b ++ rest = star :: header ++ crlf ++
      (bulkFrames pre ++ dollar :: (b.header ++ crlf ++ rest)) := by
    simp [throughHeader]
  obtain ⟨p, k, hline, hparse⟩ := parseOneBorrowed_through hok hpre hbuf
  rw [hparse, parseBulkLen_header (hok.bulks b (by simp)).header hline, if_pos (not_not.mp hb)]
  rfl

theorem parseOneBorrowed_cut (hok : MultiOk header (pre ++ b :: post)) (hpre : ∀ c ∈ pre, c.Unsigned)
    {buf rest : Bytes} (hcut : buf ++ rest = throughHeader header pre b) (hrest : rest ≠ [])
    (e : ProtocolError) : parseOneBorrowed buf ≠ .error e := by
  intro herr
  have hsplit : throughHeader header pre b =
      (star :: header ++ crlf ++ bulkFrames pre ++ [dollar]) ++ (b.header ++ crlf) := by
    simp [throughHeader]
  rw [hsplit] at hcut
  rcases append_eq_append_iff.mp hcut with ⟨mid, hmid, _⟩ | ⟨line, hbuf, hline⟩
  · -- cut before the header: the same front starts a plain frame, which is accepted
    let zeros : List Bulk := List.replicate (post.length + 1) ⟨[48], []⟩
    have hzero : ∀ c ∈ zeros, c = ⟨[48], []⟩ := fun c hc => eq_of_mem_replicate hc
    have hok' : MultiOk header (pre ++ zeros) := by
      refine ⟨?_, ?_, ?_⟩
      · rw [hok.count]; simp [zeros]
      · have := hok.limit
        simpa [zeros] using this
      · intro c hc
        rcases mem_append.mp hc with hc | hc
        · exact hok.bulks c (by simp [hc])
        · rw [hzero c hc]
          exact ⟨by decide, by decide⟩
    have hu : ∀ c ∈ pre ++ zeros, c.Unsigned := by
      intro c hc
      rcases mem_append.mp hc with hc | hc
      · exact hpre c hc
      · rw [hzero c hc]
        simp [Bulk.Unsigned, minus]
    have hfront : multiFrame header (pre ++ zeros) = buf ++
        (mid ++ ([48] ++ crlf ++ crlf ++ bulkFrames (List.replicate post.length ⟨[48], []⟩))) := by
      rw [← append_assoc, ← hmid]
      simp [multiFrame, zeros, replicate_succ, Bulk.frame]
    obtain ⟨ranges, _, hacc⟩ := parseOneBorrowed_plain (.multi hok' hu) []
    rw [append_nil] at hacc
    have := parseOneBorrowed_error herr
      (mid ++ ([48] ++ crlf ++ crlf ++ bulkFrames (List.replicate post.length ⟨[48], []⟩)))
    rw [← hfront, hacc] at this
    cases this
  · -- cut inside the header line: the header parser waits
    have hbuf' : buf = star :: header ++ crlf ++ (bulkFrames pre ++ dollar :: line) := by
      rw [hbuf]
      simp
    obtain ⟨p, k, hl, hparse⟩ := parseOneBorrowed_through hok hpre hbuf'
    rw [hparse, parseBulkLen_cut (hok.bulks b (by simp)).header hl hline.symm hrest] at herr
    cases herr

/-! ## Agreement -/

def IsCommand {α : Type} (r : Parsed α) : Prop := ∃ argv n, r = .ok (some (argv, n))

def IsError {α : Type} (r : Parsed α) : Prop := ∃ e, r = .error e

/-- Both vectors hold the same number of arguments, and each argument reads as the same bytes. -/
def SameArgs (argv : Argv) (borrowed : ArgvBorrowed) : Prop :=
  argv.len = borrowed.len ∧ ∀ i < argv.len, ∃ arg, argv.get i = some arg ∧ borrowed.get i = some arg

/-- The two parsers agree on a buffer: one returns a command of `n` bytes exactly when the other does,
with the same arguments; and where one reports an error while the other waits, no extension of the
buffer makes either return a command. -/
structure Agree (buf : Bytes) : Prop where
  command : ∀ n, (∃ argv, parseCommandInto buf = .ok (some (argv, n))) ↔
    ∃ argv, parseCommandBorrowed buf = .ok (some (argv, n))
  args : ∀ argv borrowed n m, parseCommandInto buf = .ok (some (argv, n)) →
    parseCommandBorrowed buf = .ok (some (borrowed, m)) → SameArgs argv borrowed
  error : IsError (parseCommandInto buf) ∧ parseCommandBorrowed buf = .ok none ∨
      parseCommandInto buf = .ok none ∧ IsError (parseCommandBorrowed buf) →
    ∀ ext, ¬ IsCommand (parseCommandInto (buf ++ ext)) ∧
      ¬ IsCommand (parseCommandBorrowed (buf ++ ext))

/-- Behind frames without arguments, the buffer starts a frame with a signed zero length: the first
signed header is complete, and what follows in the buffer is that frame as far as it goes. -/
def SignedZero (buf : Bytes) : Prop :=
  ∃ (skipped : List Bytes) (header : Bytes) (pre : List Bulk) (b : Bulk) (post : List Bulk),
    (∀ f ∈ skipped, Frame f []) ∧ MultiOk header (pre ++ b :: post) ∧
    (∀ c ∈ pre, c.Unsigned) ∧ ¬ b.Unsigned ∧
    skipped.flatten ++ throughHeader header pre b <+: buf ∧
    (buf <+: skipped.flatten ++ multiFrame header (pre ++ b :: post) ∨
      skipped.flatten ++ multiFrame header (pre ++ b :: post) <+: buf)

/-- Behind frames without arguments, the buffer starts with a complete frame that carries arguments and
reaches past the offsets a `u32` can hold. -/
def Wide (buf : Bytes) : Prop :=
  ∃ (skipped : List Bytes) (f : Bytes) (args : List Bytes), (∀ g ∈ skipped, Frame g []) ∧
    Frame f args ∧ args ≠ [] ∧ skipped.flatten ++ f <+: buf ∧ 2 ^ 32 + 2 ≤ f.length

theorem Frame.plain_of_nil {f : Bytes} (h : Frame f []) : PlainFrame f [] := by
  generalize hargs : ([] : List Bytes) = args at h
  cases h with
  | inline hno hstar => exact .inline hno hstar
  | null hv hneg => exact .null hv hneg
  | @multi header bs hok =>
    have hbs : bs = [] := map_eq_nil_iff.mp hargs.symm
    subst hbs
    exact .multi hok (by simp)

theorem parseCommandInto_skipped {skipped : List Bytes} (rest : Bytes) (h : ∀ f ∈ skipped, Frame f []) :
    parseCommandInto (skipped.flatten ++ rest) = shift skipped.flatten.length (parseCommandInto rest) :=
  skip_flatten stable_parseOneInto.toConsumes rest fun f hf rest => ⟨_, parseOneInto_frame (h f hf) rest, by simp⟩

theorem parseCommandBorrowed_skipped {skipped : List Bytes} (rest : Bytes) (h : ∀ f ∈ skipped, Frame f []) :
    parseCommandBorrowed (skipped.flatten ++ rest) = shift skipped.flatten.length (parseCommandBorrowed rest) := by
  refine skip_flatten consumes_parseOneBorrowed rest fun f hf rest => ?_
  obtain ⟨ranges, hr, hread⟩ := parseOneBorrowed_plain (h f hf).plain_of_nil rest
  cases hr
  exact ⟨_, hread, rfl⟩

variable {α : Type}

variable {k : Nat} {r : Parsed α}

theorem shift_eq_some {n : Nat} {a : α} :
    shift k r = .ok (some (a, n)) ↔ ∃ m, n = k + m ∧ r = .ok (some (a, m)) := by
  rcases r with e | _ | ⟨a', m⟩
  · simp
  · simp
  · simp only [shift_some, Except.ok.injEq, Option.some.injEq, Prod.mk.injEq]
    constructor
    · rintro ⟨rfl, rfl⟩; exact ⟨m, rfl, rfl, rfl⟩
    · rintro ⟨m', rfl, rfl, rfl⟩; exact ⟨rfl, rfl⟩

theorem shift_eq_none : shift k r = .ok none ↔ r = .ok none := by
  rcases r with e | _ | ⟨a', m⟩ <;> simp

theorem isError_shift : IsError (shift k r) ↔ IsError r := by
  rcases r with e | _ | ⟨a', m⟩ <;> simp [IsError]

theorem isCommand_shift : IsCommand (shift k r) ↔ IsCommand r := by
  rcases r with e | _ | ⟨a', m⟩ <;> simp [IsCommand]

theorem agree_skipped {skipped : List Bytes} (h : ∀ f ∈ skipped, Frame f []) :
    Agree (skipped.flatten ++ rest) ↔ Agree rest := by
  have ho : ∀ r, parseCommandInto (skipped.flatten ++ r) =
      shift skipped.flatten.length (parseCommandInto r) := fun r => parseCommandInto_skipped r h
  have hb : ∀ r, parseCommandBorrowed (skipped.flatten ++ r) =
      shift skipped.flatten.length (parseCommandBorrowed r) :=
    fun r => parseCommandBorrowed_skipped r h
  constructor
  · rintro ⟨hc, ha, he⟩
    rw [ho, hb] at hc ha he
    simp only [isError_shift, shift_eq_none, append_assoc, ho, hb, isCommand_shift, shift_eq_some] at hc ha he
    refine ⟨fun n => ?_, fun argv b n m h1 h2 => ha argv b _ _ ⟨n, rfl, h1⟩ ⟨m, rfl, h2⟩, he⟩
    have := hc (skipped.flatten.length + n)
    simpa using this
  · rintro ⟨hc, ha, he⟩
    refine ⟨fun n => ?_, fun argv b n m h1 h2 => ?_, ?_⟩
    · rw [ho, hb]
      simp only [shift_eq_some]
      constructor
      · rintro ⟨argv, m, rfl, hm⟩
        obtain ⟨b, hb'⟩ := (hc m).mp ⟨argv, hm⟩
        exact ⟨b, m, rfl, hb'⟩
      · rintro ⟨b, m, rfl, hm⟩
        obtain ⟨argv, ha'⟩ := (hc m).mpr ⟨b, hm⟩
        exact ⟨argv, m, rfl, ha'⟩
    · rw [ho] at h1
      rw [hb] at h2
      obtain ⟨n', _, h1⟩ := shift_eq_some.mp h1
      obtain ⟨m', _, h2⟩ := shift_eq_some.mp h2
      exact ha argv b n' m' h1 h2
    · rw [ho, hb]
      simp only [isError_shift, shift_eq_none, append_assoc, ho, hb, isCommand_shift]
      exact he

theorem exists_skipped (buf : Bytes) : ∃ (skipped : List Bytes) (rest : Bytes),
    buf = skipped.flatten ++ rest ∧ (∀ f ∈ skipped, Frame f []) ∧
    ∀ f args r, Frame f args → rest = f ++ r → args ≠ [] := by
  obtain ⟨k, hk, hlast⟩ :=
    exists_skips Argv.isEmpty stable_parseOneInto.toConsumes buf
  have hsk : ∃ skipped : List Bytes, buf = skipped.flatten ++ buf.drop k ∧ ∀ f ∈ skipped, Frame f [] := by
    clear hlast
    induction hk with
    | done buf => exact ⟨[], rfl, by simp⟩
    | @step buf a n k hp ha _ ih =>
      obtain ⟨f, args, rest, hf, rfl, rfl, rfl⟩ := parseOneInto_sound hp
      obtain ⟨skipped, hcut, hs⟩ := ih
      have hargs : args = [] := by simpa using ha
      subst hargs
      rw [drop_left] at hcut
      refine ⟨f :: skipped, ?_, by simpa [hf] using hs⟩
      rw [← drop_drop, drop_left, flatten_cons, append_assoc, ← hcut]
  obtain ⟨skipped, hcut, hs⟩ := hsk
  refine ⟨skipped, buf.drop k, hcut, hs, ?_⟩
  rintro f args r hf hr rfl
  have := hlast _ _ (by rw [hr]; exact parseOneInto_frame hf r)
  simp at this

theorem SignedZero.borrowed_error (h : SignedZero buf) :
    parseCommandBorrowed buf = .error (.malformed "negative bulk length in request") := by
  obtain ⟨skipped, header, pre, b, post, hs, hok, hpre, hb, ⟨r, rfl⟩, _⟩ := h
  rw [append_assoc, parseCommandBorrowed_skipped _ hs, parseCommandBorrowed,
    skip_error consumes_parseOneBorrowed (parseOneBorrowed_signed hok hpre hb r)]
  rfl

theorem not_agree_of_signedZero (h : SignedZero buf) : ¬ Agree buf := by
  obtain ⟨skipped, header, pre, b, post, hs, hok, hpre, hb, ⟨r, hthrough⟩, hcmp⟩ := h
  rw [append_assoc] at hthrough
  subst hthrough
  rw [prefix_append_right_inj, prefix_append_right_inj] at hcmp
  rw [agree_skipped hs]
  intro hagree
  have hbor : parseCommandBorrowed (throughHeader header pre b ++ r) =
      .error (.malformed "negative bulk length in request") :=
    skip_error consumes_parseOneBorrowed (parseOneBorrowed_signed hok hpre hb r)
  have hframe : Frame (multiFrame header (pre ++ b :: post)) ((pre ++ b :: post).map Bulk.data) :=
    .multi hok
  have hown : ∀ rest, parseCommandInto (multiFrame header (pre ++ b :: post) ++ rest) =
      .ok (some (Argv.ofArgs ((pre ++ b :: post).map Bulk.data), (multiFrame header (pre ++ b :: post)).length)) :=
    fun rest => skip_item stable_parseOneInto.toConsumes (parseOneInto_frame hframe rest) (by simp)
  have hnocmd : ∀ argv n, parseCommandInto (throughHeader header pre b ++ r) ≠
      .ok (some (argv, n)) := by
    intro argv n hcmd
    obtain ⟨argv', hb'⟩ := (hagree.command n).mp ⟨argv, hcmd⟩
    rw [hbor] at hb'
    cases hb'
  rcases hcmp with ⟨ext, hext⟩ | ⟨rest, hrest⟩
  · rcases hres : parseCommandInto (throughHeader header pre b ++ r) with e | _ | ⟨argv, n⟩
    · have := stable_parseCommandInto.fail hres ext
      rw [hext, ← append_nil (multiFrame _ _), hown] at this
      cases this
    · refine (hagree.error (.inr ⟨hres, _, hbor⟩) ext).1 ?_
      rw [hext, ← append_nil (multiFrame _ _), hown]
      exact ⟨_, _, rfl⟩
    · exact hnocmd argv n hres
  · exact hnocmd _ _ (by rw [← hrest]; exact hown rest)

theorem SignedZero.skipped (h : SignedZero rest) {skipped : List Bytes}
    (hs : ∀ f ∈ skipped, Frame f []) : SignedZero (skipped.flatten ++ rest) := by
  obtain ⟨skipped', header, pre, b, post, hs', hok, hpre, hb, hthrough, hcmp⟩ := h
  refine ⟨skipped ++ skipped', header, pre, b, post, ?_, hok, hpre, hb, ?_, ?_⟩
  · exact forall_mem_append.mpr ⟨hs, hs'⟩
  · rw [flatten_append, append_assoc, prefix_append_right_inj]
    exact hthrough
  · simp only [flatten_append, append_assoc, prefix_append_right_inj]
    exact hcmp

theorem Wide.skipped (h : Wide rest) {skipped : List Bytes}
    (hs : ∀ f ∈ skipped, Frame f []) : Wide (skipped.flatten ++ rest) := by
  obtain ⟨skipped', f, args, hs', hf, hne, hpre, hlen⟩ := h
  refine ⟨skipped ++ skipped', f, args, ?_, hf, hne, ?_, hlen⟩
  · exact forall_mem_append.mpr ⟨hs, hs'⟩
  · rw [flatten_append, append_assoc, prefix_append_right_inj]
    exact hpre

theorem plain_or_signedZero {rest f : Bytes} {r : Bytes} (hf : Frame f args)
    (hr : rest = f ++ r) : PlainFrame f args ∨ SignedZero rest := by
  rcases hf.plain_or with hplain | ⟨header, pre, b, post, rfl, hok, hpre, hb⟩
  · exact .inl hplain
  · refine .inr ⟨[], header, pre, b, post, by simp, hok, hpre, hb, ?_, .inr ⟨r, hr.symm⟩⟩
    rw [hr, ← throughHeader_append header pre b post, append_assoc]
    exact ⟨_, rfl⟩

section Rest

/-! A rest that does not start with a frame without arguments: both loops are one parse. -/

variable {rest : Bytes} (hne : ∀ f args r, Frame f args → rest = f ++ r → args ≠ [])

include hne

theorem parseCommandInto_rest : parseCommandInto rest = parseOneInto rest := by
  refine skip_eq_of_nonempty stable_parseOneInto.toConsumes fun argv n h => ?_
  obtain ⟨f, args, r, hf, hr, _, rfl⟩ := parseOneInto_sound h
  simpa using hne f args r hf hr

theorem parseCommandBorrowed_rest : parseCommandBorrowed rest = parseOneBorrowed rest := by
  refine skip_eq_of_nonempty consumes_parseOneBorrowed fun argv n h => ?_
  obtain ⟨f, args, r, hf, hr⟩ := parseOneBorrowed_sound h
  obtain ⟨ranges, hreads, hp⟩ := parseOneBorrowed_plain hf r
  rw [hr, hp] at h
  cases h
  cases hreads with
  | nil => exact absurd rfl (hne f [] r hf.frame hr)
  | cons => rfl

omit hne in
theorem command_rest (hz : ¬ SignedZero rest) (n : Nat) : (∃ argv, parseOneInto rest = .ok (some (argv, n))) ↔
      ∃ argv, parseOneBorrowed rest = .ok (some (argv, n)) := by
  constructor
  · rintro ⟨argv, h⟩
    obtain ⟨f, args, r, hf, hr, rfl, _⟩ := parseOneInto_sound h
    have hplain := (plain_or_signedZero hf hr).resolve_right hz
    obtain ⟨ranges, _, hp⟩ := parseOneBorrowed_plain hplain r
    exact ⟨_, by rw [hr]; exact hp⟩
  · rintro ⟨argv, h⟩
    obtain ⟨f, args, r, hf, hr⟩ := parseOneBorrowed_sound h
    obtain ⟨ranges, _, hp⟩ := parseOneBorrowed_plain hf r
    rw [hr, hp] at h
    cases h
    exact ⟨_, by rw [hr]; exact parseOneInto_frame hf.frame r⟩

theorem sameArgs_rest (hz : ¬ SignedZero rest) (hw : ¬ Wide rest) {argv : Argv}
    {borrowed : ArgvBorrowed} {n m : Nat} (ho : parseOneInto rest = .ok (some (argv, n)))
    (hb : parseOneBorrowed rest = .ok (some (borrowed, m))) : SameArgs argv borrowed := by
  obtain ⟨f, args, r, hf, hr, rfl, rfl⟩ := parseOneInto_sound ho
  have hplain := (plain_or_signedZero hf hr).resolve_right hz
  obtain ⟨ranges, hreads, hp⟩ := parseOneBorrowed_plain hplain r
  rw [hr, hp] at hb
  cases hb
  have hlen : f.length < 2 ^ 32 + 2 := by
    by_contra hlong
    exact hw ⟨[], f, args, by simp, hf, hne f args r hf hr, ⟨r, hr.symm⟩, by omega⟩
  have hargs := hf.length_args_le
  refine ⟨?_, fun i hi => ?_⟩
  · rw [Argv.len_ofArgs, ArgvBorrowed.len, ArgvBorrowed.ofRanges, length_map, hreads.length_eq]
  · rw [Argv.len_ofArgs] at hi
    refine ⟨args[i], ?_, ?_⟩
    · rw [Argv.get_ofArgs args (by omega), getElem?_eq_getElem hi]
    · rw [ArgvBorrowed.get_ofRanges hreads hlen, getElem?_eq_getElem hi]

omit hne in
theorem no_command_of_owned_error (h : parseOneInto rest = .error e)
    (ext : Bytes) : ¬ IsCommand (parseCommandInto (rest ++ ext)) ∧
      ¬ IsCommand (parseCommandBorrowed (rest ++ ext)) := by
  have herr := parseOneInto_error h ext
  have hnone : ∀ argv n, parseOneBorrowed (rest ++ ext) ≠ .ok (some (argv, n)) := by
    intro argv n hb
    obtain ⟨f, args, r, hf, hr⟩ := parseOneBorrowed_sound hb
    rw [hr, parseOneInto_frame hf.frame] at herr
    cases herr
  refine ⟨?_, ?_⟩
  · rintro ⟨argv, n, hc⟩
    rw [parseCommandInto, skip_error stable_parseOneInto.toConsumes herr] at hc
    cases hc
  · rintro ⟨argv, n, hc⟩
    rw [parseCommandBorrowed, skip_eq_of_nonempty consumes_parseOneBorrowed
      fun argv n hb => absurd hb (hnone argv n)] at hc
    exact hnone argv n hc

omit hne in
/-- After an error of the borrowed parser while the owned one waits, a command can only come from a
signed zero length. -/
theorem no_command_of_borrowed_error (hz : ¬ SignedZero rest)
    (h : parseOneBorrowed rest = .error e) (ext : Bytes) : ¬ IsCommand (parseCommandInto (rest ++ ext)) ∧
      ¬ IsCommand (parseCommandBorrowed (rest ++ ext)) := by
  have herr := parseOneBorrowed_error h ext
  have hnone : ∀ argv n, parseOneInto (rest ++ ext) ≠ .ok (some (argv, n)) := by
    intro argv n ho
    obtain ⟨f, args, r, hf, hr, _, _⟩ := parseOneInto_sound ho
    rcases hf.plain_or with hplain | ⟨header, pre, b, post, rfl, hok, hpre, hb⟩
    · obtain ⟨ranges, _, hp⟩ := parseOneBorrowed_plain hplain r
      rw [hr, hp] at herr
      cases herr
    -- the signed header is complete in `rest`, for otherwise the borrowed parser would wait
    have hpr : rest <+: rest ++ ext := prefix_append _ _
    have hpf : multiFrame header (pre ++ b :: post) <+: rest ++ ext := ⟨r, hr.symm⟩
    have hpt : throughHeader header pre b <+: rest ++ ext :=
      IsPrefix.trans ⟨_, throughHeader_append header pre b post⟩ hpf
    have hthrough : throughHeader header pre b <+: rest := by
      rcases prefix_or_prefix_of_prefix hpt hpr with hin | ⟨mid, hmid⟩
      · exact hin
      · by_cases hm : mid = []
        · subst hm
          rw [append_nil] at hmid
          exact hmid ▸ prefix_rfl
        · exact absurd h (parseOneBorrowed_cut hok hpre hmid hm e)
    exact hz ⟨[], header, pre, b, post, by simp, hok, hpre, hb, hthrough, prefix_or_prefix_of_prefix hpr hpf⟩
  refine ⟨?_, ?_⟩
  · rintro ⟨argv, n, hc⟩
    rw [parseCommandInto, skip_eq_of_nonempty stable_parseOneInto.toConsumes
      fun argv n ho => absurd ho (hnone argv n)] at hc
    exact hnone argv n hc
  · rintro ⟨argv, n, hc⟩
    rw [parseCommandBorrowed, skip_error consumes_parseOneBorrowed herr] at hc
    cases hc

theorem agree_rest (hz : ¬ SignedZero rest) (hw : ¬ Wide rest) : Agree rest := by
  have ho := parseCommandInto_rest hne
  have hb := parseCommandBorrowed_rest hne
  refine ⟨?_, ?_, ?_⟩
  · rw [ho, hb]
    exact command_rest hz
  · rw [ho, hb]
    exact fun argv borrowed n m h1 h2 => sameArgs_rest hne hz hw h1 h2
  · rw [ho, hb]
    rintro (⟨⟨e, he⟩, _⟩ | ⟨_, ⟨e, he⟩⟩) ext
    · exact no_command_of_owned_error he ext
    · exact no_command_of_borrowed_error hz he ext

end Rest

theorem agree_of_plain (hz : ¬ SignedZero buf) (hw : ¬ Wide buf) : Agree buf := by
  obtain ⟨skipped, rest, rfl, hs, hne⟩ := exists_skipped buf
  rw [agree_skipped hs]
  exact agree_rest hne (fun h => hz (h.skipped hs)) (fun h => hw (h.skipped hs))

/-- **The two request parsers agree exactly away from signed zero lengths**, on every buffer whose
front frame stays within the stored offsets; on a signed zero length they always disagree. -/
theorem agree_iff_not_signedZero (buf : Bytes) :
    (¬ Wide buf → (Agree buf ↔ ¬ SignedZero buf)) ∧ (SignedZero buf → ¬ Agree buf) :=
  ⟨fun hw => ⟨fun h hz => not_agree_of_signedZero hz h, fun hz => agree_of_plain hz hw⟩,
    not_agree_of_signedZero⟩

/-- `*1\r\n$-0\r\n\r\n`: the owned parser returns one empty argument, the borrowed one an error. -/
theorem not_agree_minus_zero :
    parseCommandInto [42, 49, 13, 10, 36, 45, 48, 13, 10, 13, 10] = .ok (some (⟨[], [0]⟩, 11)) ∧
    parseCommandBorrowed [42, 49, 13, 10, 36, 45, 48, 13, 10, 13, 10] =
      .error (.malformed "negative bulk length in request") ∧ ¬ Agree [42, 49, 13, 10, 36, 45, 48, 13, 10, 13, 10] := by
  have ho : parseCommandInto [42, 49, 13, 10, 36, 45, 48, 13, 10, 13, 10] =
      .ok (some (⟨[], [0]⟩, 11)) := by decide +kernel
  have hb : parseCommandBorrowed [42, 49, 13, 10, 36, 45, 48, 13, 10, 13, 10] =
      .error (.malformed "negative bulk length in request") := by decide +kernel
  refine ⟨ho, hb, fun h => ?_⟩
  obtain ⟨argv, hargv⟩ := (h.command 11).mp ⟨_, ho⟩
  rw [hb] at hargv
  cases hargv

/-- On `*1\r\n$4\r\nPING\r\n` the parsers agree. -/
theorem agree_ping : ¬ Wide [42, 49, 13, 10, 36, 52, 13, 10, 80, 73, 78, 71, 13, 10] ∧
    Agree [42, 49, 13, 10, 36, 52, 13, 10, 80, 73, 78, 71, 13, 10] := by
  have hw : ¬ Wide [42, 49, 13, 10, 36, 52, 13, 10, 80, 73, 78, 71, 13, 10] := by
    rintro ⟨skipped, f, args, _, _, _, hpre, hlen⟩
    have := hpre.length_le
    simp only [length_append, length_cons, length_nil] at this
    omega
  refine ⟨hw, ((agree_iff_not_signedZero _).1 hw).mpr fun hz => ?_⟩
  exact absurd hz.borrowed_error (by decide +kernel)

end Kevy.Resp