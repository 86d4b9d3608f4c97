import Kevy.Resp.Request

/-!
# The request grammar and the owned parser

`Frame f args` says that the bytes `f` are one request carrying `args`. The owned parser reads exactly
these frames: what it returns is a frame (`parseOneInto_sound`), every frame at the front of a buffer
is returned (`parseOneInto_frame`), and neither a command nor an error changes when the buffer grows
(`stable_parseOneInto`).
-/

namespace Kevy.Resp

open Kevy.Lib List Option

/-! ## Frames -/

/-- One bulk string: the text of its length header and its data. -/
structure Bulk where
  header : Bytes
  data : Bytes

/-- `$<header>\r\n<data>\r\n`. -/
def Bulk.frame (b : Bulk) : Bytes := dollar :: b.header ++ crlf ++ b.data ++ crlf

/-- The header states the data's length, within the limit. -/
structure Bulk.Ok (b : Bulk) : Prop where
  header : parseInt b.header = some (b.data.length : Int)
  limit : b.data.length ≤ maxBulkLen

def bulkFrames (bs : List Bulk) : Bytes := bs.flatMap Bulk.frame

def multiFrame (header : Bytes) (bs : List Bulk) : Bytes :=
  star :: header ++ crlf ++ bulkFrames bs

/-- A multi-bulk request: its header counts the bulk strings, within the limit. -/
structure MultiOk (header : Bytes) (bs : List Bulk) : Prop where
  count : parseInt header = some (bs.length : Int)
  limit : bs.length ≤ maxMultibulkLen
  bulks : ∀ b ∈ bs, b.Ok

inductive Frame : Bytes → List Bytes → Prop
  | inline {line : Bytes} : NoCrlf line → line.head? ≠ some star →
      Frame (line ++ crlf) (inlineTokens line)
  | null {header : Bytes} {v : Int} : parseInt header = some v → v < 0 →
      Frame (star :: header ++ crlf) []
  | multi {header : Bytes} {bs : List Bulk} : MultiOk header bs →
      Frame (multiFrame header bs) (bs.map Bulk.data)

@[simp] theorem length_frame (b : Bulk) : b.frame.length = b.header.length + b.data.length + 5 := by
  simp [Bulk.frame, crlf]
  omega

@[simp] theorem bulkFrames_nil : bulkFrames [] = [] := rfl

@[simp] theorem bulkFrames_cons (b : Bulk) (bs : List Bulk) : bulkFrames (b :: bs) = b.frame ++ bulkFrames bs := rfl

@[simp] theorem bulkFrames_append (bs cs : List Bulk) : bulkFrames (bs ++ cs) = bulkFrames bs ++ bulkFrames cs := by
  simp [bulkFrames]

theorem Bulk.Ok.noCrlf {b : Bulk} (h : b.Ok) : NoCrlf b.header := noCrlf_of_parseInt h.header

variable {args : List Bytes}

theorem Frame.crlf_suffix {f : Bytes} (h : Frame f args) : ∃ body, f = body ++ crlf := by
  cases h with
  | @inline line _ _ => exact ⟨line, rfl⟩
  | @null header _ _ _ => exact ⟨star :: header, rfl⟩
  | @multi header bs _ =>
    rcases eq_nil_or_concat bs with rfl | ⟨bs, b, rfl⟩
    · exact ⟨star :: header, by simp [multiFrame]⟩
    · refine ⟨star :: header ++ crlf ++ bulkFrames bs ++ (dollar :: b.header ++ crlf ++ b.data), ?_⟩
      simp [multiFrame, Bulk.frame]

theorem exists_first {α : Type} {p : α → Prop} {l : List α} (h : ∃ a ∈ l, ¬ p a) :
    ∃ pre a post, l = pre ++ a :: post ∧ (∀ b ∈ pre, p b) ∧ ¬ p a := by
  classical
  have hsome : (l.find? fun a => ¬ p a).isSome := by simpa using h
  obtain ⟨a, hfind⟩ := isSome_iff_exists.mp hsome
  obtain ⟨ha, pre, post, hl, hpre⟩ := find?_eq_some_iff_append.mp hfind
  exact ⟨pre, a, post, hl, by simpa using hpre, by simpa using ha⟩

/-! ## The tokens of an inline request -/

def tokensFrom (cur line : Bytes) : List Bytes :=
  ((line.splitOnP isAsciiWhitespace).modifyHead (cur ++ ·)).filter (!·.isEmpty)

theorem tokensFrom_nil (line : Bytes) : tokensFrom [] line = inlineTokens line := by
  rw [tokensFrom, inlineTokens]
  cases line.splitOnP isAsciiWhitespace <;> rfl

theorem tokensFrom_end (cur : Bytes) : tokensFrom cur [] = if cur = [] then [] else [cur] := by
  by_cases h : cur = [] <;> simp [tokensFrom, splitOnP_nil, h]

theorem tokensFrom_space {b : UInt8} (hb : isAsciiWhitespace b = true) (cur line : Bytes) :
    tokensFrom cur (b :: line) = (if cur = [] then [] else [cur]) ++ tokensFrom [] line := by
  rw [tokensFrom_nil, tokensFrom, splitOnP_cons_eq_if_modifyHead, if_pos hb, inlineTokens]
  by_cases h : cur = [] <;> simp [h]

theorem tokensFrom_char {b : UInt8} (hb : ¬ isAsciiWhitespace b = true) (cur line : Bytes) :
    tokensFrom cur (b :: line) = tokensFrom (cur ++ [b]) line := by
  rw [tokensFrom, splitOnP_cons_eq_if_modifyHead, if_neg hb, tokensFrom]
  cases line.splitOnP isAsciiWhitespace <;> simp

theorem length_tokensFrom_flatten_le (line : Bytes) (cur : Bytes) :
    (tokensFrom cur line).flatten.length ≤ cur.length + line.length := by
  induction line generalizing cur with
  | nil =>
    rw [tokensFrom_end]
    split_ifs <;> simp
  | cons b line ih =>
    by_cases hb : isAsciiWhitespace b = true
    · rw [tokensFrom_space hb, flatten_append, length_append]
      have h1 : (if cur = [] then [] else [cur]).flatten.length ≤ cur.length := by
        split_ifs <;> simp
      have h2 := ih []
      simp only [length_nil] at h2
      simp only [length_cons]
      omega
    · rw [tokensFrom_char hb]
      have := ih (cur ++ [b])
      simp only [length_append, length_singleton] at this
      simp only [length_cons]
      omega

theorem Frame.length_args_le {f : Bytes} (h : Frame f args) : args.flatten.length + 2 ≤ f.length := by
  cases h with
  | @inline line _ _ =>
    have := length_tokensFrom_flatten_le line []
    rw [tokensFrom_nil] at this
    simp only [length_nil, Nat.zero_add] at this
    simp only [length_append, crlf, length_cons, length_nil]
    omega
  | null _ _ => simp [crlf]
  | @multi header bs _ =>
    have : ∀ bs : List Bulk, (bs.map Bulk.data).flatten.length ≤ (bulkFrames bs).length := by
      intro bs
      induction bs with
      | nil => simp
      | cons b bs ih =>
        rw [map_cons, flatten_cons, length_append, bulkFrames_cons, length_append, length_frame]
        omega
    have := this bs
    simp only [multiFrame, crlf, length_append, length_cons, length_nil]
    omega

/-! ## Windows of a growing buffer -/

variable {buf : Bytes}

theorem window_append {start n : Nat} (h : start + n ≤ buf.length) (ext : Bytes) :
    ((buf ++ ext).drop start).take n = (buf.drop start).take n := by
  rw [drop_append_of_le_length (by omega), take_append_of_le_length]
  rw [length_drop]
  omega

theorem drop_of_getElem? {i : Nat} {c : UInt8} (h : buf[i]? = some c) : buf.drop i = c :: buf.drop (i + 1) := by
  obtain ⟨hlt, hget⟩ := List.getElem?_eq_some_iff.mp h
  rw [drop_eq_getElem_cons hlt, hget]

theorem getElem?_append_some {i : Nat} {b : UInt8} (h : buf[i]? = some b)
    (ext : Bytes) : (buf ++ ext)[i]? = some b := by
  obtain ⟨hi, _⟩ := List.getElem?_eq_some_iff.mp h
  rwa [getElem?_append_left hi]

/-! ## Numbers on a line -/

/-- What follows the result of a parse. -/
def andNext {α β : Type} (x : Parsed α) (k : α → Nat → Parsed β) : Parsed β :=
  match x with
  | .error e => .error e
  | .ok none => .ok none
  | .ok (some (a, n)) => k a n

variable {e : ProtocolError}

section AndNext

variable {α β : Type} {x : Parsed α} {k : α → Nat → Parsed β}

theorem andNext_some (a : α) (n : Nat) : andNext (.ok (some (a, n))) k = k a n := rfl

theorem andNext_eq_some {r : β × Nat} (h : andNext x k = .ok (some r)) :
    ∃ a n, x = .ok (some (a, n)) ∧ k a n = .ok (some r) := by
  rcases x with e | _ | ⟨a, n⟩
  · cases h
  · cases h
  · exact ⟨a, n, rfl, h⟩

theorem andNext_eq_error (h : andNext x k = .error e) :
    x = .error e ∨ ∃ a n, x = .ok (some (a, n)) ∧ k a n = .error e := by
  rcases x with e' | _ | ⟨a, n⟩
  · cases h
    exact .inl rfl
  · cases h
  · exact .inr ⟨a, n, rfl, h⟩

end AndNext

def intLine (bad : String) (buf : Bytes) (start : Nat) : Parsed Int :=
  match findCrlf buf start with
  | none => .ok none
  | some i =>
    match parseInt ((buf.drop start).take (i - start)) with
    | none => .error (.malformed bad)
    | some v => .ok (some (v, i + 2))

variable {line rest : Bytes}

section IntLine

variable {bad : String} {start : Nat} {v : Int}

theorem intLine_line (hv : parseInt line = some v) (hbuf : buf.drop start = line ++ crlf ++ rest) :
    intLine bad buf start = .ok (some (v, start + line.length + 2)) := by
  obtain ⟨h1, h2⟩ := findCrlf_line hbuf (noCrlf_of_parseInt hv)
  rw [intLine, h1]
  simp only [h2, hv]

theorem intLine_sound {next : Nat} (h : intLine bad buf start = .ok (some (v, next))) :
    ∃ line, LineAt buf start line next ∧ parseInt line = some v := by
  unfold intLine at h
  cases hc : findCrlf buf start with
  | none => rw [hc] at h; cases h
  | some i =>
  obtain ⟨line, hline, hno⟩ := findCrlf_spec hc
  obtain ⟨h1, h2⟩ := findCrlf_line hline.cut hno
  obtain rfl := some.inj (hc.symm.trans h1)
  simp only [hc, h2] at h
  cases hi : parseInt line with
  | none => rw [hi] at h; cases h
  | some v' =>
    rw [hi] at h
    cases h
    exact ⟨line, hline, hi⟩

theorem intLine_error (h : intLine bad buf start = .error e) (ext : Bytes) :
    intLine bad (buf ++ ext) start = .error e := by
  unfold intLine at h ⊢
  cases hc : findCrlf buf start with
  | none => rw [hc] at h; cases h
  | some i =>
  obtain ⟨line, hline, -⟩ := findCrlf_spec hc
  have hend := hline.next_eq
  have hle := hline.le
  rw [findCrlf_append ext hc]
  simp only [hc] at h ⊢
  rw [window_append (by omega)]
  cases hi : parseInt ((buf.drop start).take (i - start)) with
  | none => rwa [hi] at h
  | some v => rw [hi] at h; cases h

theorem LineAt.append {next : Nat} (h : LineAt buf start line next) (ext : Bytes) :
    (buf ++ ext).drop start = line ++ crlf ++ (buf.drop next ++ ext) := by
  have hend := h.next_eq
  have hle := h.le
  rw [drop_append_of_le_length (by omega), h.cut, append_assoc]

theorem intLine_append {next : Nat} (h : intLine bad buf start = .ok (some (v, next))) (ext : Bytes) :
    intLine bad (buf ++ ext) start = .ok (some (v, next)) := by
  obtain ⟨line, hline, hv⟩ := intLine_sound h
  rw [intLine_line hv (hline.append ext), hline.next_eq]

end IntLine

/-! ## The bulk loop

Both parsers go over the bulk strings of a request in one loop. They differ in how they read a length header, and in
what they keep of the data. -/

/-- The bulk loop: `header` reads a length and where the data starts, `push` keeps the range of the data. -/
def bulkLoop {σ : Type} (header : Bytes → Nat → Parsed Nat) (push : σ → Nat × Nat → σ) (buf : Bytes) :
    (count pos : Nat) → σ → Parsed σ
  | 0, pos, s => .ok (some (s, pos))
  | count + 1, pos, s =>
    match buf[pos]? with
    | none => .ok none
    | some b =>
      if b ≠ dollar then .error (.malformed "expected bulk string")
      else andNext (header buf pos) fun len start =>
        if buf.length < start + len + 2 then .ok none
        else if (buf.drop (start + len)).take 2 ≠ crlf then .error (.malformed "bulk string not CRLF-terminated")
        else bulkLoop header push buf count (start + len + 2) (push s (start, start + len))

/-- A reader of length headers takes those that are `good`, and an error of it stays when the buffer grows. -/
structure ReadsHeaders (good : Bytes → Prop) (header : Bytes → Nat → Parsed Nat) : Prop where
  reads : ∀ {buf line rest : Bytes} {pos len : Nat}, parseInt line = some (len : Int) → len ≤ maxBulkLen → good line →
    buf.drop (pos + 1) = line ++ crlf ++ rest → header buf pos = .ok (some (len, pos + 1 + line.length + 2))
  sound : ∀ {buf : Bytes} {pos len next : Nat}, header buf pos = .ok (some (len, next)) →
    ∃ line, LineAt buf (pos + 1) line next ∧ parseInt line = some (len : Int) ∧ len ≤ maxBulkLen ∧ good line
  fails : ∀ {buf : Bytes} {pos : Nat} {e : ProtocolError}, header buf pos = .error e →
    ∀ ext, header (buf ++ ext) pos = .error e

/-- The ranges the loop keeps for a row of bulk strings that starts at `pos`. -/
def bulkRanges : (pos : Nat) → List Bulk → List (Nat × Nat)
  | _, [] => []
  | pos, b :: bs =>
    (pos + 1 + b.header.length + 2, pos + 1 + b.header.length + 2 + b.data.length) ::
      bulkRanges (pos + b.frame.length) bs

theorem bulk_at {buf : Bytes} {pos dataStart n : Nat} (hb : buf[pos]? = some dollar)
    (hline : buf.drop (pos + 1) = line ++ crlf ++ buf.drop dataStart)
    (hstart : dataStart = pos + 1 + line.length + 2) (hlen : dataStart + n + 2 ≤ buf.length)
    (hterm : (buf.drop (dataStart + n)).take 2 = crlf) :
    ∃ data, data.length = n ∧ pos + (Bulk.frame ⟨line, data⟩).length = dataStart + n + 2 ∧
      data = (buf.drop dataStart).take n ∧ buf.drop pos = Bulk.frame ⟨line, data⟩ ++ buf.drop (dataStart + n + 2) := by
  have hdata : ((buf.drop dataStart).take n).length = n := by
    rw [length_take, length_drop]
    omega
  refine ⟨(buf.drop dataStart).take n, hdata, ?_, rfl, ?_⟩
  · rw [length_frame]
    simp only [hdata]
    omega
  have htail : buf.drop dataStart = (buf.drop dataStart).take n ++ (crlf ++ buf.drop (dataStart + n + 2)) := by
    conv_lhs => rw [← take_append_drop n (buf.drop dataStart), drop_drop,
      ← take_append_drop 2 (buf.drop (dataStart + n)), hterm, drop_drop]
  rw [drop_of_getElem? hb, hline]
  conv_lhs => rw [htail]
  simp [Bulk.frame]

theorem read_bulk {pre : Bytes} {b : Bulk} (hbuf : buf = pre ++ (b.frame ++ rest)) :
    buf[pre.length]? = some dollar ∧ buf.drop (pre.length + 1) = b.header ++ crlf ++ (b.data ++ (crlf ++ rest)) ∧
    (buf.drop (pre.length + 1 + b.header.length + 2)).take b.data.length = b.data ∧
    (buf.drop (pre.length + 1 + b.header.length + 2 + b.data.length)).take 2 = crlf ∧
    pre.length + 1 + b.header.length + 2 + b.data.length + 2 = (pre ++ b.frame).length ∧
    (pre ++ b.frame).length ≤ buf.length := by
  have hlen := length_frame b
  have hd1 : buf.drop (pre.length + 1) = b.header ++ crlf ++ (b.data ++ (crlf ++ rest)) := by
    rw [hbuf, ← drop_drop, drop_left]
    simp [Bulk.frame]
  have hd2 : buf.drop (pre.length + 1 + b.header.length + 2) = b.data ++ (crlf ++ rest) := by
    rw [Nat.add_assoc _ b.header.length, ← drop_drop, hd1, append_assoc, ← drop_drop, drop_left]
    rfl
  have hd3 : buf.drop (pre.length + 1 + b.header.length + 2 + b.data.length) = crlf ++ rest := by
    rw [← drop_drop, hd2, drop_left]
  refine ⟨?_, hd1, ?_, ?_, ?_, ?_⟩
  · rw [hbuf, getElem?_append_right le_rfl, Nat.sub_self]
    rfl
  · rw [hd2, take_left]
  · rw [hd3]
    rfl
  · rw [length_append, hlen]
    omega
  · rw [hbuf]
    simp

section BulkLoop

variable {σ : Type} {good : Bytes → Prop} {header : Bytes → Nat → Parsed Nat} {push : σ → Nat × Nat → σ}
  (h : ReadsHeaders good header)
include h

theorem bulkLoop_bulk {pre : Bytes} {b : Bulk} (hb : b.Ok) (hgood : good b.header)
    (hbuf : buf = pre ++ (b.frame ++ rest)) (count : Nat) (s : σ) : bulkLoop header push buf (count + 1) pre.length s =
      bulkLoop header push buf count (pre ++ b.frame).length
        (push s (pre.length + 1 + b.header.length + 2, pre.length + 1 + b.header.length + 2 + b.data.length)) := by
  obtain ⟨h0, h1, _, h3, h4, h5⟩ := read_bulk hbuf
  rw [bulkLoop, h0]
  simp only [ne_eq, not_true_eq_false, if_false, h.reads hb.header hb.limit hgood h1, andNext]
  rw [if_neg (by omega), if_neg (by rw [h3]; simp), h4]

theorem bulkLoop_bulkFrames {bs : List Bulk} {pre rest : Bytes} (count : Nat) (s : σ) (hok : ∀ b ∈ bs, b.Ok)
    (hgood : ∀ b ∈ bs, good b.header) (hbuf : buf = pre ++ (bulkFrames bs ++ rest)) :
    bulkLoop header push buf (bs.length + count) pre.length s =
      bulkLoop header push buf count (pre ++ bulkFrames bs).length ((bulkRanges pre.length bs).foldl push s) := by
  induction bs generalizing pre rest count s with
  | nil =>
    simp [bulkRanges]
  | cons b bs ih =>
    rw [bulkFrames_cons, append_assoc] at hbuf
    have hcount : (b :: bs).length + count = bs.length + count + 1 := by
      simp only [length_cons]
      omega
    rw [hcount, bulkLoop_bulk h (hok b mem_cons_self) (hgood b mem_cons_self) hbuf,
      @ih _ rest count _ (forall_mem_cons.mp hok).2 (forall_mem_cons.mp hgood).2 (by rw [hbuf]; simp)]
    simp [bulkRanges]

theorem bulkLoop_sound {count pos : Nat} {s : σ} {r : σ × Nat}
    (hr : bulkLoop header push buf count pos s = .ok (some r)) :
    ∃ bs : List Bulk, bs.length = count ∧ (∀ b ∈ bs, b.Ok) ∧ (∀ b ∈ bs, good b.header) ∧
      buf.drop pos = bulkFrames bs ++ buf.drop r.2 := by
  induction count generalizing pos s r with
  | zero =>
    cases hr
    exact ⟨[], rfl, by simp, by simp, rfl⟩
  | succ count ih =>
    rw [bulkLoop] at hr
    cases hb : buf[pos]? with
    | none => rw [hb] at hr; cases hr
    | some b =>
    simp only [hb] at hr
    split_ifs at hr with hd
    obtain ⟨len, start, hhead, hr⟩ := andNext_eq_some hr
    split_ifs at hr with hshort hterm
    · cases hr
    obtain ⟨line, hline, hv, hmax, hgood⟩ := h.sound hhead
    obtain rfl : b = dollar := not_not.mp hd
    obtain ⟨data, hlen, hend, _, hcut⟩ := bulk_at hb hline.cut hline.next_eq (by omega) (not_not.mp hterm)
    obtain ⟨bs, hcount, hok, hgoods, hcut'⟩ := ih hr
    refine ⟨⟨line, data⟩ :: bs, by simp [hcount], ?_, ?_, ?_⟩
    · simpa using ⟨⟨by simp only [hlen, hv], by simp only [hlen]; omega⟩, hok⟩
    · simpa using ⟨hgood, hgoods⟩
    · rw [hcut, hcut', bulkFrames_cons, append_assoc]

theorem bulkLoop_error (ext : Bytes) {count pos : Nat} {s s' : σ} {e : ProtocolError}
    (he : bulkLoop header push buf count pos s = .error e) :
    bulkLoop header push (buf ++ ext) count pos s' = .error e := by
  induction count generalizing pos s s' e with
  | zero => cases he
  | succ count ih =>
    rw [bulkLoop] at he ⊢
    cases hb : buf[pos]? with
    | none => rw [hb] at he; cases he
    | some b =>
    rw [getElem?_append_some hb ext]
    simp only [hb] at he ⊢
    split_ifs at he ⊢ with hd
    · exact he
    rcases andNext_eq_error he with hfail | ⟨len, start, hhead, hrest⟩
    · rw [h.fails hfail ext]
      rfl
    obtain ⟨line, hline, hv, hmax, hgood⟩ := h.sound hhead
    rw [h.reads hv hmax hgood (hline.append ext), ← hline.next_eq, andNext_some]
    split_ifs at hrest with hshort hterm
    · rw [if_neg (by rw [length_append]; omega), window_append (by omega), if_pos hterm]
      exact hrest
    · rw [if_neg (by rw [length_append]; omega), window_append (by omega), if_neg hterm]
      exact ih hrest

end BulkLoop

/-! ## Checking a multi-bulk frame -/

/-- How `parse_command_into` reads the length of a bulk string. -/
def ownedHeader (buf : Bytes) (pos : Nat) : Parsed Nat :=
  andNext (intLine "bad bulk length" buf (pos + 1)) fun len start =>
    if len < 0 then .error (.malformed "negative bulk length in request")
    else if maxBulkLen < len.toNat then .error (.malformed "bulk length exceeds proto-max-bulk-len")
    else .ok (some (len.toNat, start))

theorem readsHeaders_ownedHeader : ReadsHeaders (fun _ => True) ownedHeader where
  reads := by
    intro buf line rest pos len hv hmax _ hbuf
    rw [ownedHeader, intLine_line hv hbuf, andNext_some, if_neg (by omega), Int.toNat_natCast, if_neg (by omega)]
  sound := by
    intro buf pos len next h
    obtain ⟨v, start, hint, h⟩ := andNext_eq_some h
    obtain ⟨line, hline, hv⟩ := intLine_sound hint
    split_ifs at h with hneg hmax
    cases h
    exact ⟨line, hline, by rw [hv, Int.toNat_of_nonneg (by omega)], by omega, trivial⟩
  fails := by
    intro buf pos e h ext
    unfold ownedHeader
    rcases andNext_eq_error h with hfail | ⟨v, start, hint, hrest⟩
    · rw [intLine_error hfail]
      rfl
    · rw [intLine_append hint]
      exact hrest

theorem validateMultibulkFrame_eq (buf : Bytes) : ∀ (count pos total : Nat), validateMultibulkFrame buf count pos total =
    andNext (bulkLoop ownedHeader (fun total r => total + (r.2 - r.1)) buf count pos total)
      fun total endPos => .ok (some (endPos, total)) := by
  intro count
  induction count with
  | zero => exact fun pos total => rfl
  | succ count ih =>
    intro pos total
    rw [validateMultibulkFrame, bulkLoop, ownedHeader, intLine]
    rcases buf[pos]? with _ | b
    · rfl
    dsimp only
    split_ifs with hd
    · rfl
    rcases findCrlf buf (pos + 1) with _ | lenEnd
    · rfl
    dsimp only
    rcases parseInt ((buf.drop (pos + 1)).take (lenEnd - (pos + 1))) with _ | len
    · rfl
    simp only [andNext]
    split_ifs with hneg hmax hshort hterm
    · rfl
    · rfl
    · simp only [if_pos hshort]
    · simp only [if_neg hshort, if_pos hterm]
    · simp only [if_neg hshort, if_neg hterm, Nat.add_sub_cancel_left, ih]
      rfl

theorem copyMultibulkArgs_bulkFrames : ∀ {bs : List Bulk} {pre rest : Bytes}
    (dst : Argv), (∀ b ∈ bs, b.Ok) → buf = pre ++ (bulkFrames bs ++ rest) →
    copyMultibulkArgs buf bs.length pre.length dst = some ((bs.map Bulk.data).foldl Argv.push dst) := by
  intro bs
  induction bs with
  | nil => intros; rfl
  | cons b bs ih =>
    intro pre rest dst hbs hbuf
    rw [bulkFrames_cons, append_assoc] at hbuf
    have hb := hbs b mem_cons_self
    obtain ⟨_, hdrop, h3, _, h5, h6⟩ := read_bulk hbuf
    obtain ⟨h1, h2⟩ := findCrlf_line hdrop hb.noCrlf
    have hslice : slice buf (pre.length + 1 + b.header.length + 2)
        (pre.length + 1 + b.header.length + 2 + b.data.length) = some b.data := by
      rw [slice, if_pos (by omega), Nat.add_sub_cancel_left, h3]
    rw [length_cons, copyMultibulkArgs]
    simp only [h1, h2, hb.header, Int.toNat_natCast, hslice, bind_eq_bind, bind_some]
    rw [h5, @ih _ rest (dst.push b.data) (forall_mem_cons.mp hbs).2 (by rw [hbuf]; simp)]
    rfl

/-! ## One frame -/

/-- What both parsers do with a multi-bulk request, down to the `body` behind its header. -/
def behindCount {α : Type} (null : α) (body : (count pos : Nat) → Parsed α) (buf : Bytes) : Parsed α :=
  andNext (intLine "bad multibulk count" buf 1) fun count pos =>
    if count < 0 then .ok (some (null, pos))
    else if maxMultibulkLen < count.toNat then .error (.malformed "multibulk count exceeds limit")
    else body count.toNat pos

section BehindCount

variable {α : Type} {null null' : α} {body body' : Nat → Nat → Parsed α} {header : Bytes}

theorem behindCount_null {v : Int} (hv : parseInt header = some v) (hneg : v < 0) (rest : Bytes) :
    behindCount null body (star :: header ++ crlf ++ rest) = .ok (some (null, (star :: header ++ crlf).length)) := by
  rw [behindCount, intLine_line hv rfl, andNext_some, if_pos hneg, length_tag_line]

theorem behindCount_count {count : Nat} (hv : parseInt header = some (count : Int)) (hmax : count ≤ maxMultibulkLen)
    (rest : Bytes) :
    behindCount null body (star :: header ++ crlf ++ rest) = body count (star :: header ++ crlf).length := by
  rw [behindCount, intLine_line hv rfl, andNext_some, if_neg (by omega), Int.toNat_natCast, if_neg (by omega),
    length_tag_line]

theorem behindCount_item {r : α × Nat} (hstar : buf.head? = some star) (h : behindCount null body buf = .ok (some r)) :
    ∃ header rest, buf = star :: header ++ crlf ++ rest ∧ ((∃ v, parseInt header = some v ∧ v < 0) ∨
      ∃ count : Nat, parseInt header = some (count : Int) ∧ count ≤ maxMultibulkLen ∧
        body count (star :: header ++ crlf).length = .ok (some r)) := by
  obtain ⟨count, pos, hint, hrest⟩ := andNext_eq_some h
  obtain ⟨header, hline, hv⟩ := intLine_sound hint
  cases buf with
  | nil => cases hstar
  | cons b tail =>
  obtain rfl : b = star := some_inj.mp hstar
  refine ⟨header, _, congrArg (star :: ·) hline.cut, ?_⟩
  split_ifs at hrest with hneg hmax
  · exact .inl ⟨count, hv, hneg⟩
  · refine .inr ⟨count.toNat, ?_, by omega, ?_⟩
    · rw [hv, Int.toNat_of_nonneg (by omega)]
    · rwa [length_tag_line, ← hline.next_eq]

theorem behindCount_error (hbody : ∀ count pos, body count pos = .error e → body' count pos = .error e)
    (h : behindCount null body buf = .error e) (ext : Bytes) : behindCount null' body' (buf ++ ext) = .error e := by
  unfold behindCount
  rcases andNext_eq_error h with hfail | ⟨count, pos, hint, hrest⟩
  · rw [intLine_error hfail]
    rfl
  · rw [intLine_append hint, andNext_some]
    split_ifs at hrest ⊢
    · exact hrest
    · exact hbody _ _ hrest

end BehindCount

theorem parseMultibulkInto_eq (buf : Bytes) : parseMultibulkInto buf = behindCount {} (fun count pos =>
    andNext (bulkLoop ownedHeader (fun total r => total + (r.2 - r.1)) buf count pos 0) fun _ endPos =>
      .ok ((copyMultibulkArgs buf count pos {}).map fun dst => (dst, endPos))) buf := by
  rw [parseMultibulkInto, behindCount, intLine]
  rcases findCrlf buf 1 with _ | hdrEnd
  · rfl
  dsimp only
  rcases parseInt ((buf.drop 1).take (hdrEnd - 1)) with _ | count
  · rfl
  simp only [andNext, validateMultibulkFrame_eq]
  split_ifs
  · rfl
  · rfl
  · rcases bulkLoop ownedHeader _ buf count.toNat (hdrEnd + 2) 0 with e | _ | ⟨total, endPos⟩ <;> rfl

theorem parseMultibulkInto_multi {header : Bytes} {bs : List Bulk} (h : MultiOk header bs) (rest : Bytes) :
    parseMultibulkInto (multiFrame header bs ++ rest) =
      .ok (some (Argv.ofArgs (bs.map Bulk.data), (multiFrame header bs).length)) := by
  have hbuf : multiFrame header bs ++ rest = star :: header ++ crlf ++ (bulkFrames bs ++ rest) := by
    rw [multiFrame, append_assoc]
  have hloop := fun push => @bulkLoop_bulkFrames _ Nat _ _ push readsHeaders_ownedHeader _ _ _ 0 0 h.bulks
    (fun _ _ => trivial) hbuf
  have hcopy := copyMultibulkArgs_bulkFrames {} h.bulks hbuf
  rw [hbuf] at hloop hcopy ⊢
  rw [parseMultibulkInto_eq, behindCount_count h.count h.limit, ← Nat.add_zero bs.length, hloop, Nat.add_zero, hcopy]
  rfl

theorem parseInlineInto_line (h : NoCrlf line) (rest : Bytes) : parseInlineInto (line ++ crlf ++ rest) =
      .ok (some (Argv.ofArgs (inlineTokens line), (line ++ crlf).length)) := by
  obtain ⟨hf, hwin⟩ := @findCrlf_line (line ++ crlf ++ rest) 0 line rest rfl h
  rw [parseInlineInto, hf]
  simp only [drop_zero, Nat.sub_zero, Nat.zero_add] at hwin ⊢
  rw [hwin]
  simp [Argv.ofArgs, crlf]

theorem head?_line (rest : Bytes) : (line ++ crlf ++ rest).head? = some star ↔ line.head? = some star := by
  cases line with
  | nil => simp [crlf, cr, star]
  | cons b line => simp

theorem parseOneInto_frame {f : Bytes} (h : Frame f args) (rest : Bytes) :
    parseOneInto (f ++ rest) = .ok (some (Argv.ofArgs args, f.length)) := by
  cases h with
  | @inline line hno hstar =>
    rw [parseOneInto, if_neg (mt (head?_line rest).mp hstar), parseInlineInto_line hno]
  | @null header v hv hneg =>
    rw [parseOneInto, if_pos (by simp), parseMultibulkInto_eq, behindCount_null hv hneg]
    rfl
  | @multi header bs hok =>
    rw [parseOneInto, if_pos (by simp [multiFrame]), parseMultibulkInto_multi hok]

theorem exists_line {eol : Nat} (hstar : ¬ buf.head? = some star) (hc : findCrlf buf 0 = some eol) :
    ∃ line rest, buf = line ++ crlf ++ rest ∧ NoCrlf line ∧ line.head? ≠ some star := by
  obtain ⟨line, hline, hno⟩ := findCrlf_spec hc
  have hdrop := hline.cut
  rw [drop_zero] at hdrop
  rw [hdrop, head?_line] at hstar
  exact ⟨line, _, hdrop, hno, hstar⟩

theorem parseOneInto_sound {argv : Argv} {n : Nat} (h : parseOneInto buf = .ok (some (argv, n))) :
    ∃ f args rest, Frame f args ∧ buf = f ++ rest ∧ n = f.length ∧ argv = Argv.ofArgs args := by
  -- what is in front of the buffer is a frame, and a frame is read as itself
  suffices hfront : ∃ f args rest, Frame f args ∧ buf = f ++ rest by
    obtain ⟨f, args, rest, hf, rfl⟩ := hfront
    rw [parseOneInto_frame hf] at h
    cases h
    exact ⟨f, args, rest, hf, rfl, rfl, rfl⟩
  rw [parseOneInto] at h
  split_ifs at h with hstar
  · rw [parseMultibulkInto_eq] at h
    obtain ⟨header, rest, rfl, ⟨v, hv, hneg⟩ | ⟨count, hcount, hmax, hbody⟩⟩ := behindCount_item hstar h
    · exact ⟨_, [], rest, .null hv hneg, rfl⟩
    obtain ⟨total, endPos, hval, -⟩ := andNext_eq_some hbody
    obtain ⟨bs, hlen, hbs, -, hcut⟩ := bulkLoop_sound readsHeaders_ownedHeader hval
    rw [drop_left] at hcut
    have hok : MultiOk header bs := ⟨by rw [hcount, hlen], by omega, hbs⟩
    refine ⟨_, _, (star :: header ++ crlf ++ rest).drop endPos, .multi hok, ?_⟩
    conv_lhs => rw [hcut]
    simp [multiFrame]
  · cases hc : findCrlf buf 0 with
    | none => rw [parseInlineInto, hc] at h; cases h
    | some eol =>
    obtain ⟨line, rest, hbuf, hno, hhead⟩ := exists_line hstar hc
    exact ⟨_, _, _, .inline hno hhead, hbuf⟩

theorem head?_append_star (hstar : buf.head? = some star) (ext : Bytes) : (buf ++ ext).head? = some star := by
  cases buf with
  | nil => cases hstar
  | cons b tail => exact hstar

theorem parseOneInto_error (h : parseOneInto buf = .error e)
    (ext : Bytes) : parseOneInto (buf ++ ext) = .error e := by
  rw [parseOneInto] at h
  split_ifs at h with hstar
  · rw [parseMultibulkInto_eq] at h
    rw [parseOneInto, if_pos (head?_append_star hstar ext), parseMultibulkInto_eq]
    refine behindCount_error (fun count pos hbody => ?_) h ext
    rcases andNext_eq_error hbody with hfail | ⟨total, endPos, -, hcopy⟩
    · rw [bulkLoop_error readsHeaders_ownedHeader ext hfail]
      rfl
    · cases hcopy
  · rw [parseInlineInto] at h
    cases hc : findCrlf buf 0 <;> rw [hc] at h <;> cases h

theorem stable_parseOneInto : Stable parseOneInto where
  nil := rfl
  used := by
    intro buf argv n h
    obtain ⟨f, args, rest, hf, rfl, rfl, rfl⟩ := parseOneInto_sound h
    obtain ⟨body, rfl⟩ := hf.crlf_suffix
    simp
  item := by
    intro buf argv n h ext
    obtain ⟨f, args, rest, hf, rfl, rfl, rfl⟩ := parseOneInto_sound h
    rw [append_assoc, parseOneInto_frame hf]
  fail := fun h ext => parseOneInto_error h ext

theorem stable_parseCommandInto : Stable parseCommandInto := stable_parseOneInto.skip

/-! ## Streams -/

/-- **Request parsing does not depend on how the stream is cut.** Feeding the chunks one by one, with
the unconsumed bytes kept in front, gives the commands and the final outcome (the first error, or the
bytes still waiting) of the whole stream; and every command takes at least one byte. -/
theorem parseCommandInto_chunks (chunks : List Bytes) :
    feedAll parseCommandInto chunks = parseAll parseCommandInto chunks.flatten ∧
    ∀ buf argv n, parseCommandInto buf = .ok (some (argv, n)) → 0 < n ∧ n ≤ buf.length :=
  ⟨feedAll_eq stable_parseCommandInto chunks, fun _ _ _ h => stable_parseCommandInto.used h⟩

end Kevy.Resp
