import Kevy.Lib.Delimited
import Kevy.Resp.Basic

/-!
# The reply parser

`parse_reply` reads one RESP2 or RESP3 reply from the front of a buffer. Aggregates read a count and then
that many replies, attributes are read and dropped, and every double also leaves its wire text behind for
callers that ask for it. The parser calls itself on what is left of the buffer behind a header;
`parseTexted_eq` is that recursion as an equation, with no bound on the depth.

How Rust reads a double from its text is not modelled: it is a parameter, `ReadDouble`.
-/

namespace Kevy.Resp

open Kevy.Lib

/-! ## Replies -/

/-- `Reply`; a double is the bits of its `f64`. -/
inductive Reply
  | simple (text : Bytes)
  | error (text : Bytes)
  | int (n : Int)
  | bulk (data : Bytes)
  | nil
  | array (items : List Reply)
  | map (pairs : List (Reply × Reply))
  | set (items : List Reply)
  | double (bits : UInt64)
  | boolean (v : Bool)
  | verbatim (fmt data : Bytes)
  | bigNumber (text : Bytes)
  | null
  | push (items : List Reply)
  | blobError (data : Bytes)

/-- `std::str::from_utf8` and `f64::from_str`. -/
structure ReadDouble where
  isUtf8 : Bytes → Bool
  value : Bytes → Option UInt64

/-- A reply and the wire texts of the doubles read on the way, in the order they were read. -/
abbrev Texted := Reply × List Bytes

abbrev ReplyParser (α : Type) := IncParser UInt8 ProtocolError α

/-! ## Lines and payloads -/

def replyLine {ε : Type} : IncParser UInt8 ε Bytes := fun buf =>
  .ok ((findCrlf buf 1).map fun eol => ((buf.drop 1).take (eol - 1), eol + 2))

def parseHeader (why : String) : ReplyParser Int := fun buf =>
  match findCrlf buf 1 with
  | none => .ok none
  | some eol =>
    match parseInt ((buf.drop 1).take (eol - 1)) with
    | none => .error (.malformed why)
    | some n => .ok (some (n, eol + 2))

/-- A payload of `len` bytes and its CRLF (`payload_end`). -/
def payload (len : Nat) (why : String) : ReplyParser Bytes := fun rest =>
  if rest.length < len + 2 then .ok none
  else if (rest.drop len).take 2 = crlf then .ok (some (rest.take len, len + 2))
  else .error (.malformed why)

/-! ## One reply -/

def plain (r : Reply) : Texted := (r, [])

def gather (make : List Reply → Reply) (items : List Texted) : Texted :=
  (make (items.map Prod.fst), items.flatMap Prod.snd)

def gatherPairs (pairs : List (Texted × Texted)) : Texted :=
  (.map (pairs.map fun x => (x.1.1, x.2.1)), pairs.flatMap fun x => x.1.2 ++ x.2.2)

def parseBulkReply : ReplyParser Texted :=
  andThen (parseHeader "bad bulk length") fun len =>
    if len < 0 then succeed (plain .nil)
    else mapItem (fun data => plain (.bulk data))
      (payload len.toNat "bulk payload not followed by CRLF")

section
variable (rd : ReadDouble) (p : ReplyParser Texted)

/-- `parse_array_reply`, with `parse_with` for the items. -/
def parseArrayReply (push : Bool) : ReplyParser Texted :=
  andThen (parseHeader "bad array length") fun count =>
    if count < 0 then
      if push then failWith (.malformed "push frame cannot be null") else succeed (plain .nil)
    else mapItem (gather (if push then .push else .array)) (many p count.toNat)

def parsePair : ReplyParser (Texted × Texted) := andThen p fun k => mapItem (k, ·) p

def parseMapReply : ReplyParser Texted :=
  andThen (parseHeader "bad map length") fun count =>
    if count < 0 then failWith (.malformed "map length cannot be negative")
    else mapItem gatherPairs (many (parsePair p) count.toNat)

def parseSetReply : ReplyParser Texted :=
  andThen (parseHeader "bad set length") fun count =>
    if count < 0 then failWith (.malformed "set length cannot be negative")
    else mapItem (gather .set) (many p count.toNat)

def parseDoubleReply : ReplyParser Texted :=
  andThen replyLine fun text =>
    if rd.isUtf8 text = false then failWith (.malformed "bad double utf8")
    else match rd.value text with
      | none => failWith (.malformed "bad double")
      | some bits => succeed (.double bits, [text])

def parseBooleanReply : ReplyParser Texted :=
  andThen replyLine fun text =>
    if text = [116] then succeed (plain (.boolean true))
    else if text = [102] then succeed (plain (.boolean false))
    else failWith (.malformed "bad boolean payload")

def parseVerbatimReply : ReplyParser Texted :=
  andThen (parseHeader "bad verbatim length") fun len =>
    if len < 4 then failWith (.malformed "verbatim length < 4 (fmt + ':')")
    else andThen (payload len.toNat "verbatim payload not followed by CRLF") fun body =>
      if body[3]? ≠ some 58 then failWith (.malformed "verbatim missing fmt:data separator")
      else succeed (plain (.verbatim (body.take 3) (body.drop 4)))

def parseNullReply : ReplyParser Texted := fun buf =>
  if buf.length < 3 then .ok none
  else if buf.take 3 ≠ 95 :: crlf then .error (.malformed "bad null payload")
  else .ok (some (plain .null, 3))

def parseBlobErrorReply : ReplyParser Texted :=
  andThen (parseHeader "bad blob error length") fun len =>
    if len < 0 then failWith (.malformed "blob error length cannot be negative")
    else mapItem (fun data => plain (.blobError data))
      (payload len.toNat "blob error payload not followed by CRLF")

def parseAttributedReply : ReplyParser Texted :=
  andThen (parseMapReply p) fun attrs => mapItem (fun r => (r.1, attrs.2 ++ r.2)) p

/-- The body of `parse_with`. -/
def parseStep : ReplyParser Texted := fun buf =>
  match buf with
  | [] => .ok none
  | tag :: _ =>
    if tag = 43 then mapItem (fun text => plain (.simple text)) replyLine buf
    else if tag = 45 then mapItem (fun text => plain (.error text)) replyLine buf
    else if tag = 58 then mapItem (fun n => plain (.int n)) (parseHeader "bad integer reply") buf
    else if tag = 36 then parseBulkReply buf
    else if tag = 42 then parseArrayReply p false buf
    else if tag = 37 then parseMapReply p buf
    else if tag = 126 then parseSetReply p buf
    else if tag = 44 then parseDoubleReply rd buf
    else if tag = 35 then parseBooleanReply buf
    else if tag = 61 then parseVerbatimReply buf
    else if tag = 40 then mapItem (fun text => plain (.bigNumber text)) replyLine buf
    else if tag = 95 then parseNullReply buf
    else if tag = 62 then parseArrayReply p true buf
    else if tag = 33 then parseBlobErrorReply buf
    else if tag = 124 then parseAttributedReply p buf
    else .error (.malformed "unknown reply type")

end

section
variable (rd : ReadDouble)

def parseWith : (fuel : Nat) → ReplyParser Texted
  | 0 => fun _ => .ok none
  | fuel + 1 => parseStep rd (parseWith fuel)

/-- `parse_with`. Each call works on a shorter buffer, so the buffer's length bounds the depth. -/
def parseTexted : ReplyParser Texted := fun buf => parseWith rd (buf.length + 1) buf

def parseReply : ReplyParser Reply := mapItem Prod.fst (parseTexted rd)

def parseReplyKeepingDoubleText (buf : Bytes) : Except ProtocolError (Option (Reply × Nat × List Bytes)) :=
  (parseTexted rd buf).map (Option.map fun x => (x.1.1, x.2, x.1.2))

end

/-! ## The recursion -/

theorem parseHeader_used {why : String} {buf : Bytes} {n : Int} {k : Nat}
    (h : parseHeader why buf = .ok (some (n, k))) : 0 < k ∧ k ≤ buf.length := by
  rw [parseHeader] at h
  cases hf : findCrlf buf 1 with
  | none => rw [hf] at h; cases h
  | some eol =>
    obtain ⟨_, hline, -⟩ := findCrlf_spec hf
    rw [hf] at h
    cases hn : parseInt ((buf.drop 1).take (eol - 1)) with
    | none => simp only [hn] at h; cases h
    | some n' =>
      simp only [hn] at h
      cases h
      exact ⟨by omega, hline.le⟩

theorem length_drop_lt {buf : Bytes} {k : Nat} (h : 0 < k ∧ k ≤ buf.length) {b : Bytes}
    (hb : b.length ≤ (buf.drop k).length) : b.length < buf.length := by
  rw [List.length_drop] at hb
  omega

section
variable {rd : ReadDouble} {p p' : ReplyParser Texted} {buf : Bytes}

theorem counted_congr {α : Type} {item item' : ReplyParser α} (why : String) (neg : ReplyParser Texted)
    (make : List α → Texted) (h : ∀ b, b.length < buf.length → item b = item' b) :
    andThen (parseHeader why) (fun count => if count < 0 then neg else mapItem make (many item count.toNat)) buf =
      andThen (parseHeader why) (fun count => if count < 0 then neg else mapItem make (many item' count.toNat)) buf := by
  refine andThen_congr rfl fun count k hk => ?_
  have hmany := many_congr count.toNat fun b hb => h b (length_drop_lt (parseHeader_used hk) hb)
  split_ifs
  · rfl
  · exact mapItem_congr hmany

theorem parsePair_congr (h : ∀ b, b.length ≤ buf.length → p b = p' b) : parsePair p buf = parsePair p' buf := by
  refine andThen_congr (h buf le_rfl) fun k n _ => mapItem_congr (h _ ?_)
  rw [List.length_drop]
  omega

section Congr

variable (h : ∀ b, b.length < buf.length → p b = p' b)
include h

theorem parseArrayReply_congr (push : Bool) : parseArrayReply p push buf = parseArrayReply p' push buf :=
  counted_congr _ _ _ h

theorem parseMapReply_congr : parseMapReply p buf = parseMapReply p' buf :=
  counted_congr _ _ _ fun _ hb => parsePair_congr fun c hc => h c (Nat.lt_of_le_of_lt hc hb)

theorem parseSetReply_congr : parseSetReply p buf = parseSetReply p' buf := counted_congr _ _ _ h

theorem parseAttributedReply_congr : parseAttributedReply p buf = parseAttributedReply p' buf := by
  refine andThen_congr (parseMapReply_congr h) fun attrs k hk => mapItem_congr (h _ ?_)
  obtain ⟨count, j, m, hj, _, rfl⟩ := andThen_eq_item hk
  have := parseHeader_used hj
  rw [List.length_drop]
  omega

theorem parseStep_congr : parseStep rd p buf = parseStep rd p' buf := by
  cases buf with
  | nil => rfl
  | cons tag rest =>
    simp only [parseStep]
    rw [parseArrayReply_congr h, parseArrayReply_congr h, parseMapReply_congr h,
      parseSetReply_congr h, parseAttributedReply_congr h]

end Congr

theorem parseWith_fuel {f g : Nat} {buf : Bytes} (hf : buf.length < f) (hg : buf.length < g) :
    parseWith rd f buf = parseWith rd g buf := by
  induction f generalizing g buf with
  | zero => exact absurd hf (Nat.not_lt_zero _)
  | succ f ih =>
    obtain ⟨g, rfl⟩ : ∃ g', g = g' + 1 := ⟨g - 1, by omega⟩
    exact parseStep_congr fun b hb => ih (by omega) (by omega)

theorem parseTexted_eq (rd : ReadDouble) (buf : Bytes) : parseTexted rd buf = parseStep rd (parseTexted rd) buf := by
  rw [parseTexted, parseWith]
  exact parseStep_congr fun b hb => parseWith_fuel hb (Nat.lt_succ_self _)

end

end Kevy.Resp
