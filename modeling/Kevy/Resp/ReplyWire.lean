import Kevy.Resp.ReplyFrames

/-!
# Complete replies

The replies of RESP3 as they are written, attributes and the spelling of numbers included. The parser reads
each of them as itself, with the texts of all doubles written (`Valid.delimits`).
-/

namespace Kevy.Resp

open Kevy.Lib List

/-! ## Replies on the wire -/

/-- A complete RESP3 reply as it is written, with the spelling of its numbers. -/
inductive Wire
  | simple (text : Bytes)
  | error (text : Bytes)
  | int (text : Bytes)
  | bulk (header data : Bytes)
  | nilBulk (header : Bytes)
  | nilArray (header : Bytes)
  | array (push : Bool) (header : Bytes) (items : List Wire)
  | map (header : Bytes) (pairs : List (Wire × Wire))
  | set (header : Bytes) (items : List Wire)
  | double (text : Bytes)
  | boolean (v : Bool)
  | verbatim (header fmt data : Bytes)
  | bigNumber (text : Bytes)
  | null
  | blobError (header data : Bytes)
  | attributed (header : Bytes) (attrs : List (Wire × Wire)) (body : Wire)

namespace Wire

mutual

def bytes : Wire → Bytes
  | simple text => 43 :: text ++ crlf
  | error text => 45 :: text ++ crlf
  | int text => 58 :: text ++ crlf
  | bulk header data => 36 :: header ++ crlf ++ (data ++ crlf)
  | nilBulk header => 36 :: header ++ crlf
  | nilArray header => 42 :: header ++ crlf
  | array push header items => arrayTag push :: header ++ crlf ++ bytesAll items
  | map header pairs => 37 :: header ++ crlf ++ bytesPairs pairs
  | set header items => 126 :: header ++ crlf ++ bytesAll items
  | double text => 44 :: text ++ crlf
  | boolean v => 35 :: (if v then 116 else 102) :: crlf
  | verbatim header fmt data => 61 :: header ++ crlf ++ (fmt ++ 58 :: data ++ crlf)
  | bigNumber text => 40 :: text ++ crlf
  | null => 95 :: crlf
  | blobError header data => 33 :: header ++ crlf ++ (data ++ crlf)
  | attributed header attrs body => 124 :: header ++ crlf ++ bytesPairs attrs ++ body.bytes

def bytesAll : List Wire → Bytes
  | [] => []
  | w :: ws => w.bytes ++ bytesAll ws

def bytesPairs : List (Wire × Wire) → Bytes
  | [] => []
  | (k, v) :: ws => (k.bytes ++ v.bytes) ++ bytesPairs ws

end

mutual

def reply (rd : ReadDouble) : Wire → Reply
  | simple text => .simple text
  | error text => .error text
  | int text => .int ((parseInt text).getD 0)
  | bulk _ data => .bulk data
  | nilBulk _ => .nil
  | nilArray _ => .nil
  | array push _ items => if push then .push (replyAll rd items) else .array (replyAll rd items)
  | map _ pairs => .map (replyPairs rd pairs)
  | set _ items => .set (replyAll rd items)
  | double text => .double ((rd.value text).getD 0)
  | boolean v => .boolean v
  | verbatim _ fmt data => .verbatim fmt data
  | bigNumber text => .bigNumber text
  | null => .null
  | blobError _ data => .blobError data
  | attributed _ _ body => body.reply rd

def replyAll (rd : ReadDouble) : List Wire → List Reply
  | [] => []
  | w :: ws => w.reply rd :: replyAll rd ws

def replyPairs (rd : ReadDouble) : List (Wire × Wire) → List (Reply × Reply)
  | [] => []
  | (k, v) :: ws => (k.reply rd, v.reply rd) :: replyPairs rd ws

end

mutual

def written : Wire → List Bytes
  | array _ _ items => writtenAll items
  | map _ pairs => writtenPairs pairs
  | set _ items => writtenAll items
  | double text => [text]
  | attributed _ attrs body => writtenPairs attrs ++ body.written
  | _ => []

def writtenAll : List Wire → List Bytes
  | [] => []
  | w :: ws => w.written ++ writtenAll ws

def writtenPairs : List (Wire × Wire) → List Bytes
  | [] => []
  | (k, v) :: ws => (k.written ++ v.written) ++ writtenPairs ws

end

/-- The lines, counts and lengths of a reply are what they have to be. -/
inductive Valid (rd : ReadDouble) : Wire → Prop
  | simple {text : Bytes} : NoCrlf text → Valid rd (simple text)
  | error {text : Bytes} : NoCrlf text → Valid rd (error text)
  | int {text : Bytes} {n : Int} : parseInt text = some n → Valid rd (int text)
  | bulk {header data : Bytes} : parseInt header = some (data.length : Int) → Valid rd (bulk header data)
  | nilBulk {header : Bytes} {n : Int} : parseInt header = some n → n < 0 → Valid rd (nilBulk header)
  | nilArray {header : Bytes} {n : Int} : parseInt header = some n → n < 0 → Valid rd (nilArray header)
  | array {push : Bool} {header : Bytes} {items : List Wire} :
      parseInt header = some (items.length : Int) → (∀ w ∈ items, Valid rd w) →
      Valid rd (array push header items)
  | map {header : Bytes} {pairs : List (Wire × Wire)} : parseInt header = some (pairs.length : Int) →
      (∀ x ∈ pairs, Valid rd x.1) → (∀ x ∈ pairs, Valid rd x.2) → Valid rd (map header pairs)
  | set {header : Bytes} {items : List Wire} : parseInt header = some (items.length : Int) →
      (∀ w ∈ items, Valid rd w) → Valid rd (set header items)
  | double {text : Bytes} {bits : UInt64} : NoCrlf text → rd.isUtf8 text = true →
      rd.value text = some bits → Valid rd (double text)
  | boolean {v : Bool} : Valid rd (boolean v)
  | verbatim {header fmt data : Bytes} : fmt.length = 3 →
      parseInt header = some ((fmt ++ 58 :: data).length : Int) → Valid rd (verbatim header fmt data)
  | bigNumber {text : Bytes} : NoCrlf text → Valid rd (bigNumber text)
  | null : Valid rd null
  | blobError {header data : Bytes} : parseInt header = some (data.length : Int) →
      Valid rd (blobError header data)
  | attributed {header : Bytes} {attrs : List (Wire × Wire)} {body : Wire} :
      parseInt header = some (attrs.length : Int) → (∀ x ∈ attrs, Valid rd x.1) →
      (∀ x ∈ attrs, Valid rd x.2) → Valid rd body → Valid rd (attributed header attrs body)

/-! ## What the parser keeps -/

section
variable {rd : ReadDouble}

def read (rd : ReadDouble) (w : Wire) : Texted := (w.reply rd, w.written)

theorem bytesAll_eq (ws : List Wire) : bytesAll ws = ws.flatMap bytes := by
  induction ws with
  | nil => rfl
  | cons w ws ih => rw [bytesAll, ih, flatMap_cons]

theorem bytesPairs_eq (ws : List (Wire × Wire)) : bytesPairs ws = ws.flatMap fun x => x.1.bytes ++ x.2.bytes := by
  induction ws with
  | nil => rfl
  | cons w ws ih => rw [bytesPairs, ih, flatMap_cons]

theorem gather_read (make : List Reply → Reply) (ws : List Wire) :
    gather make (ws.map (read rd)) = (make (replyAll rd ws), writtenAll ws) := by
  have hreply : ∀ ws : List Wire, (ws.map (read rd)).map Prod.fst = replyAll rd ws := by
    intro ws
    induction ws with
    | nil => rfl
    | cons w ws ih => rw [map_cons, map_cons, ih, replyAll]; rfl
  have hwritten : ∀ ws : List Wire, (ws.map (read rd)).flatMap Prod.snd = writtenAll ws := by
    intro ws
    induction ws with
    | nil => rfl
    | cons w ws ih => rw [map_cons, flatMap_cons, ih, writtenAll]; rfl
  rw [gather, hreply, hwritten]

theorem gatherPairs_read (ws : List (Wire × Wire)) : gatherPairs (ws.map fun x => (read rd x.1, read rd x.2)) =
      (.map (replyPairs rd ws), writtenPairs ws) := by
  have hreply : ∀ ws : List (Wire × Wire), (ws.map fun x => (read rd x.1, read rd x.2)).map
      (fun x => (x.1.1, x.2.1)) = replyPairs rd ws := by
    intro ws
    induction ws with
    | nil => rfl
    | cons w ws ih => rw [map_cons, map_cons, ih, replyPairs]; rfl
  have hwritten : ∀ ws : List (Wire × Wire), (ws.map fun x => (read rd x.1, read rd x.2)).flatMap
      (fun x => x.1.2 ++ x.2.2) = writtenPairs ws := by
    intro ws
    induction ws with
    | nil => rfl
    | cons w ws ih => rw [map_cons, flatMap_cons, ih, writtenPairs]; rfl
  rw [gatherPairs, hreply, hwritten]

theorem delimits_pairs {ws : List (Wire × Wire)} {header : Bytes}
    (hk : ∀ x ∈ ws, Delimits (parseTexted rd) x.1.bytes (read rd x.1))
    (hv : ∀ x ∈ ws, Delimits (parseTexted rd) x.2.bytes (read rd x.2)) (tag : UInt8)
    (hcount : parseInt header = some (ws.length : Int)) :
    Delimits (parseMapReply (parseTexted rd)) (tag :: header ++ crlf ++ bytesPairs ws)
      (.map (replyPairs rd ws), writtenPairs ws) := by
  have hread := (settles_pairs (fun x hx => (hk x hx).settles (e := .malformed "")) (fun x hx => (hv x hx).settles) tag
    hcount).delimits (by simp)
  rwa [gatherPairs_read, ← bytesPairs_eq] at hread

theorem Valid.delimits {w : Wire} (h : Valid rd w) : Delimits (parseTexted rd) w.bytes (read rd w) := by
  induction h with
  | simple hline => exact delimits_simple hline
  | error hline => exact delimits_error hline
  | int hn =>
    rw [read, reply, hn]
    exact delimits_int hn
  | bulk hlen => exact delimits_bulk hlen
  | nilBulk hn hneg => exact delimits_nilBulk hn hneg
  | nilArray hn hneg => exact delimits_nilArray hn hneg
  | @array push header items hcount _ ih =>
    have hread := (settles_array push hcount fun w hw => (ih w hw).settles (e := .malformed "")).delimits (by simp)
    rw [gather_read, ← bytesAll_eq] at hread
    rw [bytes, read, reply, written]
    cases push <;> exact hread
  | map hcount _ _ ihk ihv => exact delimits_branch (delimits_pairs ihk ihv 37 hcount) fun _ => rfl
  | @set header items hcount _ ih =>
    have hread := (settles_set hcount fun w hw => (ih w hw).settles (e := .malformed "")).delimits (by simp)
    rw [gather_read, ← bytesAll_eq] at hread
    exact hread
  | double hline hutf8 hvalue =>
    rw [read, reply, hvalue]
    exact delimits_double hline hutf8 hvalue
  | boolean => exact delimits_boolean _
  | verbatim hfmt hlen => exact delimits_verbatim hfmt hlen
  | bigNumber hline => exact delimits_bigNumber hline
  | null => exact delimits_null
  | blobError hlen => exact delimits_blobError hlen
  | attributed hcount _ _ _ ihk ihv ihbody =>
    exact delimits_branch (b := parseAttributedReply (parseTexted rd))
      ((delimits_pairs ihk ihv 124 hcount).andThen (ihbody.mapItem _)) fun _ => rfl

end

end Wire

end Kevy.Resp
