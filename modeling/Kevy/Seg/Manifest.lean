import Kevy.Lib.Reader
import Kevy.Persist.Record
import Mathlib.Data.List.Sort

/-!
# The segment manifest

An append-only ledger of `[len][crc][op, payload]` records. Opening it replays the records to the live set. What does
not decode is the tail of a torn append, which is cut off, or damage, which is refused: a whole record that fails its
checksum, a length no writer produces, or anything further on that decodes.
-/

namespace Kevy.Seg

open Kevy.Lib Kevy.Persist Kevy.Resp

/-- A file name and its bytes: `as_bytes`, `from_utf8` and `from_utf8_lossy` of a `String`. -/
structure NameCodec (Name : Type) where
  bytes : Name → Bytes
  fromUtf8 : Bytes → Option Name
  fromUtf8Lossy : Bytes → Name
  fromUtf8_bytes : ∀ name, fromUtf8 (bytes name) = some name
  fromUtf8Lossy_bytes : ∀ name, fromUtf8Lossy (bytes name) = name

/-- `as_bytes`. -/
def utf8Bytes (name : String) : Bytes := name.toUTF8.data.toList

def fromUtf8 (bs : Bytes) : Option String := String.fromUTF8? ⟨bs.toArray⟩

theorem fromUtf8_utf8Bytes (name : String) : fromUtf8 (utf8Bytes name) = some name := by
  unfold fromUtf8 utf8Bytes
  simp only [String.fromUTF8?, Array.toArray_toList]
  exact dif_pos name.isValidUTF8

/-- The names of the ledger. Its records hold valid names, which the lossy reading leaves alone. -/
def stringNames : NameCodec String where
  bytes := utf8Bytes
  fromUtf8 := fromUtf8
  fromUtf8Lossy bs := (fromUtf8 bs).getD ""
  fromUtf8_bytes := fromUtf8_utf8Bytes
  fromUtf8Lossy_bytes name := by
    rw [fromUtf8_utf8Bytes]
    rfl

/-- `ManifestEntry`; `info` is its `meta`. -/
structure Entry (Name : Type) where
  file : Name
  info : Bytes
  minKey : Bytes
  maxKey : Bytes
  records : UInt64

structure Corrupt where
  what : String
  deriving DecidableEq, Repr

def maxRecordBytes : Nat := 64 * 1024

def opAdd : UInt8 := 1

def opDrop : UInt8 := 2

variable {Name : Type}

/-! ## Entries -/

def encodePart (part : Bytes) : Bytes := leBytes 4 part.length ++ part

def encodeEntry (names : NameCodec Name) (e : Entry Name) : Bytes :=
  encodePart (names.bytes e.file) ++ (encodePart e.info ++ (encodePart e.minKey ++ (encodePart e.maxKey ++
    leBytes 8 e.records.toNat)))

/-- `part`. -/
def readPart : Reader Unit Bytes := do
  let len ← readExact () 4
  readExact () (ofLe len)

/-- The fields of `decode_entry`, the name still bytes. -/
def readFields : Reader Unit (Bytes × Bytes × Bytes × Bytes × UInt64) := do
  let file ← readPart
  let info ← readPart
  let minKey ← readPart
  let maxKey ← readPart
  let records ← readExact () 8
  pure (file, info, minKey, maxKey, UInt64.ofNat (ofLe records))

def decodeEntry (names : NameCodec Name) (b : Bytes) : Option (Entry Name) :=
  match readFields b with
  | .ok ((file, info, minKey, maxKey, records), []) =>
    (names.fromUtf8 file).map fun file => ⟨file, info, minKey, maxKey, records⟩
  | _ => none

/-! ## Records -/

def envelope (body : Bytes) : Bytes := leBytes 4 body.length ++ (leBytes 4 (crc32c body).toNat ++ body)

/-- The bytes of `read_record`, before the checksum is compared. -/
def readFrame : Reader Unit (Nat × Bytes) := do
  let len ← readExact () 4
  let want ← readExact () 4
  let body ← readExact () (ofLe len)
  pure (ofLe want, body)

def readRecord (bs : Bytes) : Option (Bytes × Bytes) :=
  match readFrame bs with
  | .ok ((want, body), rest) => if (crc32c body).toNat = want then some (body, rest) else none
  | .error _ => none

def wholeRecordsEnd (bs : Bytes) : Bool := decide (4 ≤ bs.length) && decide (8 + ofLe (bs.take 4) ≤ bs.length)

def plausibleLen (bs : Bytes) : Bool := decide (bs.length < 4) || decide (ofLe (bs.take 4) ≤ maxRecordBytes)

def validRecordFollows (bs : Bytes) : Bool :=
  (List.range' 1 (bs.length - 8 - 1)).any fun p => (readRecord (bs.drop p)).isSome

/-! ## The live set -/

section Live

variable [LinearOrder Name]

/-- `BTreeMap::contains_key`. -/
def contains (live : List (Entry Name)) (file : Name) : Bool := live.any fun e => e.file = file

/-- `BTreeMap::remove`. -/
def without (live : List (Entry Name)) (file : Name) : List (Entry Name) := live.filter fun e => !decide (e.file = file)

/-- `BTreeMap::insert`: in name order. -/
def insertEntry (live : List (Entry Name)) (e : Entry Name) : List (Entry Name) :=
  (without live e.file).orderedInsert (fun a b => a.file ≤ b.file) e

def apply (names : NameCodec Name) (live : List (Entry Name)) (body : Bytes) : Except Corrupt (List (Entry Name)) :=
  match body with
  | [] => .error ⟨"unknown manifest op"⟩
  | op :: payload =>
    if op = opAdd then
      match decodeEntry names payload with
      | none => .error ⟨"manifest ADD shape"⟩
      | some e => if contains live e.file then .error ⟨"duplicate ADD in manifest"⟩ else .ok (insertEntry live e)
    else if op = opDrop then
      let name := names.fromUtf8Lossy payload
      if contains live name then .ok (without live name) else .error ⟨"DROP of an unknown segment"⟩
    else .error ⟨"unknown manifest op"⟩

/-- `replay`: the offset behind the last good record, and the live set. A record has at least eight bytes, so the
length of the file bounds the turns. -/
def replay (names : NameCodec Name) :
    (fuel : Nat) → (bs : Bytes) → (good : Nat) → List (Entry Name) → Except Corrupt (Nat × List (Entry Name))
  | 0, _, good, live => .ok (good, live)
  | fuel + 1, bs, good, live =>
    if bs = [] then .ok (good, live)
    else
      match readRecord bs with
      | some (body, rest) =>
        match apply names live body with
        | .error e => .error e
        | .ok live => replay names fuel rest (good + (8 + body.length)) live
      | none =>
        if wholeRecordsEnd bs then .error ⟨"manifest record crc"⟩
        else if !plausibleLen bs then .error ⟨"manifest length field"⟩
        else if validRecordFollows bs then .error ⟨"manifest length field"⟩
        else .ok (good, live)

/-! ## The ledger -/

/-- `Manifest`, with the bytes of its file. -/
structure Manifest (Name : Type) where
  file : Bytes
  live : List (Entry Name)

namespace Manifest

/-- `open`, on the bytes that are in the file. -/
def openFile (names : NameCodec Name) (bytes : Bytes) : Except Corrupt (Manifest Name) :=
  match replay names (bytes.length + 1) bytes 0 [] with
  | .error e => .error e
  | .ok (good, live) => .ok ⟨if bytes.length > good then bytes.take good else bytes, live⟩

def append (m : Manifest Name) (body : Bytes) : Except Corrupt Bytes :=
  if body.length > maxRecordBytes then .error ⟨"manifest record too large"⟩ else .ok (m.file ++ envelope body)

/-- The body of the record that `add` appends. -/
def addBody (names : NameCodec Name) (e : Entry Name) : Bytes := opAdd :: encodeEntry names e

/-- The body of the record that `drop_seg` appends. -/
def dropBody (names : NameCodec Name) (file : Name) : Bytes := opDrop :: names.bytes file

def add (names : NameCodec Name) (m : Manifest Name) (e : Entry Name) : Except Corrupt (Manifest Name) :=
  if contains m.live e.file then .error ⟨"segment name already live"⟩
  else
    match m.append (addBody names e) with
    | .error err => .error err
    | .ok file => .ok ⟨file, insertEntry m.live e⟩

def dropSeg (names : NameCodec Name) (m : Manifest Name) (file : Name) : Except Corrupt (Manifest Name) :=
  if !contains m.live file then .error ⟨"dropping a segment the ledger does not hold"⟩
  else
    match m.append (dropBody names file) with
    | .error err => .error err
    | .ok bytes => .ok ⟨bytes, without m.live file⟩

def compact (names : NameCodec Name) (m : Manifest Name) : Manifest Name :=
  ⟨m.live.flatMap fun e => envelope (addBody names e), m.live⟩

end Manifest

/-! ## Histories -/

/-- What happens to a ledger. A crash leaves the first `cut` bytes of the record the call was appending, and the
ledger is opened again. -/
inductive Step (Name : Type)
  | add (e : Entry Name)
  | dropSeg (file : Name)
  | compact
  | reopen
  | crashAdd (e : Entry Name) (cut : Nat)
  | crashDrop (file : Name) (cut : Nat)

namespace Manifest

def orSame (m : Manifest Name) : Except Corrupt (Manifest Name) → Manifest Name
  | .ok m' => m'
  | .error _ => m

/-- The file after a crash in a call that would have succeeded or been refused. -/
def torn (m : Manifest Name) (body : Bytes) (cut : Nat) : Except Corrupt (Manifest Name) → Bytes
  | .ok _ => m.file ++ (envelope body).take cut
  | .error _ => m.file

/-- One step; an error is an `open` that is refused. -/
def step (names : NameCodec Name) (m : Manifest Name) : Step Name → Except Corrupt (Manifest Name)
  | .add e => .ok (m.orSame (m.add names e))
  | .dropSeg file => .ok (m.orSame (m.dropSeg names file))
  | .compact => .ok (m.compact names)
  | .reopen => openFile names m.file
  | .crashAdd e cut => openFile names (m.torn (addBody names e) cut (m.add names e))
  | .crashDrop file cut => openFile names (m.torn (dropBody names file) cut (m.dropSeg names file))

def run (names : NameCodec Name) (m : Manifest Name) : List (Step Name) → Except Corrupt (Manifest Name)
  | [] => .ok m
  | s :: steps =>
    match m.step names s with
    | .error e => .error e
    | .ok m => m.run names steps

end Manifest

end Live

end Kevy.Seg
