import Kevy.Resp.Basic

/-!
# Prepared dictionaries

`decode`, `encode` and `encode_high` parse the dictionary they are given, and build a decode table or a match table from
it. A `Dict` does this once. The parameters (`Coder`) are the loops that both run alike on the bytes of one value: over
the tokens, for the matches, and the two serializers.
-/

namespace Kevy.Compress

open Kevy.Resp List

/-- The loops over one value; a decode error is `none`. -/
structure Coder (Seqs : Type) where
  lz : (dict payload : Bytes) → (origLen : Nat) → Option Bytes
  /-- The loop of `lz_high`, over the literals and the sequence stream. -/
  interleave : (dict lits seqs : Bytes) → (origLen : Nat) → Option Bytes
  /-- The loop of `collect_with`, with whether a match reached into the dictionary. -/
  collectWith : (table : List Nat) → (dict input : Bytes) → Seqs × Bool
  serializeFast : (dict input : Bytes) → Seqs → (cap : Nat) → Option Bytes
  serializeHigh : (dict : Bytes) → (lens : Option Bytes) → (input : Bytes) → Seqs → (cap : Nat) → Option (Bytes × Bool)

/-! ## `huff.rs` -/

def maxLen : Nat := 12

def headerLen : Nat := 128

def unpack (hdr : Bytes) : Bytes := hdr.flatMap fun b => [b &&& 0x0f, b >>> 4]

def validateLens (lens : Bytes) (n : Nat) : Bool :=
  let kraft := ((lens.filter (0 < ·)).map fun l => 2 ^ (maxLen - l.toNat)).sum
  lens.all (·.toNat ≤ maxLen) && !(decide (kraft > 2 ^ maxLen) || (decide (n > 0) && kraft == 0))

/-- `canonical_codes`: the codes of one length, symbol by symbol, and the next code. -/
def codesOf (lens : Bytes) (bits : Nat) (codes : List Nat × Nat) : List Nat × Nat :=
  let (codes, next) := (range 256).foldl (fun (codes, next) s =>
    if (lens.getD s 0).toNat = bits then (codes.set s (next % 2 ^ 16), next + 1) else (codes, next)) codes
  (codes, next * 2)

def canonicalCodes (lens : Bytes) : List Nat :=
  ((range' 1 maxLen).foldl (fun codes bits => codesOf lens bits codes) (replicate 256 0, 0)).1

def reverse (code len : Nat) : Nat :=
  (range len).foldl (fun r i => r ||| ((code >>> i &&& 1) <<< (len - 1 - i))) 0

/-- `DecodeTable::new`. -/
def buildDecodeTable (lens : Bytes) : List (UInt8 × UInt8) :=
  (range 256).foldl (fun table s =>
    let l := (lens.getD s 0).toNat
    if l = 0 then table
    else
      let base := reverse ((canonicalCodes lens).getD s 0) l
      table.mapIdx fun ix e => if base ≤ ix ∧ (ix - base) % 2 ^ l = 0 then (UInt8.ofNat s, UInt8.ofNat l) else e)
    (replicate (2 ^ maxLen) (0, 0))

/-- The inner loop of `read_bits_with`: bytes are taken in while fewer than `maxLen` bits are there. -/
def refill (acc nbits : Nat) : Bytes → Nat × Nat × Bytes
  | [] => (acc, nbits, [])
  | b :: rest =>
    if nbits < maxLen then refill (acc ||| b.toNat <<< nbits) (nbits + 8) rest else (acc, nbits, b :: rest)

def readBitsLoop (table : List (UInt8 × UInt8)) : (n acc nbits used : Nat) → (stream out : Bytes) → Option (Bytes × Nat)
  | 0, _, _, used, _, out => some (out, used)
  | n + 1, acc, nbits, used, stream, out =>
    let (acc, nbits, stream) := refill acc nbits stream
    let (sym, l) := table.getD (acc % 2 ^ maxLen) (0, 0)
    if l = 0 ∨ l.toNat > nbits then none
    else readBitsLoop table n (acc >>> l.toNat) (nbits - l.toNat) (used + l.toNat) stream (out ++ [sym])

def readBitsWith (stream : Bytes) (table : List (UInt8 × UInt8)) (n : Nat) : Option (Bytes × Nat) :=
  readBitsLoop table n 0 0 0 stream []

def readBits (stream lens : Bytes) (n : Nat) : Option (Bytes × Nat) := readBitsWith stream (buildDecodeTable lens) n

/-- `huff::decode`. -/
def huffDecode (buf : Bytes) (n : Nat) : Option (Bytes × Nat) := do
  if buf.length < headerLen then none
  else
    let lens := unpack (buf.take headerLen)
    if validateLens lens n then do
      let (out, used) ← readBits (buf.drop headerLen) lens n
      some (out, headerLen + (used + 7) / 8)
    else none

/-! ## `lib.rs`, `decode.rs` and `encode.rs` -/

def tagRaw : UInt8 := 0

def tagLz : UInt8 := 1

def tagLzDict : UInt8 := 2

def tagLzh : UInt8 := 3

def tagLzhDict : UInt8 := 4

def maxOffset : Nat := 65535

def minInput : Nat := 8

def minMatch : Nat := 4

def htBits : Nat := 12

def dictMagic : Bytes := [75, 86, 67, 68, 49]

def parseDict (dict : Bytes) : Option Bytes × Bytes :=
  let rest := dict.drop dictMagic.length
  if ¬ dictMagic.isPrefixOf dict then (none, dict)
  else if rest.length < headerLen then (none, dict)
  else
    let lens := unpack (rest.take headerLen)
    if validateLens lens 1 then (some lens, rest.drop headerLen) else (none, dict)

def readVarintLoop : (shift v : Nat) → Bytes → Option (Nat × Bytes)
  | _, _, [] => none
  | shift, v, b :: rest =>
    if shift ≥ 35 then none
    else
      let v := v ||| (b &&& 0x7f).toNat <<< shift
      if b &&& 0x80 = 0 then some (v, rest) else readVarintLoop (shift + 7) v rest

def readVarint (buf : Bytes) : Option (Nat × Bytes) := readVarintLoop 0 0 buf

def pushVarint (v : Nat) : Bytes :=
  if v < 128 then [UInt8.ofNat v] else UInt8.ofNat (v % 128 + 128) :: pushVarint (v / 128)

def finishOrRaw (frame : Bytes) (tag : UInt8) (ok : Bool) (input : Bytes) : Bytes :=
  if ok then tag :: pushVarint input.length ++ frame else tagRaw :: pushVarint input.length ++ input

def readLiteralBlock (flag : UInt8) (rest : Bytes) (litTotal : Nat) (lens : Option Bytes)
    (table : Option (List (UInt8 × UInt8))) : Option (Bytes × Nat) :=
  if flag = 0 then if rest.length < litTotal then none else some (rest.take litTotal, litTotal)
  else if flag = 1 then huffDecode rest litTotal
  else if flag = 2 then do
    let (out, bits) ← match table with
      | some t => readBitsWith rest t litTotal
      | none => lens.bind fun lens => readBits rest lens litTotal
    some (out, (bits + 7) / 8)
  else none

def vbyte (dict : Bytes) (v : Nat) : UInt8 := dict.getD v 0

def hash4 (dict : Bytes) (v : Nat) : Nat :=
  let w := (vbyte dict v).toNat + 256 * (vbyte dict (v + 1)).toNat + 256 ^ 2 * (vbyte dict (v + 2)).toNat +
    256 ^ 3 * (vbyte dict (v + 3)).toNat
  w * 2654435761 % 2 ^ 32 / 2 ^ (32 - htBits)

def seed (dict : Bytes) (table : List Nat) : List Nat :=
  if dict.length < minMatch then table
  else (range (dict.length - minMatch + 1)).foldl (fun table v => table.set (hash4 dict v) v) table

def reachable (dict : Bytes) : Bytes := dict.drop (dict.length - min dict.length maxOffset)

def seededTable (dict : Bytes) : List Nat := seed (reachable dict) (replicate (2 ^ htBits) 0)

section Calls

variable {Seqs : Type} (coder : Coder Seqs)

def lzHigh (dict : Bytes) (lens : Option Bytes) (table : Option (List (UInt8 × UInt8))) (payload : Bytes)
    (origLen : Nat) : Option Bytes := do
  let (litTotal, rest) ← readVarint payload
  match rest with
  | [] => none
  | flag :: rest =>
    let (lits, seqStart) ← readLiteralBlock flag rest litTotal lens table
    if rest.length < seqStart then none else coder.interleave dict lits (rest.drop seqStart) origLen

def collect (dict input : Bytes) : Seqs × Bool := coder.collectWith (seed dict (replicate (2 ^ htBits) 0)) dict input

def collectVia (seeded : Option (List Nat)) (dict input : Bytes) : Seqs × Bool :=
  match seeded with
  | some t => coder.collectWith t dict input
  | none => collect coder dict input

def tryLz (dict : Bytes) (seeded : Option (List Nat)) (input : Bytes) : Bytes × UInt8 × Bool :=
  let dict := reachable dict
  let (seqs, usedDict) := collectVia coder seeded dict input
  match coder.serializeFast dict input seqs input.length with
  | some payload => (payload, if usedDict then tagLzDict else tagLz, true)
  | none => ([], tagLz, false)

def tryHigh (dict : Bytes) (lens : Option Bytes) (seeded : Option (List Nat)) (input : Bytes) : Bytes × UInt8 × Bool :=
  let dict := reachable dict
  let (seqs, usedDict) := collectVia coder seeded dict input
  let fast := coder.serializeFast dict input seqs input.length
  match coder.serializeHigh dict lens input seqs ((fast.map length).getD input.length) with
  | some (high, usedShared) => (high, if usedDict || usedShared then tagLzhDict else tagLzh, true)
  | none =>
    match fast with
    | some payload => (payload, if usedDict then tagLzDict else tagLz, true)
    | none => ([], tagLz, false)

def encode (dict input : Bytes) : Bytes :=
  let (_, content) := parseDict dict
  let (frame, tag, ok) := if input.length ≥ minInput then tryLz coder content none input else ([], tagRaw, false)
  finishOrRaw frame tag ok input

def encodeHigh (dict input : Bytes) : Bytes :=
  let (lens, content) := parseDict dict
  let (frame, tag, ok) := if input.length ≥ minInput then tryHigh coder content lens none input else ([], tagRaw, false)
  finishOrRaw frame tag ok input

def decode (dict frame : Bytes) : Option Bytes :=
  match frame with
  | [] => none
  | tag :: rest => do
    let (origLen, payload) ← readVarint rest
    if tag = tagRaw ∨ tag = tagLz then
      if tag = tagRaw then if payload.length = origLen then some payload else none
      else coder.lz [] payload origLen
    else
      let (lens, content) := parseDict dict
      if tag = tagLzDict then if content.isEmpty then none else coder.lz content payload origLen
      else if tag = tagLzh then
        match lzHigh coder [] none none payload origLen with
        | none => if lens.isSome then lzHigh coder [] lens none payload origLen else none
        | some out => some out
      else if tag = tagLzhDict then if content.isEmpty then none else lzHigh coder content lens none payload origLen
      else none

/-! ## `dict.rs` -/

structure Dict where
  lens : Option Bytes
  content : Bytes
  table : Option (List (UInt8 × UInt8))
  seeded : List Nat

def Dict.new (bytes : Bytes) : Dict :=
  let (lens, content) := parseDict bytes
  ⟨lens, content, lens.map buildDecodeTable, seededTable content⟩

def Dict.decode (d : Dict) (frame : Bytes) : Option Bytes :=
  match frame with
  | [] => none
  | tag :: rest => do
    let (origLen, payload) ← readVarint rest
    if tag = tagRaw then if payload.length = origLen then some payload else none
    else if tag = tagLz then coder.lz [] payload origLen
    else if tag = tagLzDict then if d.content.isEmpty then none else coder.lz d.content payload origLen
    else if tag = tagLzh then
      match lzHigh coder [] none none payload origLen with
      | none => if d.lens.isSome then lzHigh coder [] d.lens d.table payload origLen else none
      | some out => some out
    else if tag = tagLzhDict then
      if d.content.isEmpty then none else lzHigh coder d.content d.lens d.table payload origLen
    else none

def Dict.encode (d : Dict) (input : Bytes) : Bytes :=
  let (frame, tag, ok) := if input.length ≥ minInput then tryLz coder d.content (some d.seeded) input
    else ([], tagRaw, false)
  finishOrRaw frame tag ok input

def Dict.encodeHigh (d : Dict) (input : Bytes) : Bytes :=
  let (frame, tag, ok) := if input.length ≥ minInput then tryHigh coder d.content d.lens (some d.seeded) input
    else ([], tagRaw, false)
  finishOrRaw frame tag ok input

theorem readLiteralBlock_table (flag : UInt8) (rest : Bytes) (n : Nat) (lens : Option Bytes) :
    readLiteralBlock flag rest n lens (lens.map buildDecodeTable) = readLiteralBlock flag rest n lens none := by
  cases lens <;> rfl

theorem lzHigh_table (dict : Bytes) (lens : Option Bytes) (payload : Bytes) (origLen : Nat) :
    lzHigh coder dict lens (lens.map buildDecodeTable) payload origLen = lzHigh coder dict lens none payload origLen := by
  unfold lzHigh
  simp only [readLiteralBlock_table]

theorem tryLz_seeded (dict input : Bytes) :
    tryLz coder dict (some (seededTable dict)) input = tryLz coder dict none input := rfl

theorem tryHigh_seeded (dict : Bytes) (lens : Option Bytes) (input : Bytes) :
    tryHigh coder dict lens (some (seededTable dict)) input = tryHigh coder dict lens none input := rfl

theorem Dict.decode_new (bytes frame : Bytes) : (Dict.new bytes).decode coder frame = Compress.decode coder bytes frame := by
  cases frame with
  | nil => rfl
  | cons tag rest =>
    refine congrArg (Option.bind (readVarint rest)) (funext fun r => ?_)
    dsimp only [Dict.new]
    simp only [lzHigh_table]
    -- the tags that never read the dictionary come first on both sides
    by_cases hraw : tag = tagRaw
    · rw [if_pos hraw, if_pos (Or.inl hraw), if_pos hraw]
    · by_cases hlz : tag = tagLz
      · rw [if_neg hraw, if_pos hlz, if_pos (Or.inr hlz), if_neg hraw]
      · rw [if_neg hraw, if_neg hlz, if_neg (not_or.mpr ⟨hraw, hlz⟩)]
        rfl

/-- **A prepared dictionary changes nothing**: a `Dict` decodes every frame, rejects every frame and encodes every input
as the functions do that are given its bytes. -/
theorem prepared_dictionary_changes_nothing (bytes : Bytes) :
    (∀ frame, (Dict.new bytes).decode coder frame = decode coder bytes frame) ∧
      (∀ input, (Dict.new bytes).encode coder input = encode coder bytes input) ∧
      ∀ input, (Dict.new bytes).encodeHigh coder input = encodeHigh coder bytes input := by
  refine ⟨Dict.decode_new coder bytes, fun input => ?_, fun input => ?_⟩
  · unfold Dict.encode
    dsimp only [Dict.new]
    rw [tryLz_seeded]
    rfl
  · unfold Dict.encodeHigh
    dsimp only [Dict.new]
    rw [tryHigh_seeded]
    rfl

end Calls

end Kevy.Compress
