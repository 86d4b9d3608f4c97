import Kevy.Lib.Incremental
import Kevy.Resp.Basic

/-!
# The two request parsers

`parse_command_into` reads a frame in two passes (check every bulk header, then copy the arguments);
`parse_command_borrowed` reads it in one pass, taking one- and two-digit headers by a short cut and
every other header through `parse_bulk_len`. Both sit in the same outer loop (`skipEmpty`), which
swallows frames without arguments (`*0`, `*-1`, blank lines) and goes on behind them.

A result is `ok none` for "need more bytes", `ok (some (argv, used))` for a command, and `error` for a
corrupt stream. Positions are absolute offsets into the buffer a function is given, as in the source.
-/

namespace Kevy.Resp

open Kevy.Lib

abbrev Parsed (α : Type) := Except ProtocolError (Option (α × Nat))

def maxMultibulkLen : Nat := 1024 * 1024
def maxBulkLen : Nat := 512 * 1024 * 1024

/-- `u8::is_ascii_whitespace`: space, `\t`, `\n`, form feed, `\r`. -/
def isAsciiWhitespace (b : UInt8) : Bool := b == 32 || b == 9 || b == 10 || b == 12 || b == 13

/-! ## The owned parser -/

def inlineTokens (line : Bytes) : List Bytes :=
  (line.splitOnP isAsciiWhitespace).filter (!·.isEmpty)

def parseInlineInto (buf : Bytes) : Parsed Argv :=
  match findCrlf buf 0 with
  | none => .ok none
  | some eol => .ok (some ((inlineTokens (buf.take eol)).foldl Argv.push {}, eol + 2))

def validateMultibulkFrame (buf : Bytes) :
    (count pos total : Nat) → Except ProtocolError (Option (Nat × Nat))
  | 0, pos, total => .ok (some (pos, total))
  | count + 1, pos, total =>
    match buf[pos]? with
    | none => .ok none
    | some b =>
      if b ≠ dollar then .error (.malformed "expected bulk string")
      else
        match findCrlf buf (pos + 1) with
        | none => .ok none
        | some lenEnd =>
          match parseInt ((buf.drop (pos + 1)).take (lenEnd - (pos + 1))) with
          | none => .error (.malformed "bad bulk length")
          | some len =>
            if len < 0 then .error (.malformed "negative bulk length in request")
            else if maxBulkLen < len.toNat then
              .error (.malformed "bulk length exceeds proto-max-bulk-len")
            else
              let dataEnd := lenEnd + 2 + len.toNat
              if buf.length < dataEnd + 2 then .ok none
              else if (buf.drop dataEnd).take 2 ≠ crlf then
                .error (.malformed "bulk string not CRLF-terminated")
              else validateMultibulkFrame buf count (dataEnd + 2) (total + len.toNat)

/-- The loop of `copy_multibulk_args`; `none` where one of its `expect`s or slices would panic. -/
def copyMultibulkArgs (buf : Bytes) : (count p : Nat) → Argv → Option Argv
  | 0, _, dst => some dst
  | count + 1, p, dst => do
    let lenEnd ← findCrlf buf (p + 1)
    let len ← parseInt ((buf.drop (p + 1)).take (lenEnd - (p + 1)))
    let dataStart := lenEnd + 2
    let arg ← slice buf dataStart (dataStart + len.toNat)
    copyMultibulkArgs buf count (dataStart + len.toNat + 2) (dst.push arg)

def parseMultibulkInto (buf : Bytes) : Parsed Argv :=
  match findCrlf buf 1 with
  | none => .ok none
  | some hdrEnd =>
    match parseInt ((buf.drop 1).take (hdrEnd - 1)) with
    | none => .error (.malformed "bad multibulk count")
    | some count =>
      if count < 0 then .ok (some ({}, hdrEnd + 2))
      else if maxMultibulkLen < count.toNat then
        .error (.malformed "multibulk count exceeds limit")
      else
        match validateMultibulkFrame buf count.toNat (hdrEnd + 2) 0 with
        | .error e => .error e
        | .ok none => .ok none
        | .ok (some (endPos, _)) =>
          -- the copy never panics on a validated frame (`copyMultibulkArgs_bulkFrames`)
          .ok ((copyMultibulkArgs buf count.toNat (hdrEnd + 2) {}).map fun dst => (dst, endPos))

/-- One round of `parse_command_into`: dispatch on the leading byte. -/
def parseOneInto (rest : Bytes) : Parsed Argv :=
  if rest.head? = some star then parseMultibulkInto rest else parseInlineInto rest

def parseCommandInto (buf : Bytes) : Parsed Argv :=
  skip parseOneInto Argv.isEmpty buf

/-! ## The borrowed parser -/

/-- The digit loop of `parse_bulk_len` from offset `q`: the number and the offset of its `\r`. -/
def bulkDigits : (rest : Bytes) → (q : Nat) → (acc : Int) → Except ProtocolError (Option (Int × Nat))
  | [], _, _ => .ok none
  | b :: rest, q, acc =>
    if isAsciiDigit b then
      match pushDigit acc b with
      | none => .error (.malformed "bad bulk length")
      | some acc => bulkDigits rest (q + 1) acc
    else if b = cr then .ok (some (acc, q))
    else .error (.malformed "bad bulk length")

/-- The end of `parse_bulk_len`, behind the digits: the CRLF, the sign and the limit. -/
def bulkLenEnd (buf : Bytes) (neg : Bool) (digitsStart : Nat) (acc : Int) (q : Nat) :
    Except ProtocolError (Option (Nat × Nat)) :=
  if q = digitsStart then .error (.malformed "bad bulk length")
  else
    match buf[q + 1]? with
    | none => .ok none
    | some c =>
      if c ≠ lf then .error (.malformed "bad bulk length")
      else if neg then .error (.malformed "negative bulk length in request")
      else if maxBulkLen < acc.toNat then
        .error (.malformed "bulk length exceeds proto-max-bulk-len")
      else .ok (some (acc.toNat, q + 2))

/-- `parse_bulk_len`: the `$<len>\r\n` whose `$` is at `pos`, as `(len, data_start)`. -/
def parseBulkLen (buf : Bytes) (pos : Nat) : Except ProtocolError (Option (Nat × Nat)) :=
  match buf[pos + 1]? with
  | none => .ok none
  | some b =>
    let digitsStart := if b = minus ∨ b = plus then pos + 2 else pos + 1
    match bulkDigits (buf.drop digitsStart) digitsStart 0 with
    | .error e => .error e
    | .ok none => .ok none
    | .ok (some (acc, q)) => bulkLenEnd buf (b == minus) digitsStart acc q

def smallHeader (buf : Bytes) (at_ : Nat) : Option (Nat × Nat) := do
  let d0 := (← buf[at_]?) - 48
  if 9 < d0 then none
  else
    let d1 ← buf[at_ + 1]?
    if d1 = cr ∧ buf[at_ + 2]? = some lf then some (d0.toNat, at_ + 3)
    else if isAsciiDigit d1 ∧ buf[at_ + 2]? = some cr ∧ buf[at_ + 3]? = some lf then
      some (d0.toNat * 10 + (d1 - 48).toNat, at_ + 4)
    else none

def bulkHeader (buf : Bytes) (p : Nat) : Except ProtocolError (Option (Nat × Nat)) :=
  match smallHeader buf (p + 1) with
  | some got => .ok (some got)
  | none => parseBulkLen buf p

/-- The scanning loops of `parse_inline_borrowed`: `tok` is where the current token started. -/
def scanInline : (line : Bytes) → (i : Nat) → (tok : Option Nat) → List (Nat × Nat)
  | [], i, some start => [(start, i)]
  | [], _, none => []
  | b :: line, i, tok =>
    if isAsciiWhitespace b then
      match tok with
      | some start => (start, i) :: scanInline line (i + 1) none
      | none => scanInline line (i + 1) none
    else scanInline line (i + 1) (some (tok.getD i))

def parseInlineBorrowed (buf : Bytes) : Parsed ArgvBorrowed :=
  match findCrlf buf 0 with
  | none => .ok none
  | some eol =>
    let argv := (scanInline (buf.take eol) 0 none).foldl (fun a r => a.pushRange r.1 r.2)
      { input := buf }
    .ok (some (argv, eol + 2))

/-- The bulk loop of `parse_multibulk_borrowed`, `count` bulks still to come. -/
def borrowBulks (buf : Bytes) : (count p : Nat) → ArgvBorrowed → Parsed ArgvBorrowed
  | 0, p, argv => .ok (some (argv, p))
  | count + 1, p, argv =>
    match buf[p]? with
    | none => .ok none
    | some b =>
      if b ≠ dollar then .error (.malformed "expected bulk string")
      else
        match bulkHeader buf p with
        | .error e => .error e
        | .ok none => .ok none
        | .ok (some (len, dataStart)) =>
          let dataEnd := dataStart + len
          if buf.length < dataEnd + 2 then .ok none
          else if (buf.drop dataEnd).take 2 ≠ crlf then
            .error (.malformed "bulk string not CRLF-terminated")
          else borrowBulks buf count (dataEnd + 2) (argv.pushRange dataStart dataEnd)

/-- The count header of `parse_multibulk_borrowed`: `none` for a null array, which ends the frame. -/
def borrowCount (buf : Bytes) : Except ProtocolError (Option (Option Nat × Nat)) :=
  match smallHeader buf 1 with
  | some (count, p) => .ok (some (some count, p))
  | none =>
    match findCrlf buf 1 with
    | none => .ok none
    | some hdrEnd =>
      match parseInt ((buf.drop 1).take (hdrEnd - 1)) with
      | none => .error (.malformed "bad multibulk count")
      | some count =>
        if count < 0 then .ok (some (none, hdrEnd + 2))
        else .ok (some (some count.toNat, hdrEnd + 2))

def parseMultibulkBorrowed (buf : Bytes) : Parsed ArgvBorrowed :=
  match borrowCount buf with
  | .error e => .error e
  | .ok none => .ok none
  | .ok (some (none, p)) => .ok (some ({ input := buf }, p))
  | .ok (some (some count, p)) =>
    if maxMultibulkLen < count then .error (.malformed "multibulk count exceeds limit")
    else borrowBulks buf count p { input := buf }

/-- One round of `parse_command_borrowed`: dispatch on the leading byte. -/
def parseOneBorrowed (rest : Bytes) : Parsed ArgvBorrowed :=
  if rest.head? = some star then parseMultibulkBorrowed rest else parseInlineBorrowed rest

def parseCommandBorrowed (buf : Bytes) : Parsed ArgvBorrowed :=
  skip parseOneBorrowed ArgvBorrowed.isEmpty buf

end Kevy.Resp
