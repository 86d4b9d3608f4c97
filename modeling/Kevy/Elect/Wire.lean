import Kevy.Elect.Elector
import Kevy.Persist.Record
import Kevy.Resp.Agree

/-!
# Election messages on the wire

A message travels as one multibulk frame: the verb, then the fields, numbers in decimal. `decode` reads a
frame with the borrowed request parser and takes the fields by their position. A frame is read back as the
message it was written from, whatever follows it, and no cut of it is taken for anything but a cut.
-/

namespace Kevy.Elect

open Lib Resp Persist List

inductive DecodeError
  | truncated
  | bad
  | wrongShape
  | badNumeric
  | badRole
  deriving DecidableEq

/-! ## Encoding -/

def Role.asStr : Role → Bytes
  | .primary => [112, 114, 105, 109, 97, 114, 121]
  | .replica => [114, 101, 112, 108, 105, 99, 97]
  | .candidate => [99, 97, 110, 100, 105, 100, 97, 116, 101]

def hbVerb : Bytes := [72, 66]

def offerVerb : Bytes := [79, 70, 70, 69, 82]

def acceptVerb : Bytes := [65, 67, 67, 69, 80, 84]

def announceVerb : Bytes := [65, 78, 78, 79, 85, 78, 67, 69]

def pushBulkArray (n : Nat) : Bytes := star :: decimal n ++ crlf

def pushBulk (data : Bytes) : Bytes := dollar :: decimal data.length ++ crlf ++ data ++ crlf

def Message.encode : Message → Bytes
  | .hb epoch nodeId role replOffset => pushBulkArray 5 ++ pushBulk hbVerb ++ pushBulk (decimal epoch) ++
      pushBulk nodeId ++ pushBulk role.asStr ++ pushBulk (decimal replOffset)
  | .offer newEpoch candidateId replOffset => pushBulkArray 4 ++ pushBulk offerVerb ++
      pushBulk (decimal newEpoch) ++ pushBulk candidateId ++ pushBulk (decimal replOffset)
  | .accept epoch accepterId => pushBulkArray 3 ++ pushBulk acceptVerb ++ pushBulk (decimal epoch) ++
      pushBulk accepterId
  | .announce epoch newPrimaryId newPrimaryAddr => pushBulkArray 4 ++ pushBulk announceVerb ++
      pushBulk (decimal epoch) ++ pushBulk newPrimaryId ++ pushBulk newPrimaryAddr

/-! ## Decoding -/

def asciiLower (b : UInt8) : UInt8 := if 65 ≤ b ∧ b ≤ 90 then b + 32 else b

def eqIgnoreAsciiCase (a b : Bytes) : Bool := a.map asciiLower == b.map asciiLower

def Role.parse (s : Bytes) : Option Role :=
  if eqIgnoreAsciiCase s Role.primary.asStr then some .primary
  else if eqIgnoreAsciiCase s Role.replica.asStr then some .replica
  else if eqIgnoreAsciiCase s Role.candidate.asStr then some .candidate
  else none

/-- `str::parse::<u64>`: a plus sign is allowed. -/
def parseU64 (b : Bytes) : Option Nat := parseDecimal (if b.head? = some 43 then b.tail else b)

/-- What `decode` gives: a value, an error, or a panic. -/
abbrev Decoded (α : Type) := Except (Option DecodeError) α

section
variable (lossy : Bytes → Bytes) (argv : ArgvBorrowed)

/-- `argv[i]`, which panics where there is no argument. -/
def argAt (i : Nat) : Decoded Bytes :=
  match argv.get i with
  | some b => .ok b
  | none => .error none

def orElse {α : Type} (e : DecodeError) : Option α → Decoded α
  | some a => .ok a
  | none => .error (some e)

def parseArgvForVerb (verb : Bytes) : Decoded Message :=
  if eqIgnoreAsciiCase verb hbVerb then
    if argv.len ≠ 5 then .error (some .wrongShape) else do
      let epoch ← argAt argv 1 >>= fun b => orElse .badNumeric (parseU64 b)
      let nodeId ← argAt argv 2
      let role ← argAt argv 3 >>= fun b => orElse .badRole (Role.parse b)
      let replOffset ← argAt argv 4 >>= fun b => orElse .badNumeric (parseU64 b)
      .ok (.hb epoch (lossy nodeId) role replOffset)
  else if eqIgnoreAsciiCase verb offerVerb then
    if argv.len ≠ 4 then .error (some .wrongShape) else do
      let newEpoch ← argAt argv 1 >>= fun b => orElse .badNumeric (parseU64 b)
      let candidateId ← argAt argv 2
      let replOffset ← argAt argv 3 >>= fun b => orElse .badNumeric (parseU64 b)
      .ok (.offer newEpoch (lossy candidateId) replOffset)
  else if eqIgnoreAsciiCase verb acceptVerb then
    if argv.len ≠ 3 then .error (some .wrongShape) else do
      let epoch ← argAt argv 1 >>= fun b => orElse .badNumeric (parseU64 b)
      let accepterId ← argAt argv 2
      .ok (.accept epoch (lossy accepterId))
  else if eqIgnoreAsciiCase verb announceVerb then
    if argv.len ≠ 4 then .error (some .wrongShape) else do
      let epoch ← argAt argv 1 >>= fun b => orElse .badNumeric (parseU64 b)
      let newPrimaryId ← argAt argv 2
      let newPrimaryAddr ← argAt argv 3
      .ok (.announce epoch (lossy newPrimaryId) (lossy newPrimaryAddr))
  else .error (some .wrongShape)

end

def Message.decode (lossy : Bytes → Bytes) (buf : Bytes) : Decoded (Message × Nat) :=
  match parseCommandBorrowed buf with
  | .error _ => .error (some .bad)
  | .ok none => .error (some .truncated)
  | .ok (some (argv, used)) => do
    let verb ← orElse .wrongShape (argv.get 0)
    let msg ← parseArgvForVerb lossy argv verb
    .ok (msg, used)

/-! ## The frame of a message -/

def Message.args : Message → List Bytes
  | .hb epoch nodeId role replOffset => [hbVerb, decimal epoch, nodeId, role.asStr, decimal replOffset]
  | .offer newEpoch candidateId replOffset => [offerVerb, decimal newEpoch, candidateId, decimal replOffset]
  | .accept epoch accepterId => [acceptVerb, decimal epoch, accepterId]
  | .announce epoch newPrimaryId newPrimaryAddr =>
    [announceVerb, decimal epoch, newPrimaryId, newPrimaryAddr]

def Message.numbers : Message → List Nat
  | .hb epoch _ _ replOffset => [epoch, replOffset]
  | .offer newEpoch _ replOffset => [newEpoch, replOffset]
  | .accept epoch _ => [epoch]
  | .announce epoch _ _ => [epoch]

def Message.texts : Message → List Bytes
  | .hb _ nodeId _ _ => [nodeId]
  | .offer _ candidateId _ => [candidateId]
  | .accept _ accepterId => [accepterId]
  | .announce _ newPrimaryId newPrimaryAddr => [newPrimaryId, newPrimaryAddr]

theorem Message.encode_eq (m : Message) : m.encode = writeMultibulk m.args := by
  cases m <;> simp [encode, args, writeMultibulk, pushBulkArray, pushBulk]

/-! ## Frames and the borrowed parser -/

variable {args : List Bytes}

theorem plainFrame_writeMultibulk (h : Parseable args) : PlainFrame (writeMultibulk args) args := by
  have hunsigned : ∀ b ∈ args.map (fun a => (⟨decimal a.length, a⟩ : Bulk)), b.Unsigned := by
    intro b hb hminus
    obtain ⟨a, -, rfl⟩ := List.mem_map.mp hb
    have := isAsciiDigit_decimal a.length minus (mem_of_mem_head? hminus)
    revert this
    decide
  have := PlainFrame.multi (multiOk_writeMultibulk h) hunsigned
  rw [← writeMultibulk_eq, List.map_map] at this
  simpa [Function.comp_def] using this

theorem parseCommandBorrowed_written (h : Parseable args)
    (hshort : (writeMultibulk args).length < 2 ^ 32) (rest : Bytes) :
    ∃ argv : ArgvBorrowed, parseCommandBorrowed (writeMultibulk args ++ rest) =
      .ok (some (argv, (writeMultibulk args).length)) ∧ argv.len = args.length ∧ ∀ i, argv.get i = args[i]? := by
  obtain ⟨ranges, hreads, hone⟩ := parseOneBorrowed_plain (plainFrame_writeMultibulk h) rest
  have hlen : ranges.length = args.length := hreads.length_eq
  have hne : (ArgvBorrowed.ofRanges (writeMultibulk args ++ rest) ranges).isEmpty = false := by
    have := length_pos_iff.mpr h.nonempty
    rw [ArgvBorrowed.isEmpty, ArgvBorrowed.ofRanges, isEmpty_eq_false_iff, ← length_pos_iff, length_map]
    omega
  refine ⟨_, skip_item consumes_parseOneBorrowed hone hne, ?_, ArgvBorrowed.get_ofRanges hreads (by omega)⟩
  rw [ArgvBorrowed.len, ArgvBorrowed.ofRanges, length_map, hlen]

theorem parseCommandBorrowed_writtenCut (h : Parseable args) {cut rest : Bytes}
    (hcut : cut ++ rest = writeMultibulk args) (hrest : rest ≠ []) : parseCommandBorrowed cut = .ok none := by
  obtain ⟨ranges, -, hwhole⟩ := parseOneBorrowed_plain (plainFrame_writeMultibulk h) []
  rw [append_nil, ← hcut] at hwhole
  apply skip_none
  rcases hp : parseOneBorrowed cut with e | _ | ⟨argv, n⟩
  · rw [parseOneBorrowed_error hp rest] at hwhole
    cases hwhole
  · rfl
  · -- a frame read off the cut would end the whole one
    obtain ⟨f, args', back, hf, rfl⟩ := parseOneBorrowed_sound hp
    obtain ⟨ranges', -, hshort⟩ := parseOneBorrowed_plain hf (back ++ rest)
    rw [append_assoc, hshort] at hwhole
    have hlen : f.length = (f ++ (back ++ rest)).length :=
      (Prod.mk.inj (Option.some.inj (Except.ok.inj hwhole))).2
    have hpos := length_pos_iff.mpr hrest
    simp only [length_append] at hlen
    omega

/-! ## Reading the fields -/

theorem length_flatMap_le {f : Bytes → Bytes} {c : Nat}
    (h : ∀ a ∈ args, (f a).length ≤ c) : (args.flatMap f).length ≤ args.length * c := by
  induction args with
  | nil => simp
  | cons a args ih =>
    have ha := h a mem_cons_self
    have hrest := ih (forall_mem_cons.mp h).2
    rw [flatMap_cons, length_append, length_cons, Nat.add_mul]
    omega

theorem length_writeMultibulk_lt (hcount : args.length ≤ 5)
    (hlen : ∀ a ∈ args, a.length ≤ maxBulkLen) : (writeMultibulk args).length < 2 ^ 32 := by
  have hbulk : ∀ a ∈ args, (dollar :: decimal a.length ++ crlf ++ a ++ crlf).length ≤ maxBulkLen + 25 := by
    intro a ha
    have ha' := hlen a ha
    have hdec : (decimal a.length).length ≤ 20 :=
      length_decimal_le (Nat.lt_of_le_of_lt ha' (by decide))
    simp only [length_append, length_cons, crlf, length_nil]
    omega
  have hsum := length_flatMap_le hbulk
  have hhead : (decimal args.length).length ≤ 20 := length_decimal_le (by omega)
  have hmul : args.length * (maxBulkLen + 25) ≤ 5 * (maxBulkLen + 25) := Nat.mul_le_mul_right _ hcount
  have hmax : 5 * (maxBulkLen + 25) + 30 < 2 ^ 32 := by decide
  rw [writeMultibulk, length_append]
  simp only [length_append, length_cons, crlf, length_nil] at hsum ⊢
  omega

theorem parseU64_decimal {n : Nat} (h : n < 2 ^ 64) : parseU64 (decimal n) = some n := by
  have hplus : (decimal n).head? ≠ some 43 := by
    intro hhead
    have := isAsciiDigit_decimal n 43 (mem_of_mem_head? hhead)
    revert this
    decide
  rw [parseU64, if_neg hplus, parseDecimal_decimal h]

theorem Role.parse_asStr (r : Role) : Role.parse r.asStr = some r := by
  cases r <;> decide

def utf8 (s : String) : Bytes := s.toUTF8.data.toList

def KeepsUtf8 (lossy : Bytes → Bytes) : Prop := ∀ s, lossy (utf8 s) = utf8 s

/-- The numbers of a message are `u64`s and its strings valid UTF-8. -/
structure Message.Typed (m : Message) : Prop where
  numbers : ∀ n ∈ m.numbers, n < 2 ^ 64
  texts : ∀ b ∈ m.texts, ∃ s, b = utf8 s

theorem Message.length_args_le (m : Message) : m.args.length ≤ 5 := by
  cases m <;> simp [args]

theorem Message.mem_args {m : Message} {a : Bytes} (h : a ∈ m.args) :
    a.length ≤ 9 ∨ (∃ n ∈ m.numbers, a = decimal n) ∨ a ∈ m.texts := by
  have hrole : ∀ r : Role, r.asStr.length ≤ 9 := by
    intro r
    cases r <;> decide
  cases m with
  | hb epoch nodeId role replOffset =>
    simp only [args, mem_cons, not_mem_nil, or_false] at h
    rcases h with rfl | rfl | rfl | rfl | rfl <;> simp [numbers, texts, hbVerb, hrole]
  | offer newEpoch candidateId replOffset =>
    simp only [args, mem_cons, not_mem_nil, or_false] at h
    rcases h with rfl | rfl | rfl | rfl <;> simp [numbers, texts, offerVerb]
  | accept epoch accepterId =>
    simp only [args, mem_cons, not_mem_nil, or_false] at h
    rcases h with rfl | rfl | rfl <;> simp [numbers, texts, acceptVerb]
  | announce epoch newPrimaryId newPrimaryAddr =>
    simp only [args, mem_cons, not_mem_nil, or_false] at h
    rcases h with rfl | rfl | rfl | rfl <;> simp [numbers, texts, announceVerb]

theorem Message.parseable {m : Message} (hm : m.Typed) (hlen : ∀ b ∈ m.texts, b.length ≤ maxBulkLen) :
    Parseable m.args := by
  refine ⟨by cases m <;> exact cons_ne_nil _ _, Nat.le_trans m.length_args_le (by decide), ?_⟩
  intro a ha
  rcases Message.mem_args ha with hword | ⟨n, hn, rfl⟩ | htext
  · exact Nat.le_trans hword (by decide)
  · exact Nat.le_trans (length_decimal_le (hm.numbers n hn)) (by decide)
  · exact hlen a htext

theorem Message.parseArgvForVerb_args {lossy : Bytes → Bytes} (hlossy : KeepsUtf8 lossy) {m : Message}
    (hm : m.Typed) {argv : ArgvBorrowed} (hlen : argv.len = m.args.length) (hget : ∀ i, argv.get i = m.args[i]?) :
    ∃ verb, argv.get 0 = some verb ∧ parseArgvForVerb lossy argv verb = .ok m := by
  have hnum : ∀ n ∈ m.numbers, parseU64 (decimal n) = some n := fun n hn =>
    parseU64_decimal (hm.numbers n hn)
  have htext : ∀ b ∈ m.texts, lossy b = b := by
    intro b hb
    obtain ⟨s, rfl⟩ := hm.texts b hb
    exact hlossy s
  cases m with
  | hb epoch nodeId role replOffset =>
    simp only [texts, numbers, mem_cons, not_mem_nil, or_false, forall_eq_or_imp, forall_eq] at htext hnum
    refine ⟨hbVerb, hget 0, ?_⟩
    rw [parseArgvForVerb, if_pos (by decide), if_neg (show ¬ argv.len ≠ 5 from not_not.mpr hlen)]
    simp only [argAt, hget, args, getElem?_cons_succ, getElem?_cons_zero, orElse, hnum.1, hnum.2,
      Role.parse_asStr, htext, bind, Except.bind]
  | offer newEpoch candidateId replOffset =>
    simp only [texts, numbers, mem_cons, not_mem_nil, or_false, forall_eq_or_imp, forall_eq] at htext hnum
    refine ⟨offerVerb, hget 0, ?_⟩
    rw [parseArgvForVerb, if_neg (by decide), if_pos (by decide), if_neg (show ¬ argv.len ≠ 4 from not_not.mpr hlen)]
    simp only [argAt, hget, args, getElem?_cons_succ, getElem?_cons_zero, orElse, hnum.1, hnum.2,
      htext, bind, Except.bind]
  | accept epoch accepterId =>
    simp only [texts, numbers, mem_cons, not_mem_nil, or_false, forall_eq] at htext hnum
    refine ⟨acceptVerb, hget 0, ?_⟩
    rw [parseArgvForVerb, if_neg (by decide), if_neg (by decide), if_pos (by decide),
      if_neg (show ¬ argv.len ≠ 3 from not_not.mpr hlen)]
    simp only [argAt, hget, args, getElem?_cons_succ, getElem?_cons_zero, orElse, hnum, htext, bind, Except.bind]
  | announce epoch newPrimaryId newPrimaryAddr =>
    simp only [texts, numbers, mem_cons, not_mem_nil, or_false, forall_eq_or_imp, forall_eq] at htext hnum
    refine ⟨announceVerb, hget 0, ?_⟩
    rw [parseArgvForVerb, if_neg (by decide), if_neg (by decide), if_neg (by decide), if_pos (by decide),
      if_neg (show ¬ argv.len ≠ 4 from not_not.mpr hlen)]
    simp only [argAt, hget, args, getElem?_cons_succ, getElem?_cons_zero, orElse, hnum, htext.1,
      htext.2, bind, Except.bind]

/-- **Election messages round-trip and delimit themselves**, as long as no string is longer than a bulk
may be. -/
theorem messages_round_trip (lossy : Bytes → Bytes) (hlossy : KeepsUtf8 lossy) (m : Message)
    (hm : m.Typed) (hlen : ∀ b ∈ m.texts, b.length ≤ maxBulkLen) :
    (∀ rest, Message.decode lossy (m.encode ++ rest) = .ok (m, m.encode.length)) ∧
      ∀ cut rest, cut ++ rest = m.encode → rest ≠ [] → Message.decode lossy cut = .error (some .truncated) := by
  have hparse := Message.parseable hm hlen
  rw [m.encode_eq]
  constructor
  · intro rest
    obtain ⟨argv, hread, hargs, hget⟩ :=
      parseCommandBorrowed_written hparse (length_writeMultibulk_lt m.length_args_le hparse.bulk) rest
    obtain ⟨verb, hverb, hmsg⟩ := Message.parseArgvForVerb_args hlossy hm hargs hget
    rw [Message.decode, hread]
    simp only [hverb, orElse, hmsg, bind, Except.bind]
  · intro cut rest hcut hrest
    rw [Message.decode, parseCommandBorrowed_writtenCut hparse hcut hrest]

theorem messages_round_trip_accept : Message.decode id ((Message.accept 7 [110, 50]).encode ++ [42]) =
      .ok (.accept 7 [110, 50], (Message.accept 7 [110, 50]).encode.length) := by
  refine (messages_round_trip id (fun _ => rfl) (.accept 7 [110, 50]) ⟨?_, ?_⟩ ?_).1 [42]
  · simp [Message.numbers]
  · simpa [Message.texts] using ⟨"n2", rfl⟩
  · simp [Message.texts, maxBulkLen]

theorem utf8_replicate (n : Nat) : utf8 (String.ofList (List.replicate n 'a')) = List.replicate n 97 := by
  have hbytes : ∀ l : List Char, utf8 (String.ofList l) = l.flatMap String.utf8EncodeChar := by
    simp [utf8, List.utf8Encode]
  rw [hbytes]
  induction n with
  | zero => rfl
  | succ n ih =>
    rw [replicate_succ, flatMap_cons, ih]
    rfl

def longId : Bytes := List.replicate (maxBulkLen + 1) 97

def longHead : Bytes := [42, 51, 13, 10, 36, 54, 13, 10, 65, 67, 67, 69, 80, 84, 13, 10, 36, 49, 13, 10, 48, 13, 10,
  36, 53, 51, 54, 56, 55, 48, 57, 49, 51, 13, 10]

/-- A message with such an id is written and not read back. -/
theorem long_id_is_refused : (Message.accept 0 longId).Typed ∧
    Message.decode id (Message.accept 0 longId).encode = .error (some .bad) := by
  refine ⟨⟨by simp [Message.numbers], ?_⟩, ?_⟩
  · simp only [Message.texts, mem_singleton, forall_eq]
    exact ⟨_, (utf8_replicate (maxBulkLen + 1)).symm⟩
  · have hlen : longId.length = 536870913 := length_replicate
    have hframe : (Message.accept 0 longId).encode = longHead ++ (longId ++ crlf) := by
      rw [Message.encode, pushBulk, pushBulk, pushBulk, hlen]
      rfl
    have herr : parseOneBorrowed longHead = .error (.malformed "bulk length exceeds proto-max-bulk-len") := by rfl
    rw [hframe, Message.decode, parseCommandBorrowed,
      skip_error consumes_parseOneBorrowed (parseOneBorrowed_error herr _)]

end Kevy.Elect
