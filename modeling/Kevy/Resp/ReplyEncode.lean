import Kevy.Persist.Record
import Kevy.Resp.ReplyFrames

/-!
# The reply encoders against the reply parser

A reply tree is built by calls of the RESP2 and RESP3 encoders, an aggregate's header first and its
elements behind it. `push_int` prints every `i64`, working in the negative domain so that the least one
does not overflow; `parse_int` accumulates the magnitude in the positive domain, where that one does not
fit. So an encoded tree reads back exactly when no integer in it is `i64::MIN`.
-/

namespace Kevy.Resp

open Kevy.Lib Kevy.Persist List

/-! ## The encoders -/

/-- The digit loop of `push_int`, with `room` places left in its buffer. -/
def pushDigits : (room : Nat) → (v : Int) → (tmp : Bytes) → Bytes
  | 0, _, tmp => tmp
  | room + 1, v, tmp =>
    if v = 0 then tmp
    else pushDigits room (v.tdiv 10) (UInt8.ofNat (48 + (v.tmod 10).natAbs) :: tmp)

def pushInt (n : Int) : Bytes :=
  if n = 0 then [48] else (if n < 0 then [45] else []) ++ pushDigits 20 n []

/-- The digit loop of `bulk_header`. -/
def headerDigits : (room : Nat) → (n : Nat) → (buf : Bytes) → Bytes
  | 0, _, buf => buf
  | room + 1, n, buf =>
    let buf := UInt8.ofNat (48 + n % 10) :: buf
    if n / 10 = 0 then buf else headerDigits room (n / 10) buf

def encodeLine (tag : UInt8) (text : Bytes) : Bytes := tag :: text ++ crlf

def encodeSimpleString (text : Bytes) : Bytes := encodeLine 43 text

def encodeError (text : Bytes) : Bytes := encodeLine 45 text

def encodeInteger (n : Int) : Bytes := encodeLine 58 (pushInt n)

/-- `encode_bulk`, with `bulk_header`. -/
def encodeBulk (data : Bytes) : Bytes :=
  encodeLine 36 (headerDigits 20 data.length []) ++ (data ++ crlf)

def encodeNullBulk : Bytes := encodeLine 36 [45, 49]

def encodeArrayLen (len : Int) : Bytes := encodeLine 42 (pushInt len)

def encodeMapHeader (count : Int) : Bytes := encodeLine 37 (pushInt count)

def encodeSetHeader (count : Int) : Bytes := encodeLine 126 (pushInt count)

def encodePushHeader (count : Int) : Bytes := encodeLine 62 (pushInt count)

def encodeBoolean (v : Bool) : Bytes := 35 :: (if v then 116 else 102) :: crlf

def encodeNull : Bytes := 95 :: crlf

def encodeBigNumber (digits : Bytes) : Bytes := encodeLine 40 digits

def encodeVerbatim (fmt data : Bytes) : Bytes :=
  encodeLine 61 (pushInt ((4 + data.length : Nat) : Int)) ++ (fmt ++ 58 :: data ++ crlf)

def encodeBlobError (msg : Bytes) : Bytes :=
  encodeLine 33 (pushInt (msg.length : Int)) ++ (msg ++ crlf)

/-! ## Trees of encoder calls -/

/-- A reply as it was built: one constructor for each encoder. -/
inductive Built
  | simple (text : Bytes)
  | error (text : Bytes)
  | int (n : Int)
  | bulk (data : Bytes)
  | nullBulk
  | nullArray
  | array (items : List Built)
  | map (pairs : List (Built × Built))
  | set (items : List Built)
  | boolean (v : Bool)
  | verbatim (fmt data : Bytes)
  | bigNumber (digits : Bytes)
  | null
  | push (items : List Built)
  | blobError (msg : Bytes)

namespace Built

mutual

def encode : Built → Bytes
  | simple text => encodeSimpleString text
  | error text => encodeError text
  | int n => encodeInteger n
  | bulk data => encodeBulk data
  | nullBulk => encodeNullBulk
  | nullArray => encodeArrayLen (-1)
  | array items => encodeArrayLen items.length ++ encodeAll items
  | map pairs => encodeMapHeader pairs.length ++ encodePairs pairs
  | set items => encodeSetHeader items.length ++ encodeAll items
  | boolean v => encodeBoolean v
  | verbatim fmt data => encodeVerbatim fmt data
  | bigNumber digits => encodeBigNumber digits
  | null => encodeNull
  | push items => encodePushHeader items.length ++ encodeAll items
  | blobError msg => encodeBlobError msg

def encodeAll : List Built → Bytes
  | [] => []
  | t :: ts => t.encode ++ encodeAll ts

def encodePairs : List (Built × Built) → Bytes
  | [] => []
  | (k, v) :: ts => (k.encode ++ v.encode) ++ encodePairs ts

end

mutual

def reply : Built → Reply
  | simple text => .simple text
  | error text => .error text
  | int n => .int n
  | bulk data => .bulk data
  | nullBulk => .nil
  | nullArray => .nil
  | array items => .array (replyAll items)
  | map pairs => .map (replyPairs pairs)
  | set items => .set (replyAll items)
  | boolean v => .boolean v
  | verbatim fmt data => .verbatim fmt data
  | bigNumber digits => .bigNumber digits
  | null => .null
  | push items => .push (replyAll items)
  | blobError msg => .blobError msg

def replyAll : List Built → List Reply
  | [] => []
  | t :: ts => t.reply :: replyAll ts

def replyPairs : List (Built × Built) → List (Reply × Reply)
  | [] => []
  | (k, v) :: ts => (k.reply, v.reply) :: replyPairs ts

end

mutual

def ints : Built → List Int
  | int n => [n]
  | array items => intsAll items
  | map pairs => intsPairs pairs
  | set items => intsAll items
  | push items => intsAll items
  | _ => []

def intsAll : List Built → List Int
  | [] => []
  | t :: ts => t.ints ++ intsAll ts

def intsPairs : List (Built × Built) → List Int
  | [] => []
  | (k, v) :: ts => (k.ints ++ v.ints) ++ intsPairs ts

end

/-- What the encoders are given: lines without CR or LF, integers of 64 bits, vectors of the machine. -/
inductive Valid : Built → Prop
  | simple {text : Bytes} : cr ∉ text → lf ∉ text → Valid (simple text)
  | error {text : Bytes} : cr ∉ text → lf ∉ text → Valid (error text)
  | int {n : Int} : -2 ^ 63 ≤ n → n < 2 ^ 63 → Valid (int n)
  | bulk {data : Bytes} : data.length < 2 ^ 63 → Valid (bulk data)
  | nullBulk : Valid nullBulk
  | nullArray : Valid nullArray
  | array {items : List Built} : items.length < 2 ^ 63 → (∀ t ∈ items, Valid t) → Valid (array items)
  | map {pairs : List (Built × Built)} : pairs.length < 2 ^ 63 → (∀ x ∈ pairs, Valid x.1) →
      (∀ x ∈ pairs, Valid x.2) → Valid (map pairs)
  | set {items : List Built} : items.length < 2 ^ 63 → (∀ t ∈ items, Valid t) → Valid (set items)
  | boolean {v : Bool} : Valid (boolean v)
  | verbatim {fmt data : Bytes} : fmt.length = 3 → 4 + data.length < 2 ^ 63 →
      Valid (verbatim fmt data)
  | bigNumber {digits : Bytes} : cr ∉ digits → lf ∉ digits → Valid (bigNumber digits)
  | null : Valid null
  | push {items : List Built} : items.length < 2 ^ 63 → (∀ t ∈ items, Valid t) → Valid (push items)
  | blobError {msg : Bytes} : msg.length < 2 ^ 63 → Valid (blobError msg)

end Built

/-! ## Printed numbers -/

theorem pushDigits_eq {room : Nat} {v : Int} (tmp : Bytes) (hv : v ≠ 0) (hlt : v.natAbs < 10 ^ room) :
    pushDigits room v tmp = decimal v.natAbs ++ tmp := by
  induction room generalizing v tmp with
  | zero => omega
  | succ room ih =>
    have hdiv : (v.tdiv 10).natAbs = v.natAbs / 10 := Int.natAbs_tdiv v 10
    have hmod : (v.tmod 10).natAbs = v.natAbs % 10 := Int.natAbs_tmod v 10
    rw [pushDigits, if_neg hv, hmod, ofNat_digit (Nat.mod_lt _ (by decide))]
    by_cases h0 : v.tdiv 10 = 0
    · have hlast : v.natAbs < 10 := by omega
      have hstop (tmp : Bytes) : pushDigits room 0 tmp = tmp := by cases room <;> rfl
      rw [h0, hstop, Nat.mod_eq_of_lt hlast, decimal, Nat.toDigits_of_lt_base hlast]
      rfl
    · rw [Nat.pow_succ] at hlt
      rw [ih _ h0 (by omega), hdiv, decimal, decimal,
        Nat.toDigits_of_base_le (by decide) (by omega : 10 ≤ v.natAbs), map_append]
      simp

theorem headerDigits_eq {room n : Nat} (buf : Bytes) (hlt : n < 10 ^ room) (h : 0 < room) :
    headerDigits room n buf = decimal n ++ buf := by
  induction room generalizing n buf with
  | zero => exact absurd h (Nat.lt_irrefl 0)
  | succ room ih =>
    rw [headerDigits, ofNat_digit (Nat.mod_lt _ (by decide))]
    by_cases h0 : n / 10 = 0
    · have hlast : n < 10 := by omega
      rw [if_pos h0, Nat.mod_eq_of_lt hlast, decimal, Nat.toDigits_of_lt_base hlast]
      rfl
    · have hroom : 0 < room := by
        rcases Nat.eq_zero_or_pos room with rfl | h
        · omega
        · exact h
      rw [Nat.pow_succ] at hlt
      rw [if_neg h0, ih _ (by omega) hroom, decimal, decimal,
        Nat.toDigits_of_base_le (by decide) (by omega : 10 ≤ n), map_append]
      simp

variable {n : Int}

theorem pushInt_eq (hlo : -2 ^ 63 ≤ n) (hhi : n < 2 ^ 63) :
    pushInt n = (if n < 0 then [45] else []) ++ decimal n.natAbs := by
  rw [pushInt]
  split_ifs with h0 hneg hneg
  · omega
  · subst h0
    rfl
  · rw [pushDigits_eq [] h0 (by omega), append_nil]
  · rw [pushDigits_eq [] h0 (by omega), append_nil]

theorem pushInt_natCast {n : Nat} (h : n < 2 ^ 63) : pushInt (n : Int) = decimal n := by
  rw [pushInt_eq (by omega) (by omega), if_neg (by omega)]
  rfl

theorem parseInt_pushInt_natCast {n : Nat} (h : n < 2 ^ 63) : parseInt (pushInt (n : Int)) = some (n : Int) := by
  rw [pushInt_natCast h, parseInt_decimal h]

theorem parseInt_pushInt (hlo : -2 ^ 63 < n) (hhi : n < 2 ^ 63) : parseInt (pushInt n) = some n := by
  by_cases hneg : n < 0
  · have habs : ((n.natAbs : Nat) : Int) = -n := by omega
    have hd := parseDigits_decimal n.natAbs (by omega)
    have hsign : splitSign (45 :: decimal n.natAbs) = (true, decimal n.natAbs) := rfl
    rw [pushInt_eq (by omega) hhi, if_pos hneg, singleton_append, parseInt, hsign]
    rw [if_neg (by simp), if_neg (by simp [decimal_ne_nil]), hd]
    simp only [Option.map_some, if_true, habs, Int.neg_neg]
  · obtain ⟨m, rfl⟩ := Int.eq_ofNat_of_zero_le (by omega : 0 ≤ n)
    exact parseInt_pushInt_natCast (by omega)

theorem parseInt_pushInt_min : parseInt (pushInt (-2 ^ 63)) = none := by decide +kernel

theorem noCrlf_pushInt_min : NoCrlf (pushInt (-2 ^ 63)) :=
  noCrlf_of_cr_not_mem (by decide +kernel)

/-! ## Encoded trees read back -/

namespace Built

theorem encodeAll_eq (items : List Built) : encodeAll items = items.flatMap encode := by
  induction items with
  | nil => rfl
  | cons t ts ih => rw [encodeAll, ih, flatMap_cons]

theorem encodePairs_eq (pairs : List (Built × Built)) :
    encodePairs pairs = pairs.flatMap fun x => x.1.encode ++ x.2.encode := by
  induction pairs with
  | nil => rfl
  | cons x xs ih => rw [encodePairs, ih, flatMap_cons]

theorem replyAll_eq (items : List Built) : replyAll items = items.map reply := by
  induction items with
  | nil => rfl
  | cons t ts ih => rw [replyAll, ih, map_cons]

theorem replyPairs_eq (pairs : List (Built × Built)) :
    replyPairs pairs = pairs.map fun x => (x.1.reply, x.2.reply) := by
  induction pairs with
  | nil => rfl
  | cons x xs ih => rw [replyPairs, ih, map_cons]

theorem mem_intsAll {items : List Built} : n ∈ intsAll items ↔ ∃ t ∈ items, n ∈ t.ints := by
  induction items with
  | nil => simp [intsAll]
  | cons t ts ih => simp [intsAll, ih]

theorem mem_intsPairs {pairs : List (Built × Built)} :
    n ∈ intsPairs pairs ↔ ∃ x ∈ pairs, n ∈ x.1.ints ∨ n ∈ x.2.ints := by
  induction pairs with
  | nil => simp [intsPairs]
  | cons x xs ih => simp [intsPairs, ih, or_assoc]

theorem gather_plain (make : List Reply → Reply) (items : List Built) :
    gather make (items.map fun t => plain t.reply) = plain (make (replyAll items)) := by
  have htexts : (items.map fun t => plain t.reply).flatMap Prod.snd = [] := by
    simp [flatMap_map, plain]
  rw [gather, htexts, replyAll_eq, List.map_map]
  rfl

theorem gatherPairs_plain (pairs : List (Built × Built)) :
    gatherPairs (pairs.map fun x => (plain x.1.reply, plain x.2.reply)) = plain (.map (replyPairs pairs)) := by
  have htexts : (pairs.map fun x => (plain x.1.reply, plain x.2.reply)).flatMap (fun x => x.1.2 ++ x.2.2) = [] := by
    simp [flatMap_map, plain]
  rw [gatherPairs, htexts, replyPairs_eq, List.map_map]
  rfl

def badInteger : ProtocolError := .malformed "bad integer reply"

/-- How an encoded tree reads: as itself, or not at all where the least integer is in it. -/
def Reads (rd : ReadDouble) (t : Built) : Prop :=
  (-2 ^ 63 ∉ t.ints ∧ Delimits (parseTexted rd) t.encode (plain t.reply)) ∨
    (-2 ^ 63 ∈ t.ints ∧ Fails (parseTexted rd) t.encode badInteger)

section
variable {rd : ReadDouble} {items : List Built} {pairs : List (Built × Built)}

section Items

variable (hlen : items.length < 2 ^ 63) (h : ∀ t ∈ items, Reads rd t)
include hlen h

theorem reads_array : Reads rd (array items) := by
  have hread := settles_array false (parseInt_pushInt_natCast hlen) h
  rw [gather_plain, ← mem_intsAll, ← encodeAll_eq] at hread
  exact hread

theorem reads_push : Reads rd (push items) := by
  have hread := settles_array true (parseInt_pushInt_natCast hlen) h
  rw [gather_plain, ← mem_intsAll, ← encodeAll_eq] at hread
  exact hread

theorem reads_set : Reads rd (set items) := by
  have hread := settles_set (parseInt_pushInt_natCast hlen) h
  rw [gather_plain, ← mem_intsAll, ← encodeAll_eq] at hread
  exact hread

end Items

theorem reads_map (hlen : pairs.length < 2 ^ 63) (hk : ∀ x ∈ pairs, Reads rd x.1)
    (hv : ∀ x ∈ pairs, Reads rd x.2) : Reads rd (map pairs) := by
  have hread := settles_map hk hv (parseInt_pushInt_natCast hlen)
  rw [gatherPairs_plain, ← mem_intsPairs, ← encodePairs_eq] at hread
  exact hread

theorem reads_int (hlo : -2 ^ 63 ≤ n) (hhi : n < 2 ^ 63) : Reads rd (int n) := by
  by_cases hmin : n = -2 ^ 63
  · subst hmin
    exact .inr ⟨by simp [ints], fails_int noCrlf_pushInt_min parseInt_pushInt_min⟩
  · refine .inl ⟨?_, delimits_int (parseInt_pushInt (by omega) hhi)⟩
    rw [ints, mem_singleton]
    exact fun h => hmin h.symm

theorem reads_plain {t : Built} (hints : t.ints = [])
    (h : Delimits (parseTexted rd) t.encode (plain t.reply)) : Reads rd t :=
  .inl ⟨by rw [hints]; exact not_mem_nil, h⟩

theorem reads_verbatim {fmt data : Bytes} (hfmt : fmt.length = 3) (hlen : 4 + data.length < 2 ^ 63) :
    Reads rd (verbatim fmt data) := by
  refine reads_plain rfl (delimits_verbatim hfmt ?_)
  have htotal : (fmt ++ 58 :: data).length = 4 + data.length := by
    simp only [length_append, length_cons, hfmt]
    omega
  rw [htotal]
  exact parseInt_pushInt_natCast hlen

theorem reads_bulk {data : Bytes} (hlen : data.length < 2 ^ 63) : Reads rd (bulk data) := by
  refine reads_plain rfl (delimits_bulk ?_)
  rw [headerDigits_eq [] (by omega) (by decide), append_nil]
  exact parseInt_decimal hlen

theorem Valid.reads (rd : ReadDouble) {t : Built} (h : Valid t) : Reads rd t := by
  induction h with
  | simple hcr _ => exact reads_plain rfl (delimits_simple (noCrlf_of_cr_not_mem hcr))
  | error hcr _ => exact reads_plain rfl (delimits_error (noCrlf_of_cr_not_mem hcr))
  | int hlo hhi => exact reads_int hlo hhi
  | bulk hlen => exact reads_bulk hlen
  | nullBulk =>
    exact reads_plain rfl (delimits_nilBulk (by decide : parseInt [45, 49] = some (-1)) (by decide))
  | nullArray =>
    exact reads_plain rfl
      (delimits_nilArray (parseInt_pushInt (by decide) (by decide)) (by decide : (-1 : Int) < 0))
  | array hlen _ ih => exact reads_array hlen ih
  | map hlen _ _ ihk ihv => exact reads_map hlen ihk ihv
  | set hlen _ ih => exact reads_set hlen ih
  | boolean => exact reads_plain rfl (delimits_boolean _)
  | verbatim hfmt hlen => exact reads_verbatim hfmt hlen
  | bigNumber hcr _ =>
    exact reads_plain rfl (delimits_bigNumber (noCrlf_of_cr_not_mem hcr))
  | null => exact reads_plain rfl delimits_null
  | push hlen _ ih => exact reads_push hlen ih
  | blobError hlen =>
    exact reads_plain rfl (delimits_blobError (parseInt_pushInt_natCast hlen))

/-! ## The round trip -/

/-- In front of any bytes the encoding is read as its tree and nothing more is taken; cut short, it asks
for more. -/
structure RoundTrips (rd : ReadDouble) (t : Built) : Prop where
  whole : ∀ rest, parseReply rd (t.encode ++ rest) = .ok (some (t.reply, t.encode.length))
  cut : ∀ q r, q ++ r = t.encode → r ≠ [] → parseReply rd q = .ok none

/-- **The reply codec round trip** holds of exactly the trees without `i64::MIN`. -/
theorem roundTrips_iff_no_min (rd : ReadDouble) (t : Built) (h : Valid t) : RoundTrips rd t ↔ -2 ^ 63 ∉ t.ints := by
  rcases h.reads rd with ⟨hmin, hread⟩ | ⟨hmin, hfail⟩
  · have hreply : Delimits (parseReply rd) t.encode t.reply := hread.mapItem Prod.fst
    exact iff_of_true ⟨hreply.reads, fun q r hcut hr => hreply.waits hcut hr⟩ hmin
  · refine iff_of_false (fun hround => ?_) (not_not.mpr hmin)
    have hbad : parseReply rd (t.encode ++ []) = _ := hfail.mapItem Prod.fst []
    rw [hround.whole] at hbad
    cases hbad

end

def noDoubles : ReadDouble := ⟨fun _ => false, fun _ => none⟩

theorem roundTrips_iff_no_min_nested : RoundTrips noDoubles
    (array [int (-2 ^ 63 + 1), map [(simple [79, 75], set [nullBulk, boolean true])]]) := by
  have hset : Valid (set [nullBulk, boolean true]) :=
    .set (by decide) (by simp [Valid.nullBulk, Valid.boolean])
  have hsimple : Valid (simple [79, 75]) := .simple (by decide) (by decide)
  have hmap : Valid (map [(simple [79, 75], set [nullBulk, boolean true])]) :=
    .map (by decide) (by simpa using hsimple) (by simpa using hset)
  have hint : Valid (int (-2 ^ 63 + 1)) := .int (by decide) (by decide)
  refine (roundTrips_iff_no_min _ _ (.array (by decide) ?_)).mpr (by decide)
  intro t ht
  rcases mem_cons.mp ht with rfl | ht
  · exact hint
  · rw [mem_singleton.mp ht]
    exact hmap

/-- The least integer is a reply the encoder writes and the parser refuses. -/
theorem min_does_not_read_back : Valid (int (-2 ^ 63)) ∧ ¬ RoundTrips noDoubles (int (-2 ^ 63)) := by
  refine ⟨.int (by decide) (by decide), fun hround => ?_⟩
  have hbad : parseReply noDoubles ((int (-2 ^ 63)).encode ++ []) = _ :=
    (fails_int noCrlf_pushInt_min parseInt_pushInt_min).mapItem Prod.fst []
  rw [hround.whole] at hbad
  cases hbad

end Built

end Kevy.Resp
