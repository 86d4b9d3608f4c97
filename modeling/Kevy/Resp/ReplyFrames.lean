import Kevy.Resp.Reply

/-!
# What the reply parser reads

One lemma for each kind of reply: the bytes it stands for are a self-delimiting item of `parse_with`, with
any spelling of its number that `parse_int` accepts, given that the replies inside an aggregate are. The
grammar built on these lemmas is prefix-free for that reason: no kind looks behind its own end.
-/

namespace Kevy.Resp

open Kevy.Lib List

/-! ## Lines and payloads -/

variable {q r : Bytes}

theorem length_lt_of_cut {w : Bytes} (hcut : q ++ r = w) (hr : r ≠ []) : q.length < w.length := by
  have hpos := length_pos_iff.mpr hr
  rw [← hcut, length_append]
  omega

variable {line : Bytes}

theorem crlfIn_cut (h : NoCrlf line) (hcut : q ++ r = line ++ crlf) (hr : r ≠ []) : crlfIn q = none := by
  cases hq : crlfIn q with
  | none => rfl
  | some i =>
    have hi := crlfIn_append r hq
    rw [hcut] at hi
    have hlen : i = line.length := Option.some.inj (hi.symm.trans h)
    obtain ⟨front, back, rfl, hfront, _⟩ := crlfIn_spec hq
    have hlt := length_lt_of_cut hcut hr
    simp only [length_append, crlf, length_cons, length_nil] at hlt
    omega

variable {tag : UInt8}

theorem findCrlf_cut (h : NoCrlf line)
    (hcut : q ++ r = tag :: line ++ crlf) (hr : r ≠ []) : findCrlf q 1 = none := by
  cases q with
  | nil => rfl
  | cons b q =>
    rw [cons_append, cons_append] at hcut
    rw [findCrlf, drop_succ_cons, drop_zero, crlfIn_cut h (List.cons.inj hcut).2 hr]
    rfl

theorem delimits_replyLine {ε : Type} (tag : UInt8) (h : NoCrlf line) :
    Delimits (replyLine : IncParser UInt8 ε Bytes) (tag :: line ++ crlf) line where
  reads rest := by
    obtain ⟨h1, h2⟩ := findCrlf_tag tag h rest
    rw [replyLine, h1, Option.map_some, h2, length_tag_line]
  waits hcut hr := by
    rw [replyLine, findCrlf_cut h hcut hr]
    rfl

variable {n : Int}

theorem delimits_parseHeader (tag : UInt8) (h : parseInt line = some n)
    (why : String) : Delimits (parseHeader why) (tag :: line ++ crlf) n where
  reads rest := by
    obtain ⟨h1, h2⟩ := findCrlf_tag tag (noCrlf_of_parseInt h) rest
    rw [parseHeader, h1]
    simp only [h2, h, length_tag_line]
  waits hcut hr := by
    rw [parseHeader, findCrlf_cut (noCrlf_of_parseInt h) hcut hr]

theorem fails_parseHeader (tag : UInt8) (hline : NoCrlf line) (h : parseInt line = none)
    (why : String) : Fails (parseHeader why) (tag :: line ++ crlf) (.malformed why) := by
  intro rest
  obtain ⟨h1, h2⟩ := findCrlf_tag tag hline rest
  rw [parseHeader, h1]
  simp only [h2, h]

theorem delimits_payload (data : Bytes) (why : String) : Delimits (payload data.length why) (data ++ crlf) data where
  reads rest := by
    have hlen : ¬ (data ++ crlf ++ rest).length < data.length + 2 := by
      simp [crlf]
    rw [payload, if_neg hlen, append_assoc, drop_left, take_left]
    simp [crlf]
  waits {q r} hcut hr := by
    have hlt := length_lt_of_cut hcut hr
    rw [length_append] at hlt
    exact if_pos hlt

/-! ## Replies -/

section
variable {rd : ReadDouble}

theorem delimits_branch {body : Bytes} {b : ReplyParser Texted} {a : Texted}
    (h : Delimits b (tag :: body) a) (hbranch : ∀ rest, parseStep rd (parseTexted rd) (tag :: rest) = b (tag :: rest)) :
    Delimits (parseTexted rd) (tag :: body) a where
  reads rest := by
    rw [parseTexted_eq]
    exact (hbranch _).trans (h.reads rest)
  waits {q r} hcut hr := by
    cases q with
    | nil => rfl
    | cons b q =>
      obtain ⟨rfl, _⟩ := List.cons.inj hcut
      rw [parseTexted_eq, hbranch, h.waits hcut hr]

theorem fails_branch {body : Bytes} {b : ReplyParser Texted} {e : ProtocolError}
    (h : Fails b (tag :: body) e) (hbranch : ∀ rest, parseStep rd (parseTexted rd) (tag :: rest) = b (tag :: rest)) :
    Fails (parseTexted rd) (tag :: body) e := by
  intro rest
  rw [parseTexted_eq]
  exact (hbranch _).trans (h rest)

variable {text : Bytes}

theorem delimits_simple (h : NoCrlf text) : Delimits (parseTexted rd) (43 :: text ++ crlf) (plain (.simple text)) :=
  delimits_branch ((delimits_replyLine 43 h).mapItem fun text => plain (.simple text)) fun _ => rfl

theorem delimits_error (h : NoCrlf text) : Delimits (parseTexted rd) (45 :: text ++ crlf) (plain (.error text)) :=
  delimits_branch ((delimits_replyLine 45 h).mapItem fun text => plain (.error text)) fun _ => rfl

theorem delimits_bigNumber (h : NoCrlf text) :
    Delimits (parseTexted rd) (40 :: text ++ crlf) (plain (.bigNumber text)) :=
  delimits_branch ((delimits_replyLine 40 h).mapItem fun text => plain (.bigNumber text)) fun _ => rfl

theorem delimits_int (h : parseInt text = some n) :
    Delimits (parseTexted rd) (58 :: text ++ crlf) (plain (.int n)) :=
  delimits_branch ((delimits_parseHeader 58 h "bad integer reply").mapItem fun n => plain (.int n))
    fun _ => rfl

theorem fails_int (hline : NoCrlf text) (h : parseInt text = none) :
    Fails (parseTexted rd) (58 :: text ++ crlf) (.malformed "bad integer reply") :=
  fails_branch ((fails_parseHeader 58 hline h "bad integer reply").mapItem fun n => plain (.int n))
    fun _ => rfl

theorem delimits_double {bits : UInt64} (hline : NoCrlf text)
    (hutf8 : rd.isUtf8 text = true) (hvalue : rd.value text = some bits) :
    Delimits (parseTexted rd) (44 :: text ++ crlf) (.double bits, [text]) := by
  refine delimits_branch (b := parseDoubleReply rd) ((delimits_replyLine 44 hline).andThen_succeed ?_) fun _ => rfl
  rw [if_neg (by simp [hutf8]), hvalue]

theorem delimits_boolean (v : Bool) : Delimits (parseTexted rd)
    (35 :: (if v then 116 else 102) :: crlf) (plain (.boolean v)) := by
  have hline : NoCrlf [if v then 116 else 102] := by cases v <;> exact noCrlf_of_cr_not_mem (by decide)
  refine delimits_branch (b := parseBooleanReply) ((delimits_replyLine 35 hline).andThen_succeed ?_) fun _ => rfl
  cases v <;> rfl

theorem delimits_null : Delimits (parseTexted rd) (95 :: crlf) (plain .null) := by
  refine delimits_branch (b := parseNullReply) ⟨fun rest => rfl, fun {q r} hcut hr => ?_⟩ fun _ => rfl
  exact if_pos (length_lt_of_cut hcut hr)

/-! ## Length-prefixed replies -/

variable {data : Bytes}

theorem delimits_sized {header : Bytes} (tag : UInt8) (why why' : String) (neg : ReplyParser Texted)
    (make : Bytes → Reply) (h : parseInt header = some (data.length : Int)) :
    Delimits (andThen (parseHeader why) fun len =>
        if len < 0 then neg else mapItem (fun data => plain (make data)) (payload len.toNat why'))
      (tag :: header ++ crlf ++ (data ++ crlf)) (plain (make data)) := by
  refine (delimits_parseHeader tag h _).andThen ?_
  rw [if_neg (by omega), Int.toNat_natCast]
  exact (delimits_payload data _).mapItem _

theorem delimits_nil {header : Bytes} (tag : UInt8) (why : String) (pos : Int → ReplyParser Texted)
    (h : parseInt header = some n) (hneg : n < 0) :
    Delimits (andThen (parseHeader why) fun len => if len < 0 then succeed (plain .nil) else pos len)
      (tag :: header ++ crlf) (plain .nil) :=
  (delimits_parseHeader tag h _).andThen_succeed (if_pos hneg)

theorem delimits_bulk {header : Bytes} (h : parseInt header = some (data.length : Int)) :
    Delimits (parseTexted rd) (36 :: header ++ crlf ++ (data ++ crlf)) (plain (.bulk data)) :=
  delimits_branch (delimits_sized 36 "bad bulk length" _ _ .bulk h) fun _ => rfl

theorem delimits_nilBulk {header : Bytes} (h : parseInt header = some n) (hneg : n < 0) :
    Delimits (parseTexted rd) (36 :: header ++ crlf) (plain .nil) :=
  delimits_branch (delimits_nil 36 "bad bulk length" _ h hneg) fun _ => rfl

theorem delimits_blobError {header : Bytes} (h : parseInt header = some (data.length : Int)) :
    Delimits (parseTexted rd) (33 :: header ++ crlf ++ (data ++ crlf)) (plain (.blobError data)) :=
  delimits_branch (delimits_sized 33 "bad blob error length" _ _ .blobError h) fun _ => rfl

theorem delimits_verbatim {header fmt : Bytes} (hfmt : fmt.length = 3)
    (h : parseInt header = some ((fmt ++ 58 :: data).length : Int)) :
    Delimits (parseTexted rd) (61 :: header ++ crlf ++ (fmt ++ 58 :: data ++ crlf)) (plain (.verbatim fmt data)) := by
  have hlen : (fmt ++ 58 :: data).length = 4 + data.length := by
    simp [hfmt]
    omega
  have hsep : (fmt ++ 58 :: data)[3]? = some 58 := by
    rw [getElem?_append_right (by omega), hfmt]
    rfl
  have hdrop : (fmt ++ 58 :: data).drop 4 = data := by
    rw [drop_append, hfmt, drop_of_length_le (by omega)]
    rfl
  refine delimits_branch (b := parseVerbatimReply) ((delimits_parseHeader 61 h _).andThen ?_) fun _ => rfl
  rw [if_neg (by omega), Int.toNat_natCast]
  refine (delimits_payload (fmt ++ 58 :: data) _).andThen_succeed ?_
  rw [if_neg (by simp [hsep]), hdrop, take_left' hfmt]

/-! ## Aggregates -/

section
variable {ι : Type} {xs : List ι} {bad : ι → Prop} {f g : ι → Bytes} {header : Bytes} {e : ProtocolError}

theorem settles_counted {α : Type} {item : ReplyParser α} {a : ι → α} (tag : UInt8) (why : String)
    (neg : ReplyParser Texted) (make : List α → Texted) (hcount : parseInt header = some (xs.length : Int))
    (h : ∀ x ∈ xs, Settles item e (bad x) (f x) (a x)) : Settles (andThen (parseHeader why) fun count =>
        if count < 0 then neg else mapItem make (many item count.toNat)) e (∃ x ∈ xs, bad x)
      (tag :: header ++ crlf ++ xs.flatMap f) (make (xs.map a)) := by
  refine (delimits_parseHeader tag hcount why).andThen_settles ?_
  rw [if_neg (by omega), Int.toNat_natCast]
  exact (Settles.many h).mapItem make

variable {a b : ι → Texted}

theorem settles_branch {body : Bytes} {b : ReplyParser Texted} {a : Texted} {bad : Prop}
    (h : Settles b e bad (tag :: body) a)
    (hbranch : ∀ rest, parseStep rd (parseTexted rd) (tag :: rest) = b (tag :: rest)) :
    Settles (parseTexted rd) e bad (tag :: body) a :=
  h.imp (And.imp_right fun h => delimits_branch h hbranch) (And.imp_right fun h => fails_branch h hbranch)

def arrayTag (push : Bool) : UInt8 := if push then 62 else 42

theorem parseStep_array (push : Bool) (p : ReplyParser Texted) (rest : Bytes) :
    parseStep rd p (arrayTag push :: rest) = parseArrayReply p push (arrayTag push :: rest) := by
  cases push <;> rfl

theorem settles_array (push : Bool) (hcount : parseInt header = some (xs.length : Int))
    (h : ∀ x ∈ xs, Settles (parseTexted rd) e (bad x) (f x) (a x)) :
    Settles (parseTexted rd) e (∃ x ∈ xs, bad x) (arrayTag push :: header ++ crlf ++ xs.flatMap f)
      (gather (if push then .push else .array) (xs.map a)) :=
  settles_branch (settles_counted (arrayTag push) "bad array length" _ _ hcount h) (parseStep_array push _)

theorem delimits_nilArray (h : parseInt header = some n) (hneg : n < 0) :
    Delimits (parseTexted rd) (42 :: header ++ crlf) (plain .nil) :=
  delimits_branch (delimits_nil 42 "bad array length" _ h hneg) fun _ => rfl

theorem settles_set (hcount : parseInt header = some (xs.length : Int))
    (h : ∀ x ∈ xs, Settles (parseTexted rd) e (bad x) (f x) (a x)) :
    Settles (parseTexted rd) e (∃ x ∈ xs, bad x) (126 :: header ++ crlf ++ xs.flatMap f) (gather .set (xs.map a)) :=
  settles_branch (settles_counted 126 "bad set length" _ _ hcount h) fun _ => rfl

variable {bad' : ι → Prop} (hk : ∀ x ∈ xs, Settles (parseTexted rd) e (bad x) (f x) (a x))
  (hv : ∀ x ∈ xs, Settles (parseTexted rd) e (bad' x) (g x) (b x))
include hk hv

theorem settles_pairs (tag : UInt8) (hcount : parseInt header = some (xs.length : Int)) :
    Settles (parseMapReply (parseTexted rd)) e (∃ x ∈ xs, bad x ∨ bad' x)
      (tag :: header ++ crlf ++ xs.flatMap fun x => f x ++ g x) (gatherPairs (xs.map fun x => (a x, b x))) :=
  settles_counted tag _ _ _ hcount fun x hx => (hk x hx).andThen ((hv x hx).mapItem _)

theorem settles_map (hcount : parseInt header = some (xs.length : Int)) :
    Settles (parseTexted rd) e (∃ x ∈ xs, bad x ∨ bad' x)
      (37 :: header ++ crlf ++ xs.flatMap fun x => f x ++ g x) (gatherPairs (xs.map fun x => (a x, b x))) :=
  settles_branch (settles_pairs hk hv 37 hcount) fun _ => rfl

end

end

end Kevy.Resp
