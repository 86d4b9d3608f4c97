import Kevy.Resp.ReplyWire

/-!
# The kept texts of doubles

`parse_reply_keeping_double_text` pushes the text of every double it reads to a side list. Attributes are
read like a map and then dropped, but the texts of the doubles in them stay on the list. So the list lines
up with the doubles of the returned reply exactly when no attribute holds a double.
-/

namespace Kevy.Resp

open Kevy.Lib List

/-! ## The doubles of a reply -/

namespace Reply

mutual

/-- The doubles of a reply, depth first and from left to right. -/
def doubles : Reply → List UInt64
  | array items => doublesAll items
  | map pairs => doublesPairs pairs
  | set items => doublesAll items
  | push items => doublesAll items
  | double bits => [bits]
  | _ => []

def doublesAll : List Reply → List UInt64
  | [] => []
  | r :: rs => r.doubles ++ doublesAll rs

def doublesPairs : List (Reply × Reply) → List UInt64
  | [] => []
  | (k, v) :: rs => (k.doubles ++ v.doubles) ++ doublesPairs rs

end

end Reply

namespace Wire

mutual

def texts : Wire → List Bytes
  | array _ _ items => textsAll items
  | map _ pairs => textsPairs pairs
  | set _ items => textsAll items
  | double text => [text]
  | attributed _ _ body => body.texts
  | _ => []

def textsAll : List Wire → List Bytes
  | [] => []
  | w :: ws => w.texts ++ textsAll ws

def textsPairs : List (Wire × Wire) → List Bytes
  | [] => []
  | (k, v) :: ws => (k.texts ++ v.texts) ++ textsPairs ws

end

mutual

/-- The texts of the doubles in the attributes of a reply, wherever they stand. -/
def inAttributes : Wire → List Bytes
  | array _ _ items => inAttributesAll items
  | map _ pairs => inAttributesPairs pairs
  | set _ items => inAttributesAll items
  | attributed _ attrs body => writtenPairs attrs ++ body.inAttributes
  | _ => []

def inAttributesAll : List Wire → List Bytes
  | [] => []
  | w :: ws => w.inAttributes ++ inAttributesAll ws

def inAttributesPairs : List (Wire × Wire) → List Bytes
  | [] => []
  | (k, v) :: ws => (k.inAttributes ++ v.inAttributes) ++ inAttributesPairs ws

end

section
variable {rd : ReadDouble}

theorem map_doublesAll {ws : List Wire} (h : ∀ w ∈ ws, (w.reply rd).doubles.map some = w.texts.map rd.value) :
    (Reply.doublesAll (replyAll rd ws)).map some = (textsAll ws).map rd.value := by
  induction ws with
  | nil => rfl
  | cons w ws ih =>
    rw [replyAll, Reply.doublesAll, textsAll, map_append, map_append,
      h w mem_cons_self, ih (forall_mem_cons.mp h).2]

theorem map_doublesPairs {ws : List (Wire × Wire)}
    (hk : ∀ x ∈ ws, (x.1.reply rd).doubles.map some = x.1.texts.map rd.value)
    (hv : ∀ x ∈ ws, (x.2.reply rd).doubles.map some = x.2.texts.map rd.value) :
    (Reply.doublesPairs (replyPairs rd ws)).map some = (textsPairs ws).map rd.value := by
  induction ws with
  | nil => rfl
  | cons x ws ih =>
    rw [replyPairs, Reply.doublesPairs, textsPairs]
    simp only [map_append]
    rw [hk x mem_cons_self, hv x mem_cons_self, ih (forall_mem_cons.mp hk).2 (forall_mem_cons.mp hv).2]

theorem Valid.map_doubles {w : Wire} (h : Valid rd w) : (w.reply rd).doubles.map some = w.texts.map rd.value := by
  induction h with
  | @array push header items _ _ ih =>
    have hall := map_doublesAll ih
    rw [reply, texts]
    cases push <;> exact hall
  | map _ _ _ ihk ihv => exact map_doublesPairs ihk ihv
  | set _ _ ih => exact map_doublesAll ih
  | double _ _ hvalue =>
    rw [reply, hvalue]
    simp [Reply.doubles, texts, hvalue]
  | attributed _ _ _ _ _ _ ihbody => exact ihbody
  | _ => rfl

end

/-! ## Counting doubles -/

mutual

theorem length_written : ∀ w : Wire, w.written.length = w.texts.length + w.inAttributes.length
  | simple _ | error _ | int _ | bulk _ _ | nilBulk _ | nilArray _ | boolean _ | verbatim _ _ _
  | bigNumber _ | null | blobError _ _ | double _ => rfl
  | array _ _ items => length_writtenAll items
  | map _ pairs => length_writtenPairs pairs
  | set _ items => length_writtenAll items
  | attributed _ attrs body => by
    have := length_written body
    rw [written, texts, inAttributes, length_append, length_append]
    omega

theorem length_writtenAll : ∀ ws : List Wire,
    (writtenAll ws).length = (textsAll ws).length + (inAttributesAll ws).length
  | [] => rfl
  | w :: ws => by
    have := length_written w
    have := length_writtenAll ws
    rw [writtenAll, textsAll, inAttributesAll, length_append, length_append, length_append]
    omega

theorem length_writtenPairs : ∀ ws : List (Wire × Wire),
    (writtenPairs ws).length = (textsPairs ws).length + (inAttributesPairs ws).length
  | [] => rfl
  | (k, v) :: ws => by
    have := length_written k
    have := length_written v
    have := length_writtenPairs ws
    rw [writtenPairs, textsPairs, inAttributesPairs]
    simp only [length_append]
    omega

end

mutual

theorem written_eq_texts : ∀ w : Wire, w.inAttributes = [] → w.written = w.texts
  | simple _, _ | error _, _ | int _, _ | bulk _ _, _ | nilBulk _, _ | nilArray _, _ | boolean _, _
  | verbatim _ _ _, _ | bigNumber _, _ | null, _ | blobError _ _, _ | double _, _ => rfl
  | array _ _ items, h => writtenAll_eq_texts items h
  | map _ pairs, h => writtenPairs_eq_texts pairs h
  | set _ items, h => writtenAll_eq_texts items h
  | attributed _ attrs body, h => by
    rw [inAttributes, append_eq_nil_iff] at h
    rw [written, h.1, nil_append, written_eq_texts body h.2, texts]

theorem writtenAll_eq_texts : ∀ ws : List Wire, inAttributesAll ws = [] → writtenAll ws = textsAll ws
  | [], _ => rfl
  | w :: ws, h => by
    rw [inAttributesAll, append_eq_nil_iff] at h
    rw [writtenAll, textsAll, written_eq_texts w h.1, writtenAll_eq_texts ws h.2]

theorem writtenPairs_eq_texts : ∀ ws : List (Wire × Wire), inAttributesPairs ws = [] → writtenPairs ws = textsPairs ws
  | [], _ => rfl
  | (k, v) :: ws, h => by
    rw [inAttributesPairs, append_eq_nil_iff, append_eq_nil_iff] at h
    rw [writtenPairs, textsPairs, written_eq_texts k h.1.1, written_eq_texts v h.1.2, writtenPairs_eq_texts ws h.2]

end

/-! ## The list lines up -/

/-- The parse of a reply with anything behind it returns the texts of the reply's doubles, one for each
and in their order. -/
def LinesUp (rd : ReadDouble) (w : Wire) (rest : Bytes) : Prop :=
  ∃ texts, parseReplyKeepingDoubleText rd (w.bytes ++ rest) =
      .ok (some (w.reply rd, w.bytes.length, texts)) ∧
    texts = w.texts ∧ (w.reply rd).doubles.map some = texts.map rd.value

theorem parseReplyKeepingDoubleText_wire {rd : ReadDouble} {w : Wire} (h : Valid rd w) (rest : Bytes) :
    parseReplyKeepingDoubleText rd (w.bytes ++ rest) = .ok (some (w.reply rd, w.bytes.length, w.written)) := by
  rw [parseReplyKeepingDoubleText, h.delimits.reads rest]
  rfl

/-- **The kept texts line up with the reply** exactly when no attribute holds a double. -/
theorem texts_line_up_iff (rd : ReadDouble) (w : Wire) (h : Valid rd w) (rest : Bytes) :
    LinesUp rd w rest ↔ w.inAttributes = [] := by
  have hparse := parseReplyKeepingDoubleText_wire h rest
  constructor
  · rintro ⟨texts, htexts, rfl, _⟩
    rw [hparse] at htexts
    have hsame : w.written = w.texts := by
      have hinj := Option.some.inj (Except.ok.inj htexts)
      exact (Prod.mk.inj (Prod.mk.inj hinj).2).2
    have hlen := w.length_written
    rw [hsame] at hlen
    exact length_eq_zero_iff.mp (by omega)
  · intro hnone
    rw [written_eq_texts w hnone] at hparse
    exact ⟨w.texts, hparse, rfl, h.map_doubles⟩

def oneAndTwo : ReadDouble where
  isUtf8 _ := true
  value text := if text = [49] then some 0x3FF0000000000000
    else if text = [50] then some 0x4000000000000000 else none

theorem valid_one : Valid oneAndTwo (double [49]) := .double rfl rfl rfl

theorem valid_two : Valid oneAndTwo (double [50]) := .double rfl rfl rfl

theorem texts_line_up_pair : LinesUp oneAndTwo
    (attributed [49] [(simple [107], null)] (array false [50] [double [49], double [50]])) [] := by
  refine (texts_line_up_iff _ _ (.attributed (by decide) ?_ ?_ (.array (by decide) ?_)) _).mpr rfl
  · simpa using @Valid.simple oneAndTwo [107] rfl
  · simpa using @Valid.null oneAndTwo
  · simpa using ⟨valid_one, valid_two⟩

/-- `|1 +k ,1` in front of `,2`: two texts for a reply with one double, and the first is not its own. -/
theorem attribute_text_is_kept : Valid oneAndTwo (attributed [49] [(simple [107], double [49])] (double [50])) ∧
      ¬ LinesUp oneAndTwo (attributed [49] [(simple [107], double [49])] (double [50])) [] := by
  have hvalid : Valid oneAndTwo (attributed [49] [(simple [107], double [49])] (double [50])) := by
    refine .attributed (by decide) ?_ ?_ valid_two
    · simpa using @Valid.simple oneAndTwo [107] rfl
    · simpa using valid_one
  refine ⟨hvalid, ?_⟩
  rintro ⟨texts, htexts, rfl, _⟩
  rw [parseReplyKeepingDoubleText_wire hvalid] at htexts
  have hinj := Option.some.inj (Except.ok.inj htexts)
  exact absurd (Prod.mk.inj (Prod.mk.inj hinj).2).2 (by decide)

end Wire

end Kevy.Resp
