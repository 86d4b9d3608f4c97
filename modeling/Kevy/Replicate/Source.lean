import Kevy.Lib.Numbered
import Kevy.Replicate.Wire

/-!
# The replication backlog

A primary keeps its recent writes as numbered frames, oldest first, within a byte budget. A frame that does not fit
pushes out the oldest ones; a reader asks for everything from an offset and is told when that is no longer, or not
yet, there. The backlog is always the end of the history, without a gap: the frames it holds are numbered up to the
next offset.
-/

namespace Kevy.Replicate

open Kevy.Lib Kevy.Resp List

inductive FromOffset
  | tooOld
  | future
  deriving DecidableEq, Repr

def framesLen (fs : List Frame) : Nat := (fs.map Frame.len).sum

/-- The backlog. Its frames are the last ones of the history, and the byte count is theirs. -/
structure ReplicationSource where
  nextOffset : Nat
  bytesInBuf : Nat
  maxBytes : Nat
  buf : List Frame
  held : buf.length ≤ nextOffset
  numbered : Numbered Frame.offset (nextOffset - buf.length) buf
  counted : bytesInBuf = framesLen buf

namespace ReplicationSource

def new (maxBytes : Nat) : ReplicationSource where
  nextOffset := 0
  bytesInBuf := 0
  maxBytes := maxBytes
  buf := []
  held := le_rfl
  numbered := .nil
  counted := rfl

/-- The first offset that can be served: that of the front frame, or the next offset of an empty backlog. -/
def oldest (s : ReplicationSource) : Nat := s.nextOffset - s.buf.length

/-! ## Frames that leave at the front -/

/-- The eviction loop of `push_mutation`: drops frames from the front until `frameLen` more bytes fit. -/
def evictFront (maxBytes frameLen : Nat) : List Frame → Nat → List Frame × Nat
  | [], bytes => ([], bytes)
  | f :: buf, bytes =>
    if bytes + frameLen > maxBytes then evictFront maxBytes frameLen buf (bytes - f.len) else (f :: buf, bytes)

/-- The loop of `drop_up_to`: drops the front frames below the watermark. -/
def dropFront (watermark : Nat) : List Frame → Nat → List Frame × Nat
  | [], bytes => ([], bytes)
  | f :: buf, bytes =>
    if f.offset ≥ watermark then (f :: buf, bytes) else dropFront watermark buf (bytes - f.len)

/-- What is left of a buffer after some of its front frames are dropped. -/
def Rest (buf : List Frame) (r : List Frame × Nat) : Prop :=
  (∃ k, k ≤ buf.length ∧ r.1 = buf.drop k) ∧ r.2 = framesLen r.1

theorem Rest.skip {f : Frame} {buf : List Frame} {r : List Frame × Nat} (h : Rest buf r) : Rest (f :: buf) r := by
  obtain ⟨⟨k, hk, heq⟩, hbytes⟩ := h
  exact ⟨⟨k + 1, Nat.succ_le_succ hk, heq⟩, hbytes⟩

theorem Rest.all (buf : List Frame) : Rest buf (buf, framesLen buf) := ⟨⟨0, Nat.zero_le _, rfl⟩, rfl⟩

theorem framesLen_cons (f : Frame) (buf : List Frame) : framesLen (f :: buf) = f.len + framesLen buf := by
  unfold framesLen
  rw [map_cons, sum_cons]

theorem framesLen_append (fs gs : List Frame) : framesLen (fs ++ gs) = framesLen fs + framesLen gs := by
  unfold framesLen
  rw [map_append, sum_append]

theorem evictFront_rest (maxBytes frameLen : Nat) (buf : List Frame) :
    Rest buf (evictFront maxBytes frameLen buf (framesLen buf)) := by
  induction buf with
  | nil => exact Rest.all []
  | cons f buf ih =>
    unfold evictFront
    split_ifs with hfit
    · have hbytes : framesLen (f :: buf) - f.len = framesLen buf := by
        rw [framesLen_cons, Nat.add_sub_cancel_left]
      rw [hbytes]
      exact ih.skip
    · exact Rest.all (f :: buf)

theorem dropFront_rest (watermark : Nat) (buf : List Frame) : Rest buf (dropFront watermark buf (framesLen buf)) := by
  induction buf with
  | nil => exact Rest.all []
  | cons f buf ih =>
    unfold dropFront
    split_ifs with hkeep
    · exact Rest.all (f :: buf)
    · have hbytes : framesLen (f :: buf) - f.len = framesLen buf := by
        rw [framesLen_cons, Nat.add_sub_cancel_left]
      rw [hbytes]
      exact ih.skip

/-- A backlog that lost some of its front frames. -/
def keepRest (s : ReplicationSource) (r : List Frame × Nat) (h : Rest s.buf r) : ReplicationSource where
  nextOffset := s.nextOffset
  bytesInBuf := r.2
  maxBytes := s.maxBytes
  buf := r.1
  held := by
    obtain ⟨⟨k, -, heq⟩, -⟩ := h
    rw [heq, length_drop]
    exact (Nat.sub_le _ _).trans s.held
  numbered := by
    obtain ⟨⟨k, hk, heq⟩, -⟩ := h
    have hstart : s.nextOffset - s.buf.length + k = s.nextOffset - (s.buf.length - k) := by
      have := s.held
      omega
    rw [heq, length_drop, ← hstart]
    exact s.numbered.drop hk
  counted := h.2

def pushBack (s : ReplicationSource) (argv : List Bytes) : ReplicationSource where
  nextOffset := s.nextOffset + 1
  bytesInBuf := s.bytesInBuf + Frame.len ⟨s.nextOffset, argv⟩
  maxBytes := s.maxBytes
  buf := s.buf ++ [⟨s.nextOffset, argv⟩]
  held := by
    rw [length_append, length_singleton]
    exact Nat.succ_le_succ s.held
  numbered := by
    rw [length_append, length_singleton, Nat.add_sub_add_right, Numbered.append_iff, Numbered.singleton_iff]
    exact ⟨s.numbered, (Nat.sub_add_cancel s.held).symm⟩
  counted := by
    rw [framesLen_append, ← s.counted]
    rfl

/-! ## The operations -/

def maxOffset : Nat := 2 ^ 64 - 1

/-- `push_mutation`: the write becomes the next frame, with its offset; `none` is the panic when offsets run out. -/
def pushMutation (s : ReplicationSource) (argv : List Bytes) : Option (ReplicationSource × Nat) :=
  let offset := s.nextOffset
  let frameLen := Frame.len ⟨offset, argv⟩
  let room := s.keepRest (evictFront s.maxBytes frameLen s.buf s.bytesInBuf)
    (s.counted ▸ evictFront_rest s.maxBytes frameLen s.buf)
  if offset < maxOffset then some (room.pushBack argv, offset) else none

def dropUpTo (s : ReplicationSource) (watermark : Nat) : ReplicationSource :=
  s.keepRest (dropFront watermark s.buf s.bytesInBuf) (s.counted ▸ dropFront_rest watermark s.buf)

def oldestOffset (s : ReplicationSource) : Option Nat := s.buf.head?.map Frame.offset

def framesFrom (s : ReplicationSource) (from_ : Nat) : Except FromOffset (List Frame) :=
  if from_ > s.nextOffset then .error .future
  else if from_ = s.nextOffset then .ok []
  else
    match s.oldestOffset with
    | none => .error .tooOld
    | some oldest =>
      if from_ < oldest then .error .tooOld
      else .ok (s.buf.dropWhile fun f => decide (f.offset < from_))

theorem oldestOffset_eq (s : ReplicationSource) : s.oldestOffset = if s.buf = [] then none else some s.oldest := by
  unfold oldestOffset oldest
  have hnum := s.numbered
  cases hbuf : s.buf with
  | nil => rfl
  | cons f buf =>
    rw [hbuf] at hnum
    rw [head?_cons, Option.map_some, if_neg (cons_ne_nil f buf), (Numbered.cons_iff.mp hnum).1]

theorem framesFrom_eq (s : ReplicationSource) (from_ : Nat) : s.framesFrom from_ =
      if s.nextOffset < from_ then .error .future
      else if from_ < s.oldest then .error .tooOld
      else .ok (s.buf.drop (from_ - s.oldest)) := by
  unfold framesFrom
  have hheld := s.held
  by_cases hfuture : s.nextOffset < from_
  · rw [if_pos hfuture, if_pos hfuture]
  rw [if_neg hfuture, if_neg hfuture]
  by_cases hnext : from_ = s.nextOffset
  · have hold : ¬ from_ < s.oldest := by
      unfold oldest
      omega
    have hlen : s.buf.length ≤ from_ - s.oldest := by
      unfold oldest
      omega
    rw [if_pos hnext, if_neg hold, drop_eq_nil_of_le hlen]
  rw [if_neg hnext, oldestOffset_eq]
  by_cases hnil : s.buf = []
  · have hold : from_ < s.oldest := by
      unfold oldest
      rw [hnil, length_nil]
      omega
    rw [if_pos hnil, if_pos hold]
  · rw [if_neg hnil]
    show (if from_ < s.oldest then _ else _) = _
    rw [s.numbered.dropWhile_lt from_]
    rfl

variable {s : ReplicationSource}

theorem numbered_framesFrom {from_ : Nat} {fs : List Frame} (h : s.framesFrom from_ = .ok fs) :
    s.oldest ≤ from_ ∧ Numbered Frame.offset from_ fs ∧ from_ + fs.length = s.nextOffset ∧ ∀ f ∈ fs, f ∈ s.buf := by
  rw [framesFrom_eq] at h
  split_ifs at h with hfuture hold
  cases h
  have hheld := s.held
  have hnum := @Numbered.drop _ _ _ _ s.numbered (from_ - s.oldest) (by unfold oldest at *; omega)
  have hstart : s.nextOffset - s.buf.length + (from_ - s.oldest) = from_ := by
    unfold oldest at *
    omega
  rw [hstart] at hnum
  refine ⟨Nat.not_lt.mp hold, hnum, ?_, fun f hf => mem_of_mem_drop hf⟩
  rw [length_drop]
  unfold oldest at *
  omega

theorem framesFrom_of_mem {f : Frame} (hf : f ∈ s.buf) : ∃ rest, s.framesFrom f.offset = .ok (f :: rest) := by
  obtain ⟨before, rest, hbuf⟩ := append_of_mem hf
  have hheld := s.held
  have hnum := s.numbered
  have hlen : s.buf.length = before.length + (rest.length + 1) := by
    rw [hbuf, length_append, length_cons]
  have hoff : f.offset = s.oldest + before.length := by
    rw [show s.nextOffset - s.buf.length = s.oldest from rfl, hbuf, Numbered.append_iff, Numbered.cons_iff] at hnum
    exact hnum.2.1
  refine ⟨rest, ?_⟩
  rw [framesFrom_eq, if_neg (by unfold oldest at hoff; omega), if_neg (by omega), hoff, Nat.add_sub_cancel_left, hbuf,
    drop_left]

theorem pushMutation_spec {s' : ReplicationSource} {argv : List Bytes} {offset : Nat} {history : List (List Bytes)}
    (h : s.pushMutation argv = some (s', offset)) (hnext : s.nextOffset = history.length)
    (hbuf : ∀ f ∈ s.buf, history[f.offset]? = some f.argv) : s'.nextOffset = (history ++ [argv]).length ∧
      ∀ f ∈ s'.buf, (history ++ [argv])[f.offset]? = some f.argv := by
  unfold pushMutation at h
  simp only at h
  split_ifs at h with hfit
  cases h
  refine ⟨by rw [length_append, ← hnext]; rfl, fun f hf => ?_⟩
  obtain ⟨⟨k, -, heq⟩, -⟩ := evictFront_rest s.maxBytes (Frame.len ⟨s.nextOffset, argv⟩) s.buf
  rw [← s.counted] at heq
  rcases mem_append.mp hf with hf | hf
  · have hold := hbuf f (mem_of_mem_drop (by rw [← heq]; exact hf))
    rw [getElem?_append_left (List.getElem?_eq_some_iff.mp hold).1, hold]
  · rw [mem_singleton.mp hf]
    exact (congrArg (fun n => (history ++ [argv])[n]?) hnext).trans getElem?_concat_length

theorem exists_pushMutation (h : s.nextOffset < maxOffset) (argv : List Bytes) :
    ∃ s', s.pushMutation argv = some (s', s.nextOffset) ∧ ⟨s.nextOffset, argv⟩ ∈ s'.buf := by
  unfold pushMutation
  rw [if_pos h]
  exact ⟨_, rfl, mem_append_right _ mem_cons_self⟩

end ReplicationSource

end Kevy.Replicate
