import Kevy.Lib.CircularBuffer
import Kevy.Lib.Crash
import Kevy.Persist.CrashCut

/-!
# The staging ring

A small mapped file that appends land in before they reach the log: a header page and `cap` data bytes,
used as a ring over an offset that only grows. A record never straddles the end of the data area; the gap
it leaves there starts with a wrap marker, or is too short to hold one.

The module has the file, its readers (`head`, `record_at`, `record_intact`), the stores each of its writers
makes (`push`, `publish`, `create`) and the runs a drain copies. `Holds` says which records lie between two
offsets; a push keeps them and adds its own (`pushed_holds`), and every reader finds exactly them.
-/

namespace Kevy.Persist

open Kevy.Lib Kevy.Resp List

/-! ## The file and its words -/

/-- A slot of the header: the log's id, its length, the drain offset. -/
structure StageSlot where
  logId : Nat
  aofLen : Nat
  drained : Nat
  deriving DecidableEq, Repr

/-- A ring file with `cap` data bytes: the words of its header and its data area. -/
structure RingFile where
  /-- The file starts with `MAGIC`. -/
  magic : Bool
  capWord : Nat
  commit : Nat
  /-- The low bit of the selector word. -/
  select : Bool
  slots : Bool → StageSlot
  cap : Nat
  data : Nat → UInt8

structure StageHead where
  logId : Nat
  aofLen : Nat
  drained : Nat
  commit : Nat
  deriving DecidableEq, Repr

inductive RingStore
  | cap (v : Nat)
  | logId (slot : Bool) (v : Nat)
  | aofLen (slot : Bool) (v : Nat)
  | drained (slot : Bool) (v : Nat)
  | select (slot : Bool)
  | commit (v : Nat)
  | magic
  | data (off : Nat) (src : Bytes)

namespace RingFile

def mapSlot (r : RingFile) (slot : Bool) (f : StageSlot → StageSlot) : RingFile :=
  { r with slots := Function.update r.slots slot (f (r.slots slot)) }

def store : RingStore → RingFile → RingFile
  | .cap v, r => { r with capWord := v }
  | .logId slot v, r => r.mapSlot slot fun s => { s with logId := v }
  | .aofLen slot v, r => r.mapSlot slot fun s => { s with aofLen := v }
  | .drained slot v, r => r.mapSlot slot fun s => { s with drained := v }
  | .select slot, r => { r with select := slot }
  | .commit v, r => { r with commit := v }
  | .magic, r => { r with magic := true }
  | .data off src, r => { r with data := overwrite r.data off src }

/-- A store cut by a kill: bytes go one after the other, a word is stored or not. -/
def tornStore : RingStore → Nat → RingFile → RingFile
  | .data off src, k, r => { r with data := overwrite r.data off (src.take k) }
  | _, _, r => r

def zeros (cap : Nat) : RingFile where
  magic := false
  capWord := 0
  commit := 0
  select := false
  slots _ := ⟨0, 0, 0⟩
  cap := cap
  data _ := 0

def head (r : RingFile) : StageHead :=
  let s := r.slots r.select
  ⟨s.logId, s.aofLen, s.drained, r.commit⟩

def openExisting (r : RingFile) : Option StageHead :=
  if r.magic = false ∨ r.capWord ≠ r.cap then none else some r.head

/-! ## Reading -/

def logical (r : RingFile) (start len : Nat) : Bytes := slice r.data (start % r.cap) len

def headerAt (r : RingFile) (pos : Nat) : Nat × Nat :=
  let h := r.logical pos recordHeader
  (ofLe (h.take 4), ofLe (h.drop 4))

/-- Where `record_at` looks for a header: behind a wrap marker or a tail too short to hold one. -/
def skipWrap (r : RingFile) (pos : Nat) : Nat :=
  let toEnd := r.cap - pos % r.cap
  if toEnd < recordHeader ∨ r.headerAt pos = (0, 0) then pos + toEnd else pos

def recordAt (r : RingFile) (pos stop : Nat) : Option (Nat × Nat) :=
  if stop ≤ pos then none
  else
    let pos := r.skipWrap pos
    if stop < pos + recordHeader then none
    else
      let len := (r.headerAt pos).1
      let whole := recordHeader + len
      if len = 0 ∨ maxRecord < len ∨ stop < pos + whole ∨ r.cap - pos % r.cap < whole then none
      else some (pos, whole)

def recordIntact (r : RingFile) (start len : Nat) : Bool :=
  let rec_ := r.logical start len
  (crc32c (rec_.drop recordHeader)).toNat == ofLe ((rec_.drop 4).take 4)

/-- The loop of `for_each_pending`. A record takes more than eight bytes, so as many rounds as there are
undrained bytes, and one, are enough. -/
def pendingLoop (r : RingFile) (stop : Nat) : (fuel : Nat) → (run : Option (Nat × Nat)) → (pos : Nat) →
    List Bytes
  | 0, _, _ => []
  | fuel + 1, run, pos =>
    match r.recordAt pos stop with
    | none => (run.map fun sl => r.logical sl.1 sl.2).toList
    | some (start, len) =>
      match run with
      | none => pendingLoop r stop fuel (some (start, len)) (start + len)
      | some (s, l) =>
        -- a record at the front is contiguous only logically
        if s + l = start ∧ start % r.cap ≠ 0 then pendingLoop r stop fuel (some (s, l + len)) (start + len)
        else r.logical s l :: pendingLoop r stop fuel (some (start, len)) (start + len)

/-- `StageRing::for_each_pending`: the runs of whole records a drain writes. -/
def pendingRuns (r : RingFile) : List Bytes :=
  r.pendingLoop r.commit (r.commit - r.head.drained + 1) none r.head.drained

/-! ## Writing -/

/-- The bytes `push` leaves unused before a record of `len` bytes. -/
def skipFor (r : RingFile) (len : Nat) : Nat :=
  let toEnd := r.cap - r.commit % r.cap
  if toEnd < len then toEnd else 0

/-- The wrap marker `push` puts into a gap of `skip` bytes that can hold it. -/
def wrapMarker (r : RingFile) (skip : Nat) : List RingStore :=
  if recordHeader ≤ skip then [.data (r.commit % r.cap) (List.replicate recordHeader 0)] else []

/-- `StageRing::push`: the stores it makes, or `none` when there is no room. -/
def push (r : RingFile) (rec_ : Bytes) : Option (List RingStore) :=
  let skip := r.skipFor rec_.length
  if r.cap < (r.commit - r.head.drained) + skip + rec_.length then none
  else some (r.wrapMarker skip ++
    [.data ((r.commit + skip) % r.cap) rec_, .commit (r.commit + skip + rec_.length)])

def putSlot (slot : Bool) (state : StageSlot) : List RingStore :=
  [.logId slot state.logId, .aofLen slot state.aofLen, .drained slot state.drained]

def publish (r : RingFile) (state : StageSlot) : List RingStore :=
  putSlot (!r.select) state ++ [.select (!r.select)]

/-- The stores of `StageRing::create`, into a file of the right size. -/
def create (cap logId aofLen : Nat) : List RingStore :=
  .cap cap :: putSlot false ⟨logId, aofLen, 0⟩ ++ [.select false, .commit 0, .magic]

/-! ## The records between two offsets -/

/-- From `pos`, the next record starts at `start`: right there, or behind the gap at the end of the data. -/
def Leads (r : RingFile) (pos start : Nat) : Prop :=
  start = pos ∨ start = pos + (r.cap - pos % r.cap) ∧
    (r.cap - pos % r.cap < recordHeader ∨ r.headerAt pos = (0, 0))

/-- The record of `c` lies at `start`, before the end of the data area. -/
structure RecordIs (r : RingFile) (start : Nat) (c : List Bytes) : Prop where
  bytes : r.logical start (writeRecordMultibulk c).length = writeRecordMultibulk c
  fits : start % r.cap + (writeRecordMultibulk c).length ≤ r.cap

/-- The records between two offsets are those of the given frames. -/
inductive Holds (r : RingFile) : Nat → Nat → List (List Bytes) → Prop
  | nil (pos : Nat) : Holds r pos pos []
  | cons {pos start stop : Nat} {c : List Bytes} {cs : List (List Bytes)} :
    Leads r pos start → RecordIs r start c → Holds r (start + (writeRecordMultibulk c).length) stop cs →
    Holds r pos stop (c :: cs)

variable {r r' : RingFile} {pos start stop mid m fuel : Nat} {c : List Bytes} {cs : List (List Bytes)}

theorem Leads.le (h : Leads r pos start) : pos ≤ start := by
  rcases h with rfl | ⟨rfl, _⟩
  · exact le_rfl
  · exact Nat.le_add_right _ _

theorem Holds.length_le (h : Holds r pos stop cs) : pos + (records cs).length ≤ stop := by
  induction h with
  | nil => exact le_rfl
  | cons hlead _ _ ih =>
    have := hlead.le
    rw [records_cons, length_append]
    omega

theorem Holds.le (h : Holds r pos stop cs) : pos ≤ stop :=
  Nat.le_trans (Nat.le_add_right _ _) h.length_le

theorem Holds.snoc (h : Holds r pos mid cs) (hlead : Leads r mid start) (hrec : RecordIs r start c) :
    Holds r pos (start + (writeRecordMultibulk c).length) (cs ++ [c]) := by
  induction h with
  | nil => exact .cons hlead hrec (.nil _)
  | cons hlead' hrec' _ ih => exact .cons hlead' hrec' (ih hlead)

/-! ## Records read back -/

theorem length_record (c : List Bytes) : (writeRecordMultibulk c).length = recordHeader + (writeMultibulk c).length :=
  length_writeRecord _

theorem drop_record (c : List Bytes) : (writeRecordMultibulk c).drop recordHeader = writeMultibulk c :=
  drop_left' (by simp [recordHeader])

theorem logical_add (h : start % r.cap + m < r.cap) (n : Nat) :
    r.logical start (m + n) = r.logical start m ++ r.logical (start + m) n := by
  rw [logical, logical, logical, slice_add, add_mod_of_fits h]

theorem RecordIs.headerAt (h : RecordIs r start c) (hc : (writeMultibulk c).length ≤ maxRecord) :
    r.headerAt start = ((writeMultibulk c).length, (crc32c (writeMultibulk c)).toNat) := by
  have hfit := h.fits
  have hpos := writeMultibulk_length_pos c
  have hbytes := h.bytes
  rw [length_record] at hfit
  rw [length_record, logical_add (by omega)] at hbytes
  have hhead : r.logical start recordHeader =
      leBytes 4 (writeMultibulk c).length ++ leBytes 4 (crc32c (writeMultibulk c)).toNat := by
    rw [writeRecordMultibulk, writeRecord] at hbytes
    exact (append_inj hbytes (by simp [logical, recordHeader])).1
  have hlen : (writeMultibulk c).length < 256 ^ 4 := by
    rw [maxRecord] at hc
    omega
  have hcrc : (crc32c (writeMultibulk c)).toNat < 256 ^ 4 := (crc32c (writeMultibulk c)).toNat_lt
  rw [RingFile.headerAt, hhead]
  simp only [take_left', drop_left', length_leBytes, ofLe_leBytes_of_lt hlen, ofLe_leBytes_of_lt hcrc]

theorem skipWrap_leads (hlead : Leads r pos start) (hrec : RecordIs r start c) (hc : (writeMultibulk c).length ≤ maxRecord) :
    r.skipWrap pos = start := by
  unfold skipWrap
  rcases hlead with rfl | ⟨rfl, hgap⟩
  · have hfit := hrec.fits
    have hpos := writeMultibulk_length_pos c
    rw [length_record] at hfit
    have hroom : ¬ r.cap - start % r.cap < recordHeader := by omega
    have hhead : r.headerAt start ≠ (0, 0) := by
      rw [hrec.headerAt hc]
      intro hzero
      have := (Prod.mk.inj hzero).1
      omega
    rw [if_neg (by rw [not_or]; exact ⟨hroom, hhead⟩)]
  · rw [if_pos hgap]

theorem recordAt_record (hlead : Leads r pos start) (hrec : RecordIs r start c) (hc : (writeMultibulk c).length ≤ maxRecord)
    (hstop : start + (writeRecordMultibulk c).length ≤ stop) :
    r.recordAt pos stop = some (start, (writeRecordMultibulk c).length) := by
  have hle := hlead.le
  have hfit := hrec.fits
  have hpos := writeMultibulk_length_pos c
  rw [length_record] at hfit hstop ⊢
  simp only [recordAt, skipWrap_leads hlead hrec hc, hrec.headerAt hc]
  rw [if_neg (by omega), if_neg (by omega), if_neg (by omega)]

theorem recordAt_nil (h : Holds r pos stop []) : r.recordAt pos stop = none := by
  cases h
  rw [recordAt, if_pos le_rfl]

theorem Holds.recordAt (h : Holds r pos stop (c :: cs)) (hc : (writeMultibulk c).length ≤ maxRecord) :
    ∃ start, r.recordAt pos stop = some (start, (writeRecordMultibulk c).length) ∧ RecordIs r start c ∧
      pos ≤ start ∧ Holds r (start + (writeRecordMultibulk c).length) stop cs := by
  cases h with
  | @cons _ start _ _ _ hlead hrec hrest =>
    exact ⟨start, recordAt_record hlead hrec hc hrest.le, hrec, hlead.le, hrest⟩

theorem RecordIs.intact (h : RecordIs r start c) : r.recordIntact start (writeRecordMultibulk c).length = true := by
  have hcrc : (crc32c (writeMultibulk c)).toNat < 256 ^ 4 := (crc32c (writeMultibulk c)).toNat_lt
  have hsum : ((writeRecordMultibulk c).drop 4).take 4 = leBytes 4 (crc32c (writeMultibulk c)).toNat := by
    simp [writeRecordMultibulk, writeRecord]
  rw [recordIntact, h.bytes, drop_record, hsum, ofLe_leBytes_of_lt hcrc]
  exact beq_self_eq_true _

/-! ## The runs of a drain -/

def runBytes (r : RingFile) (run : Option (Nat × Nat)) : Bytes :=
  (run.map fun sl => r.logical sl.1 sl.2).getD []

def RunFits (r : RingFile) (run : Option (Nat × Nat)) : Prop :=
  ∀ sl, run = some sl → sl.1 % r.cap + sl.2 ≤ r.cap

theorem runFits_some {s l : Nat} (h : s % r.cap + l ≤ r.cap) : RunFits r (some (s, l)) := by
  intro sl hsl
  cases hsl
  exact h

theorem flatten_pendingLoop (h : Holds r pos stop cs) {fuel : Nat} {run : Option (Nat × Nat)}
    (hok : ∀ c ∈ cs, (writeMultibulk c).length ≤ maxRecord) (hfuel : stop - pos < fuel) (hfits : RunFits r run) :
    (r.pendingLoop stop fuel run pos).flatten = r.runBytes run ++ records cs := by
  induction h generalizing fuel run with
  | nil pos =>
    obtain ⟨fuel, rfl⟩ : ∃ f, fuel = f + 1 := ⟨fuel - 1, by omega⟩
    rw [pendingLoop, recordAt_nil (.nil pos)]
    cases run <;> simp [runBytes]
  | @cons pos start stop c cs hlead hrec hrest ih =>
    have hc := hok c mem_cons_self
    have hcs := (forall_mem_cons.mp hok).2
    have hle := hlead.le
    have hstop := hrest.le
    have hpos := length_writeRecordMultibulk_pos c
    obtain ⟨fuel, rfl⟩ : ∃ f, fuel = f + 1 := ⟨fuel - 1, by omega⟩
    have hnext := @ih fuel _ hcs (by omega) (runFits_some hrec.fits)
    have hone : r.runBytes (some (start, (writeRecordMultibulk c).length)) = writeRecordMultibulk c := hrec.bytes
    rw [hone] at hnext
    rw [pendingLoop, recordAt_record hlead hrec hc hstop, records_cons]
    cases run with
    | none => exact hnext
    | some sl =>
      obtain ⟨s, l⟩ := sl
      show (if s + l = start ∧ start % r.cap ≠ 0 then _ else _ :: _ : List Bytes).flatten = _
      have hrun : s % r.cap + l ≤ r.cap := hfits _ rfl
      split_ifs with hmerge
      · -- the run goes on: it did not end at the end of the data area
        obtain ⟨rfl, hzero⟩ := hmerge
        have hin : s % r.cap + l < r.cap := by
          refine Nat.lt_of_le_of_ne hrun fun heq => hzero ?_
          rw [← Nat.mod_add_mod, heq, Nat.mod_self]
        have hlong : s % r.cap + (l + (writeRecordMultibulk c).length) ≤ r.cap := by
          have := hrec.fits
          rw [add_mod_of_fits hin] at this
          omega
        rw [ih hcs (by omega) (runFits_some hlong)]
        show r.logical s (l + _) ++ _ = r.logical s l ++ _
        rw [logical_add hin, hrec.bytes, append_assoc]
      · rw [flatten_cons, hnext]
        rfl

/-! ## Data the records do not depend on -/

theorem logical_congr {len : Nat} (hcap : r'.cap = r.cap) (hfit : start % r.cap + len ≤ r.cap)
    (hdata : ∀ q, start ≤ q → q < start + len → r'.data (q % r.cap) = r.data (q % r.cap)) :
    r'.logical start len = r.logical start len := by
  rw [logical, logical, hcap]
  apply slice_congr
  intro i hi
  have := hdata (start + i) (by omega) (by omega)
  rwa [add_mod_of_fits (by omega)] at this

theorem Leads.congr (h : Leads r pos start) (hcap : r'.cap = r.cap)
    (hdata : ∀ q, pos ≤ q → q < start → r'.data (q % r.cap) = r.data (q % r.cap)) : Leads r' pos start := by
  rcases h with rfl | ⟨rfl, hgap⟩
  · exact .inl rfl
  · rw [Leads, hcap]
    refine .inr ⟨rfl, ?_⟩
    by_cases hshort : r.cap - pos % r.cap < recordHeader
    · exact .inl hshort
    · have hsame : r'.headerAt pos = r.headerAt pos := by
        have hfit : pos % r.cap + recordHeader ≤ r.cap := by
          rw [recordHeader] at hshort ⊢
          omega
        rw [headerAt, headerAt, logical_congr hcap hfit fun q h1 h2 => hdata q h1 (by omega)]
      exact .inr (hsame.trans (hgap.resolve_left hshort))

theorem RecordIs.congr (h : RecordIs r start c) (hcap : r'.cap = r.cap)
    (hdata : ∀ q, start ≤ q → q < start + (writeRecordMultibulk c).length →
      r'.data (q % r.cap) = r.data (q % r.cap)) : RecordIs r' start c where
  bytes := (logical_congr hcap h.fits hdata).trans h.bytes
  fits := by rw [hcap]; exact h.fits

theorem Holds.congr (h : Holds r pos stop cs) (hcap : r'.cap = r.cap)
    (hdata : ∀ q, pos ≤ q → q < stop → r'.data (q % r.cap) = r.data (q % r.cap)) : Holds r' pos stop cs := by
  induction h with
  | nil => exact .nil _
  | @cons pos start stop c cs hlead hrec hrest ih =>
    have h1 := hlead.le
    have h2 := hrest.le
    exact .cons (hlead.congr hcap fun q hq hq' => hdata q hq (by omega))
      (hrec.congr hcap fun q hq hq' => hdata q (by omega) (by omega))
      (ih fun q hq hq' => hdata q (by omega) hq')

/-! ## What the ring owes -/

def Valid (r : RingFile) : Prop := r.magic = true ∧ r.capWord = r.cap

theorem openExisting_valid (h : r.Valid) : r.openExisting = some r.head := by
  rw [openExisting, if_neg]
  rw [h.1, h.2]
  simp

theorem openExisting_invalid (h : ¬ r.Valid) : r.openExisting = none := by
  rw [openExisting, if_pos]
  by_contra hcon
  rw [not_or, Bool.not_eq_false, ne_eq, not_not] at hcon
  exact h hcon

/-- The undrained records are those of `cs`, and they fit. -/
structure Pending (r : RingFile) (cs : List (List Bytes)) : Prop where
  holds : Holds r r.head.drained r.commit cs
  window : r.commit ≤ r.head.drained + r.cap
  ok : ∀ c ∈ cs, FrameOk c

/-- The file with other data, though not where the undrained records are. -/
def Beside (r r' : RingFile) : Prop :=
  ∃ data, r' = { r with data } ∧
    ∀ q, r.head.drained ≤ q → q < r.commit → data (q % r.cap) = r.data (q % r.cap)

theorem Pending.beside (h : Pending r cs) (hr : Beside r r') : Pending r' cs := by
  obtain ⟨data, rfl, hdata⟩ := hr
  exact ⟨h.holds.congr rfl hdata, h.window, h.ok⟩

theorem Beside.head (h : Beside r r') : r'.head = r.head := by
  obtain ⟨data, rfl, _⟩ := h
  rfl

theorem Beside.valid (h : Beside r r') (hr : r.Valid) : r'.Valid := by
  obtain ⟨data, rfl, _⟩ := h
  exact hr

theorem pending_nil : r.Pending [] ↔ r.head.drained = r.commit := by
  constructor
  · intro h
    have hnil := h.holds
    generalize r.head.drained = d at hnil
    cases hnil
    rfl
  · intro h
    refine ⟨?_, by omega, by simp⟩
    rw [h]
    exact .nil _

theorem Pending.length_le (h : r.Pending cs) : (records cs).length ≤ r.cap := by
  have := h.holds.length_le
  have := h.window
  omega

theorem Pending.flatten_runs (h : Pending r cs) : r.pendingRuns.flatten = records cs := by
  rw [pendingRuns, flatten_pendingLoop h.holds (fun c hc => (h.ok c hc).fits) (Nat.lt_succ_self _)]
  · rfl
  · intro sl hsl
    cases hsl

theorem keeps_data {p : Nat} {src : Bytes} (hp : r.commit ≤ p) (hfit : p % r.cap + src.length ≤ r.cap)
    (hwin : p + src.length ≤ r.head.drained + r.cap) : Keeps store tornStore (Beside r) (.data (p % r.cap) src) := by
  have hkeep : ∀ xs : Bytes, xs.length ≤ src.length → ∀ s, Beside r s →
      Beside r { s with data := overwrite s.data (p % r.cap) xs } := by
    rintro xs hxs _ ⟨data, rfl, hdata⟩
    refine ⟨overwrite data (p % r.cap) xs, rfl, fun q h1 h2 => ?_⟩
    rw [overwrite_behind (by omega) (by omega) (by omega)]
    exact hdata q h1 h2
  intro s hs
  refine ⟨hkeep src le_rfl s hs, fun k => hkeep (src.take k) ?_ s hs⟩
  rw [length_take]
  exact Nat.min_le_right _ _

/-! ## A push -/

theorem skipFor_cases (len : Nat) : r.skipFor len = 0 ∧ len ≤ r.cap - r.commit % r.cap ∨
    r.skipFor len = r.cap - r.commit % r.cap ∧ r.cap - r.commit % r.cap < len := by
  simp only [skipFor]
  split_ifs with h
  · exact .inr ⟨rfl, h⟩
  · exact .inl ⟨rfl, Nat.not_lt.mp h⟩

theorem push_fits (hcap : 0 < r.cap) {len : Nat} (hlen : len ≤ r.cap) :
    (r.commit + r.skipFor len) % r.cap + len ≤ r.cap := by
  have hlt := Nat.mod_lt r.commit hcap
  rcases @skipFor_cases r len with ⟨h, hroom⟩ | ⟨h, _⟩
  · rw [h, Nat.add_zero]
    omega
  · have hend : (r.commit + (r.cap - r.commit % r.cap)) % r.cap = 0 := by
      rw [← Nat.mod_add_mod, Nat.add_sub_cancel' (by omega), Nat.mod_self]
    rw [h, hend]
    omega

variable {rec_ : Bytes}

theorem push_eq {stores : List RingStore} (h : r.push rec_ = some stores) :
    (r.commit - r.head.drained) + r.skipFor rec_.length + rec_.length ≤ r.cap ∧
    stores = (r.wrapMarker (r.skipFor rec_.length) ++ [.data ((r.commit + r.skipFor rec_.length) % r.cap) rec_]) ++
      [.commit (r.commit + r.skipFor rec_.length + rec_.length)] := by
  simp only [push] at h
  split_ifs at h with hroom
  exact ⟨Nat.not_lt.mp hroom, by simpa using h.symm⟩

variable {stores : List RingStore}

theorem keeps_push (hcap : 0 < r.cap) (hle : r.head.drained ≤ r.commit)
    (hroom : (r.commit - r.head.drained) + r.skipFor rec_.length + rec_.length ≤ r.cap) :
    ∀ op ∈ r.wrapMarker (r.skipFor rec_.length) ++
      [.data ((r.commit + r.skipFor rec_.length) % r.cap) rec_], Keeps store tornStore (Beside r) op := by
  intro op hop
  rcases mem_append.mp hop with hop | hop
  · unfold wrapMarker at hop
    split_ifs at hop with hskip
    · obtain rfl := mem_singleton.mp hop
      rw [recordHeader] at hskip
      rcases @skipFor_cases r rec_.length with ⟨h, _⟩ | ⟨h, _⟩
      · omega
      · apply keeps_data le_rfl
        · rw [length_replicate, recordHeader]
          omega
        · rw [length_replicate, recordHeader]
          omega
    · exact absurd hop not_mem_nil
  · obtain rfl := mem_singleton.mp hop
    exact keeps_data (Nat.le_add_right _ _) (push_fits hcap (by omega)) (by omega)

theorem Beside.refl (r : RingFile) : Beside r r := ⟨r.data, rfl, fun _ _ _ => rfl⟩

theorem recordIs_store (p : Nat) (hfit : p % r.cap + (writeRecordMultibulk c).length ≤ r.cap) :
    RecordIs (store (.data (p % r.cap) (writeRecordMultibulk c)) r) p c :=
  ⟨slice_overwrite, hfit⟩

theorem leads_push (hcap : 0 < r.cap)
    (hroom : (r.commit - r.head.drained) + r.skipFor rec_.length + rec_.length ≤ r.cap) :
    Leads (runAll store (r.wrapMarker (r.skipFor rec_.length) ++
      [.data ((r.commit + r.skipFor rec_.length) % r.cap) rec_]) r) r.commit (r.commit + r.skipFor rec_.length) := by
  have hfit := @push_fits r hcap rec_.length (by omega)
  have hlt := Nat.mod_lt r.commit hcap
  rcases @skipFor_cases r rec_.length with ⟨h, _⟩ | ⟨h, _⟩
  · rw [h]
    exact .inl rfl
  rw [h] at hfit hroom ⊢
  by_cases hshort : r.cap - r.commit % r.cap < recordHeader
  · rw [wrapMarker, if_neg (by omega)]
    exact .inr ⟨rfl, .inl hshort⟩
  · -- the marker is stored first, and the record behind it does not reach it
    rw [wrapMarker, if_pos (by omega)]
    refine .inr ⟨rfl, .inr ?_⟩
    have hmarked : (store (.data (r.commit % r.cap) (List.replicate recordHeader 0)) r).logical r.commit
        recordHeader = List.replicate recordHeader 0 := by
      show slice (overwrite r.data _ (List.replicate recordHeader 0)) _ recordHeader = _
      exact slice_overwrite
    have hgap : r.commit % r.cap + recordHeader ≤ r.cap := by omega
    have hread : (store (.data ((r.commit + (r.cap - r.commit % r.cap)) % r.cap) rec_)
        (store (.data (r.commit % r.cap) (List.replicate recordHeader 0)) r)).logical r.commit recordHeader =
        (store (.data (r.commit % r.cap) (List.replicate recordHeader 0)) r).logical r.commit recordHeader := by
      refine logical_congr rfl hgap fun q h1 h2 => ?_
      exact overwrite_behind (by omega) (by omega) hfit
    rw [singleton_append, runAll_cons, runAll_cons, runAll_nil, headerAt, hread, hmarked]
    rfl

theorem push_holds (hcap : 0 < r.cap) (hle : r.head.drained ≤ r.commit)
    (hpush : r.push (writeRecordMultibulk c) = some stores) : ∃ data commit, runAll store stores r = { r with data, commit } ∧
      Beside r { r with data } ∧ commit ≤ r.head.drained + r.cap ∧ ∀ pos cs, r.head.drained ≤ pos →
        Holds r pos r.commit cs → Holds { r with data, commit } pos commit (cs ++ [c]) := by
  obtain ⟨hroom, rfl⟩ := push_eq hpush
  have hkeeps := keeps_push hcap hle hroom
  have hleads := leads_push hcap hroom
  rw [runAll_append]
  have hbeside := runAll_keeps hkeeps (Beside.refl r)
  have hrec : RecordIs (runAll store (r.wrapMarker (r.skipFor (writeRecordMultibulk c).length) ++
      [.data ((r.commit + r.skipFor (writeRecordMultibulk c).length) % r.cap) (writeRecordMultibulk c)]) r)
      (r.commit + r.skipFor (writeRecordMultibulk c).length) c := by
    have hmarker := runAll_keeps (fun op hop => hkeeps op (mem_append_left _ hop)) (Beside.refl r)
    have hcapr : (runAll store (r.wrapMarker (r.skipFor (writeRecordMultibulk c).length)) r).cap = r.cap := by
      obtain ⟨data, hdata, _⟩ := hmarker
      rw [hdata]
    rw [runAll_append]
    have hstored := @recordIs_store (runAll store (r.wrapMarker (r.skipFor (writeRecordMultibulk c).length)) r)
      c (r.commit + r.skipFor (writeRecordMultibulk c).length)
    rw [hcapr] at hstored
    exact hstored (push_fits hcap (by omega))
  generalize runAll store _ r = r1 at hleads hbeside hrec
  have hside := hbeside
  obtain ⟨data, rfl, hdata⟩ := hbeside
  refine ⟨data, _, rfl, hside, by omega, fun pos cs hpos hholds => ?_⟩
  have hold : Holds { r with data } pos r.commit cs :=
    hholds.congr rfl fun q hq hlt => hdata q (Nat.le_trans hpos hq) hlt
  exact (hold.snoc hleads hrec).congr rfl fun _ _ _ => rfl

theorem Pending.push (h : Pending r cs) (hcap : 0 < r.cap) (hc : FrameOk c)
    (hpush : r.push (writeRecordMultibulk c) = some stores) :
    ∃ data commit, runAll store stores r = { r with data, commit } ∧ Pending { r with data, commit } (cs ++ [c]) := by
  obtain ⟨data, commit, hrun, -, hwin, hholds⟩ := push_holds hcap h.holds.le hpush
  exact ⟨data, commit, hrun, hholds _ _ le_rfl h.holds, hwin, forall_mem_append.mpr ⟨h.ok, by simpa using hc⟩⟩

theorem crashes_push (h : Pending r cs) (hcap : 0 < r.cap)
    (hpush : r.push rec_ = some stores) (hr : Crashes store tornStore stores r r') :
    Beside r r' ∨ r' = runAll store stores r := by
  obtain ⟨hroom, rfl⟩ := push_eq hpush
  have hkeeps := keeps_push hcap h.holds.le hroom
  rcases hr.append with hr | hr
  · exact .inl (hr.keeps hkeeps (Beside.refl r))
  · have hdata := runAll_keeps hkeeps (Beside.refl r)
    rw [runAll_append]
    rcases hr.singleton with rfl | ⟨k, rfl⟩ | rfl
    · exact .inl hdata
    · exact .inl hdata
    · exact .inr rfl

/-! ## A new header -/

def Aside (r r' : RingFile) : Prop := ∃ s, r' = { r with slots := Function.update r.slots (!r.select) s }

theorem Aside.refl (r : RingFile) : Aside r r := ⟨r.slots (!r.select), by rw [Function.update_eq_self]⟩

theorem Aside.head (h : Aside r r') : r'.head = r.head := by
  obtain ⟨s, rfl⟩ := h
  simp [RingFile.head]

theorem Aside.valid (h : Aside r r') (hr : r.Valid) : r'.Valid := by
  obtain ⟨s, rfl⟩ := h
  exact hr

theorem Pending.aside (h : Pending r cs) (hr : Aside r r') : Pending r' cs := by
  have hhead := hr.head
  obtain ⟨s, rfl⟩ := hr
  refine ⟨?_, ?_, h.ok⟩
  · rw [hhead]
    exact h.holds.congr rfl fun _ _ _ => rfl
  · rw [hhead]
    exact h.window

theorem keeps_putSlot (state : StageSlot) :
    ∀ op ∈ putSlot (!r.select) state, Keeps store tornStore (Aside r) op := by
  intro op hop s hs
  obtain ⟨t, rfl⟩ := hs
  simp only [putSlot, mem_cons, not_mem_nil, or_false] at hop
  rcases hop with rfl | rfl | rfl <;>
    exact ⟨⟨_, by simp only [store, mapSlot, Function.update_idem]; rfl⟩, fun _ => ⟨t, rfl⟩⟩

theorem runAll_publish (state : StageSlot) : runAll store (r.publish state) r =
    { r with select := !r.select, slots := Function.update r.slots (!r.select) state } := by
  simp [publish, putSlot, store, mapSlot]

theorem crashes_publish {state : StageSlot} (hr : Crashes store tornStore (r.publish state) r r') :
    Aside r r' ∨ r' = runAll store (r.publish state) r := by
  have hkeeps := @keeps_putSlot r state
  rw [publish] at hr
  rcases hr.append with hr | hr
  · exact .inl (hr.keeps hkeeps (Aside.refl r))
  · have haside := runAll_keeps hkeeps (Aside.refl r)
    rcases hr.singleton with rfl | ⟨k, rfl⟩ | rfl
    · exact .inl haside
    · exact .inl haside
    · rw [publish, runAll_append]
      exact .inr rfl

/-! ## The ring as a queue -/

/-- The records from an offset on are those of the frames `cs`. -/
def Rest (r : RingFile) (pos : Nat) (cs : List (List Bytes)) : Prop :=
  Holds r pos r.commit cs ∧ ∀ c ∈ cs, (writeMultibulk c).length ≤ maxRecord

/-- The rings that pushes, reads and drained marks lead to: the frames pushed and not marked drained, and for the
offset each `for_each_pending` returned those pushed since. -/
inductive Staging (cap : Nat) : RingFile → List (List Bytes) → List (Nat × List (List Bytes)) → Prop
  | create {r : RingFile} (logId aofLen : Nat) : r.cap = cap →
    Staging cap (runAll store (create cap logId aofLen) r) [] []
  | push {r : RingFile} {cs : List (List Bytes)} {reads : List (Nat × List (List Bytes))} {c : List Bytes}
    {stores : List RingStore} : Staging cap r cs reads → (writeMultibulk c).length ≤ maxRecord →
    r.push (writeRecordMultibulk c) = some stores →
    Staging cap (runAll store stores r) (cs ++ [c]) (reads.map fun m => (m.1, m.2 ++ [c]))
  | read {r : RingFile} {cs : List (List Bytes)} {reads : List (Nat × List (List Bytes))} :
    Staging cap r cs reads → Staging cap r cs ((r.commit, []) :: reads)
  | mark {r : RingFile} {cs : List (List Bytes)} {reads : List (Nat × List (List Bytes))} {upto : Nat}
    {rest : List (List Bytes)} (logId aofLen : Nat) : Staging cap r cs reads → (upto, rest) ∈ reads →
    r.head.drained ≤ upto → Staging cap (runAll store (r.publish ⟨logId, aofLen, upto⟩) r) rest reads

variable {cap : Nat} {reads : List (Nat × List (List Bytes))}

structure Queued (cap : Nat) (r : RingFile) (cs : List (List Bytes)) (reads : List (Nat × List (List Bytes))) :
    Prop where
  cap : r.cap = cap
  window : r.commit ≤ r.head.drained + r.cap
  pending : r.Rest r.head.drained cs
  reads : ∀ m ∈ reads, r.head.drained ≤ m.1 → r.Rest m.1 m.2

theorem Staging.queued (h : Staging cap r cs reads) (hcap : 0 < cap) : Queued cap r cs reads := by
  induction h with
  | @create r logId aofLen hr =>
    have hempty : (runAll store (RingFile.create cap logId aofLen) r).head.drained = 0 := by
      simp [RingFile.create, putSlot, store, mapSlot, head]
    refine ⟨hr, Nat.zero_le _, ⟨?_, nofun⟩, nofun⟩
    rw [hempty]
    exact .nil 0
  | @push r cs reads c stores _ hc hpush ih =>
    obtain ⟨data, commit, hrun, -, hwin, hholds⟩ := push_holds (ih.cap ▸ hcap) ih.pending.1.le hpush
    have hrest : ∀ pos ds, r.head.drained ≤ pos → r.Rest pos ds → Rest { r with data, commit } pos (ds ++ [c]) :=
      fun pos ds hpos hds => ⟨hholds pos ds hpos hds.1, forall_mem_append.mpr ⟨hds.2, by simpa using hc⟩⟩
    rw [hrun]
    refine ⟨ih.cap, hwin, hrest _ _ le_rfl ih.pending, fun m hm hle => ?_⟩
    obtain ⟨m, hm', rfl⟩ := mem_map.mp hm
    exact hrest _ _ hle (ih.reads m hm' hle)
  | read _ ih => exact ⟨ih.cap, ih.window, ih.pending, forall_mem_cons.mpr ⟨fun _ => ⟨.nil _, nofun⟩, ih.reads⟩⟩
  | @mark r cs reads upto rest logId aofLen _ hmem hle ih =>
    have hrest : ∀ {pos ds}, r.Rest pos ds → Rest (runAll store (r.publish ⟨logId, aofLen, upto⟩) r) pos ds := by
      intro pos ds hds
      rw [runAll_publish]
      exact ⟨hds.1.congr rfl fun _ _ _ => rfl, hds.2⟩
    have hdrained : (runAll store (r.publish ⟨logId, aofLen, upto⟩) r).head.drained = upto := by
      rw [runAll_publish]
      simp [head]
    have hwin := ih.window
    refine ⟨?_, ?_, ?_, ?_⟩
    · rw [runAll_publish]
      exact ih.cap
    · rw [hdrained, runAll_publish]
      show r.commit ≤ upto + r.cap
      omega
    · rw [hdrained]
      exact hrest (ih.reads _ hmem hle)
    · rw [hdrained]
      exact fun m hm hto => hrest (ih.reads m hm (Nat.le_trans hle hto))

end RingFile

end Kevy.Persist
