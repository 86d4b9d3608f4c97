import Kevy.Lib.CircularBuffer
import Kevy.Lib.LittleEndian
import Kevy.Resp.Basic

/-!
# The packed row

The values of a declared row share one buffer: the column count, a bitmap of the columns that are present, the end
of every column in the payload, and the payload. What a call reads is where `build` put it, and a write to one column
leaves the places of all others alone.
-/

namespace Kevy.Store

open Kevy.Lib Kevy.Resp List Option

def packedMax : Nat := 65535

/-- `PackedRow`, with the length of its buffer. -/
structure PackedRow where
  cols : List Bytes
  size : Nat
  buf : Nat → UInt8

/-- `ncol.div_ceil(8)`. -/
def bitmapLen (ncol : Nat) : Nat := (ncol + 7) / 8

def headerLen (ncol : Nat) : Nat := 2 + bitmapLen ncol + ncol * 2

def bit (i : Nat) : UInt8 := 1 <<< UInt8.ofNat (i % 8)

def width (c : Option Bytes) : Nat := (c.getD []).length

def total (cols : List (Option Bytes)) : Nat := (cols.map width).sum

/-- One turn of the loop of `build`, for column `i`; `stop` is `end`. -/
def putColumn (ncol i stop : Nat) (c : Option Bytes) (buf : Nat → UInt8) : Nat → UInt8 :=
  let buf := match c with
    | some v => overwrite (overwrite buf (2 + i / 8) [buf (2 + i / 8) ||| bit i]) (headerLen ncol + stop) v
    | none => buf
  overwrite buf (2 + bitmapLen ncol + i * 2) (leBytes 2 (stop + width c))

def putColumns (ncol : Nat) (i stop : Nat) (cols : List (Option Bytes)) (buf : Nat → UInt8) : Nat → UInt8 :=
  match cols with
  | [] => buf
  | c :: rest => putColumns ncol (i + 1) (stop + width c) rest (putColumn ncol i stop c buf)

namespace PackedRow

def build (names : List Bytes) (cols : List (Option Bytes)) : Option PackedRow :=
  if cols.length ≤ 65535 ∧ total cols ≤ packedMax then
    let buf := overwrite (fun _ => 0) 0 (leBytes 2 cols.length)
    some ⟨names, headerLen cols.length + total cols, putColumns cols.length 0 0 cols buf⟩
  else none

def columns (row : PackedRow) : Nat := ofLe (slice row.buf 0 2)

def has (row : PackedRow) (i : Nat) : Bool := i < row.columns && row.buf (2 + i / 8) &&& bit i != 0

/-- `end_at`. -/
def endAt (row : PackedRow) (j : Nat) : Nat := ofLe (slice row.buf (2 + bitmapLen row.columns + j * 2) 2)

def start (row : PackedRow) (i : Nat) : Nat := if i = 0 then 0 else row.endAt (i - 1)

def get (row : PackedRow) (i : Nat) : Option Bytes :=
  if row.has i then some (slice row.buf (headerLen row.columns + row.start i) (row.endAt i - row.start i)) else none

def setSameWidth (row : PackedRow) (i : Nat) (v : Bytes) : PackedRow × Bool :=
  match row.get i with
  | none => (row, false)
  | some old =>
    if old.length ≠ v.length then (row, false)
    else ({ row with buf := overwrite row.buf (headerLen row.columns + row.start i) v }, true)

def withColumn (row : PackedRow) (i : Nat) (v : Option Bytes) : Option PackedRow :=
  let cols := (List.range row.columns).map row.get
  if i < cols.length then build row.cols (cols.set i v) else none

end PackedRow

/-! ## Where the columns are -/

/-- The columns `L`, the first of `ncol`, are in their places. -/
structure Packs (ncol : Nat) (L : List (Option Bytes)) (buf : Nat → UInt8) : Prop where
  count : slice buf 0 2 = leBytes 2 ncol
  marks : ∀ j < ncol, (buf (2 + j / 8) &&& bit j != 0) = L[j]?.join.isSome
  ends : ∀ j < L.length, slice buf (2 + bitmapLen ncol + j * 2) 2 = leBytes 2 (total (L.take (j + 1)))
  payload : ∀ {j v}, L[j]? = some (some v) → slice buf (headerLen ncol + total (L.take j)) v.length = v

variable {c : Option Bytes} {cols L : List (Option Bytes)} {buf : Nat → UInt8} {i j stop ncol : Nat} {v : Bytes}

theorem total_append {R : List (Option Bytes)} : total (L ++ R) = total L + total R := by
  rw [total, map_append, sum_append, total, total]

theorem total_take_le_total : total (L.take i) ≤ total L := by
  conv_rhs => rw [← take_append_drop i L, total_append]
  exact Nat.le_add_right _ _

theorem total_take_succ (h : L[j]? = some c) : total (L.take (j + 1)) = total (L.take j) + width c := by
  rw [take_add_one, h, total_append]
  rfl

theorem total_take_add_width_le (h : L[j]? = some c) (hji : j < i) : total (L.take j) + width c ≤ total (L.take i) := by
  rw [← total_take_succ h, ← Nat.min_eq_left (show j + 1 ≤ i from hji), ← take_take]
  exact total_take_le_total

theorem slice_overwrite_leBytes (w n : Nat) : slice (overwrite buf i (leBytes w n)) i w = leBytes w n := by
  have hslice : slice (overwrite buf i (leBytes w n)) i (leBytes w n).length = leBytes w n := slice_overwrite
  rwa [length_leBytes] at hslice

theorem bit_and_bit (i j : Nat) : (bit i &&& bit j != 0) = decide (i % 8 = j % 8) := by
  have hall : ∀ a < 8, ∀ b < 8,
      (((1 : UInt8) <<< UInt8.ofNat a) &&& (1 <<< UInt8.ofNat b) != 0) = decide (a = b) := by decide
  exact hall _ (Nat.mod_lt _ (by decide)) _ (Nat.mod_lt _ (by decide))

theorem or_and_ne_zero (x y z : UInt8) : ((x ||| y) &&& z != 0) = ((x &&& z != 0) || (y &&& z != 0)) := by
  have hdist : (x ||| y) &&& z = (x &&& z) ||| (y &&& z) := by
    apply UInt8.toBitVec_inj.mp
    ext k
    simp [Bool.and_or_distrib_right]
  rw [hdist, Bool.eq_iff_iff, Bool.or_eq_true, bne_iff_ne, bne_iff_ne, bne_iff_ne, Ne, UInt8.or_eq_zero_iff,
    Classical.not_and_iff_not_or_not]

theorem div_lt_bitmapLen (h : i < ncol) : i / 8 < bitmapLen ncol := by
  unfold bitmapLen
  omega

/-- What one turn leaves alone: the count, the ends so far and the payload so far. -/
theorem putColumn_outside {k : Nat} (hi : i < ncol)
    (hk : k < 2 ∨ 2 + bitmapLen ncol ≤ k ∧ k < 2 + bitmapLen ncol + i * 2 ∨
      headerLen ncol ≤ k ∧ k < headerLen ncol + stop) : putColumn ncol i stop c buf k = buf k := by
  have hdiv := div_lt_bitmapLen hi
  rw [headerLen] at hk
  cases c with
  | none => exact overwrite_outside (by rw [length_leBytes]; omega)
  | some v =>
    dsimp only [putColumn]
    rw [overwrite_outside (by rw [length_leBytes]; omega), overwrite_outside (by rw [headerLen]; omega),
      overwrite_outside (by rw [length_singleton]; omega)]

theorem putColumn_bitmap {k : Nat} (hk : k < bitmapLen ncol) : putColumn ncol i stop c buf (2 + k) =
    if c.isSome ∧ k = i / 8 then buf (2 + k) ||| bit i else buf (2 + k) := by
  cases c with
  | none => exact overwrite_outside (by omega)
  | some v =>
    dsimp only [putColumn]
    rw [overwrite_outside (by omega), overwrite_outside (by rw [headerLen]; omega)]
    simp only [isSome_some, true_and]
    split_ifs with heq
    · simp [overwrite, heq]
    · exact overwrite_outside (by rw [length_singleton]; omega)

theorem slice_putColumn_ends :
    slice (putColumn ncol i stop c buf) (2 + bitmapLen ncol + i * 2) 2 = leBytes 2 (stop + width c) :=
  slice_overwrite_leBytes _ _

theorem slice_putColumn_payload (hi : i < ncol) :
    slice (putColumn ncol i stop (some v) buf) (headerLen ncol + stop) v.length = v := by
  dsimp only [putColumn]
  rw [slice_overwrite_of_disjoint (by rw [length_leBytes, headerLen]; omega), slice_overwrite]

theorem mark_putColumn (hj : j < ncol) : (putColumn ncol i stop c buf (2 + j / 8) &&& bit j != 0) =
    ((buf (2 + j / 8) &&& bit j != 0) || (c.isSome && decide (i = j))) := by
  rw [putColumn_bitmap (div_lt_bitmapLen hj)]
  split_ifs with h
  · have hiff : i = j ↔ i % 8 = j % 8 := by omega
    rw [or_and_ne_zero, bit_and_bit, h.1, Bool.true_and, decide_eq_decide.mpr hiff]
  · have hne : (c.isSome && decide (i = j)) = false := by
      rw [Bool.and_eq_false_iff, decide_eq_false_iff_not, ← Bool.not_eq_true, ← not_and_or]
      exact fun hij => h ⟨hij.1, by rw [hij.2]⟩
    rw [hne, Bool.or_false]

theorem Packs.put (h : Packs ncol L buf) (hlt : L.length < ncol) (c : Option Bytes) :
    Packs ncol (L ++ [c]) (putColumn ncol L.length (total L) c buf) where
  count := (slice_congr fun _ _ => putColumn_outside hlt (by omega)).trans h.count
  marks j hj := by
    rw [mark_putColumn hj, h.marks j hj]
    rcases Nat.lt_trichotomy j L.length with hjl | rfl | hjl
    · rw [getElem?_append_left hjl, decide_eq_false (by omega), Bool.and_false, Bool.or_false]
    · simp
    · rw [List.getElem?_eq_none hjl.le, List.getElem?_eq_none (by simpa using Nat.succ_le_of_lt hjl),
        decide_eq_false (by omega), Bool.and_false, Bool.or_false]
  ends j hj := by
    rw [length_append, length_singleton, Nat.lt_succ_iff_lt_or_eq] at hj
    rcases hj with hjl | rfl
    · rw [slice_congr fun _ _ => putColumn_outside hlt (by omega), h.ends j hjl, take_append_of_le_length hjl]
    · rw [slice_putColumn_ends, take_of_length_le (by simp), total_append]
      rfl
  payload {j v} hv := by
    by_cases hjl : j < L.length
    · rw [getElem?_append_left hjl] at hv
      have hle : total (L.take j) + v.length ≤ total (L.take L.length) := total_take_add_width_le hv hjl
      rw [take_length] at hle
      rw [take_append_of_le_length hjl.le, slice_congr fun _ _ => putColumn_outside hlt (by omega), h.payload hv]
    · obtain rfl : j = L.length := by
        have := (List.getElem?_eq_some_iff.mp hv).1
        simp at this
        omega
      rw [getElem?_concat_length] at hv
      obtain rfl := some_inj.mp hv
      rw [take_left, slice_putColumn_payload hlt]

theorem Packs.putColumns (h : Packs ncol L buf) (hlen : L.length + cols.length = ncol) :
    Packs ncol (L ++ cols) (putColumns ncol L.length (total L) cols buf) := by
  induction cols generalizing L buf with
  | nil => rwa [append_nil]
  | cons c rest ih =>
    rw [length_cons] at hlen
    have hrest := ih (h.put (by omega) c) (by rw [length_append, length_singleton]; omega)
    rwa [append_assoc, length_append, total_append] at hrest

section SameWidth

variable {old : Bytes} (hc : L[i]? = some (some old)) (hwidth : old.length = v.length)
include hc hwidth

theorem map_width_set : (L.set i (some v)).map width = L.map width := by
  refine ext_getElem? fun j => ?_
  rw [getElem?_map, getElem?_map]
  by_cases hij : i = j
  · subst hij
    rw [getElem?_set_self (List.getElem?_eq_some_iff.mp hc).1, hc]
    exact congrArg some hwidth.symm
  · rw [getElem?_set_ne hij]

theorem total_take_set (j : Nat) : total ((L.set i (some v)).take j) = total (L.take j) := by
  rw [total, map_take, map_width_set hc hwidth, ← map_take, total]

/-- A value as wide as the one it replaces stays within the place of its column. -/
theorem Packs.set (h : Packs ncol L buf) (hlen : L.length = ncol) :
    Packs ncol (L.set i (some v)) (overwrite buf (headerLen ncol + total (L.take i)) v) where
  count := by
    rw [slice_overwrite_of_disjoint (by rw [headerLen]; omega), h.count]
  marks j hj := by
    rw [overwrite_outside (by rw [headerLen]; omega), h.marks j hj]
    by_cases hij : i = j
    · subst hij
      rw [getElem?_set_self (hlen ▸ hj), hc]
      rfl
    · rw [getElem?_set_ne hij]
  ends j hj := by
    rw [length_set] at hj
    rw [slice_overwrite_of_disjoint (by rw [headerLen]; omega), h.ends j hj, total_take_set hc hwidth]
  payload {j w} hw := by
    rw [total_take_set hc hwidth]
    by_cases hij : i = j
    · subst hij
      rw [getElem?_set_self (List.getElem?_eq_some_iff.mp hc).1] at hw
      obtain rfl : v = w := some_inj.mp (some_inj.mp hw)
      exact slice_overwrite
    · rw [getElem?_set_ne hij] at hw
      have hbelow := total_take_add_width_le hw (i := i)
      have habove := total_take_add_width_le hc (i := j)
      rw [width, getD_some] at hbelow habove
      rw [slice_overwrite_of_disjoint (by omega), h.payload hw]

end SameWidth

/-! ## Reading and writing -/

/-- The row holds the columns, within the bounds of its 16-bit counts. -/
structure PackedRow.Holds (row : PackedRow) (cols : List (Option Bytes)) : Prop where
  length_le : cols.length ≤ 65535
  total_le : total cols ≤ packedMax
  size_eq : row.size = headerLen cols.length + total cols
  packs : Packs cols.length cols row.buf

namespace PackedRow

variable {names : List Bytes} {row : PackedRow}

theorem holds_of_build (h : build names cols = some row) : row.Holds cols := by
  unfold build at h
  split_ifs at h with hfits
  obtain rfl := some_inj.mp h
  refine ⟨hfits.1, hfits.2, rfl, Packs.putColumns (L := []) ⟨?_, fun j _ => ?_, nofun, nofun⟩ (Nat.zero_add _)⟩
  · exact slice_overwrite_leBytes _ _
  · rw [overwrite_outside (by rw [length_leBytes]; omega), UInt8.zero_and]
    rfl

namespace Holds

variable (h : row.Holds cols)
include h

theorem columns_eq : row.columns = cols.length := by
  rw [columns, h.packs.count, ofLe_leBytes_of_lt (Nat.lt_succ_of_le h.length_le)]

theorem has_eq (i : Nat) : row.has i = cols[i]?.join.isSome := by
  rw [has, h.columns_eq]
  by_cases hi : i < cols.length
  · rw [h.packs.marks i hi, decide_eq_true hi, Bool.true_and]
  · rw [decide_eq_false hi, List.getElem?_eq_none (Nat.le_of_not_lt hi)]
    rfl

theorem endAt_eq (hi : i < cols.length) : row.endAt i = total (cols.take (i + 1)) := by
  rw [endAt, h.columns_eq, h.packs.ends i hi,
    ofLe_leBytes_of_lt (Nat.lt_succ_of_le (total_take_le_total.trans h.total_le))]

theorem start_eq (hi : i ≤ cols.length) : row.start i = total (cols.take i) := by
  cases i with
  | zero => rfl
  | succ i => exact h.endAt_eq hi

theorem get_eq (i : Nat) : row.get i = cols[i]?.join := by
  rw [get, h.has_eq]
  cases hc : cols[i]?.join with
  | none => rfl
  | some v =>
    rw [join_eq_some_iff] at hc
    have hi := (List.getElem?_eq_some_iff.mp hc).1
    rw [h.endAt_eq hi, h.start_eq hi.le, total_take_succ hc, Nat.add_sub_cancel_left, h.columns_eq]
    exact congrArg some (h.packs.payload hc)

theorem setSameWidth_eq (i : Nat) (v : Bytes) : ∃ row', row.setSameWidth i v =
      (row', decide (cols[i]?.join.map List.length = some v.length)) ∧
    row'.Holds (if cols[i]?.join.map List.length = some v.length then cols.set i (some v) else cols) := by
  rw [setSameWidth, h.get_eq]
  cases hc : cols[i]?.join with
  | none => exact ⟨row, rfl, h⟩
  | some old =>
    rw [join_eq_some_iff] at hc
    have hi := (List.getElem?_eq_some_iff.mp hc).1
    simp only [map_some, some_inj, ne_eq, ite_not]
    split_ifs with hwidth
    · refine ⟨_, by rw [decide_eq_true hwidth], ?_⟩
      have htotal : total (cols.set i (some v)) = total cols := congrArg List.sum (map_width_set hc hwidth)
      have hlen : (cols.set i (some v)).length = cols.length := length_set
      rw [h.columns_eq, h.start_eq hi.le]
      exact ⟨hlen.trans_le h.length_le, htotal.trans_le h.total_le, by rw [hlen, htotal, ← h.size_eq],
        hlen.symm ▸ Packs.set hc hwidth h.packs rfl⟩
    · exact ⟨_, by rw [decide_eq_false hwidth], h⟩

theorem withColumn_eq (i : Nat) (v : Option Bytes) : row.withColumn i v =
    if i < cols.length then build row.cols (cols.set i v) else none := by
  have hcols : (List.range cols.length).map row.get = cols := by
    refine ext_getElem (by rw [length_map, length_range]) fun j hj hj' => ?_
    rw [getElem_map, getElem_range, h.get_eq, getElem?_eq_getElem hj']
    rfl
  rw [withColumn, h.columns_eq, hcols]

end Holds

end PackedRow

/-- **A packed row** is a partial function from columns to bytes. It is built exactly when the count and the size of the
columns fit in 16 bits, and then holds them. A row that holds columns reads as those columns, and after an update it
holds the columns with that one replaced. -/
theorem packed_row_reads_columns (names : List Bytes) (cols : List (Option Bytes)) :
    ((PackedRow.build names cols).isSome ↔ cols.length ≤ 65535 ∧ total cols ≤ 65535) ∧
    (∀ row, PackedRow.build names cols = some row → row.Holds cols) ∧
    ∀ row : PackedRow, row.Holds cols → (∀ i, row.get i = cols[i]?.join) ∧
      (∀ i v, ∃ row', row.setSameWidth i v = (row', decide (cols[i]?.join.map List.length = some v.length)) ∧
        row'.Holds (if cols[i]?.join.map List.length = some v.length then cols.set i (some v) else cols)) ∧
      ∀ i v, row.withColumn i v = if i < cols.length then PackedRow.build row.cols (cols.set i v) else none := by
  refine ⟨?_, fun row => PackedRow.holds_of_build, fun row h => ⟨h.get_eq, h.setSameWidth_eq, h.withColumn_eq⟩⟩
  unfold PackedRow.build
  split_ifs with hfits
  · exact iff_of_true rfl hfits
  · exact iff_of_false Bool.false_ne_true hfits

/-- A row with an empty column and an absent one, before and after an update. -/
theorem packed_row_reads_columns_three : ∃ row row', PackedRow.build [] [some [7], some [], none] = some row ∧
    row.get 1 = some [] ∧ row.get 2 = none ∧ row.setSameWidth 0 [8] = (row', true) ∧ row'.get 0 = some [8] ∧
      row'.get 1 = some [] := by
  obtain ⟨hbuild, hholds, hreads⟩ := packed_row_reads_columns [] [some [7], some [], none]
  obtain ⟨row, hrow⟩ := isSome_iff_exists.mp (hbuild.mpr (by decide))
  obtain ⟨hget, hset, -⟩ := hreads row (hholds row hrow)
  obtain ⟨row', hset, hrow'⟩ := hset 0 [8]
  have hget' := ((packed_row_reads_columns [] [some [8], some [], none]).2.2 row' hrow').1
  exact ⟨row, row', hrow, hget 1, hget 2, hset, hget' 0, hget' 1⟩

end Kevy.Store
