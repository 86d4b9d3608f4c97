import Kevy.Lib.ByteOrder
import Kevy.Resp.Basic
import Mathlib.Data.Prod.Lex

/-!
# Indexed values

The scalars an index holds, in their total order, and how the bytes of a field become one. What text is a number is left
open: the two readers of the standard library are parameters.
-/

namespace Kevy.Index

open Kevy.Lib Kevy.Resp

inductive ValType
  | i64
  | f64
  | str
  | vector
  deriving DecidableEq, Repr

/-- `IndexValue`. An `f64` is its bit pattern. -/
inductive IndexValue
  | i64 (v : Int)
  | f64 (bits : UInt64)
  | str (bytes : Bytes)
  deriving DecidableEq, Repr

/-- The place of an `f64` in the order of `total_cmp`. -/
def totalOrder (bits : UInt64) : Int :=
  if bits.toNat < 2 ^ 63 then bits.toNat else -1 - ((bits.toNat : Int) - 2 ^ 63)

theorem totalOrder_injective : Function.Injective totalOrder := by
  intro a b h
  unfold totalOrder at h
  rw [← UInt64.toNat_inj]
  split_ifs at h <;> omega

namespace IndexValue

def rank : IndexValue → ℕ ×ₗ ℤ ×ₗ Bytes
  | .i64 v => toLex (0, toLex (v, []))
  | .f64 bits => toLex (1, toLex (totalOrder bits, []))
  | .str bytes => toLex (2, toLex (0, bytes))

theorem rank_injective : Function.Injective rank := by
  intro a b h
  cases a <;> cases b <;> simp only [rank, EmbeddingLike.apply_eq_iff_eq, Prod.mk.injEq] at h
  case i64.i64 => exact congrArg i64 h.2.1
  case f64.f64 => exact congrArg f64 (totalOrder_injective h.2.1)
  case str.str => exact congrArg str h.2.2
  all_goals exact absurd h.1 (by decide)

/-- `cmp`: numbers by `total_cmp`, strings by their bytes, and two types by their discriminants. -/
instance linearOrder : LinearOrder IndexValue := LinearOrder.lift' rank rank_injective

theorem i64_lt_i64 {a b : Int} : i64 a < i64 b ↔ a < b := by
  change rank (i64 a) < rank (i64 b) ↔ a < b
  simp [rank, Prod.Lex.toLex_lt_toLex]

theorem str_lt_str {a b : Bytes} : str a < str b ↔ a < b := by
  change rank (str a) < rank (str b) ↔ a < b
  simp [rank, Prod.Lex.toLex_lt_toLex]

end IndexValue

/-- The readers of numbers in text: `str::parse` after `trim`. -/
structure Texts where
  parseI64 : Bytes → Option Int
  parseF64 : Bytes → Option UInt64

def isNaN (bits : UInt64) : Bool := (2 ^ 63 - 2 ^ 52 : Nat) < bits.toNat % 2 ^ 63

variable (T : Texts)

def coerce (ty : ValType) (raw : Bytes) : Option IndexValue :=
  match ty with
  | .vector => none
  | .i64 => (T.parseI64 raw).map .i64
  | .f64 => (T.parseF64 raw).bind fun bits => if isNaN bits then none else some (.f64 bits)
  | .str => some (.str raw)

def beBytes (n : Nat) : Bytes := (leBytes 8 n).reverse

def orderKey (ty : ValType) (raw : Bytes) : Option Bytes :=
  (coerce T ty raw).map fun
    | .str v => v
    | .i64 v => beBytes (v + 2 ^ 63).toNat
    | .f64 bits => beBytes (if 2 ^ 63 ≤ bits.toNat then 2 ^ 64 - 1 - bits.toNat else bits.toNat + 2 ^ 63)

structure ValueTest where
  ty : ValType
  lo : IndexValue
  hi : IndexValue

def ValueTest.passes (t : ValueTest) (raw : Bytes) : Bool :=
  (coerce T t.ty raw).any fun v => decide (t.lo ≤ v) && decide (v ≤ t.hi)

end Kevy.Index
