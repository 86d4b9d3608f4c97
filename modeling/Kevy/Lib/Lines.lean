import Mathlib.Data.List.Basic

/-!
# Lines of text

Text as bytes, cut into lines the way `str::lines` cuts it, and a line cut at its first `=` the way
`str::split_once` cuts it. A front of a text of lines is some whole lines and a front of the next one.
-/

namespace Kevy.Lib

open List

abbrev newline : UInt8 := 10

/-- `str::lines` behind the bytes `line` of the line it is in: a line loses its `\n` and one `\r` before it,
and a last line without `\n` counts when it has bytes. -/
def linesFrom (line : List UInt8) : List UInt8 → List (List UInt8)
  | [] => if line = [] then [] else [line]
  | b :: rest =>
    if b = newline then
      (if line.getLast? = some 13 then line.dropLast else line) :: linesFrom [] rest
    else linesFrom (line ++ [b]) rest

def lines (text : List UInt8) : List (List UInt8) := linesFrom [] text

/-- `split_once(sep)`: what stands before the first separator and what stands behind it. -/
def splitOnce (sep : UInt8) : List UInt8 → Option (List UInt8 × List UInt8)
  | [] => none
  | b :: rest => if b = sep then some ([], rest) else (splitOnce sep rest).map fun (k, v) => (b :: k, v)

/-- Lines as they stand in a text, each ended by a newline. -/
def unlines (ls : List (List UInt8)) : List UInt8 := ls.flatMap (· ++ [newline])

@[simp] theorem unlines_nil : unlines [] = [] := rfl

@[simp] theorem unlines_cons (l : List UInt8) (ls : List (List UInt8)) :
    unlines (l :: ls) = l ++ newline :: unlines ls := by
  simp [unlines]

/-! ## Reading lines back -/

/-- A line that reads back as itself: no newline in it and no `\r` at its end. -/
structure PlainLine (l : List UInt8) : Prop where
  noNewline : newline ∉ l
  noCr : l.getLast? ≠ some 13

theorem linesFrom_line {l : List UInt8} (h : newline ∉ l) (line rest : List UInt8) :
    linesFrom line (l ++ rest) = linesFrom (line ++ l) rest := by
  induction l generalizing line with
  | nil => rw [nil_append, append_nil]
  | cons b l ih =>
    have hb : b ≠ newline := fun heq => h (heq ▸ mem_cons_self)
    have hl : newline ∉ l := fun hmem => h (mem_cons_of_mem _ hmem)
    rw [cons_append, linesFrom, if_neg hb, ih hl]
    simp

theorem lines_unlines {ls : List (List UInt8)} {part : List UInt8} (hls : ∀ l ∈ ls, PlainLine l)
    (hpart : newline ∉ part) : lines (unlines ls ++ part) = ls ++ if part = [] then [] else [part] := by
  unfold lines
  induction ls with
  | nil =>
    have h := linesFrom_line hpart [] []
    rw [append_nil, nil_append] at h
    rw [unlines_nil, nil_append, h, linesFrom, nil_append]
  | cons l ls ih =>
    have hl := hls l mem_cons_self
    rw [unlines_cons, append_assoc, linesFrom_line hl.noNewline, nil_append, cons_append,
      linesFrom, if_pos rfl, if_neg hl.noCr, ih (forall_mem_cons.mp hls).2,
      cons_append]

/-! ## Fronts of a text -/

theorem prefix_append_cases {p xs ys : List UInt8} (h : p <+: xs ++ ys) : p <+: xs ∨ ∃ q, p = xs ++ q ∧ q <+: ys := by
  rcases prefix_or_prefix_of_prefix h (prefix_append xs ys) with hin | ⟨q, rfl⟩
  · exact .inl hin
  · exact .inr ⟨q, rfl, (prefix_append_right_inj xs).mp h⟩

theorem prefix_unlines {ls : List (List UInt8)} {p : List UInt8} (h : p <+: unlines ls) : p = unlines ls ∨
      ∃ done l rest part, ls = done ++ l :: rest ∧ part <+: l ∧ p = unlines done ++ part := by
  induction ls generalizing p with
  | nil => exact .inl (prefix_nil.mp h)
  | cons l ls ih =>
    rw [unlines_cons] at h
    rcases prefix_append_cases h with hin | ⟨q, rfl, hq⟩
    · exact .inr ⟨[], l, ls, p, rfl, hin, by simp⟩
    · rcases prefix_cons_iff.mp hq with rfl | ⟨q, rfl, htail⟩
      · exact .inr ⟨[], l, ls, l, rfl, prefix_refl l, by simp⟩
      · rcases ih htail with rfl | ⟨done, m, rest, part, rfl, hpart, rfl⟩
        · exact .inl (by simp)
        · exact .inr ⟨l :: done, m, rest, part, rfl, hpart, by simp⟩

/-! ## Cutting a line in two -/

theorem splitOnce_of_not_mem {sep : UInt8} {l : List UInt8} (h : sep ∉ l) : splitOnce sep l = none := by
  induction l with
  | nil => rfl
  | cons b l ih =>
    have hb : b ≠ sep := fun heq => h (heq ▸ mem_cons_self)
    rw [splitOnce, if_neg hb, ih fun hmem => h (mem_cons_of_mem _ hmem), Option.map_none]

theorem splitOnce_append {sep : UInt8} {k : List UInt8} (h : sep ∉ k) (v : List UInt8) :
    splitOnce sep (k ++ sep :: v) = some (k, v) := by
  induction k with
  | nil => rw [nil_append, splitOnce, if_pos rfl]
  | cons b k ih =>
    have hb : b ≠ sep := fun heq => h (heq ▸ mem_cons_self)
    rw [cons_append, splitOnce, if_neg hb, ih fun hmem => h (mem_cons_of_mem _ hmem), Option.map_some]

theorem splitOnce_prefix {sep : UInt8} {k v p : List UInt8} (h : sep ∉ k) (hp : p <+: k ++ sep :: v) :
    splitOnce sep p = none ∨ ∃ w, w <+: v ∧ p = k ++ sep :: w ∧ splitOnce sep p = some (k, w) := by
  rcases prefix_append_cases hp with hin | ⟨q, rfl, hq⟩
  · exact .inl (splitOnce_of_not_mem fun hmem => h (hin.subset hmem))
  · rcases prefix_cons_iff.mp hq with rfl | ⟨w, rfl, hw⟩
    · exact .inl (by rw [append_nil]; exact splitOnce_of_not_mem h)
    · exact .inr ⟨w, hw, rfl, splitOnce_append h w⟩

end Kevy.Lib
