import Mathlib.Data.List.Count

/-!
# Shared cells that are copied when written

A heap of cells with the number of references to each (`Arc`). The owner of a list of references changes one of its
cells: in place when its reference is the only one, in a fresh copy otherwise. Whoever holds other references sees
none of it, so each owner may reason about the values its references name and about nothing else.
-/

namespace Kevy.Lib

open List Function

variable {α : Type}

/-- The cells, the number of references to each, and the first address not handed out. -/
structure Heap (α : Type) where
  cell : Nat → α
  count : Nat → Nat
  next : Nat

namespace Heap

/-- `Arc::new`, with its address. -/
def alloc (h : Heap α) (x : α) : Heap α × Nat :=
  (⟨Function.update h.cell h.next x, Function.update h.count h.next 1, h.next + 1⟩, h.next)

def release (h : Heap α) (a : Nat) : Heap α := { h with count := Function.update h.count a (h.count a - 1) }

/-- `Arc::clone` of every reference of a list. -/
def retain (h : Heap α) (refs : List Nat) : Heap α := { h with count := fun a => h.count a + refs.count a }

/-- `Arc::make_mut` of a reference, and a write of `x` through it. -/
def write (h : Heap α) (a : Nat) (x : α) : Heap α × Nat :=
  if h.count a = 1 then ({ h with cell := Function.update h.cell a x }, a) else (h.release a).alloc x

/-- The counts are those of the references, and every reference was handed out. -/
structure Counted (h : Heap α) (refs : List Nat) : Prop where
  count_eq : ∀ a, h.count a = refs.count a
  lt_next : ∀ a ∈ refs, a < h.next

variable {h h' : Heap α} {refs others : List Nat} {a i : Nat} {x : α}

theorem Counted.perm (hc : h.Counted refs) (hperm : refs.Perm others) : h.Counted others :=
  ⟨fun a => by rw [hc.count_eq, hperm.count_eq], fun a ha => hc.lt_next a (hperm.mem_iff.mpr ha)⟩

theorem Counted.ne_next (hc : h.Counted refs) (ha : a ∈ refs) : a ≠ h.next := Nat.ne_of_lt (hc.lt_next a ha)

theorem Counted.retain (hc : h.Counted (refs ++ others)) : (h.retain refs).Counted (refs ++ (refs ++ others)) := by
  refine ⟨fun a => ?_, fun a ha => hc.lt_next a ?_⟩
  · show h.count a + refs.count a = _
    rw [hc.count_eq, count_append, count_append, count_append]
    omega
  · rcases mem_append.mp ha with ha | ha
    · exact mem_append_left _ ha
    · exact ha

theorem Counted.alloc (hc : h.Counted refs) (x : α) : (h.alloc x).1.Counted ((h.alloc x).2 :: refs) := by
  have hfresh : refs.count h.next = 0 := count_eq_zero.mpr fun ha => hc.ne_next ha rfl
  refine ⟨fun a => ?_, fun a ha => ?_⟩
  · show Function.update h.count h.next 1 a = (h.next :: refs).count a
    by_cases ha : a = h.next
    · rw [ha, update_self, count_cons_self, hfresh]
    · rw [update_of_ne ha, count_cons_of_ne (Ne.symm ha), hc.count_eq]
  · show a < h.next + 1
    rcases mem_cons.mp ha with rfl | ha
    · exact Nat.lt_succ_self _
    · exact Nat.lt_succ_of_lt (hc.lt_next a ha)

theorem Counted.release (hc : h.Counted (a :: refs)) : (h.release a).Counted refs := by
  refine ⟨fun b => ?_, fun b hb => hc.lt_next b (mem_cons_of_mem _ hb)⟩
  show Function.update h.count a (h.count a - 1) b = refs.count b
  by_cases hb : b = a
  · rw [hb, update_self, hc.count_eq, count_cons_self, Nat.add_sub_cancel]
  · rw [update_of_ne hb, hc.count_eq, count_cons_of_ne (Ne.symm hb)]

theorem cell_alloc_of_mem (hc : h.Counted refs) (x : α) (ha : a ∈ refs) : (h.alloc x).1.cell a = h.cell a :=
  update_of_ne (hc.ne_next ha) _ _

theorem cell_alloc (h : Heap α) (x : α) : (h.alloc x).1.cell (h.alloc x).2 = x := update_self ..

theorem write_spec (hc : h.Counted (a :: refs)) (x : α) :
    (h.write a x).1.Counted ((h.write a x).2 :: refs) ∧ (h.write a x).1.cell (h.write a x).2 = x ∧
      ∀ b ∈ refs, (h.write a x).1.cell b = h.cell b := by
  unfold write
  split_ifs with hone
  · refine ⟨⟨hc.count_eq, hc.lt_next⟩, update_self .., fun b hb => update_of_ne ?_ _ _⟩
    rintro rfl
    have htwo := hc.count_eq b
    rw [hone, count_cons_self] at htwo
    have hpos := count_pos_iff.mpr hb
    omega
  · exact ⟨hc.release.alloc x, cell_alloc _ x, fun b hb => cell_alloc_of_mem hc.release x hb⟩

/-! ## A list of references -/

def values (h : Heap α) (refs : List Nat) : List α := refs.map h.cell

theorem exists_cell {x : α} (hx : (h.values refs)[i]? = some x) : ∃ hi : i < refs.length, h.cell refs[i] = x := by
  obtain ⟨a, ha, hcell⟩ := Option.map_eq_some_iff.mp ((List.getElem?_map ..).symm.trans hx)
  obtain ⟨hi, rfl⟩ := List.getElem?_eq_some_iff.mp ha
  exact ⟨hi, hcell⟩

theorem values_congr (hsame : ∀ a ∈ refs, h'.cell a = h.cell a) : h'.values refs = h.values refs :=
  map_congr_left hsame

/-- What an owner of `refs` may do: its values become `vals`, and nobody else's values change. -/
structure Owner (h : Heap α) (h' : Heap α) (refs' others : List Nat) (vals : List α) : Prop where
  counted : h'.Counted (refs' ++ others)
  values_eq : h'.values refs' = vals
  frame : ∀ a ∈ others, h'.cell a = h.cell a

theorem perm_set (hi : i < refs.length) (a : Nat) (others : List Nat) :
    (refs.set i a ++ others).Perm (a :: (refs.eraseIdx i ++ others)) := by
  rw [← cons_append]
  refine Perm.append_right others ?_
  rw [set_eq_take_cons_drop _ hi, eraseIdx_eq_take_drop_succ]
  exact perm_middle

theorem perm_getElem (hi : i < refs.length) (others : List Nat) :
    (refs ++ others).Perm (refs[i] :: (refs.eraseIdx i ++ others)) := by
  have hset := perm_set hi refs[i] others
  rwa [set_getElem_self] at hset

theorem values_set (hi : i < refs.length) (hnew : h'.cell a = x) (hsame : ∀ b ∈ refs.eraseIdx i, h'.cell b = h.cell b) :
    h'.values (refs.set i a) = (h.values refs).set i x := by
  unfold values
  rw [map_set, hnew]
  refine ext_getElem? fun j => ?_
  by_cases hj : j = i
  · subst hj
    rw [getElem?_set_self (by rwa [length_map]), getElem?_set_self (by rwa [length_map])]
  · rw [getElem?_set_ne (Ne.symm hj), getElem?_set_ne (Ne.symm hj), getElem?_map, getElem?_map]
    cases hget : refs[j]? with
    | none => rfl
    | some b => exact congrArg some (hsame b (mem_eraseIdx_iff_getElem?.mpr ⟨j, hj, hget⟩))

theorem Owner.write (hc : h.Counted (refs ++ others)) (hi : i < refs.length) (x : α) :
    Owner h (h.write refs[i] x).1 (refs.set i (h.write refs[i] x).2) others ((h.values refs).set i x) := by
  obtain ⟨hcount, hcell, hframe⟩ := write_spec (hc.perm (perm_getElem hi others)) x
  exact ⟨hcount.perm (perm_set hi _ others).symm, values_set hi hcell fun b hb => hframe b (mem_append_left _ hb),
    fun b hb => hframe b (mem_append_right _ hb)⟩

theorem Owner.replace (hc : h.Counted (refs ++ others)) (hi : i < refs.length) (x : α) :
    Owner h ((h.release refs[i]).alloc x).1 (refs.set i ((h.release refs[i]).alloc x).2) others
      ((h.values refs).set i x) := by
  have hrest := (hc.perm (perm_getElem hi others)).release
  have hframe : ∀ b ∈ refs.eraseIdx i ++ others, ((h.release refs[i]).alloc x).1.cell b = h.cell b :=
    fun b hb => cell_alloc_of_mem hrest x hb
  exact ⟨(hrest.alloc x).perm (perm_set hi _ others).symm,
    values_set hi (cell_alloc _ x) fun b hb => hframe b (mem_append_left _ hb),
    fun b hb => hframe b (mem_append_right _ hb)⟩

theorem Owner.push (hc : h.Counted (refs ++ others)) (x : α) :
    Owner h (h.alloc x).1 (refs ++ [(h.alloc x).2]) others (h.values refs ++ [x]) := by
  have hframe : ∀ b ∈ refs ++ others, (h.alloc x).1.cell b = h.cell b := fun b hb => cell_alloc_of_mem hc x hb
  refine ⟨(hc.alloc x).perm ?_, ?_, fun b hb => hframe b (mem_append_right _ hb)⟩
  · rw [append_assoc]
    exact perm_middle.symm
  · show (refs ++ [(h.alloc x).2]).map (h.alloc x).1.cell = _
    rw [map_append, map_singleton, cell_alloc, values, map_congr_left fun b hb => hframe b (mem_append_left _ hb)]

theorem Owner.refl (hc : h.Counted (refs ++ others)) : Owner h h refs others (h.values refs) := ⟨hc, rfl, fun _ _ => rfl⟩

theorem Owner.trans {h0 : Heap α} {refs' : List Nat} {vals vals' : List α} (h1 : Owner h0 h refs others vals)
    (h2 : Owner h h' refs' others vals') : Owner h0 h' refs' others vals' :=
  ⟨h2.counted, h2.values_eq, fun a ha => (h2.frame a ha).trans (h1.frame a ha)⟩

end Heap

end Kevy.Lib
