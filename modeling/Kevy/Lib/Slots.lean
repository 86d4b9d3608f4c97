import Mathlib.Data.List.Perm.Basic

/-!
# Rows of slots

A row of numbered slots, each empty or with one element, and the list of what its first `n` slots hold. Changing one
slot changes that list, up to order, by the element that goes and the one that comes.
-/

namespace Kevy.Lib

open List Function

variable {α β : Type} {f g : Nat → Option α} {n p : Nat}

/-- What the first `n` slots hold, in order. -/
def items (f : Nat → Option α) (n : Nat) : List α := (List.range n).filterMap f

theorem items_succ (f : Nat → Option α) (n : Nat) : items f (n + 1) = items f n ++ (f n).toList := by
  unfold items
  rw [range_succ, filterMap_append]
  cases h : f n <;> simp [h]

theorem mem_items {a : α} : a ∈ items f n ↔ ∃ i, i < n ∧ f i = some a := by
  simp [items]

theorem items_congr (h : ∀ i, i < n → f i = g i) : items f n = items g n :=
  filterMap_congr fun i hi => h i (List.mem_range.mp hi)

theorem items_map (f : Nat → Option α) (h : Nat → α → β) (n : Nat) :
    (items (fun i => (f i).map (h i)) n).length = (items f n).length := by
  induction n with
  | zero => rfl
  | succ n ih =>
    rw [items_succ, items_succ, length_append, length_append, ih]
    cases f n <;> rfl

theorem items_perm_update (f : Nat → Option α) (hp : p < n) :
    (items f n).Perm ((f p).toList ++ items (Function.update f p none) n) := by
  induction n with
  | zero => exact absurd hp (Nat.not_lt_zero p)
  | succ n ih =>
    rw [items_succ, items_succ]
    by_cases heq : p = n
    · subst heq
      have hsame : items (Function.update f p none) p = items f p :=
        items_congr fun i hi => update_of_ne (Nat.ne_of_lt hi) _ _
      rw [hsame, update_self, Option.toList_none, append_nil]
      exact perm_append_comm
    · rw [update_of_ne (Ne.symm heq), ← append_assoc]
      exact (ih (Nat.lt_of_le_of_ne (Nat.le_of_lt_succ hp) heq)).append_right _

theorem items_update_some (hp : p < n) (hf : f p = none) (a : α) :
    (items (Function.update f p (some a)) n).Perm (a :: items f n) := by
  have h := items_perm_update (Function.update f p (some a)) hp
  rw [update_self, update_idem, ← hf, update_eq_self] at h
  exact h

theorem items_update_none {a : α} (hp : p < n) (hf : f p = some a) :
    (items f n).Perm (a :: items (Function.update f p none) n) := by
  have h := items_perm_update f hp
  rw [hf] at h
  exact h

theorem items_update_replace (f : Nat → Option α) (hp : p < n) (b : α) :
    (items (Function.update f p (some b)) n).Perm (b :: items (Function.update f p none) n) := by
  have h := items_perm_update (Function.update f p (some b)) hp
  rw [update_self, update_idem] at h
  exact h

theorem length_items_update (f : Nat → Option α) (hp : p < n) (o : Option α) :
    (items (Function.update f p o) n).length + (f p).toList.length = (items f n).length + o.toList.length := by
  have hold := (items_perm_update f hp).length_eq
  have hnew := (items_perm_update (Function.update f p o) hp).length_eq
  rw [update_self, update_idem] at hnew
  rw [length_append] at hold hnew
  omega

theorem length_items_le (f : Nat → Option α) (n : Nat) : (items f n).length ≤ n := by
  unfold items
  have h := length_filterMap_le f (List.range n)
  rwa [length_range] at h

theorem le_length_items_add {h : Nat → Option β} (hfull : ∀ i, i < n → f i = none → h i ≠ none) :
    n ≤ (items f n).length + (items h n).length := by
  induction n with
  | zero => exact Nat.zero_le _
  | succ n ih =>
    have hrest := ih fun i hi => hfull i (Nat.lt_succ_of_lt hi)
    have hlast := hfull n (Nat.lt_succ_self n)
    rw [items_succ, items_succ, length_append, length_append]
    cases hf : f n with
    | some a =>
      rw [Option.toList_some, length_singleton]
      omega
    | none =>
      cases hh : h n with
      | some b =>
        rw [Option.toList_some, length_singleton]
        omega
      | none => exact absurd hh (hlast hf)

theorem pairwise_items {R : α → α → Prop}
    (h : ∀ i j a b, i < j → j < n → f i = some a → f j = some b → R a b) : (items f n).Pairwise R := by
  induction n with
  | zero => exact List.Pairwise.nil
  | succ n ih =>
    rw [items_succ, pairwise_append]
    refine ⟨ih fun i j a b hij hj => h i j a b hij (Nat.lt_succ_of_lt hj), ?_, ?_⟩
    · cases f n <;> simp
    · intro a ha b hb
      obtain ⟨i, hi, hfi⟩ := mem_items.mp ha
      exact h i n a b hi (Nat.lt_succ_self n) hfi (Option.mem_toList.mp hb)

/-! ## One element of a list

Exactly one element of the list has the property, and the rest of the list is known up to order. -/

section Picked

variable {l rest : List α} {a : α} {q : α → Bool}

theorem find?_of_perm_cons (h : l.Perm (a :: rest)) (ha : q a = true) (hrest : ∀ x ∈ rest, q x = false) :
    l.find? q = some a := by
  cases hfind : l.find? q with
  | none => exact absurd ha (find?_eq_none.mp hfind a (h.mem_iff.mpr mem_cons_self))
  | some b =>
    rcases mem_cons.mp (h.mem_iff.mp (mem_of_find?_eq_some hfind)) with rfl | hb
    · rfl
    · have htrue := find?_some hfind
      rw [hrest b hb] at htrue
      cases htrue

theorem filter_of_perm_cons (h : l.Perm (a :: rest)) (ha : q a = true) (hrest : ∀ x ∈ rest, q x = false) :
    (l.filter fun x => !q x).Perm rest := by
  have hself : (rest.filter fun x => !q x) = rest := filter_eq_self.mpr fun x hx => by simp [hrest x hx]
  have hfilter := h.filter fun x => !q x
  rw [filter_cons_of_neg (by simp [ha]), hself] at hfilter
  exact hfilter

theorem map_of_perm_cons (g : α → α) (h : l.Perm (a :: rest)) (ha : q a = true) (hrest : ∀ x ∈ rest, q x = false) :
    (l.map fun x => if q x then g x else x).Perm (g a :: rest) := by
  have hself : (rest.map fun x => if q x then g x else x) = rest := by
    rw [map_congr_left (g := id) fun x hx => by simp [hrest x hx], List.map_id]
  have hmap := h.map fun x => if q x then g x else x
  rw [map_cons, if_pos ha, hself] at hmap
  exact hmap

end Picked

/-! ## A list by classes -/

theorem flatMap_ite_singleton (a : α) {c : Nat} {gs : List Nat} (hnodup : gs.Nodup) (hmem : c ∈ gs) :
    (gs.flatMap fun g => if c = g then [a] else []) = [a] := by
  induction gs with
  | nil => cases hmem
  | cons g gs ih =>
    obtain ⟨hnot, hrest⟩ := nodup_cons.mp hnodup
    rw [flatMap_cons]
    by_cases hg : c = g
    · have hnil : (gs.flatMap fun g => if c = g then [a] else []) = [] := by
        refine flatMap_eq_nil_iff.mpr fun g' hg' => if_neg ?_
        rintro rfl
        exact hnot (hg ▸ hg')
      rw [if_pos hg, hnil]
      rfl
    · rw [if_neg hg, ih hrest ((mem_cons.mp hmem).resolve_left hg)]
      rfl

theorem flatMap_filter_perm (cls : α → Nat) (gs : List Nat) (hnodup : gs.Nodup) (l : List α)
    (hmem : ∀ a ∈ l, cls a ∈ gs) : (gs.flatMap fun g => l.filter fun a => cls a == g).Perm l := by
  induction l with
  | nil => simp
  | cons a l ih =>
    have hsplit : (fun g => (a :: l).filter fun x => cls x == g) =
        fun g => (if cls a = g then [a] else []) ++ l.filter fun x => cls x == g := by
      funext g
      rw [filter_cons]
      by_cases hg : cls a = g <;> simp [hg]
    rw [hsplit]
    refine (flatMap_append_perm gs _ _).symm.trans ?_
    rw [flatMap_ite_singleton a hnodup (hmem a mem_cons_self)]
    exact (ih (forall_mem_cons.mp hmem).2).cons a

end Kevy.Lib
