import Kevy.Map.Scan

/-!
# Walking in storage order

`scan_buckets` visits slots in the order they are stored. That is a walk over all entries as long as entries stay in
their slots. No operation moves an entry but one that makes the table larger, so the store's `walk_page` keeps the
capacity in its cursor and starts over when it is not the table's any more.
-/

namespace Kevy.Map

open Kevy.Lib Option Function

variable {K V : Type} {ops : KeyOps K} {t t' : Table K V} {m : Dict K V}

namespace Table

/-- `scan_buckets`: where the next call should start, and the entries that were visited. -/
def scanBuckets (t : Table K V) (start count : Nat) : Nat × List (K × V) :=
  let stop := min (start + count) t.cap
  (stop, (List.range' start (stop - start)).filterMap t.fullSlot)

def walkCapShift : Nat := 56

/-- `walk_cursor_parts`: the capacity and the next bucket of a walk's cursor. -/
def walkCursorParts (cursor : Nat) : Option (Nat × Nat) :=
  if cursor = 0 then none
  else if cursor >>> walkCapShift < 64 then some (1 <<< (cursor >>> walkCapShift), cursor % 2 ^ walkCapShift)
  else none

/-- The bucket that a call of `walk_page` starts from. -/
def walkStart (t : Table K V) (cursor : Nat) : Nat :=
  match walkCursorParts cursor with
  | some (mintedCap, bucket) => if mintedCap = t.cap then bucket else 0
  | none => 0

/-- `walk_page` without the filters on the keys: the next cursor, and the entries that were visited. The trailing zeros
of a capacity are its logarithm. -/
def walkPage (t : Table K V) (cursor buckets : Nat) : Nat × List (K × V) :=
  if t.cap = 0 then (0, [])
  else
    let (next, visited) := t.scanBuckets (t.walkStart cursor) (max buckets 1)
    if next ≥ t.cap then (0, visited) else (t.cap.log2 <<< walkCapShift ||| next, visited)

/-! ## Entries stay in their slots -/

/-- A change of the table that moves no entry: each one is where it was, or its key is gone. -/
structure Keeps (ops : KeyOps K) (t t' : Table K V) : Prop where
  cap_eq : t'.cap = t.cap
  stays : ∀ p kv, p < t.cap → t.slots p = some kv → (∃ v, t'.slots p = some (kv.1, v)) ∨ t'.Lacks ops kv.1

theorem Keeps.of_slots (hcap : t'.cap = t.cap) (hslots : t'.slots = t.slots) : Keeps ops t t' :=
  ⟨hcap, fun p kv _ hslot => .inl ⟨kv.2, by rw [hslots]; exact hslot⟩⟩

theorem Keeps.of_write (hcap : t'.cap = t.cap) (q : Nat) (kv' : K × V)
    (hslots : t'.slots = Function.update t.slots q (some kv')) (hkey : ∀ kv, t.slots q = some kv → kv.1 = kv'.1) :
    Keeps ops t t' := by
  refine ⟨hcap, fun p kv _ hslot => .inl ?_⟩
  rw [hslots]
  by_cases hpq : p = q
  · subst hpq
    exact ⟨kv'.2, by rw [update_self, hkey kv hslot]⟩
  · exact ⟨kv.2, by rw [update_of_ne hpq]; exact hslot⟩

theorem Keeps.of_erase (h : t.WF ops) (hcap : t'.cap = t.cap) {q : Nat}
    (hslots : t'.slots = Function.update t.slots q none) : Keeps ops t t' := by
  refine ⟨hcap, fun p kv hp hslot => ?_⟩
  by_cases hpq : p = q
  · right
    intro x kv' hx hslot'
    rw [hslots] at hslot'
    rw [hcap] at hx
    have hxq : x ≠ q := by
      rintro rfl
      rw [update_self] at hslot'
      cases hslot'
    rw [update_of_ne hxq] at hslot'
    rw [Bool.eq_false_iff]
    intro heq
    exact hxq ((h.distinct x p kv' kv hx hp hslot' hslot heq).trans hpq)
  · left
    rw [hslots]
    exact ⟨kv.2, by rw [update_of_ne hpq]; exact hslot⟩

theorem WF.refines_self (h : t.WF ops) : t.Refines ops ⟨t.entries, t.aux.isSome⟩ := ⟨h, List.Perm.refl _, rfl⟩

theorem cap_lt_grownCap (t : Table K V) : t.cap < t.grownCap := by
  unfold grownCap minCap
  split_ifs <;> omega

theorem maybeGrow_cases (h : t.WF ops) {n : Table K V} (hn : t.maybeGrow ops = some n) :
    n.WF ops ∧ 0 < n.cap ∧ (n = t ∨ t.cap < n.cap) := by
  obtain ⟨n', hn', hrefines, hpos, -⟩ := h.refines_self.maybeGrow
  obtain rfl : n' = n := some_inj.mp (hn'.symm.trans hn)
  refine ⟨hrefines.wf, hpos, ?_⟩
  unfold maybeGrow at hn
  split_ifs at hn
  · obtain ⟨g, hg, -, hcap, -⟩ := h.refines_self.grow
    obtain rfl : g = n' := some_inj.mp (hg.symm.trans hn)
    exact .inr (hcap ▸ t.cap_lt_grownCap)
  · exact .inl (some_inj.mp hn).symm

theorem Keeps.fill (h : t.WF ops) {key : K} {p : Nat} {via : Bool} (hplace : t.Place ops key p via) (value : V) :
    Keeps ops t (t.fill ops p via key value) := by
  have hnone := h.slots_eq_none hplace.inside hplace.byte
  refine Keeps.of_write ?_ p (key, value) ?_ fun kv hkv => ?_
  · cases via <;> rfl
  · cases via <;> rfl
  · rw [hnone] at hkv
    cases hkv

theorem insertWithRoom_keeps (h : t.WF ops) (hpos : 0 < t.cap) {key : K} {value : V} {slot : Nat} {old : Option V}
    (hins : t.insertWithRoom ops key value = some (t', slot, old)) : Keeps ops t t' := by
  unfold insertWithRoom at hins
  rcases probe_spec h hpos key with ⟨p, kv, hprobe, hh⟩ | ⟨p, via, hprobe, -, hplace⟩ <;> rw [hprobe] at hins <;>
    cases hins
  · refine Keeps.of_write rfl slot (kv.1, value) ?_ fun kv' hkv' => ?_
    · rw [hh.slot]
      rfl
    · rw [hh.slot] at hkv'
      cases hkv'
      rfl
  · exact Keeps.fill h hplace value

theorem apply_cases (h : t.WF ops) {op : Op K V} {r : Reply K V} (hop : t.apply ops op = some (t', r)) :
    t.cap < t'.cap ∨ Keeps ops t t' := by
  cases op with
  | insert key value =>
    obtain ⟨⟨t1, slot, old⟩, hins, heq⟩ := map_eq_some_iff.mp hop
    cases heq
    obtain ⟨n, hn, hroom⟩ := bind_eq_some_iff.mp hins
    obtain ⟨hwf, hpos, rfl | hlt⟩ := maybeGrow_cases h hn
    · exact .inr (insertWithRoom_keeps hwf hpos hroom)
    · exact .inl ((insertWithRoom_keeps hwf hpos hroom).cap_eq ▸ hlt)
  | remove key =>
    obtain ⟨⟨t1, old⟩, hrem, heq⟩ := map_eq_some_iff.mp hop
    cases heq
    unfold Table.remove at hrem
    rcases findByBorrow_spec h key with ⟨p, kv, hfind, -⟩ | ⟨hfind, -⟩ <;> rw [hfind] at hrem <;> cases hrem
    · exact .inr (Keeps.of_erase h rfl rfl)
    · exact .inr (Keeps.of_slots rfl rfl)
  | rawRemove key =>
    obtain ⟨⟨t1, old⟩, hrem, heq⟩ := map_eq_some_iff.mp hop
    cases heq
    unfold Table.rawRemove at hrem
    obtain ⟨out, hprobe, heq⟩ := map_eq_some_iff.mp hrem
    cases out <;> cases heq
    · exact .inr (Keeps.of_erase h rfl rfl)
    · exact .inr (Keeps.of_slots rfl rfl)
  | rawInsert key value =>
    obtain ⟨⟨t1, b⟩, hins, heq⟩ := map_eq_some_iff.mp hop
    cases heq
    unfold Table.rawInsert at hins
    obtain ⟨out, hprobe, hout⟩ := bind_eq_some_iff.mp hins
    cases out with
    | found slot =>
      cases hout
      exact .inr (Keeps.of_slots rfl rfl)
    | notFound p via =>
      obtain ⟨t2, hvac, heq⟩ := map_eq_some_iff.mp hout
      cases heq
      obtain ⟨n, hn, hrest⟩ := bind_eq_some_iff.mp hvac
      obtain ⟨hwf, hpos, hcases⟩ := maybeGrow_cases h hn
      have hkeeps : Keeps ops n t' := by
        rcases probe_spec hwf hpos key with ⟨q, kv, hq, -⟩ | ⟨q, via', hq, -, hplace⟩ <;> rw [hq] at hrest <;>
          cases hrest
        exact Keeps.fill hwf hplace value
      rcases hcases with rfl | hlt
      · exact .inr hkeeps
      · exact .inl (hkeeps.cap_eq ▸ hlt)
  | clear =>
    cases hop
    unfold Table.clear
    split_ifs
    · exact .inr (Keeps.of_slots rfl rfl)
    · exact .inr ⟨rfl, fun p kv _ _ => .inr fun _ _ _ hnone => by cases hnone⟩
  | grow =>
    obtain ⟨t1, hgrow, heq⟩ := map_eq_some_iff.mp hop
    cases heq
    obtain ⟨n, hn, -, hcap, -⟩ := h.refines_self.grow
    obtain rfl : n = t' := some_inj.mp (hn.symm.trans hgrow)
    exact .inl (hcap ▸ t.cap_lt_grownCap)
  | enableAux =>
    cases hop
    unfold Table.enableAux
    split <;> exact .inr (Keeps.of_slots rfl rfl)
  | setAux key word =>
    obtain ⟨t1, hset, heq⟩ := map_eq_some_iff.mp hop
    cases heq
    obtain ⟨slot, -, rfl⟩ := map_eq_some_iff.mp hset
    cases slot with
    | none => exact .inr (Keeps.of_slots rfl rfl)
    | some slot =>
      dsimp only
      split_ifs <;> exact .inr (Keeps.of_slots rfl rfl)
  | get | auxOf =>
    obtain ⟨v, -, heq⟩ := map_eq_some_iff.mp hop
    cases heq
    exact .inr (Keeps.of_slots rfl rfl)
  | len | iter =>
    cases hop
    exact .inr (Keeps.of_slots rfl rfl)

end Table

end Kevy.Map
