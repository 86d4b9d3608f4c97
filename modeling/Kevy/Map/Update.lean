import Kevy.Map.Dict

/-!
# The table follows the map

Each change of the table is the change of the map: another value, a new entry, an entry less, a table of twice the
size with the same entries and words.
-/

namespace Kevy.Map

open Kevy.Lib Option Function

variable {K V : Type} {ops : KeyOps K} {t t' : Table K V} {m : Dict K V}

namespace Table

/-! ## Empty tables -/

theorem items_none {α : Type} (n : Nat) : items (fun _ => (none : Option α)) n = [] :=
  List.filterMap_eq_nil_iff.mpr fun _ _ => rfl

theorem refines_blank (ops : KeyOps K) (hshape : t.cap = 0 ∨ t.Shaped) (hctrl : t.ctrl = fun _ => emptyByte)
    (hslots : t.slots = fun _ => none) (hocc : t.occupied = 0) (hdel : t.deleted = 0) :
    t.Refines ops ⟨[], t.aux.isSome⟩ := by
  have htombs : t.tombs = fun _ => none := by
    funext i
    unfold tombs
    rw [hctrl]
    rfl
  have hentries : t.entries = [] := by
    have hrow : t.entryRow = fun _ => none := by
      funext i
      unfold entryRow
      rw [hslots, map_none]
    unfold entries
    rw [hrow, items_none]
  refine ⟨⟨hshape, ?_, ?_, ?_, ?_, ?_, ?_, ?_, ?_⟩, by rw [hentries], rfl⟩
  · intro i _
    rw [hctrl]
  · intro p kv _ hkv
    rw [hslots] at hkv
    cases hkv
  · intro p _ _
    rw [hctrl]
    exact .inl rfl
  · intro p _ kv _ _ _ hkv
    rw [hslots] at hkv
    cases hkv
  · intro p kv _ hkv
    rw [hslots] at hkv
    cases hkv
  · rw [hocc, hslots, items_none]
    rfl
  · rw [hdel, htombs, items_none]
    rfl
  · rw [hocc, hdel]
    exact Nat.zero_le _

theorem Shaped.two_pow {k : Nat} (hk : 4 ≤ k) (hcap : t.cap = 2 ^ k) : t.Shaped := ⟨k, hk, hcap⟩

theorem refines_withCapacity (ops : KeyOps K) (capHint : Nat) : (withCapacity capHint : Table K V).Refines ops ⟨[], false⟩ := by
  unfold withCapacity
  split_ifs with hzero
  · exact refines_blank ops (.inl rfl) rfl rfl rfl rfl
  · refine refines_blank ops (.inr ?_) rfl rfl rfl rfl
    obtain ⟨k, hk⟩ := Nat.isPowerOfTwo_nextPowerOfTwo ((capHint * 8 + 6) / 7)
    rcases Nat.le_total 4 k with hle | hle
    · refine Shaped.two_pow hle ?_
      show max (Nat.nextPowerOfTwo _) minCap = 2 ^ k
      rw [hk]
      exact Nat.max_eq_left (Nat.pow_le_pow_right Nat.two_pos hle)
    · refine Shaped.two_pow le_rfl ?_
      show max (Nat.nextPowerOfTwo _) minCap = 2 ^ 4
      rw [hk]
      exact Nat.max_eq_right (Nat.pow_le_pow_right Nat.two_pos hle)

theorem Refines.clear (h : t.Refines ops m) : t.clear.Refines ops m.clear := by
  unfold Table.clear Dict.clear
  rw [← h.aux]
  split_ifs with hcap
  · refine ⟨h.wf, ?_, rfl⟩
    unfold entries
    rw [hcap]
    rfl
  · exact refines_blank ops h.wf.shaped rfl rfl rfl rfl

namespace Refines

/-! ## One entry -/

variable {key : K} {p : Nat} {kv : K × V}

theorem setValue (h : t.Refines ops m) (hh : t.Holds ops key p kv) (value : V) :
    Refines ops { t with slots := Function.update t.slots p (some (kv.1, value)) }
      { m with entries := m.entries.map fun e => if ops.eq e.1 key then (e.1, value, e.2.2) else e } := by
  refine ⟨h.wf.setValue hh.inside hh.slot value, ?_, h.aux⟩
  obtain ⟨hperm, hrest⟩ := h.split hh
  have hmap := map_of_perm_cons (q := fun e => ops.eq e.1 key) (fun e => (e.1, value, e.2.2)) hperm hh.key_eq hrest
  have hrow : entryRow { t with slots := Function.update t.slots p (some (kv.1, value)) } =
      Function.update t.entryRow p (some (kv.1, value, t.word p)) :=
    entryRow_update t _ (p := p) (o := some (kv.1, value)) (by rfl) fun _ _ => by rfl
  unfold entries
  rw [hrow]
  exact (items_update_replace t.entryRow hh.inside _).trans hmap.symm

theorem fill (h : t.Refines ops m) {via : Bool} (hplace : t.Place ops key p via)
    (hlacks : t.Lacks ops key) (value : V) (hroom : t.occupied + t.deleted < t.threshold) :
    Refines ops (t.fill ops p via key value) { m with entries := (key, value, 0) :: m.entries } := by
  have hwf := h.wf.write hplace hlacks value hroom (t.aux.map fun lane => Function.update lane p 0)
  have hslots : (t.fill ops p via key value).slots = Function.update t.slots p (some (key, value)) := by
    cases via <;> rfl
  have haux : (t.fill ops p via key value).aux = t.aux.map fun lane => Function.update lane p 0 := by
    cases via <;> rfl
  have hcap : (t.fill ops p via key value).cap = t.cap := by
    cases via <;> rfl
  refine ⟨?_, ?_, ?_⟩
  · cases via <;> exact hwf
  · have hrow : t.entryRow p = none := by
      unfold entryRow
      rw [h.wf.slots_eq_none hplace.inside hplace.byte, map_none]
    have hzero : (t.fill ops p via key value).word p = 0 := by
      unfold word
      rw [haux]
      cases t.aux with
      | none => rfl
      | some lane => exact update_self p 0 lane
    have hword : ∀ i, i ≠ p → (t.fill ops p via key value).word i = t.word i := by
      intro i hi
      unfold word
      rw [haux]
      cases t.aux with
      | none => rfl
      | some lane => exact update_of_ne hi 0 lane
    unfold entries
    rw [entryRow_update t _ hslots hword, hcap, hzero]
    exact (items_update_some hplace.inside hrow _).trans (h.perm.cons _)
  · rw [haux, isSome_map]
    exact h.aux

theorem eraseSlot (h : t.Refines ops m) (hh : t.Holds ops key p kv) {mark : UInt8}
    (hmark : mark = deletedByte ∨ mark = t.eraseMark p) :
    (t.eraseSlot p mark).Refines ops { m with entries := m.entries.filter fun e => !ops.eq e.1 key } := by
  refine ⟨h.wf.eraseSlot hh.inside hh.slot hmark, ?_, h.aux⟩
  obtain ⟨hperm, hrest⟩ := h.split hh
  unfold entries
  rw [entryRow_update t (t.eraseSlot p mark) rfl fun _ _ => rfl]
  exact (filter_of_perm_cons (q := fun e => ops.eq e.1 key) hperm hh.key_eq hrest).symm

theorem setWord (h : t.Refines ops m) (hh : t.Holds ops key p kv) (word : UInt64)
    (haux : t.aux.isSome = true) : Refines ops { t with aux := t.aux.map fun lane => Function.update lane p word }
      { m with entries := m.entries.map fun e => if ops.eq e.1 key then (e.1, e.2.1, word) else e } := by
  obtain ⟨lane, hlane⟩ := isSome_iff_exists.mp haux
  refine ⟨⟨h.wf.shaped, h.wf.mirrored, h.wf.tagged, h.wf.vacant, h.wf.distinct, h.wf.reach, h.wf.occupied_eq,
    h.wf.deleted_eq, h.wf.room⟩, ?_, by rw [isSome_map]; exact h.aux⟩
  obtain ⟨hperm, hrest⟩ := h.split hh
  have hmap := map_of_perm_cons (q := fun e => ops.eq e.1 key) (fun e => (e.1, e.2.1, word)) hperm hh.key_eq hrest
  have hrow : entryRow { t with aux := t.aux.map fun lane => Function.update lane p word } =
      Function.update t.entryRow p (some (kv.1, kv.2, word)) := by
    funext i
    unfold entryRow Table.word
    dsimp only
    rw [hlane, map_some]
    by_cases hi : i = p
    · subst hi
      rw [update_self, hh.slot]
      simp
    · rw [update_of_ne hi]
      simp [update_of_ne hi]
  unfold entries
  rw [hrow]
  exact (items_update_replace t.entryRow hh.inside _).trans hmap.symm

end Refines

end Table

end Kevy.Map
