import Kevy.Map.Update

/-!
# Growth

A table of twice the size gets the entries slot by slot, each with its word. While entries are moved no slot of the new
table is deleted, and there is room for all of them.
-/

namespace Kevy.Map

open Kevy.Lib Option

variable {K V : Type} {ops : KeyOps K} {t n : Table K V} {m : Dict K V}

namespace Table

/-- The capacity after `grow`. -/
def grownCap (t : Table K V) : Nat := if t.cap = 0 then minCap else t.cap * 2

/-- The new table holds what was in the first `i` slots. -/
structure Moved (ops : KeyOps K) (t n : Table K V) (i : Nat) : Prop where
  refines : n.Refines ops ⟨items t.entryRow i, t.aux.isSome⟩
  cap_eq : n.cap = t.grownCap
  clean : n.deleted = 0

theorem lacks_of_refines (h : n.Refines ops m) {key : K} (hm : ∀ x ∈ m.entries, ops.eq x.1 key = false) :
    n.Lacks ops key := by
  intro p kv hp hslot
  refine hm (kv.1, kv.2, n.word p) (h.perm.mem_iff.mp (mem_items.mpr ⟨p, hp, ?_⟩))
  unfold entryRow
  rw [hslot, map_some]

theorem insertKnownUnique_spec (h : n.WF ops) (hpos : 0 < n.cap) (hclean : n.deleted = 0) (key : K) (value : V) :
    ∃ p, n.insertKnownUnique (ops.hash key) key value = some (n.writeSlot p (ops.hash key) key value, p) ∧
      n.Place ops key p false := by
  obtain ⟨j, out, hout, hprobed⟩ := probeFrom_spec h hpos (fun _ => none) false key
  unfold insertKnownUnique
  rw [hout]
  cases out with
  | found slot => cases hprobed.found slot rfl
  | notFound p via =>
    have hplace := hprobed.place (h.shaped_of_lt hpos)
    cases via with
    | false => exact ⟨p, rfl, hplace⟩
    | true =>
      have := h.deleted_pos hplace.inside hplace.byte
      omega

/-- The lane of the new table once slot `i`'s word has gone along to slot `p`. -/
def carryWord (old new : Option (Nat → UInt64)) (i p : Nat) : Option (Nat → UInt64) :=
  new.map fun lane' => Function.update lane' p (old.elim 0 fun lane => lane i)

theorem carryWord_self (hsame : n.aux.isSome = t.aux.isSome) (i p : Nat) :
    (carryWord t.aux n.aux i p).elim 0 (fun lane => lane p) = t.word i := by
  unfold carryWord word
  cases hn : n.aux with
  | none =>
    rw [hn, isSome_none, eq_comm, isSome_eq_false_iff, isNone_iff_eq_none] at hsame
    rw [hsame]
    rfl
  | some lane' => exact Function.update_self _ _ _

theorem carryWord_of_ne (t n : Table K V) (i : Nat) {p q : Nat} (hq : q ≠ p) :
    (carryWord t.aux n.aux i p).elim 0 (fun lane => lane q) = n.word q := by
  unfold carryWord word
  cases n.aux with
  | none => rfl
  | some lane' => exact Function.update_of_ne hq _ _

theorem moveSlot_of_some (hsame : n.aux.isSome = t.aux.isSome) {i p : Nat} {key : K} {value : V}
    (hfull : isFull (t.ctrl i) = true) (hslot : t.slots i = some (key, value))
    (hins : n.insertKnownUnique (ops.hash key) key value = some (n.writeSlot p (ops.hash key) key value, p)) :
    t.moveSlot ops n i = some { n.writeSlot p (ops.hash key) key value with aux := carryWord t.aux n.aux i p } := by
  unfold moveSlot
  rw [if_pos hfull, hslot]
  dsimp only
  rw [hins]
  cases hn : n.aux with
  | none =>
    rw [hn, isSome_none, eq_comm, isSome_eq_false_iff, isNone_iff_eq_none] at hsame
    rw [hsame]
    simp [writeSlot, setMeta, carryWord, hn]
  | some lane' =>
    rw [hn] at hsame
    obtain ⟨lane, hlane⟩ := isSome_iff_exists.mp hsame.symm
    rw [hlane]
    simp [writeSlot, setMeta, carryWord, hn]

theorem Moved.step (h : t.WF ops) {i : Nat} (hi : i < t.cap) (hmoved : Moved ops t n i) :
    ∃ n', t.moveSlot ops n i = some n' ∧ Moved ops t n' (i + 1) := by
  have hfull := h.isFull_iff hi
  cases hslot : t.slots i with
  | none =>
    rw [hslot] at hfull
    have hsame : t.moveSlot ops n i = some n := by
      unfold moveSlot
      rw [if_neg (by simp [hfull])]
    have hrow : items t.entryRow (i + 1) = items t.entryRow i := by
      rw [items_succ, show t.entryRow i = none by unfold entryRow; rw [hslot, map_none]]
      exact List.append_nil _
    exact ⟨n, hsame, hrow ▸ hmoved.refines, hmoved.cap_eq, hmoved.clean⟩
  | some kv =>
    obtain ⟨key, value⟩ := kv
    rw [hslot] at hfull
    have hn := hmoved.refines
    have hcap : n.cap = t.cap * 2 := by
      rw [hmoved.cap_eq, grownCap, if_neg (by omega)]
    have hlen : n.occupied ≤ i := by
      rw [hn.length_eq]
      exact length_items_le _ _
    have hroom : n.occupied + n.deleted < n.threshold := by
      rw [hmoved.clean]
      unfold threshold
      omega
    have hlacks : n.Lacks ops key := by
      refine lacks_of_refines hn fun x hx => ?_
      obtain ⟨q, hq, hxq⟩ := mem_items.mp hx
      obtain ⟨kv', hslot', rfl⟩ := map_eq_some_iff.mp hxq
      rw [Bool.eq_false_iff]
      intro heq
      have := h.distinct q i kv' (key, value) (by omega) hi hslot' hslot heq
      omega
    obtain ⟨p, hins, hplace⟩ := insertKnownUnique_spec hn.wf (by omega) hmoved.clean key value
    refine ⟨_, moveSlot_of_some hn.aux (hfull.mpr rfl) hslot hins, ⟨hn.wf.write hplace hlacks value hroom _, ?_, ?_⟩,
      hmoved.cap_eq, hmoved.clean⟩
    rotate_left
    · exact (isSome_map).trans hn.aux
    have hempty : n.entryRow p = none := by
      unfold entryRow
      rw [hn.wf.slots_eq_none hplace.inside hplace.byte, map_none]
    have hrow : entryRow { n.writeSlot p (ops.hash key) key value with aux := carryWord t.aux n.aux i p } =
        Function.update n.entryRow p (some (key, value, t.word i)) := by
      rw [← carryWord_self hn.aux i p]
      exact entryRow_update n _ (p := p) (o := some (key, value)) rfl fun q hq => carryWord_of_ne t n i hq
    have hlast : t.entryRow i = some (key, value, t.word i) := by
      unfold entryRow
      rw [hslot, map_some]
    unfold entries
    rw [hrow]
    show List.Perm _ (items t.entryRow (i + 1))
    rw [items_succ, hlast]
    exact ((items_update_some hplace.inside hempty _).trans (hn.perm.cons _)).trans
      (List.perm_append_singleton _ _).symm

theorem Refines.grow (h : t.Refines ops m) :
    ∃ n, t.grow ops = some n ∧ n.Refines ops m ∧ n.cap = t.grownCap ∧ n.occupied + n.deleted < n.threshold := by
  have hshape : ∃ k, 4 ≤ k ∧ t.grownCap = 2 ^ k := by
    unfold grownCap
    rcases h.wf.shaped with hzero | ⟨k, hk, hcap⟩
    · rw [if_pos hzero]
      exact ⟨4, le_rfl, rfl⟩
    · rw [if_neg (by rw [hcap]; exact (Nat.two_pow_pos k).ne'), hcap]
      exact ⟨k + 1, by omega, (Nat.pow_succ 2 k).symm⟩
  have hrun : ∀ i, i ≤ t.cap → ∃ n, (List.range i).foldlM (t.moveSlot ops)
      { allocTable t.grownCap with aux := t.aux.map fun _ _ => 0 } = some n ∧ Moved ops t n i := by
    intro i hi
    induction i with
    | zero =>
      refine ⟨_, rfl, ?_, rfl, rfl⟩
      have hblank := refines_blank (V := V) ops
        (t := { allocTable t.grownCap with aux := t.aux.map fun _ _ => 0 }) (.inr hshape) rfl rfl rfl rfl
      rw [isSome_map] at hblank
      exact hblank
    | succ i ih =>
      obtain ⟨n, hn, hmoved⟩ := ih (by omega)
      obtain ⟨n', hn', hmoved'⟩ := hmoved.step h.wf hi
      refine ⟨n', ?_, hmoved'⟩
      rw [List.range_succ, List.foldlM_append, hn]
      simp [hn']
  obtain ⟨n, hn, hmoved⟩ := hrun t.cap le_rfl
  refine ⟨n, hn, ⟨hmoved.refines.wf, hmoved.refines.perm.trans h.perm, hmoved.refines.aux.trans h.aux⟩,
    hmoved.cap_eq, ?_⟩
  have hlen : n.occupied ≤ t.cap := by
    rw [hmoved.refines.length_eq]
    exact length_items_le _ _
  rw [hmoved.clean]
  unfold threshold
  rw [hmoved.cap_eq]
  unfold grownCap minCap
  split_ifs <;> omega

theorem Refines.maybeGrow (h : t.Refines ops m) :
    ∃ n, t.maybeGrow ops = some n ∧ n.Refines ops m ∧ 0 < n.cap ∧ n.occupied + n.deleted < n.threshold := by
  unfold Table.maybeGrow
  split_ifs with hgrows
  · obtain ⟨n, hn, hrefines, -, hroom⟩ := h.grow
    refine ⟨n, hn, hrefines, ?_, hroom⟩
    unfold threshold at hroom
    omega
  · unfold growsOnInsert at hgrows
    simp only [ge_iff_le, Bool.or_eq_true, beq_iff_eq, decide_eq_true_eq, not_or, not_le] at hgrows
    exact ⟨t, rfl, h, by omega, hgrows.2⟩

end Table

end Kevy.Map
