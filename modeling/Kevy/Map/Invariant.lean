import Kevy.Map.Probe

/-!
# The invariant of the table

Every operation changes at most one slot, or builds a new table entry by entry. `WF.change` says once when a change of
one slot keeps the table well formed. The one delicate case is a slot that becomes empty: then each window with the slot
in it must have had another empty slot, so that no probe ever went past it.
-/

namespace Kevy.Map

open Kevy.Lib Function

variable {K V : Type} {ops : KeyOps K} {t : Table K V}

namespace Table

def tombs (t : Table K V) : Nat → Option Unit := fun i => if t.ctrl i = deletedByte then some () else none

structure WF (ops : KeyOps K) (t : Table K V) : Prop where
  shaped : t.cap = 0 ∨ t.Shaped
  mirrored : t.Mirrored
  tagged : ∀ p kv, p < t.cap → t.slots p = some kv → t.ctrl p = h2 (ops.hash kv.1)
  vacant : ∀ p, p < t.cap → t.slots p = none → t.ctrl p = emptyByte ∨ t.ctrl p = deletedByte
  distinct : ∀ p q kv kv', p < t.cap → q < t.cap → t.slots p = some kv → t.slots q = some kv' →
    ops.eq kv.1 kv'.1 = true → p = q
  reach : ∀ p kv, p < t.cap → t.slots p = some kv → t.Reach (t.home ops kv.1) (t.dist (t.home ops kv.1) p)
  occupied_eq : t.occupied = (items t.slots t.cap).length
  deleted_eq : t.deleted = (items t.tombs t.cap).length
  room : t.occupied + t.deleted ≤ t.threshold

variable {p : Nat}

theorem WF.shaped_of_lt (h : t.WF ops) (hp : p < t.cap) : t.Shaped :=
  h.shaped.resolve_left (by omega)

theorem WF.isFull_iff (h : t.WF ops) (hp : p < t.cap) : isFull (t.ctrl p) = true ↔ (t.slots p).isSome := by
  cases hslot : t.slots p with
  | some kv => simp [h.tagged p kv hp hslot, isFull_h2]
  | none =>
    rcases h.vacant p hp hslot with hb | hb <;> rw [hb, Option.isSome_none] <;> decide

theorem WF.slots_eq_none (h : t.WF ops) (hp : p < t.cap) {via : Bool}
    (hb : t.ctrl p = if via then deletedByte else emptyByte) : t.slots p = none := by
  cases hslot : t.slots p with
  | none => rfl
  | some kv =>
    rw [h.tagged p kv hp hslot] at hb
    cases via
    · exact absurd hb (h2_ne_empty _)
    · exact absurd hb (h2_ne_deleted _)

theorem WF.exists_empty (h : t.WF ops) (hpos : 0 < t.cap) : ∃ p, p < t.cap ∧ t.ctrl p = emptyByte := by
  by_contra hnone
  push Not at hnone
  have hcover : t.cap ≤ (items t.slots t.cap).length + (items t.tombs t.cap).length := by
    refine le_length_items_add fun p hp hslot => ?_
    rcases h.vacant p hp hslot with hb | hb
    · exact absurd hb (hnone p hp)
    · simp [tombs, hb]
  have hroom := h.room
  rw [h.occupied_eq, h.deleted_eq] at hroom
  obtain ⟨g, hg, hcap⟩ := (h.shaped_of_lt hpos).dvd
  unfold threshold at hroom
  simp only [groupWidth] at hcap
  omega

/-! ## One control byte -/

variable {i : Nat}

theorem Shaped.mirror_index (hs : t.Shaped) (hi : i < t.cap) :
    t.wrap (i + t.cap - groupWidth) + groupWidth = if i < groupWidth then t.cap + i else i := by
  obtain ⟨g, hg, hcap⟩ := hs.dvd
  have hwide : groupWidth ≤ t.cap := by
    rw [hcap]
    exact Nat.le_mul_of_pos_right _ hg
  rw [hs.wrap_eq]
  split_ifs with h
  · rw [Nat.mod_eq_of_lt (by omega)]
    omega
  · rw [show i + t.cap - groupWidth = i - groupWidth + t.cap by omega, Nat.add_mod_right, Nat.mod_eq_of_lt (by omega)]
    omega

theorem setMeta_ctrl (hs : t.Shaped) (hi : i < t.cap) (b : UInt8) (x : Nat) :
    (t.setMeta i b).ctrl x = if x = i ∨ (x = t.cap + i ∧ i < groupWidth) then b else t.ctrl x := by
  show Function.update (Function.update t.ctrl i b) (t.wrap (i + t.cap - groupWidth) + groupWidth) b x = _
  rw [hs.mirror_index hi, update_apply, update_apply]
  split_ifs <;> first | rfl | omega

theorem setMeta_ctrl_of_lt (hs : t.Shaped) (hi : i < t.cap) (b : UInt8) {x : Nat} (hx : x < t.cap) :
    (t.setMeta i b).ctrl x = if x = i then b else t.ctrl x := by
  rw [setMeta_ctrl hs hi]
  congr 1
  exact propext ⟨fun h => h.resolve_right (by omega), .inl⟩

theorem Mirrored.setMeta (hm : t.Mirrored) (hs : t.Shaped) (hi : i < t.cap) (b : UInt8) : (t.setMeta i b).Mirrored := by
  intro x hx
  show (t.setMeta i b).ctrl (t.cap + x) = (t.setMeta i b).ctrl x
  rw [setMeta_ctrl hs hi, setMeta_ctrl hs hi, hm x hx]
  obtain ⟨g, hg, hcap⟩ := hs.dvd
  have hwide : groupWidth ≤ t.cap := by
    rw [hcap]
    exact Nat.le_mul_of_pos_right _ hg
  congr 1
  exact propext (by omega)

theorem setMeta_self (hm : t.Mirrored) (hs : t.Shaped) (hi : i < t.cap) : t.setMeta i (t.ctrl i) = t := by
  have hctrl : (t.setMeta i (t.ctrl i)).ctrl = t.ctrl := by
    funext x
    rw [setMeta_ctrl hs hi]
    split_ifs with h
    · rcases h with rfl | ⟨rfl, hlt⟩
      · rfl
      · exact (hm i hlt).symm
    · rfl
  unfold setMeta at hctrl ⊢
  dsimp only at hctrl ⊢
  rw [hctrl]

/-! ## One slot -/

/-- A slot gets a new control byte and a new content. -/
def change (t : Table K V) (p : Nat) (b : UInt8) (o : Option (K × V)) : Table K V :=
  { t.setMeta p b with slots := Function.update t.slots p o }

/-- Each window with slot `p` in it has another slot that is empty. -/
def Spare (t : Table K V) (p : Nat) : Prop :=
  ∀ h j m, m < groupWidth → t.at_ h (groupWidth * j + m) = p →
    ∃ m', m' < groupWidth ∧ t.at_ h (groupWidth * j + m') ≠ p ∧ t.ctrl (t.at_ h (groupWidth * j + m')) = emptyByte

theorem Reach.change (hs : t.Shaped) (hp : p < t.cap) {b : UInt8} {o : Option (K × V)}
    (hspare : b = emptyByte → t.Spare p) {h q : Nat} (hreach : t.Reach h q) : (t.change p b o).Reach h q := by
  intro q' hq'
  show (t.setMeta p b).ctrl (t.at_ h q') ≠ emptyByte
  rw [setMeta_ctrl_of_lt hs hp _ (hs.at_lt _ _)]
  split_ifs with heq
  · intro hb
    -- the window of `q'` is before that of `q`, so it cannot have had another empty slot
    have hsplit := Nat.div_add_mod q' groupWidth
    obtain ⟨m', hm', -, hempty⟩ := hspare hb h (q' / groupWidth) (q' % groupWidth)
      (Nat.mod_lt _ (by decide)) (by rw [hsplit]; exact heq)
    refine hreach _ ?_ hempty
    have hwin : q' / groupWidth < q / groupWidth := Nat.div_lt_of_lt_mul hq'
    have hle : groupWidth * (q' / groupWidth + 1) ≤ groupWidth * (q / groupWidth) := Nat.mul_le_mul_left _ hwin
    simp only [groupWidth] at hm' hle ⊢
    omega
  · exact hreach q' hq'

theorem length_tombs_change (hs : t.Shaped) (hp : p < t.cap) (b : UInt8) (o : Option (K × V)) :
    (items (t.change p b o).tombs t.cap).length + (if t.ctrl p = deletedByte then 1 else 0) =
      (items t.tombs t.cap).length + if b = deletedByte then 1 else 0 := by
  have hrow : items (t.change p b o).tombs t.cap =
      items (Function.update t.tombs p (if b = deletedByte then some () else none)) t.cap := by
    refine items_congr fun x hx => ?_
    show (if (t.setMeta p b).ctrl x = deletedByte then some () else none) = _
    rw [setMeta_ctrl_of_lt hs hp _ hx, update_apply]
    by_cases hxp : x = p
    · rw [if_pos hxp, if_pos hxp]
    · rw [if_neg hxp, if_neg hxp]
      rfl
  have hlen := length_items_update t.tombs hp (if b = deletedByte then some () else none)
  rw [hrow]
  have hone : ∀ c : Prop, [Decidable c] →
      (if c then some () else none : Option Unit).toList.length = if c then 1 else 0 := by
    intro c _
    split_ifs <;> rfl
  rw [hone] at hlen
  unfold tombs at hlen
  rw [hone] at hlen
  exact hlen

/-- **One slot** may change when the new byte fits the new content, no other slot has the key, the key can be found
there, a slot that becomes empty was to spare, and the counts follow. -/
theorem WF.change (h : t.WF ops) (hp : p < t.cap) {b : UInt8} {o : Option (K × V)} {occ del : Nat}
    (aux : Option (Nat → UInt64))
    (hsome : ∀ kv, o = some kv → b = h2 (ops.hash kv.1) ∧ t.Reach (t.home ops kv.1) (t.dist (t.home ops kv.1) p) ∧
      ∀ q kv', q < t.cap → q ≠ p → t.slots q = some kv' → ops.eq kv'.1 kv.1 = false)
    (hnone : o = none → b = emptyByte ∨ b = deletedByte) (hspare : b = emptyByte → t.Spare p)
    (hocc : occ + (t.slots p).toList.length = t.occupied + o.toList.length)
    (hdel : del + (if t.ctrl p = deletedByte then 1 else 0) = t.deleted + if b = deletedByte then 1 else 0)
    (hroom : occ + del ≤ t.threshold) : WF ops { t.change p b o with occupied := occ, deleted := del, aux := aux } := by
  have hs := h.shaped_of_lt hp
  have hctrl : ∀ x, x < t.cap → (t.change p b o).ctrl x = if x = p then b else t.ctrl x :=
    fun x hx => setMeta_ctrl_of_lt hs hp b hx
  have hslots : ∀ x, (t.change p b o).slots x = if x = p then o else t.slots x :=
    fun x => update_apply _ _ _ _
  refine ⟨.inr hs, h.mirrored.setMeta hs hp b, ?_, ?_, ?_, ?_, ?_, ?_, hroom⟩
  · intro x kv hx hkv
    show (t.change p b o).ctrl x = _
    change (t.change p b o).slots x = _ at hkv
    rw [hctrl x hx]
    rw [hslots] at hkv
    split_ifs at hkv ⊢
    · exact (hsome kv hkv).1
    · exact h.tagged x kv hx hkv
  · intro x hx hkv
    show (t.change p b o).ctrl x = _ ∨ (t.change p b o).ctrl x = _
    change (t.change p b o).slots x = _ at hkv
    rw [hctrl x hx]
    rw [hslots] at hkv
    split_ifs at hkv ⊢
    · exact hnone hkv
    · exact h.vacant x hx hkv
  · intro x y kv kv' hx hy hkv hkv' heq
    change (t.change p b o).slots x = _ at hkv
    change (t.change p b o).slots y = _ at hkv'
    rw [hslots] at hkv hkv'
    split_ifs at hkv hkv' with hxp hyp hyp
    · omega
    · exact absurd (ops.symm heq) (by rw [(hsome kv hkv).2.2 y kv' hy hyp hkv']; decide)
    · exact absurd heq (by rw [(hsome kv' hkv').2.2 x kv hx hxp hkv]; decide)
    · exact h.distinct x y kv kv' hx hy hkv hkv' heq
  · intro x kv hx hkv
    change (t.change p b o).slots x = _ at hkv
    show (t.change p b o).Reach (t.home ops kv.1) (t.dist (t.home ops kv.1) x)
    refine Reach.change hs hp hspare ?_
    rw [hslots] at hkv
    split_ifs at hkv with hxp
    · subst hxp
      exact (hsome kv hkv).2.1
    · exact h.reach x kv hx hkv
  · have hlen := length_items_update t.slots hp o
    show occ = (items (Function.update t.slots p o) t.cap).length
    rw [h.occupied_eq] at hocc
    omega
  · have hlen := length_tombs_change hs hp b o
    show del = (items (t.change p b o).tombs t.cap).length
    rw [h.deleted_eq] at hdel
    omega

end Table

end Kevy.Map
