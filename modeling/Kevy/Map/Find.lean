import Kevy.Map.Invariant

/-!
# Finding and placing a key

In a well-formed table a probe finds the key when it is stored, and otherwise ends with a slot where it may be written:
there it can be found from then on.
-/

namespace Kevy.Map

open Kevy.Lib List

variable {K V : Type} {ops : KeyOps K} {t : Table K V}

namespace Table

/-- Slot `p` holds the entry of `key`. -/
structure Holds (ops : KeyOps K) (t : Table K V) (key : K) (p : Nat) (kv : K × V) : Prop where
  inside : p < t.cap
  slot : t.slots p = some kv
  key_eq : ops.eq kv.1 key = true

def Lacks (ops : KeyOps K) (t : Table K V) (key : K) : Prop :=
  ∀ p kv, p < t.cap → t.slots p = some kv → ops.eq kv.1 key = false

variable {key : K} {p : Nat} {kv : K × V}

theorem Lacks.not_holds (h : t.Lacks ops key) : ¬ t.Holds ops key p kv := by
  intro hh
  have hfalse := h p kv hh.inside hh.slot
  rw [hh.key_eq] at hfalse
  cases hfalse

theorem lacks_of_not_holds (h : ∀ p kv, ¬ t.Holds ops key p kv) : t.Lacks ops key := by
  intro p kv hp hslot
  rw [Bool.eq_false_iff]
  exact fun heq => h p kv ⟨hp, hslot, heq⟩

theorem home_congr {a b : K} (h : ops.eq a b = true) : t.home ops a = t.home ops b := by
  unfold home
  rw [ops.hash_eq h]

theorem holds_of_matchKey (hs : t.Shaped) {start p : Nat} (h : t.matchKey ops key start = some p) :
    ∃ kv, t.Holds ops key p kv := by
  have hkey := find?_some h
  obtain ⟨m, -, rfl⟩ := List.mem_map.mp (mem_of_find?_eq_some h)
  unfold keyMatches at hkey
  obtain ⟨kv, hslot, heq⟩ := (Option.any_eq_true _ _).mp hkey
  exact ⟨kv, hs.wrap_lt _, hslot, heq⟩

theorem matchKey_ne_none (h : t.WF ops) (hh : t.Holds ops key p kv) :
    t.matchKey ops key (t.at_ (t.home ops key) (groupWidth * (t.dist (t.home ops key) p / groupWidth))) ≠ none := by
  have hs := h.shaped_of_lt hh.inside
  set d := t.dist (t.home ops key) p with hd
  have hat : t.at_ (t.home ops key) (groupWidth * (d / groupWidth) + d % groupWidth) = p := by
    rw [Nat.div_add_mod, hd, at_dist (hs.home_lt ops key) hh.inside]
  have hlane : d % groupWidth < groupWidth := Nat.mod_lt _ (by decide)
  have hbyte := ctrl_lane hs h.mirrored (t.home ops key) (d / groupWidth) hlane
  rw [hat, h.tagged p kv hh.inside hh.slot, ops.hash_eq hh.key_eq] at hbyte
  intro hnone
  have hmiss := find?_eq_none.mp hnone p
    (List.mem_map.mpr ⟨d % groupWidth, mem_matchByte.mpr ⟨hlane, hbyte⟩, by rw [wrap_lane hs, hat]⟩)
  unfold keyMatches at hmiss
  rw [hh.slot, Option.any_some, hh.key_eq] at hmiss
  exact hmiss rfl

theorem probeFrom_spec (h : t.WF ops) (hpos : 0 < t.cap) (hit : Nat → Option Nat) (track : Bool) (key : K) :
    ∃ j out, t.probeFrom hit track (ops.hash key) = some out ∧ t.Probed hit (t.home ops key) j out := by
  have hs := h.shaped_of_lt hpos
  obtain ⟨e, he, hempty⟩ := h.exists_empty hpos
  have hhome := hs.home_lt ops key
  have hstart : t.wrap (ops.hash key).toNat = t.at_ (t.home ops key) (groupWidth * 0) := by
    unfold at_
    rw [Nat.mul_zero, Nat.add_zero, Nat.mod_eq_of_lt hhome]
    rfl
  unfold probeFrom
  rw [hstart]
  rw [← at_dist hhome he] at hempty
  exact probeLoop_spec hs h.mirrored hit track (dist_lt hpos) hempty _ 0 none (Nat.zero_add _) nofun nofun nofun

theorem Probed.lacks (h : t.WF ops) {j p : Nat} {via : Bool}
    (hp : t.Probed (t.matchKey ops key) (t.home ops key) j (.notFound p via)) : t.Lacks ops key := by
  refine lacks_of_not_holds fun slot kv hh => ?_
  obtain ⟨hlast, ⟨m, hm, hempty⟩, -⟩ := hp.ends p via rfl
  have hfound := matchKey_ne_none h hh
  have hreach := h.reach slot kv hh.inside hh.slot
  rw [home_congr hh.key_eq] at hreach
  set w := t.dist (t.home ops key) slot / groupWidth
  rcases Nat.lt_trichotomy w j with hlt | heq | hgt
  · exact hfound (hp.missed w hlt)
  · rw [heq] at hfound
    exact hfound hlast
  · refine hreach _ ?_ hempty
    have hle : groupWidth * (j + 1) ≤ groupWidth * w := Nat.mul_le_mul_left _ hgt
    simp only [groupWidth] at hle hm ⊢
    show 16 * j + m < 16 * w
    omega

structure Place (ops : KeyOps K) (t : Table K V) (key : K) (p : Nat) (via : Bool) : Prop where
  inside : p < t.cap
  byte : t.ctrl p = if via then deletedByte else emptyByte
  reach : t.Reach (t.home ops key) (t.dist (t.home ops key) p)

theorem Probed.place (hs : t.Shaped) {hit : Nat → Option Nat} {j p : Nat} {via : Bool}
    (hp : t.Probed hit (t.home ops key) j (.notFound p via)) : t.Place ops key p via := by
  obtain ⟨-, -, q, hq, hreach, rfl, hbyte⟩ := hp.ends p via rfl
  refine ⟨hs.at_lt _ _, hbyte, ?_⟩
  rw [dist_at (hs.home_lt ops key) hq]
  exact hreach

theorem probe_spec (h : t.WF ops) (hpos : 0 < t.cap) (key : K) :
    (∃ p kv, t.probe ops key = some (.found p) ∧ t.Holds ops key p kv) ∨
      ∃ p via, t.probe ops key = some (.notFound p via) ∧ t.Lacks ops key ∧ t.Place ops key p via := by
  have hs := h.shaped_of_lt hpos
  obtain ⟨j, out, hout, hprobed⟩ := probeFrom_spec h hpos (t.matchKey ops key) (decide (t.deleted ≠ 0)) key
  have hprobe : t.probe ops key = some out := by
    unfold probe
    rw [if_neg (by omega), hout]
  cases out with
  | found p =>
    obtain ⟨kv, hh⟩ := holds_of_matchKey hs (hprobed.found p rfl)
    exact .inl ⟨p, kv, hprobe, hh⟩
  | notFound p via => exact .inr ⟨p, via, hprobe, hprobed.lacks h, hprobed.place hs⟩

theorem findByBorrow_spec (h : t.WF ops) (key : K) :
    (∃ p kv, t.findByBorrow ops key = some (some p) ∧ t.Holds ops key p kv) ∨
      t.findByBorrow ops key = some none ∧ t.Lacks ops key := by
  unfold findByBorrow
  rcases Nat.eq_zero_or_pos t.cap with hzero | hpos
  · refine .inr ⟨if_pos hzero, fun p kv hp => ?_⟩
    omega
  · obtain ⟨j, out, hout, hprobed⟩ := probeFrom_spec h hpos (t.matchKey ops key) false key
    rw [if_neg (by omega), hout]
    cases out with
    | found p =>
      obtain ⟨kv, hh⟩ := holds_of_matchKey (h.shaped_of_lt hpos) (hprobed.found p rfl)
      exact .inl ⟨p, kv, rfl, hh⟩
    | notFound p via => exact .inr ⟨rfl, hprobed.lacks h⟩

theorem WF.findByBorrow_eq (h : t.WF ops) (hh : t.Holds ops key p kv) : t.findByBorrow ops key = some (some p) := by
  rcases findByBorrow_spec h key with ⟨q, kv', hfind, hq⟩ | ⟨-, hlacks⟩
  · rw [hfind, h.distinct q p kv' kv hq.inside hh.inside hq.slot hh.slot (ops.trans hq.key_eq (ops.symm hh.key_eq))]
  · exact absurd hh hlacks.not_holds

/-! ## Writing a new entry -/

theorem WF.deleted_pos (h : t.WF ops) (hp : p < t.cap) (hb : t.ctrl p = deletedByte) : 0 < t.deleted := by
  rw [h.deleted_eq]
  refine length_pos_of_mem (mem_items.mpr ⟨p, hp, ?_⟩) (a := ())
  unfold tombs
  rw [if_pos hb]

theorem WF.write (h : t.WF ops) {via : Bool} (hplace : t.Place ops key p via)
    (hlacks : t.Lacks ops key) (value : V) (hroom : t.occupied + t.deleted < t.threshold)
    (aux : Option (Nat → UInt64)) : WF ops { t.change p (h2 (ops.hash key)) (some (key, value)) with
      occupied := t.occupied + 1, deleted := if via then t.deleted - 1 else t.deleted, aux := aux } := by
  have hslot := h.slots_eq_none hplace.inside hplace.byte
  have hpos : via = true → 0 < t.deleted := by
    intro hvia
    have hbyte := hplace.byte
    rw [if_pos hvia] at hbyte
    exact h.deleted_pos hplace.inside hbyte
  refine h.change hplace.inside aux ?_ nofun (fun hb => absurd hb (h2_ne_empty _)) ?_ ?_ ?_
  · intro kv hkv
    cases hkv
    exact ⟨rfl, hplace.reach, fun q kv' hq _ hkv' => hlacks q kv' hq hkv'⟩
  · rw [hslot]
    rfl
  · rw [hplace.byte, if_neg (h2_ne_deleted _)]
    cases via
    · rw [if_neg (by decide), if_neg (by decide)]
    · have := hpos rfl
      rw [if_pos rfl, if_pos rfl, if_pos rfl]
      omega
  · cases via
    · rw [if_neg (by decide)]
      omega
    · have := hpos rfl
      rw [if_pos rfl]
      omega

/-! ## Erasing an entry -/

theorem sub_mod_ring {n c x : Nat} (hx : c ≤ x) (hc : c ≤ n) : (x - c) % n = (x % n + n - c) % n := by
  have hdiv := Nat.mod_add_div x n
  calc (x - c) % n = (x - c + n) % n := (Nat.add_mod_right _ _).symm
    _ = (x % n + n - c + n * (x / n)) % n := by
      congr 1
      omega
    _ = (x % n + n - c) % n := Nat.add_mul_mod_self_left _ _ _

theorem emptyBefore_spec (hs : t.Shaped) (hm : t.Mirrored) {idx b : Nat} (hb : t.emptyBefore idx = b)
    (hlt : b < groupWidth) : t.ctrl ((idx + t.cap - (b + 1)) % t.cap) = emptyByte := by
  unfold emptyBefore at hb
  split at hb
  · omega
  · rename_i m hlast
    obtain ⟨hm16, hbyte⟩ := mem_matchByte.mp (mem_of_getLast? hlast)
    obtain ⟨g, hg, hcap⟩ := hs.dvd
    rw [ctrl_window hs hm (hs.wrap_lt _) hm16, hs.wrap_eq, Nat.mod_add_mod] at hbyte
    simp only [groupWidth] at hb hcap hm16 hbyte
    rw [show idx + t.cap - (b + 1) = idx + t.cap - 16 + m by omega]
    exact hbyte

theorem emptyAfter_spec (hs : t.Shaped) (hm : t.Mirrored) {idx a : Nat} (hidx : idx < t.cap)
    (ha : t.emptyAfter idx = a) (hlt : a < groupWidth) : t.ctrl ((idx + a) % t.cap) = emptyByte := by
  unfold emptyAfter at ha
  split at ha
  · omega
  · rename_i m hhead
    obtain ⟨hm16, hbyte⟩ := mem_matchByte.mp (mem_of_mem_head? hhead)
    rw [ctrl_window hs hm hidx hm16, ha] at hbyte
    exact hbyte

theorem spare_of_eraseMark (hs : t.Shaped) (hm : t.Mirrored) (hp : p < t.cap)
    (hfull : t.ctrl p ≠ emptyByte) (hmark : t.eraseMark p = emptyByte) : t.Spare p := by
  have hsum : t.emptyBefore p + t.emptyAfter p < groupWidth := by
    unfold eraseMark at hmark
    split_ifs at hmark with hge
    · exact absurd hmark (by decide)
    · omega
  obtain ⟨g, hg, hcap⟩ := hs.dvd
  have hbefore := emptyBefore_spec hs hm rfl (show t.emptyBefore p < groupWidth by omega)
  have hafter := emptyAfter_spec hs hm hp rfl (show t.emptyAfter p < groupWidth by omega)
  set b := t.emptyBefore p
  set a := t.emptyAfter p
  intro h j m hlane hat
  -- an empty slot of the window is another one than `p`
  suffices hempty : ∃ m', m' < groupWidth ∧ t.ctrl (t.at_ h (groupWidth * j + m')) = emptyByte by
    obtain ⟨m', hm', hbyte⟩ := hempty
    exact ⟨m', hm', fun heq => hfull (heq ▸ hbyte), hbyte⟩
  unfold at_ at hat ⊢
  rcases Nat.lt_or_ge b m with hlt | hge
  · refine ⟨m - (b + 1), by omega, ?_⟩
    rw [show h + (groupWidth * j + (m - (b + 1))) = h + (groupWidth * j + m) - (b + 1) by omega,
      sub_mod_ring (by omega) (by simp only [groupWidth] at hcap hsum; omega), hat]
    exact hbefore
  · refine ⟨m + a, by omega, ?_⟩
    rw [show h + (groupWidth * j + (m + a)) = h + (groupWidth * j + m) + a by omega, ← Nat.mod_add_mod, hat]
    exact hafter

theorem WF.eraseSlot (h : t.WF ops) (hp : p < t.cap) (hslot : t.slots p = some kv)
    {mark : UInt8} (hmark : mark = deletedByte ∨ mark = t.eraseMark p) : (t.eraseSlot p mark).WF ops := by
  have hs := h.shaped_of_lt hp
  have htag := h.tagged p kv hp hslot
  have hocc : 0 < t.occupied := by
    rw [h.occupied_eq]
    exact length_pos_of_mem (mem_items.mpr ⟨p, hp, hslot⟩)
  have hroom := h.room
  refine h.change hp t.aux nofun (fun _ => ?_) (fun hb => ?_) ?_ ?_ ?_
  · rcases hmark with rfl | rfl
    · exact .inr rfl
    · unfold eraseMark
      split_ifs
      · exact .inr rfl
      · exact .inl rfl
  · refine spare_of_eraseMark hs h.mirrored hp (htag ▸ h2_ne_empty _) ?_
    rcases hmark with rfl | rfl
    · exact absurd hb (by decide)
    · exact hb
  · rw [hslot]
    show t.occupied - 1 + 1 = t.occupied + 0
    omega
  · rw [htag, if_neg (h2_ne_deleted _)]
    show (if mark = deletedByte then t.deleted + 1 else t.deleted) + 0 = _
    split_ifs <;> rfl
  · show t.occupied - 1 + (if mark = deletedByte then t.deleted + 1 else t.deleted) ≤ t.threshold
    split_ifs <;> omega

/-! ## Another value -/

theorem WF.setValue (h : t.WF ops) (hp : p < t.cap) (hslot : t.slots p = some kv) (value : V) :
    WF ops { t with slots := Function.update t.slots p (some (kv.1, value)) } := by
  have hs := h.shaped_of_lt hp
  have htag := h.tagged p kv hp hslot
  have hchange : WF ops { t.change p (t.ctrl p) (some (kv.1, value)) with
      occupied := t.occupied, deleted := t.deleted, aux := t.aux } := by
    refine h.change hp t.aux (fun kv' hkv' => ?_) nofun (fun hb => absurd (htag ▸ hb) (h2_ne_empty _))
      (by rw [hslot]; rfl) rfl h.room
    cases hkv'
    refine ⟨htag, h.reach p kv hp hslot, fun q kv' hq hne hkv' => ?_⟩
    rw [Bool.eq_false_iff]
    exact fun heq => hne (h.distinct q p kv' kv hq hp hkv' hslot heq)
  unfold Table.change at hchange
  rw [setMeta_self h.mirrored hs hp] at hchange
  exact hchange

end Table

end Kevy.Map
