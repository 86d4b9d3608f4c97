import Mathlib.Data.Nat.Bitwise
import Kevy.Lib.Slots
import Kevy.Map.Table

/-!
# Where a probe leads

The windows of a probe tile the table: offset `q` from the home slot lies in window `q / 16`. An entry can be found
when no window before its own has an empty slot (`Reach`), and that is what every operation keeps. Since a table is
never full of entries and deleted slots, a probe ends before it has gone round.
-/

namespace Kevy.Map

open Kevy.Lib

variable {K V : Type} {ops : KeyOps K} {t : Table K V}

/-! ## Control bytes -/

theorem isFull_ofNat : ∀ n, n < 128 → isFull (UInt8.ofNat n) = true := by
  decide +kernel

theorem isFull_h2 (hash : UInt64) : isFull (h2 hash) = true :=
  isFull_ofNat _ (Nat.mod_lt _ (by decide))

theorem h2_ne_empty (hash : UInt64) : h2 hash ≠ emptyByte := fun h =>
  absurd (h ▸ isFull_h2 hash) (by decide)

theorem h2_ne_deleted (hash : UInt64) : h2 hash ≠ deletedByte := fun h =>
  absurd (h ▸ isFull_h2 hash) (by decide)

namespace Table

/-! ## Positions on the ring -/

/-- The slot `q` places behind slot `h`. -/
def at_ (t : Table K V) (h q : Nat) : Nat := (h + q) % t.cap

/-- How far slot `p` is behind slot `h`. -/
def dist (t : Table K V) (h p : Nat) : Nat := (p + t.cap - h) % t.cap

def home (ops : KeyOps K) (t : Table K V) (key : K) : Nat := t.wrap (ops.hash key).toNat

/-- The capacity is a power of two, sixteen or more. -/
def Shaped (t : Table K V) : Prop := ∃ k, 4 ≤ k ∧ t.cap = 2 ^ k

theorem Shaped.pos (h : t.Shaped) : 0 < t.cap := by
  obtain ⟨k, -, hk⟩ := h
  rw [hk]
  exact Nat.two_pow_pos k

theorem Shaped.dvd (h : t.Shaped) : ∃ g, 0 < g ∧ t.cap = groupWidth * g := by
  obtain ⟨k, hk4, hk⟩ := h
  refine ⟨2 ^ (k - 4), Nat.two_pow_pos _, ?_⟩
  rw [hk, show groupWidth = 2 ^ 4 from rfl, ← pow_add, Nat.add_sub_cancel' hk4]

theorem Shaped.wrap_eq (h : t.Shaped) (x : Nat) : t.wrap x = x % t.cap := by
  obtain ⟨k, -, hk⟩ := h
  unfold wrap
  rw [hk, Nat.and_two_pow_sub_one_eq_mod]

theorem Shaped.wrap_lt (h : t.Shaped) (x : Nat) : t.wrap x < t.cap := by
  rw [h.wrap_eq]
  exact Nat.mod_lt _ h.pos

theorem Shaped.at_lt (h : t.Shaped) (x q : Nat) : t.at_ x q < t.cap := Nat.mod_lt _ h.pos

variable {h : Nat}

theorem at_dist {p : Nat} (hh : h < t.cap) (hp : p < t.cap) : t.at_ h (t.dist h p) = p := by
  unfold at_ dist
  rw [Nat.add_mod_mod, show h + (p + t.cap - h) = p + t.cap by omega, Nat.add_mod_right, Nat.mod_eq_of_lt hp]

theorem dist_at {q : Nat} (hh : h < t.cap) (hq : q < t.cap) : t.dist h (t.at_ h q) = q := by
  unfold at_ dist
  rcases Nat.lt_or_ge (h + q) t.cap with hlt | hge
  · rw [Nat.mod_eq_of_lt hlt, show h + q + t.cap - h = q + t.cap by omega, Nat.add_mod_right, Nat.mod_eq_of_lt hq]
  · rw [Nat.mod_eq_sub_mod hge, Nat.mod_eq_of_lt (show h + q - t.cap < t.cap by omega),
      show h + q - t.cap + t.cap - h = q by omega, Nat.mod_eq_of_lt hq]

theorem dist_lt {p : Nat} (hpos : 0 < t.cap) : t.dist h p < t.cap := Nat.mod_lt _ hpos

theorem Shaped.home_lt (h : t.Shaped) (ops : KeyOps K) (key : K) : t.home ops key < t.cap := h.wrap_lt _

/-! ## Windows -/

theorem mem_matchByte {start m : Nat} {b : UInt8} :
    m ∈ t.matchByte start b ↔ m < groupWidth ∧ t.ctrl (start + m) = b := by
  unfold matchByte
  rw [List.mem_filter, List.mem_range, beq_iff_eq]

/-- The repeated control bytes agree with the first ones. -/
def Mirrored (t : Table K V) : Prop := ∀ i, i < groupWidth → t.ctrl (t.cap + i) = t.ctrl i

theorem ctrl_window (hs : t.Shaped) (hm : t.Mirrored) {start m : Nat} (hstart : start < t.cap) (hlt : m < groupWidth) :
    t.ctrl (start + m) = t.ctrl ((start + m) % t.cap) := by
  obtain ⟨g, hg, hcap⟩ := hs.dvd
  have hwide : groupWidth ≤ t.cap := by
    rw [hcap]
    exact Nat.le_mul_of_pos_right _ hg
  rcases Nat.lt_or_ge (start + m) t.cap with h | h
  · rw [Nat.mod_eq_of_lt h]
  · have hover : start + m - t.cap < groupWidth := by omega
    rw [Nat.mod_eq_sub_mod h, Nat.mod_eq_of_lt (by omega), ← hm _ hover, Nat.add_sub_cancel' h]

theorem ctrl_lane (hs : t.Shaped) (hm : t.Mirrored) (h j : Nat) {m : Nat} (hlt : m < groupWidth) :
    t.ctrl (t.at_ h (groupWidth * j) + m) = t.ctrl (t.at_ h (groupWidth * j + m)) := by
  rw [ctrl_window hs hm (hs.at_lt _ _) hlt]
  unfold at_
  rw [Nat.mod_add_mod, Nat.add_assoc]

theorem wrap_lane (hs : t.Shaped) (h j m : Nat) :
    t.wrap (t.at_ h (groupWidth * j) + m) = t.at_ h (groupWidth * j + m) := by
  rw [hs.wrap_eq]
  unfold at_
  rw [Nat.mod_add_mod, Nat.add_assoc]

theorem wrap_next (hs : t.Shaped) (h j : Nat) :
    t.wrap (t.at_ h (groupWidth * j) + groupWidth) = t.at_ h (groupWidth * (j + 1)) := by
  rw [wrap_lane hs, Nat.mul_succ]

def NoEmpty (t : Table K V) (h q : Nat) : Prop := ∀ q', q' < q → t.ctrl (t.at_ h q') ≠ emptyByte

/-- The windows before the one that offset `q` is in have no empty slot. -/
def Reach (t : Table K V) (h q : Nat) : Prop := t.NoEmpty h (groupWidth * (q / groupWidth))

theorem NoEmpty.window (hs : t.Shaped) (hm : t.Mirrored) {j : Nat} (hbefore : t.NoEmpty h (groupWidth * j))
    (hnone : (t.matchByte (t.at_ h (groupWidth * j)) emptyByte).head? = none) : t.NoEmpty h (groupWidth * (j + 1)) := by
  intro q hq
  rcases Nat.lt_or_ge q (groupWidth * j) with hlt | hge
  · exact hbefore q hlt
  · obtain ⟨m, rfl⟩ := Nat.exists_eq_add_of_le hge
    have hmlt : m < groupWidth := by
      rw [Nat.mul_succ] at hq
      omega
    intro hempty
    have hmem : m ∈ t.matchByte (t.at_ h (groupWidth * j)) emptyByte :=
      mem_matchByte.mpr ⟨hmlt, (ctrl_lane hs hm h j hmlt).trans hempty⟩
    rw [List.head?_eq_none_iff.mp hnone] at hmem
    cases hmem

/-! ## The probe loop -/

/-- What a probe for a home slot ends with: the hit of a window, or a place to insert in a window that is not behind
the first one with an empty slot. No window before has a hit or an empty slot. -/
structure Probed (t : Table K V) (hit : Nat → Option Nat) (h : Nat) (j : Nat) (out : ProbeOutcome) : Prop where
  inside : j < t.cap / groupWidth
  clear : t.NoEmpty h (groupWidth * j)
  missed : ∀ i, i < j → hit (t.at_ h (groupWidth * i)) = none
  found : ∀ slot, out = .found slot → hit (t.at_ h (groupWidth * j)) = some slot
  ends : ∀ p via, out = .notFound p via → hit (t.at_ h (groupWidth * j)) = none ∧
    (∃ m, m < groupWidth ∧ t.ctrl (t.at_ h (groupWidth * j + m)) = emptyByte) ∧
    ∃ q, q < t.cap ∧ t.Reach h q ∧ p = t.at_ h q ∧ t.ctrl p = if via then deletedByte else emptyByte

def Passed (t : Table K V) (h j : Nat) (p : Nat) : Prop :=
  ∃ q, q < groupWidth * j ∧ p = t.at_ h q ∧ t.ctrl p = deletedByte

theorem probeLoop_spec (hs : t.Shaped) (hm : t.Mirrored) (hit : Nat → Option Nat) (track : Bool) {e : Nat}
    (he : e < t.cap) (hempty : t.ctrl (t.at_ h e) = emptyByte) (fuel : Nat) :
    ∀ (j : Nat) (first : Option Nat), j + fuel = t.cap / groupWidth → t.NoEmpty h (groupWidth * j) →
      (∀ i, i < j → hit (t.at_ h (groupWidth * i)) = none) → (∀ p, first = some p → t.Passed h j p) →
      ∃ j' out, t.probeLoop hit track fuel (t.at_ h (groupWidth * j)) first = some out ∧ t.Probed hit h j' out := by
  obtain ⟨g, hg, hcap⟩ := hs.dvd
  have hcount : t.cap / groupWidth = g := by
    rw [hcap, Nat.mul_div_cancel_left _ (by decide)]
  induction fuel with
  | zero =>
    intro j first hj hclear _ _
    -- all windows are behind us, the empty slot with them
    exact absurd hempty (hclear e (by rw [show j = g by omega, ← hcap]; exact he))
  | succ fuel ih =>
    intro j first hj hclear hmissed hfirst
    have hinside : j < t.cap / groupWidth := by omega
    have hoff : ∀ m, m < groupWidth → groupWidth * j + m < t.cap := by
      intro m hm16
      have hle : groupWidth * (j + 1) ≤ groupWidth * g := Nat.mul_le_mul_left _ (by omega)
      rw [hcap]
      rw [Nat.mul_succ] at hle
      omega
    have hreach : ∀ q, q < groupWidth * (j + 1) → t.Reach h q := by
      intro q hq q' hq'
      apply hclear q'
      have hdiv : q / groupWidth ≤ j := by
        rw [Nat.div_le_iff_le_mul_add_pred (by decide)]
        rw [Nat.mul_succ] at hq
        omega
      exact Nat.lt_of_lt_of_le hq' (Nat.mul_le_mul_left _ hdiv)
    rw [probeLoop]
    cases hhit : hit (t.at_ h (groupWidth * j)) with
    | some slot =>
      refine ⟨j, .found slot, rfl, hinside, hclear, hmissed, fun s hsome => ?_, nofun⟩
      cases hsome
      exact hhit
    | none =>
      dsimp only
      -- the slot to insert at, after this window
      have hfirst' : ∀ p, (if track then first.or ((t.matchByte (t.at_ h (groupWidth * j)) deletedByte).head?.map
          fun m => t.wrap (t.at_ h (groupWidth * j) + m)) else first) = some p → t.Passed h (j + 1) p := by
        have hold : ∀ p, first = some p → t.Passed h (j + 1) p := by
          intro p hp
          obtain ⟨q, hq, hpq⟩ := hfirst p hp
          refine ⟨q, ?_, hpq⟩
          rw [Nat.mul_succ]
          omega
        intro p hp
        split_ifs at hp
        · rcases Option.or_eq_some_iff.mp hp with hp | ⟨-, hp⟩
          · exact hold p hp
          · obtain ⟨m, hmhead, rfl⟩ := Option.map_eq_some_iff.mp hp
            obtain ⟨hm16, hbyte⟩ := mem_matchByte.mp (List.mem_of_mem_head? hmhead)
            rw [ctrl_lane hs hm h j hm16] at hbyte
            refine ⟨groupWidth * j + m, ?_, wrap_lane hs h j m, (wrap_lane hs h j m) ▸ hbyte⟩
            rw [Nat.mul_succ]
            omega
        · exact hold p hp
      cases hhead : (t.matchByte (t.at_ h (groupWidth * j)) emptyByte).head? with
      | some m =>
        obtain ⟨hm16, hbyte⟩ := mem_matchByte.mp (List.mem_of_mem_head? hhead)
        rw [ctrl_lane hs hm h j hm16] at hbyte
        refine ⟨j, _, rfl, hinside, hclear, hmissed, nofun, fun p via hout => ⟨hhit, ⟨m, hm16, hbyte⟩, ?_⟩⟩
        cases hout
        generalize hgen : (if track then first.or ((t.matchByte (t.at_ h (groupWidth * j)) deletedByte).head?.map
          fun m => t.wrap (t.at_ h (groupWidth * j) + m)) else first) = first' at hfirst'
        cases first' with
        | some p =>
          obtain ⟨q, hq, hpq, hdel⟩ := hfirst' p rfl
          refine ⟨q, ?_, hreach q hq, hpq, hdel⟩
          have hlast := hoff 15 (by decide)
          simp only [groupWidth] at hq hlast
          omega
        | none =>
          refine ⟨groupWidth * j + m, hoff m hm16, hreach _ (by rw [Nat.mul_succ]; omega), wrap_lane hs h j m, ?_⟩
          rw [Option.getD_none, wrap_lane hs]
          exact hbyte
      | none =>
        rw [wrap_next hs]
        refine ih (j + 1) _ (by omega) (hclear.window hs hm hhead) (fun i hi => ?_) hfirst'
        rcases Nat.lt_succ_iff_lt_or_eq.mp hi with hlt | rfl
        · exact hmissed i hlt
        · exact hhit

end Table

end Kevy.Map
