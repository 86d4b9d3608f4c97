import Kevy.Segmented.Refine

/-!
# How large a bucket gets

A bucket is split when it has more than `bucketSplit` entries. `split` goes on with the half that its slot leads to,
and when the directory doubles the slot is the lower of the two. So it stops too early when all the keys are in the
upper half, and only then.
-/

namespace Kevy.Segmented

open Kevy.Lib Kevy.Map List Option

variable {K V : Type}

def onesOps : KeyOps Nat where
  hash _ := UInt64.ofNat (2 ^ 64 - 1)
  eq a b := decide (a = b)
  refl _ := decide_eq_true rfl
  symm h := decide_eq_true (of_decide_eq_true h).symm
  trans h h' := decide_eq_true ((of_decide_eq_true h).trans (of_decide_eq_true h'))
  hash_eq _ := rfl

def below : Nat → Dict Nat Unit
  | 0 => ⟨[], false⟩
  | n + 1 => ⟨(n, (), 0) :: (below n).entries, false⟩

theorem lt_of_mem_below {n : Nat} {e : Nat × Unit × UInt64} (he : e ∈ (below n).entries) : e.1 < n := by
  induction n with
  | zero => cases he
  | succ n ih =>
    rcases mem_cons.mp he with rfl | he
    · exact Nat.lt_succ_self n
    · exact Nat.lt_succ_of_lt (ih he)

theorem length_below (n : Nat) : (below n).entries.length = n := by
  induction n with
  | zero => rfl
  | succ n ih => exact congrArg Nat.succ ih

theorem insert_below (n : Nat) : (below n).insert onesOps n () = (below (n + 1), none) := by
  have hfind : (below n).find onesOps n = none := by
    refine find?_eq_none.mpr fun e he heq => ?_
    exact Nat.ne_of_lt (lt_of_mem_below he) (of_decide_eq_true heq)
  unfold Dict.insert
  rw [hfind, if_neg (by decide)]
  cases n <;> rfl

/-- One bucket of depth zero, with the keys below `n`. -/
structure Fills (h : Heap (Bucket Nat Unit)) (a n : Nat) : Prop where
  depth : (h.cell a).localBits = 0
  holds : (h.cell a).map.Refines onesOps (below n)

variable {h : Heap (Bucket Nat Unit)} {a : Nat}

theorem insert_fills {n : Nat} (hfills : Fills h a n) :
    ∃ h' a', Fills h' a' (n + 1) ∧ insert onesOps h ⟨0, [0], [a], n⟩ n () =
      if n + 1 > bucketSplit then (split onesOps (maxBits + 1) h' ⟨0, [0], [a'], n + 1⟩ 0).bind fun r => some (r.1, r.2, none)
      else some (h', ⟨0, [0], [a'], n + 1⟩, none) := by
  obtain ⟨map, slot, hinsert, href⟩ := hfills.holds.insertSlot n ()
  rw [insert_below] at hinsert href
  have hcell : ∀ x, (h.write a x).1.cell (h.write a x).2 = x := by
    intro x
    unfold Heap.write
    split_ifs
    · exact Function.update_self ..
    · exact Heap.cell_alloc ..
  refine ⟨(h.write a ⟨0, map⟩).1, (h.write a ⟨0, map⟩).2, ⟨by rw [hcell], by rw [hcell]; exact href⟩, ?_⟩
  have hcount : map.occupied = n + 1 := href.length_eq.trans (length_below (n + 1))
  have hroute : route 0 (onesOps.hash n) = 0 := rfl
  unfold insert
  simp only [hroute, getElem?_cons_zero, hinsert, hfills.depth, hcount, bind_eq_bind, bind_some,
    isNone_none, if_true, set_cons_zero]

theorem split_small {ops : KeyOps K} {h : Heap (Bucket K V)} {m : SegMap} {slot bi fuel : Nat}
    (hslot : m.dirs[slot]? = some bi) (ha : m.buckets[bi]? = some a) (hsmall : (h.cell a).map.occupied ≤ bucketSplit) :
    split ops (fuel + 1) h m slot = some (h, m) := by
  unfold split
  simp only [hslot, ha, bind_eq_bind, bind_some]
  exact if_pos (.inl hsmall)

theorem split_fills {n : Nat} (hfills : Fills h a n) (hfull : bucketSplit < n) :
    ∃ h' m', split onesOps (maxBits + 1) h ⟨0, [0], [a], n⟩ 0 = some (h', m') ∧
      ∃ b ∈ h'.values m'.buckets, b.map.occupied = n ∧ b.localBits = 1 := by
  have hplain := plain_of_refines hfills.holds (by cases n <;> rfl)
  have hsound : (h.cell a).Sound onesOps := ⟨hplain.wf, hplain.aux, by rw [hfills.depth]; exact Nat.zero_le _⟩
  have hcount : (h.cell a).map.occupied = n := hfills.holds.length_eq.trans (length_below n)
  obtain ⟨lo, hi, hpart, hlo, hhi, -, hbits, hpermLo, hpermHi⟩ :=
    partitionBucket_spec hsound (by rw [hfills.depth]; decide)
  have hhigh : ∀ k, lowBit 0 (onesOps.hash k) = false := fun _ => show lowBit 0 (UInt64.ofNat (2 ^ 64 - 1)) = false by decide
  simp only [hfills.depth, hhigh, filter_false, Bool.not_false, filter_true] at hpermLo hpermHi hbits
  have hnone : lo.map.occupied = 0 := by rw [hlo.occupied_eq, hpermLo.length_eq]; rfl
  have hall : hi.map.occupied = n := by rw [hhi.occupied_eq, hpermHi.length_eq, ← hsound.occupied_eq, hcount]
  have hsplit : ¬ ((h.cell a).map.occupied ≤ bucketSplit ∨ (h.cell a).localBits ≥ maxBits) := by
    rw [hcount, hfills.depth]
    exact not_or.mpr ⟨Nat.not_le_of_lt hfull, by decide⟩
  unfold split
  simp only [getElem?_cons_zero, bind_eq_bind, bind_some]
  rw [if_neg hsplit]
  simp only [hfills.depth, if_true, hpart, bind_some]
  have hlow : (((h.release a).alloc lo).1.alloc hi).1.cell h.next = lo := by
    show Function.update (Function.update h.cell h.next lo) (h.next + 1) hi h.next = lo
    rw [Function.update_of_ne (Nat.ne_of_lt (Nat.lt_succ_self _)), Function.update_self]
  have hslot : (repoint [0, 0] 1 0 1)[0]? = some 0 := by decide
  refine ⟨_, _, split_small hslot (a := h.next) rfl (by rw [hlow, hnone]; exact Nat.zero_le _), hi, ?_, hall, hbits⟩
  exact List.mem_map.mpr ⟨_, mem_append_right _ (mem_singleton_self _), Heap.cell_alloc ..⟩

theorem run_fills : ∀ {k n : Nat}, Fills h a n → n + k = bucketSplit →
    ∃ h' m' replies, World.run onesOps ⟨h, [⟨0, [0], [a], n⟩]⟩ ((List.range' n (k + 1)).map fun key => .insert 0 key ()) =
        some (⟨h', [m']⟩, replies) ∧ ∃ b ∈ h'.values m'.buckets, b.map.occupied = bucketSplit + 1 ∧ b.localBits = 1 := by
  intro k
  induction k generalizing h a with
  | zero =>
    intro n hfills hn
    obtain ⟨h1, a1, hfills1, hinsert⟩ := insert_fills hfills
    obtain ⟨h2, m2, hsplit, hb⟩ := split_fills hfills1 (by omega)
    rw [if_pos (by omega), hsplit] at hinsert
    refine ⟨h2, m2, [none], ?_, by rwa [← hn]⟩
    simp only [List.range', map_cons, map_nil, World.run, World.step, getElem?_cons_zero, hinsert]
    rfl
  | succ k ih =>
    intro n hfills hn
    obtain ⟨h1, a1, hfills1, hinsert⟩ := insert_fills hfills
    obtain ⟨h', m', replies, hrun, hb⟩ := ih hfills1 (by omega)
    rw [if_neg (by omega)] at hinsert
    refine ⟨h', m', none :: replies, ?_, hb⟩
    rw [range'_succ, map_cons]
    simp only [World.run, World.step, getElem?_cons_zero, hinsert]
    rw [map_some, bind_eq_bind, bind_some]
    dsimp only [set_cons_zero]
    rw [hrun]
    rfl

end Kevy.Segmented
