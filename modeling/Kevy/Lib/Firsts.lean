import Mathlib.Order.Lattice

/-!
# The first of each group

A list in which some elements belong to a group, and the list of the first element of each group in it; an element
without a group always stays. A list cut into parts can be reduced part by part: the first `k` group representatives of
the whole are found among the first `k` of each part.
-/

namespace Kevy.Lib

open List Option

variable {α γ : Type} [DecidableEq γ] (g : α → Option γ)

/-- The elements that are the first of their group and whose group is not `seen`. -/
def firsts : List γ → List α → List α
  | _, [] => []
  | seen, x :: xs =>
    match g x with
    | none => x :: firsts seen xs
    | some d => if seen.contains d then firsts seen xs else x :: firsts (d :: seen) xs

def marks (seen : List γ) (xs : List α) : List γ := (xs.filterMap g).reverse ++ seen

variable {g} {seen : List γ} {x : α} {xs ys : List α} {d : γ}

/-- No group before is that of the element. -/
def Fresh (g : α → Option γ) (seen : List γ) (x : α) : Prop := ∀ d, g x = some d → d ∉ seen

theorem firsts_cons_fresh (h : Fresh g seen x) : firsts g seen (x :: xs) = x :: firsts g (marks g seen [x]) xs := by
  cases hx : g x with
  | none => simp [firsts, marks, hx]
  | some d =>
    rw [firsts, hx, marks, filterMap_cons_some hx]
    exact if_neg (mt contains_iff_mem.mp (h d hx))

theorem firsts_cons_seen (h : g x = some d) (hd : d ∈ seen) : firsts g seen (x :: xs) = firsts g seen xs := by
  rw [firsts, h]
  exact if_pos (contains_iff_mem.mpr hd)

omit [DecidableEq γ] in
theorem fresh_or_seen (g : α → Option γ) (seen : List γ) (x : α) : Fresh g seen x ∨ ∃ d, g x = some d ∧ d ∈ seen := by
  by_cases h : Fresh g seen x
  · exact .inl h
  · unfold Fresh at h
    push Not at h
    exact .inr h

omit [DecidableEq γ] in
theorem mem_marks : d ∈ marks g seen xs ↔ (∃ x ∈ xs, g x = some d) ∨ d ∈ seen := by
  simp [marks]

omit [DecidableEq γ] in
theorem mem_marks_singleton : d ∈ marks g seen [x] ↔ g x = some d ∨ d ∈ seen := by
  simp [mem_marks]

omit [DecidableEq γ] in
theorem marks_cons (x : α) (xs : List α) : marks g seen (x :: xs) = marks g (marks g seen [x]) xs := by
  cases hx : g x <;> simp [marks, hx]

theorem firsts_congr {seen' : List γ} (h : ∀ d, d ∈ seen ↔ d ∈ seen') (xs : List α) :
    firsts g seen xs = firsts g seen' xs := by
  induction xs generalizing seen seen' with
  | nil => rfl
  | cons x xs ih =>
    rcases fresh_or_seen g seen x with hx | ⟨d, hx, hd⟩
    · rw [firsts_cons_fresh hx, firsts_cons_fresh fun d hd => mt (h d).mpr (hx d hd)]
      refine congrArg (x :: ·) (ih fun e => ?_)
      rw [mem_marks_singleton, mem_marks_singleton, h e]
    · rw [firsts_cons_seen hx hd, firsts_cons_seen hx ((h d).mp hd), ih h]

theorem firsts_cons (x : α) (xs : List α) :
    firsts g seen (x :: xs) = firsts g seen [x] ++ firsts g (marks g seen [x]) xs := by
  rcases fresh_or_seen g seen x with hx | ⟨d, hx, hd⟩
  · rw [firsts_cons_fresh hx, firsts_cons_fresh hx]
    rfl
  · rw [firsts_cons_seen hx hd, firsts_cons_seen hx hd]
    refine firsts_congr (fun e => ?_) xs
    rw [mem_marks_singleton, hx]
    exact ⟨.inr, fun he => he.elim (fun heq => some_inj.mp heq ▸ hd) id⟩

theorem mem_firsts_singleton {y : α} : y ∈ firsts g seen [x] ↔ y = x ∧ Fresh g seen x := by
  rcases fresh_or_seen g seen x with hx | ⟨d, hx, hd⟩
  · rw [firsts_cons_fresh hx]
    exact mem_singleton.trans (and_iff_left hx).symm
  · rw [firsts_cons_seen hx hd]
    exact iff_of_false not_mem_nil fun h => h.2 d hx hd

theorem firsts_append (xs ys : List α) (seen : List γ) :
    firsts g seen (xs ++ ys) = firsts g seen xs ++ firsts g (marks g seen xs) ys := by
  induction xs generalizing seen with
  | nil => rfl
  | cons x xs ih => rw [cons_append, firsts_cons, ih, firsts_cons x xs, append_assoc, marks_cons x xs]

theorem firsts_sublist (seen : List γ) (xs : List α) : (firsts g seen xs).Sublist xs := by
  induction xs generalizing seen with
  | nil => exact Sublist.refl _
  | cons x xs ih =>
    rcases fresh_or_seen g seen x with hx | ⟨d, hx, hd⟩
    · rw [firsts_cons_fresh hx]
      exact (ih _).cons_cons x
    · rw [firsts_cons_seen hx hd]
      exact (ih seen).cons x

theorem exists_mem_firsts (hd : d ∉ seen) (hx : x ∈ xs) (hg : g x = some d) : ∃ y ∈ firsts g seen xs, g y = some d := by
  induction xs generalizing seen with
  | nil => cases hx
  | cons z xs ih =>
    rw [firsts_cons]
    by_cases hz : g z = some d
    · have hnew : Fresh g seen z := fun e he => some_inj.mp (hz.symm.trans he) ▸ hd
      exact ⟨z, mem_append_left _ (mem_firsts_singleton.mpr ⟨rfl, hnew⟩), hz⟩
    · have hd' : d ∉ marks g seen [z] := fun hmem => (mem_marks_singleton.mp hmem).elim hz hd
      obtain ⟨y, hy, hgy⟩ := ih hd' ((mem_cons.mp hx).resolve_left fun heq => hz (heq ▸ hg))
      exact ⟨y, mem_append_right _ hy, hgy⟩

theorem firsts_map {β : Type} (f : β → α) (seen : List γ) (xs : List β) :
    firsts g seen (xs.map f) = (firsts (fun x => g (f x)) seen xs).map f := by
  induction xs generalizing seen with
  | nil => rfl
  | cons x xs ih =>
    rcases fresh_or_seen g seen (f x) with hx | ⟨d, hx, hd⟩
    · rw [map_cons, firsts_cons_fresh hx, firsts_cons_fresh (g := fun x => g (f x)) hx, ih, map_cons]
      rfl
    · rw [map_cons, firsts_cons_seen hx hd, firsts_cons_seen (g := fun x => g (f x)) hx hd, ih]

theorem mem_firsts_iff_split :
    x ∈ firsts g seen xs ↔ ∃ as bs, xs = as ++ x :: bs ∧ Fresh g (marks g seen as) x := by
  constructor
  · intro hx
    induction xs generalizing seen with
    | nil => cases hx
    | cons z xs ih =>
      rw [firsts_cons, mem_append, mem_firsts_singleton] at hx
      rcases hx with ⟨rfl, hnew⟩ | hx
      · exact ⟨[], xs, rfl, hnew⟩
      · obtain ⟨as, bs, rfl, hnew⟩ := ih hx
        exact ⟨z :: as, bs, rfl, marks_cons z as ▸ hnew⟩
  · rintro ⟨as, bs, rfl, hnew⟩
    rw [firsts_append, firsts_cons_fresh hnew]
    exact mem_append_right _ mem_cons_self

theorem mem_firsts_iff_least {r : α → α → Prop} (hasymm : ∀ {x y}, r x y → ¬r y x) (hsorted : xs.Pairwise r) :
    x ∈ firsts g [] xs ↔ x ∈ xs ∧ ∀ d, g x = some d → ∀ z ∈ xs, g z = some d → z = x ∨ r x z := by
  rw [mem_firsts_iff_split]
  constructor
  · rintro ⟨as, bs, rfl, hnew⟩
    refine ⟨by simp, fun d hd z hz hgz => ?_⟩
    rcases mem_append.mp hz with hz | hz
    · exact absurd (mem_marks.mpr (.inl ⟨z, hz, hgz⟩)) (hnew d hd)
    · rcases mem_cons.mp hz with rfl | hz
      · exact .inl rfl
      · exact .inr ((pairwise_cons.mp (pairwise_append.mp hsorted).2.1).1 z hz)
  · rintro ⟨hx, hleast⟩
    obtain ⟨as, bs, rfl⟩ := append_of_mem hx
    refine ⟨as, bs, rfl, fun d hd hmem => ?_⟩
    rcases mem_marks.mp hmem with ⟨z, hz, hgz⟩ | hnil
    · have hzx : r z x := (pairwise_append.mp hsorted).2.2 z hz x mem_cons_self
      rcases hleast d hd z (mem_append_left _ hz) hgz with rfl | hxz
      · exact hasymm hzx hzx
      · exact hasymm hzx hxz
    · cases hnil

/-! ## Lists of representatives -/

def Spread (g : α → Option γ) (xs : List α) : Prop := xs.Pairwise fun x y => ∀ d, g x = some d → g y ≠ some d

theorem fresh_of_mem_firsts (hx : x ∈ firsts g seen xs) : Fresh g seen x := by
  obtain ⟨as, bs, -, hnew⟩ := mem_firsts_iff_split.mp hx
  exact fun d hd hmem => hnew d hd (mem_marks.mpr (.inr hmem))

theorem spread_firsts (seen : List γ) (xs : List α) : Spread g (firsts g seen xs) := by
  induction xs generalizing seen with
  | nil => exact List.Pairwise.nil
  | cons x xs ih =>
    rcases fresh_or_seen g seen x with hx | ⟨d, hx, hd⟩
    · rw [firsts_cons_fresh hx]
      refine pairwise_cons.mpr ⟨fun y hy d hd hgy => ?_, ih _⟩
      exact fresh_of_mem_firsts hy d hgy (mem_marks_singleton.mpr (.inl hd))
    · rw [firsts_cons_seen hx hd]
      exact ih seen

theorem firsts_of_spread (hspread : Spread g xs) (hseen : ∀ x ∈ xs, Fresh g seen x) : firsts g seen xs = xs := by
  induction xs generalizing seen with
  | nil => rfl
  | cons x xs ih =>
    obtain ⟨hx, hxs⟩ := pairwise_cons.mp hspread
    rw [firsts_cons_fresh (hseen x mem_cons_self)]
    refine congrArg (x :: ·) (ih hxs fun y hy d hd hmem => ?_)
    exact (mem_marks_singleton.mp hmem).elim (fun h => hx y hy d h hd) (hseen y (mem_cons_of_mem x hy) d hd)

/-! ## Counting representatives -/

theorem length_firsts_cons (d : γ) (seen : List γ) (xs : List α) :
    (firsts g seen xs).length ≤ (firsts g (d :: seen) xs).length + 1 := by
  induction xs generalizing seen with
  | nil => exact Nat.zero_le _
  | cons x xs ih =>
    rcases fresh_or_seen g (d :: seen) x with hx | ⟨e, hx, he⟩
    · rw [firsts_cons_fresh hx, firsts_cons_fresh fun e he hmem => hx e he (mem_cons_of_mem d hmem)]
      have hswap : firsts g (marks g (d :: seen) [x]) xs = firsts g (d :: marks g seen [x]) xs :=
        firsts_congr (fun f => by simp only [mem_marks_singleton, mem_cons]; exact or_left_comm) xs
      rw [hswap]
      exact Nat.succ_le_succ (ih _)
    · rw [firsts_cons_seen hx he]
      rcases mem_cons.mp he with rfl | he
      · rw [firsts_cons, length_append, Nat.add_comm, marks, filterMap_cons_some hx]
        exact Nat.add_le_add_left (firsts_sublist seen [x]).length_le _
      · rw [firsts_cons_seen hx he]
        exact ih seen

theorem length_firsts_of_sublist (h : xs.Sublist ys) : (firsts g seen xs).length ≤ (firsts g seen ys).length := by
  induction h generalizing seen with
  | slnil => exact le_rfl
  | cons y _ ih =>
    rcases fresh_or_seen g seen y with hy | ⟨d, hy, hd⟩
    · rw [firsts_cons_fresh hy]
      cases hg : g y with
      | none =>
        rw [marks, filterMap_cons_none hg]
        exact le_trans ih (Nat.le_succ _)
      | some d =>
        rw [marks, filterMap_cons_some hg]
        exact le_trans (length_firsts_cons d seen _) (Nat.succ_le_succ ih)
    · rw [firsts_cons_seen hy hd]
      exact ih
  | @cons_cons xs ys y _ ih =>
    rw [firsts_cons y xs, firsts_cons y ys, length_append, length_append]
    exact Nat.add_le_add_left ih _

/-! ## Parts -/

/-- Elements that are left out of a list do not show among its first `k` representatives, if each of them has its group
before it, or `k` others. -/
theorem take_firsts_filter (p : α → Bool) (xs : List α) :
    ∀ (seen : List γ) (k : Nat), (∀ as x bs, xs = as ++ x :: bs → p x = false →
        (∃ d, g x = some d ∧ d ∈ marks g seen (as.filter p)) ∨ k ≤ (firsts g seen (as.filter p)).length) →
      (firsts g seen (xs.filter p)).take k = (firsts g seen xs).take k := by
  induction xs with
  | nil => exact fun seen k _ => rfl
  | cons x xs ih =>
    intro seen k hleft
    have hrest := fun as y bs (heq : xs = as ++ y :: bs) => hleft (x :: as) y bs (by rw [heq, cons_append])
    cases hp : p x with
    | true =>
      rw [filter_cons_of_pos hp, firsts_cons, firsts_cons x xs, take_append, take_append]
      refine congrArg (_ ++ ·) (ih _ _ fun as y bs heq hy => ?_)
      have hthis := hrest as y bs heq hy
      rw [filter_cons_of_pos hp, marks_cons, firsts_cons, length_append] at hthis
      exact hthis.imp_right fun hk => by omega
    | false =>
      have hneg : ¬ p x = true := by rw [hp]; exact Bool.false_ne_true
      simp only [filter_cons_of_neg hneg] at hrest ⊢
      rcases hleft [] x xs rfl hp with ⟨d, hx, hd⟩ | hk
      · replace hd : d ∈ seen := hd
        rw [firsts_cons_seen hx hd]
        exact ih seen k hrest
      · rw [Nat.le_zero.mp hk]
        rfl

/-- **Reducing part by part.** The parts of a list are given by what they hold; the first `k` representatives of the
whole are those of the union of the first `k` representatives of each part. -/
theorem take_firsts_parts {xs : List α} (parts : List (α → Bool))
    (hcover : ∀ x ∈ xs, ∃ q ∈ parts, q x = true) (k : Nat) (p : α → Bool)
    (hp : ∀ x, p x = true ↔ ∃ q ∈ parts, x ∈ (firsts g [] (xs.filter q)).take k) :
    (firsts g [] (xs.filter p)).take k = (firsts g [] xs).take k := by
  refine take_firsts_filter p xs [] k fun as x bs heq hx => ?_
  obtain ⟨q, hq, hqx⟩ := hcover x (by rw [heq]; simp)
  have hout : x ∉ (firsts g [] (xs.filter q)).take k := fun hmem => by
    rw [(hp x).mpr ⟨q, hq, hmem⟩] at hx
    cases hx
  have hsplit : firsts g [] (xs.filter q) =
      firsts g [] (as.filter q) ++ firsts g (marks g [] (as.filter q)) (x :: bs.filter q) := by
    rw [heq, filter_append, filter_cons_of_pos hqx, firsts_append]
  -- what the part keeps of the elements before `x` is kept in the union
  have hkept : ((firsts g [] (as.filter q)).take k).Sublist (as.filter p) := by
    have hsub : ((firsts g [] (as.filter q)).take k).Sublist as :=
      (take_sublist _ _).trans ((firsts_sublist [] _).trans filter_sublist)
    have hall : ((firsts g [] (as.filter q)).take k).filter p = (firsts g [] (as.filter q)).take k := by
      refine filter_eq_self.mpr fun y hy => (hp y).mpr ⟨q, hq, ?_⟩
      rw [hsplit, take_append]
      exact mem_append_left _ hy
    rw [← hall]
    exact hsub.filter p
  by_cases hlen : k ≤ (firsts g [] (as.filter q)).length
  · refine .inr ?_
    have hself : firsts g [] ((firsts g [] (as.filter q)).take k) = (firsts g [] (as.filter q)).take k :=
      firsts_of_spread ((spread_firsts [] _).sublist (take_sublist _ _)) fun _ _ _ _ => not_mem_nil
    have hle : (firsts g [] _).length ≤ (firsts g [] (as.filter p)).length := length_firsts_of_sublist hkept
    rw [hself, length_take, min_eq_left hlen] at hle
    exact hle
  · refine .inl ?_
    -- the part had room, so `x` must have lost to an earlier element of its group
    have hroom : (firsts g [] (as.filter q)).take k = firsts g [] (as.filter q) := take_of_length_le (by omega)
    rcases fresh_or_seen g (marks g [] (as.filter q)) x with hgx | ⟨d, hgx, hd⟩
    · refine absurd ?_ hout
      rw [hsplit, take_append, firsts_cons_fresh hgx]
      refine mem_append_right _ ?_
      rw [← Nat.sub_add_cancel (Nat.sub_pos_of_lt (not_le.mp hlen))]
      exact mem_cons_self
    · obtain ⟨y, hy, hgy⟩ | hnil := mem_marks.mp hd
      · have hnew : d ∉ ([] : List γ) := not_mem_nil
        obtain ⟨z, hz, hgz⟩ := exists_mem_firsts hnew hy hgy
        exact ⟨d, hgx, mem_marks.mpr (.inl ⟨z, hkept.subset (hroom.symm ▸ hz), hgz⟩)⟩
      · cases hnil

end Kevy.Lib
