import Kevy.Rank.Shape

/-!
# Ranks

The walk to a rank ends at the key of that rank, and the walks to a key or to the end of a predicate add up the keys
they leave on the left.
-/

namespace Kevy.Rank

open Kevy.Lib
open List hiding after

variable {K : Type} {h lo hi : Nat} {n c : Node K} {L R : List (Node K)} {KL KR : List K}

/-! ## The walk to a rank -/

/-- How the walk to a rank of a subtree ends, with the nodes it went through. -/
inductive Landed : Nat → Node K → Nat → List (Node K × Nat) → Node K → Nat → Prop
  | leaf {n : Node K} {lo rank : Nat} (hn : Sound 0 lo maxKeys n) (hrank : rank < n.keys.length) :
      Landed 0 n rank [] n rank
  | here {h rank : Nat} {n c : Node K} {L R : List (Node K)} {KL KR : List K} {k : K}
      (v : View h n L KL c (k :: KR) R) (hc : Sound h minKeys maxKeys c) (hrank : rank = (pre h L KL ++ flat h c).length) :
      Landed (h + 1) n rank [] n KL.length
  | down {h rank r idx : Nat} {n c node : Node K} {L R : List (Node K)} {KL KR : List K} {path : List (Node K × Nat)}
      (v : View h n L KL c KR R) (hc : Sound h minKeys maxKeys c) (hr : r < (flat h c).length)
      (hrank : rank = (pre h L KL).length + r) (hrest : Landed h c r path node idx) :
      Landed (h + 1) n rank ((n, KL.length) :: path) node idx

theorem rankStep_spec {cs : List (Node K)} (hcs : ∀ c ∈ cs, Sound h minKeys maxKeys c) :
    ∀ {ks : List K} (rank i : Nat), cs.length = ks.length + 1 → rank < (weave (cs.map (flat h)) ks).length →
    (∃ L KL c KR R r, cs = L ++ c :: R ∧ ks = KL ++ KR ∧ L.length = KL.length ∧
      rankStep cs rank i = some (.descend (i + KL.length) c r) ∧ r < (flat h c).length ∧
      rank = (pre h L KL).length + r) ∨
    ∃ L KL c k KR R, cs = L ++ c :: R ∧ ks = KL ++ k :: KR ∧ L.length = KL.length ∧
      rankStep cs rank i = some (.here (i + KL.length)) ∧ rank = (pre h L KL ++ flat h c).length := by
  induction cs with
  | nil => exact fun _ _ hlen => absurd hlen (by simp)
  | cons c cs ih =>
    intro ks rank i hlen hrank
    have htotal := (hcs c mem_cons_self).total_eq
    unfold rankStep
    by_cases hlt : rank < c.total
    · rw [if_pos hlt]
      exact .inl ⟨[], [], c, ks, cs, rank, rfl, rfl, rfl, rfl, htotal ▸ hlt, by simp [pre]⟩
    · rw [if_neg hlt]
      cases ks with
      | nil =>
        rw [map_cons, weave] at hrank
        omega
      | cons k ks =>
        rw [map_cons, weave, length_append, length_cons] at hrank
        split_ifs with hzero
        · refine .inr ⟨[], [], c, k, ks, cs, rfl, rfl, rfl, rfl, ?_⟩
          show rank = (flat h c).length
          omega
        · rcases ih (forall_mem_cons.mp hcs).2 (rank - c.total - 1) (i + 1) (by simpa using hlen) (by omega) with
            ⟨L, KL, c', KR, R, r, rfl, rfl, hl, hstep, hr, heq⟩ | ⟨L, KL, c', k', KR, R, rfl, rfl, hl, hstep, heq⟩
          · refine .inl ⟨c :: L, k :: KL, c', KR, R, r, rfl, rfl, by simp [hl], ?_, hr, ?_⟩
            · rw [hstep, length_cons, Nat.add_assoc, Nat.add_comm 1]
            · show rank = (flat h c ++ k :: pre h L KL).length + r
              rw [length_append, length_cons]
              omega
          · refine .inr ⟨c :: L, k :: KL, c', k', KR, R, rfl, rfl, by simp [hl], ?_, ?_⟩
            · rw [hstep, length_cons, Nat.add_assoc, Nat.add_comm 1]
            · show rank = ((flat h c ++ k :: pre h L KL) ++ flat h c').length
              rw [length_append] at heq ⊢
              rw [length_append, length_cons]
              omega

theorem descendToRank_spec {h lo rank : Nat} {n : Node K} (hn : Sound h lo maxKeys n)
    (hrank : rank < (flat h n).length) :
    ∃ path node idx, descendToRank h n rank = some (path, node, idx) ∧ Landed h n rank path node idx := by
  induction h generalizing lo rank n with
  | zero =>
    unfold descendToRank
    rw [if_pos hn.isLeaf_zero]
    exact ⟨[], n, rank, rfl, .leaf hn hrank⟩
  | succ h ih =>
    unfold descendToRank
    rw [if_neg (by rw [hn.isLeaf_succ]; decide)]
    rcases rankStep_spec hn.1 rank 0 hn.2.1 hrank with
      ⟨L, KL, c, KR, R, r, hchildren, hkeys, hlen, hstep, hr, heq⟩ | ⟨L, KL, c, k, KR, R, hchildren, hkeys, hlen, hstep, heq⟩
    · obtain ⟨v, hc⟩ := hn.viewOf hchildren hkeys hlen
      obtain ⟨path, node, idx, hrec, hland⟩ := ih hc hr
      refine ⟨(n, KL.length) :: path, node, idx, ?_, .down v hc hr heq hland⟩
      simp only [hstep, Option.bind_eq_bind, Option.bind_some, hrec, Nat.zero_add]
    · obtain ⟨v, hc⟩ := hn.viewOf hchildren hkeys hlen
      refine ⟨[], n, KL.length, ?_, .here v hc heq⟩
      simp only [hstep, Option.bind_eq_bind, Option.bind_some, Nat.zero_add]

theorem Landed.getElem?_eq {rank idx : Nat} {path : List (Node K × Nat)} {node : Node K}
    (hland : Landed h n rank path node idx) : node.keys[idx]? = (flat h n)[rank]? := by
  induction hland with
  | leaf hn hrank => rfl
  | here v hc hrank =>
    rw [v.flat_eq, hrank, ← append_assoc, v.keys]
    unfold post
    have hright := v.right
    obtain ⟨r, R, rfl⟩ := exists_cons_of_length_eq_add_one hright
    rw [map_cons, after, getElem?_middle, getElem?_middle]
  | down v hc hr hrank hrest ih =>
    rw [ih, v.flat_eq, hrank, getElem?_append_right (Nat.le_add_right _ _), Nat.add_sub_cancel_left,
      getElem?_append_left hr]

/-! ## Walks that add up -/

theorem View.length_pre (v : View h n L KL c KR R) (acc : Nat) :
    acc + KL.length + totalBefore n KL.length = acc + (pre h L KL).length := by
  unfold totalBefore pre
  rw [v.children, ← v.left, take_left, sum_total v.soundL, length_before (by rw [length_map, v.left]), v.left,
    Nat.add_assoc]

theorem View.length_pre_child (v : View h n L KL c KR R) (hc : Sound h minKeys maxKeys c) (acc : Nat) :
    acc + totalBefore n (KL.length + 1) + KL.length = acc + (pre h L KL ++ flat h c).length := by
  have hpre := v.length_pre acc
  have hnext : totalBefore n (KL.length + 1) = totalBefore n KL.length + c.total := by
    unfold totalBefore
    rw [v.children, ← v.left, take_left, take_length_add_append, map_append, sum_append]
    rfl
  rw [length_append, ← hc.total_eq]
  omega

theorem rankLoop_spec [LinearOrder K] (key : K) {h lo : Nat} {n : Node K} (acc : Nat) (hn : Sound h lo maxKeys n)
    (hsorted : (flat h n).Pairwise (· < ·)) : rankLoop h n acc key = some (((flat h n).idxOf? key).map (acc + ·)) := by
  induction h generalizing lo n acc with
  | zero =>
    unfold rankLoop
    rcases hn.search_spec hsorted key with ⟨KL, KR, hsearch, hkeys, -⟩ | ⟨KL, KR, hsearch, hkeys, hl, hr⟩
    · have hidx : (flat 0 n).idxOf? key = some KL.length := by
        show n.keys.idxOf? key = _
        rw [hkeys, idxOf?_of_split (hkeys ▸ hsorted)]
      rw [hsearch, hidx]
      simp [totalBefore, hn.1]
    · have hidx : (flat 0 n).idxOf? key = none := by
        show n.keys.idxOf? key = _
        rw [hkeys, ← nil_append KR, idxOf?_middle hl hr]
        rfl
      rw [hsearch, hidx]
      exact if_pos hn.isLeaf_zero
  | succ h ih =>
    unfold rankLoop
    rcases hn.search_spec hsorted key with ⟨KL, KR, hsearch, hkeys, -⟩ | ⟨KL, KR, hsearch, hkeys, hl, hr⟩
    · obtain ⟨L, c, R, v, hc⟩ := hn.view KL (key :: KR) hkeys
      obtain ⟨r, R, rfl⟩ := exists_cons_of_length_eq_add_one v.right
      have hflat : flat (h + 1) n = (pre h L KL ++ flat h c) ++ key :: (flat h r ++ post h KR R) := by
        rw [v.flat_eq, append_assoc]
        rfl
      have hidx : (flat (h + 1) n).idxOf? key = some (pre h L KL ++ flat h c).length := by
        rw [hflat, idxOf?_of_split (hflat ▸ hsorted)]
      rw [hsearch, hidx, Option.map_some, ← v.length_pre_child hc]
    · obtain ⟨L, c, R, v, hc⟩ := hn.view KL KR hkeys
      obtain ⟨hpre, hpost⟩ := v.bounds hsorted hl hr
      have hidx : (flat (h + 1) n).idxOf? key = ((flat h c).idxOf? key).map ((pre h L KL).length + ·) := by
        rw [v.flat_eq, idxOf?_middle hpre hpost]
      rw [hsearch, hidx]
      dsimp only
      rw [if_neg (by rw [hn.isLeaf_succ]; decide), v.getElem?_eq]
      show rankLoop h c (acc + KL.length + totalBefore n KL.length) key = _
      rw [ih _ hc (hn.sorted_child hsorted (by rw [v.children]; simp)), v.length_pre, Option.map_map]
      simp only [Function.comp_def, Nat.add_assoc]

theorem partitionLoop_spec {pred : K → Bool} {h lo : Nat} {n : Node K} (acc : Nat) (hn : Sound h lo maxKeys n)
    (hdown : Downward pred (flat h n)) :
    partitionLoop h n acc pred = some (acc + ((flat h n).takeWhile pred).length) := by
  induction h generalizing lo n acc with
  | zero =>
    exact if_pos hn.isLeaf_zero
  | succ h ih =>
    obtain ⟨KL, KR, hkeys, htake, hl, hr⟩ :=
      takeWhile_split (hdown.sublist hn.keys_sublist : Downward pred n.keys)
    obtain ⟨L, c, R, v, hc⟩ := hn.view KL KR hkeys
    have hflat := v.flat_eq
    rw [hflat] at hdown
    obtain ⟨hpre, hrest, -⟩ := pairwise_append.mp hdown
    obtain ⟨hchild, hpost, -⟩ := pairwise_append.mp hrest
    have hbelow : ∀ y ∈ pre h L KL, pred y = true := downward_before hpre hl
    have habove : ∀ y ∈ post h KR R, pred y = false := downward_after hpost hr
    unfold partitionLoop
    dsimp only
    rw [htake, if_neg (by rw [hn.isLeaf_succ]; decide), v.getElem?_eq]
    show partitionLoop h c (acc + KL.length + totalBefore n KL.length) pred = _
    rw [ih _ hc hchild, v.length_pre, hflat, length_takeWhile_middle hbelow habove, Nat.add_assoc]

end Kevy.Rank
