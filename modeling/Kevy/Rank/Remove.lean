import Kevy.Rank.Rebalance

/-!
# Removal

A removal takes the key out of the sorted list of the subtree. Its root may end with one key less than it had to have,
so it has to have one to spare, but for the root of the tree.
-/

namespace Kevy.Rank

open Kevy.Lib List Option

variable {K : Type} {h lo hi : Nat} {n c : Node K} {L R : List (Node K)} {KL KR : List K}

theorem View.withTotal (v : View h n L KL c KR R) (total : Nat) : View h { n with total := total } L KL c KR R :=
  ⟨v.children, v.keys, v.left, v.right, v.soundL, v.soundR⟩

theorem Fattened.flat_eq {before l after : List K} {n' : Node K} {i : Nat} (hfat : Fattened h n before l after n' i) :
    flat (h + 1) n' = before ++ (l ++ after) := by
  obtain ⟨L, KL, c, KR, R, P, S, v, -, -, rfl, hflat, rfl⟩ := hfat.child
  rw [v.flat_eq, hflat]
  simp only [append_assoc]

theorem Sound.dropKey (hn : Sound 0 lo maxKeys n) {keys : List K} (hlen : keys.length + 1 = n.keys.length) :
    Sound 0 (lo - 1) maxKeys { n with keys := keys, total := n.total - 1 } := by
  have hle := hn.le_keys
  have hge := hn.keys_le
  have htotal := hn.2.2.2
  refine ⟨hn.1, ?_, ?_, ?_⟩ <;> dsimp only <;> omega

/-- The child a removal goes on into is made rich first, and takes its place in the node again with a key less. -/
theorem View.shrinkChild (v : View h n L KL c KR R) (hc : Sound h minKeys maxKeys c) (hle : lo + 1 ≤ n.keys.length)
    (hge : n.keys.length ≤ maxKeys) :
    ∃ n1 i c1 P S, fattenChild n KL.length = some (n1, i) ∧ n1.total = n.total ∧ n1.children[i]? = some c1 ∧
      Sound h (minKeys + 1) maxKeys c1 ∧ flat (h + 1) n = P ++ (flat h c1 ++ S) ∧ P ⊆ pre h L KL ∧ S ⊆ post h KR R ∧
      ∀ c2 t, Sound h minKeys maxKeys c2 → t = (P ++ (flat h c2 ++ S)).length →
        Sound (h + 1) lo maxKeys ⟨n1.keys, n1.children.set i c2, t⟩ ∧
          flat (h + 1) ⟨n1.keys, n1.children.set i c2, t⟩ = P ++ (flat h c2 ++ S) := by
  obtain ⟨n1, i, hfatten, hfat⟩ := fattenChild_spec v hc (show 0 < n.keys.length by omega)
  have hflat1 := hfat.flat_eq
  have hle1 := hfat.le_keys
  have hge1 := hfat.keys_le
  have htotal1 := hfat.total_eq
  obtain ⟨L1, KL1, c1, KR1, R1, P, S, v1, rfl, hc1, hpre, -, hpost⟩ := hfat.child
  refine ⟨n1, _, c1, pre h L1 KL1, post h KR1 R1, hfatten, htotal1, v1.getElem?_eq, hc1, ?_, ?_, ?_, ?_⟩
  · rw [v.flat_eq, ← hflat1, v1.flat_eq]
  · rw [hpre]
    exact subset_append_left _ _
  · rw [hpost]
    exact subset_append_right _ _
  · intro c2 t hc2 ht
    have v2 := v1.replace c2 t
    refine ⟨v2.sound hc2 ?_ ?_ (ht.trans (congrArg List.length v2.flat_eq.symm)), v2.flat_eq⟩
    · show lo ≤ n1.keys.length
      omega
    · show n1.keys.length ≤ maxKeys
      omega

/-! ## The largest and the smallest key -/

theorem removeMax_spec {h lo : Nat} {n : Node K} (hn : Sound h (lo + 1) maxKeys n) :
    ∃ n' key, removeMax h n = some (n', key) ∧ Sound h lo maxKeys n' ∧ flat h n = flat h n' ++ [key] := by
  induction h generalizing lo n with
  | zero =>
    have hle := hn.le_keys
    obtain ⟨KX, key, hkeys⟩ := exists_concat (l := n.keys) (by omega)
    have hleaf : Node.isLeaf { n with total := n.total - 1 } = true := hn.isLeaf_zero
    unfold removeMax
    dsimp only
    rw [if_pos hleaf, hkeys, getLast?_concat, dropLast_concat]
    exact ⟨_, key, rfl, hn.dropKey (by rw [hkeys, length_append, length_singleton]), hkeys⟩
  | succ h ih =>
    obtain ⟨L, c, R, v, hc⟩ := hn.view n.keys [] (append_nil _).symm
    have hlast : n.children.length - 1 = n.keys.length := by rw [hn.2.1, Nat.add_sub_cancel]
    have hleaf : Node.isLeaf { n with total := n.total - 1 } = false := hn.isLeaf_succ
    obtain ⟨n1, i, c1, P, S, hfatten, htotal, hget, hc1, hflat1, -, hS, hput⟩ :=
      (v.withTotal (n.total - 1)).shrinkChild hc hn.le_keys hn.keys_le
    replace hflat1 : flat (h + 1) n = _ := hflat1
    obtain ⟨c2, key, hrec, hc2, hflat2⟩ := ih hc1
    -- there is nothing behind the last child
    obtain rfl : S = [] := subset_nil.mp hS
    obtain ⟨hsound, hflat⟩ := hput c2 n1.total hc2 (by
      rw [htotal, show n.total - 1 = _ from congrArg (· - 1) hn.total_eq, hflat1, hflat2]
      simp)
    unfold removeMax
    dsimp only
    rw [hleaf, hlast, hfatten]
    simp only [bind_eq_bind, bind_some, hget, hrec]
    exact ⟨_, key, rfl, hsound, by rw [hflat1, hflat2, hflat]; simp⟩

theorem removeMin_spec {h lo : Nat} {n : Node K} (hn : Sound h (lo + 1) maxKeys n) :
    ∃ n' key, removeMin h n = some (n', key) ∧ Sound h lo maxKeys n' ∧ flat h n = key :: flat h n' := by
  induction h generalizing lo n with
  | zero =>
    have hle := hn.le_keys
    obtain ⟨key, KX, hkeys⟩ := exists_cons_of_ne_nil (ne_nil_of_length_pos (show 0 < n.keys.length by omega))
    have hleaf : Node.isLeaf { n with total := n.total - 1 } = true := hn.isLeaf_zero
    unfold removeMin
    dsimp only
    rw [if_pos hleaf, hkeys, head?_cons, tail_cons]
    exact ⟨_, key, rfl, hn.dropKey (by rw [hkeys, length_cons]), hkeys⟩
  | succ h ih =>
    obtain ⟨L, c, R, v, hc⟩ := hn.view [] n.keys rfl
    have hleaf : Node.isLeaf { n with total := n.total - 1 } = false := hn.isLeaf_succ
    obtain ⟨n1, i, c1, P, S, hfatten, htotal, hget, hc1, hflat1, hP, -, hput⟩ :=
      (v.withTotal (n.total - 1)).shrinkChild hc hn.le_keys hn.keys_le
    replace hflat1 : flat (h + 1) n = _ := hflat1
    obtain ⟨c2, key, hrec, hc2, hflat2⟩ := ih hc1
    -- there is nothing before the first child
    obtain rfl := length_eq_zero_iff.mp v.left
    obtain rfl : P = [] := subset_nil.mp hP
    obtain ⟨hsound, hflat⟩ := hput c2 n1.total hc2 (by
      rw [htotal, show n.total - 1 = _ from congrArg (· - 1) hn.total_eq, hflat1, hflat2]
      simp)
    unfold removeMin
    dsimp only
    rw [hleaf, show (0 : Nat) = ([] : List K).length from rfl, hfatten]
    simp only [bind_eq_bind, bind_some, hget, hrec]
    exact ⟨_, key, rfl, hsound, by rw [hflat1, hflat2, hflat]; rfl⟩

/-! ## A key -/

section Order

variable [LinearOrder K]

theorem erase_of_split {X Y : List K} {key : K} (hsorted : (X ++ key :: Y).Pairwise (· < ·)) :
    (X ++ key :: Y).erase key = X ++ Y := by
  have hnot : key ∉ X := fun hmem => lt_irrefl key ((sorted_middle hsorted).1 key hmem)
  rw [erase_append_right _ hnot, erase_cons_head]

theorem length_erase_toNat (l : List K) (key : K) : (l.erase key).length = l.length - (decide (key ∈ l)).toNat := by
  rw [length_erase]
  by_cases hmem : key ∈ l <;> simp [hmem]

theorem removeHitInInternal_spec {key : K} (hn : Sound (h + 1) (lo + 1) maxKeys n)
    (hsorted : (flat (h + 1) n).Pairwise (· < ·)) (hkeys : n.keys = KL ++ key :: KR)
    {recurse : Node K → Option (Node K × Bool)}
    (hrec : ∀ c, Sound h (minKeys + 1) maxKeys c → (flat h c).Pairwise (· < ·) → ∃ c', recurse c =
      some (c', decide (key ∈ flat h c)) ∧ Sound h minKeys maxKeys c' ∧ flat h c' = (flat h c).erase key) :
    ∃ n', removeHitInInternal h recurse n KL.length = some (n', true) ∧ Sound (h + 1) lo maxKeys n' ∧
      flat (h + 1) n' = (flat (h + 1) n).erase key := by
  have hle := hn.le_keys
  have hge := hn.keys_le
  obtain ⟨L, left, R, v, hleft⟩ := hn.view KL (key :: KR) hkeys
  obtain ⟨k, KR0, right, R0, hkr, rfl⟩ := v.rightSibling (by rw [length_cons]; omega)
  cases hkr
  have hright : Sound h minKeys maxKeys right := v.soundR right mem_cons_self
  have hgetR : n.children[KL.length + 1]? = some right := by rw [v.children, ← v.left, getElem?_middle_succ]
  have hflat : flat (h + 1) n = (pre h L KL ++ flat h left) ++ key :: (flat h right ++ post h KR R0) := by
    rw [v.flat_eq, post_cons, append_assoc]
  have herase : (flat (h + 1) n).erase key = (pre h L KL ++ flat h left) ++ (flat h right ++ post h KR R0) := by
    rw [hflat] at hsorted ⊢
    exact erase_of_split hsorted
  have hcount : n.total - 1 = ((flat (h + 1) n).erase key).length := by
    rw [hn.total_eq, herase, hflat]
    simp only [length_append, length_cons]
    omega
  -- the key is replaced by `k`, the children around it by `a` and `b`
  have hreplace : ∀ (k : K) (a b : Node K), Sound h minKeys maxKeys a → Sound h minKeys maxKeys b →
      flat h a ++ k :: flat h b = flat h left ++ flat h right →
      Sound (h + 1) lo maxKeys ⟨KL ++ k :: KR, L ++ a :: b :: R0, n.total - 1⟩ ∧
        flat (h + 1) ⟨KL ++ k :: KR, L ++ a :: b :: R0, n.total - 1⟩ = (flat (h + 1) n).erase key := by
    intro k a b ha hb hab
    have v' : View h ⟨KL ++ k :: KR, L ++ a :: b :: R0, n.total - 1⟩ L KL a (k :: KR) (b :: R0) := by
      refine ⟨rfl, rfl, v.left, v.right, v.soundL, fun x hx => ?_⟩
      rcases mem_cons.mp hx with rfl | hx
      · exact hb
      · exact v.soundR x (mem_cons_of_mem _ hx)
    have hflat' : flat (h + 1) ⟨KL ++ k :: KR, L ++ a :: b :: R0, n.total - 1⟩ = (flat (h + 1) n).erase key := by
      rw [v'.flat_eq, post_cons, herase]
      have hab' := congrArg (fun l => pre h L KL ++ (l ++ post h KR R0)) hab
      simpa only [append_assoc, cons_append] using hab'
    have hlen : (KL ++ k :: KR).length = n.keys.length := by
      rw [hkeys, length_append, length_append, length_cons, length_cons]
    refine ⟨v'.sound ha ?_ ?_ (by rw [hflat']; exact hcount), hflat'⟩
    · show lo ≤ (KL ++ k :: KR).length
      omega
    · show (KL ++ k :: KR).length ≤ maxKeys
      omega
  unfold removeHitInInternal
  rw [v.getElem?_eq, hgetR]
  simp only [bind_eq_bind, bind_some]
  split_ifs with hlrich hrrich
  · obtain ⟨left', pred, hmax, hleft', hflatL⟩ := removeMax_spec (hleft.mono (isRich_iff.mp hlrich) hleft.keys_le)
    obtain ⟨hsound, hflat'⟩ := hreplace pred left' right hleft' hright (by
      rw [hflatL, append_assoc]
      rfl)
    refine ⟨⟨KL ++ pred :: KR, L ++ left' :: right :: R0, n.total - 1⟩, ?_, hsound, hflat'⟩
    have hset : n.children.set KL.length left' = L ++ left' :: right :: R0 := by rw [v.children, ← v.left, set_middle]
    simp only [hmax, bind_some, hset, hkeys, set_middle]
  · obtain ⟨right', succ, hmin, hright', hflatR⟩ := removeMin_spec (hright.mono (isRich_iff.mp hrrich) hright.keys_le)
    obtain ⟨hsound, hflat'⟩ := hreplace succ left right' hleft hright' (by rw [hflatR])
    refine ⟨⟨KL ++ succ :: KR, L ++ left :: right' :: R0, n.total - 1⟩, ?_, hsound, hflat'⟩
    have hset : n.children.set (KL.length + 1) right' = L ++ left :: right' :: R0 := by
      rw [v.children, ← v.left, set_middle_succ]
    simp only [hmin, bind_some, hset, hkeys, set_middle]
  · obtain ⟨n1, c1, hmerge, v1, hc1, hflat1, htotal, hlen⟩ :=
      mergeChildren_spec v hleft (hleft.length_of_poor hlrich) (hright.length_of_poor hrrich)
    have hsame : flat (h + 1) n1 = flat (h + 1) n := by
      rw [v1.flat_eq, hflat1, hflat]
      simp only [append_assoc, cons_append]
    have hsorted1 : (flat h c1).Pairwise (· < ·) := by
      rw [← hsame, v1.flat_eq] at hsorted
      exact (pairwise_append.mp (pairwise_append.mp hsorted).2.1).1
    obtain ⟨c2, hrec2, hc2, hflat2⟩ := hrec c1 hc1 hsorted1
    have hmem : key ∈ flat h c1 := by
      rw [hflat1]
      simp
    have v2 := v1.replace c2 (n1.total - 1)
    have herase2 : flat (h + 1) { n1 with children := n1.children.set KL.length c2, total := n1.total - 1 } =
        (flat (h + 1) n).erase key := by
      rw [v2.flat_eq, hflat2, hflat1, herase, erase_of_split (hflat1 ▸ hsorted1)]
      simp only [append_assoc]
    refine ⟨{ n1 with children := n1.children.set KL.length c2, total := n1.total - 1 }, ?_, v2.sound hc2 ?_ ?_ ?_,
      herase2⟩
    · simp only [hmerge, bind_some, v1.getElem?_eq, hrec2, hmem, decide_true, Bool.toNat_true]
    · show lo ≤ n1.keys.length
      omega
    · show n1.keys.length ≤ maxKeys
      omega
    · rw [herase2]
      show n1.total - 1 = _
      rw [htotal]
      exact hcount

theorem removeRec_spec (key : K) {h lo : Nat} {n : Node K} (hn : Sound h lo maxKeys n) (hroot : h = 0 ∨ 0 < lo)
    (hsorted : (flat h n).Pairwise (· < ·)) :
    ∃ n', removeRec h n key = some (n', decide (key ∈ flat h n)) ∧
      Sound h (lo - 1) maxKeys n' ∧ flat h n' = (flat h n).erase key := by
  induction h generalizing lo n with
  | zero =>
    have hle := hn.le_keys
    have hge := hn.keys_le
    unfold removeRec
    rcases hn.search_spec hsorted key with ⟨KL, KR, hsearch, hkeys, hmem⟩ | ⟨KL, KR, hsearch, hkeys, hl, hr⟩
    · have herase : n.keys.eraseIdx KL.length = (flat 0 n).erase key := by
        show _ = n.keys.erase key
        rw [hkeys, eraseIdx_middle, erase_of_split]
        exact hkeys ▸ hsorted
      have hlen : (n.keys.eraseIdx KL.length).length + 1 = n.keys.length := by
        rw [hkeys, eraseIdx_middle, length_append, length_append, length_cons]
        rfl
      rw [hsearch]
      dsimp only
      rw [if_pos hn.isLeaf_zero]
      exact ⟨_, by simp [hmem], hn.dropKey hlen, herase⟩
    · have hnot : key ∉ flat 0 n := by
        show key ∉ n.keys
        rw [hkeys, ← nil_append KR, mem_middle hl hr]
        exact not_mem_nil
      rw [hsearch]
      dsimp only
      rw [if_pos hn.isLeaf_zero]
      exact ⟨n, by simp [hnot], hn.mono (by omega) hge, (erase_of_not_mem hnot).symm⟩
  | succ h ih =>
    obtain ⟨lo, rfl⟩ : ∃ lo', lo = lo' + 1 := ⟨lo - 1, by omega⟩
    have hrec : ∀ c, Sound h (minKeys + 1) maxKeys c → (flat h c).Pairwise (· < ·) → ∃ c', removeRec h c key =
        some (c', decide (key ∈ flat h c)) ∧ Sound h minKeys maxKeys c' ∧ flat h c' = (flat h c).erase key :=
      fun c hc hs => ih hc (.inr (Nat.succ_pos _)) hs
    rw [Nat.add_sub_cancel]
    unfold removeRec
    rcases hn.search_spec hsorted key with ⟨KL, KR, hsearch, hkeys, hmem⟩ | ⟨KL, KR, hsearch, hkeys, hl, hr⟩
    · obtain ⟨n', hhit, hsound, hflat⟩ := removeHitInInternal_spec hn hsorted hkeys hrec
      rw [hsearch]
      dsimp only
      rw [if_neg (by rw [hn.isLeaf_succ]; decide)]
      exact ⟨n', by rw [hhit]; simp [hmem], hsound, hflat⟩
    · obtain ⟨L, c, R, v, hc⟩ := hn.view KL KR hkeys
      obtain ⟨hbefore, hafter⟩ := v.bounds hsorted hl hr
      obtain ⟨n1, i, c1, P, S, hfatten, htotal, hget, hc1, hflat1, hP, hS, hput⟩ := v.shrinkChild hc hn.le_keys hn.keys_le
      have hlt : ∀ y ∈ P, y < key := fun y hy => hbefore y (hP hy)
      have hgt : ∀ y ∈ S, key < y := fun y hy => hafter y (hS hy)
      have hsorted1 : (flat h c1).Pairwise (· < ·) := by
        rw [hflat1] at hsorted
        exact (pairwise_append.mp (pairwise_append.mp hsorted).2.1).1
      obtain ⟨c2, hrec2, hc2, hflat2⟩ := hrec c1 hc1 hsorted1
      have hmem : key ∈ flat (h + 1) n ↔ key ∈ flat h c1 := by rw [hflat1, mem_middle hlt hgt]
      have herase : (flat (h + 1) n).erase key = P ++ (flat h c2 ++ S) := by
        rw [hflat1, erase_middle hlt hgt, hflat2]
      obtain ⟨hsound, hflat⟩ := hput c2 (n1.total - (decide (key ∈ flat h c1)).toNat) hc2 (by
        rw [← herase, length_erase_toNat, ← hn.total_eq, htotal]
        simp only [hmem])
      rw [hsearch]
      dsimp only
      rw [if_neg (by rw [hn.isLeaf_succ]; decide), hfatten]
      simp only [bind_eq_bind, bind_some, hget, hrec2]
      exact ⟨_, congrArg some (Prod.ext rfl (by simp only [hmem])), hsound, hflat.trans herase.symm⟩

end Order

end Kevy.Rank
