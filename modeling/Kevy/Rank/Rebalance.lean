import Kevy.Rank.Shape

/-!
# Making a child rich

Keys move between a child, its parent and a sibling of the child, and no key changes its place in the order. The child
that is made rich has the keys it had, those that came from the left before them and those from the right behind.
-/

namespace Kevy.Rank

open Kevy.Lib List Option

variable {K : Type} {h lo hi : Nat} {n c : Node K} {L R : List (Node K)} {KL KR : List K}

theorem isRich_iff : c.isRich = true ↔ minKeys + 1 ≤ c.keys.length :=
  decide_eq_true_iff

theorem Sound.length_of_poor (hc : Sound h minKeys maxKeys c) (hpoor : ¬ c.isRich = true) :
    c.keys.length = minKeys := by
  rw [isRich_iff] at hpoor
  have hle := hc.le_keys
  omega

/-! ## A child and its parent -/

/-- A node whose child was made rich: no key has changed its place, and the node has one key less at most. -/
structure Fattened (h : Nat) (n : Node K) (before l after : List K) (n' : Node K) (i : Nat) : Prop where
  child : ∃ L KL c KR R P S, View h n' L KL c KR R ∧ KL.length = i ∧ Sound h (minKeys + 1) maxKeys c ∧
    before = pre h L KL ++ P ∧ flat h c = P ++ (l ++ S) ∧ after = S ++ post h KR R
  total_eq : n'.total = n.total
  keys_le : n'.keys.length ≤ n.keys.length
  le_keys : n.keys.length ≤ n'.keys.length + 1

theorem View.leftSibling (v : View h n L KL c KR R) (hpos : 0 < KL.length) :
    ∃ L0 left KL0 k, L = L0 ++ [left] ∧ KL = KL0 ++ [k] ∧ L0.length = KL0.length ∧
      n.children = L0 ++ left :: c :: R ∧ n.keys = KL0 ++ k :: KR := by
  have hleft := v.left
  obtain ⟨KL0, k, rfl⟩ := exists_concat hpos
  obtain ⟨L0, left, rfl⟩ := exists_concat (l := L) (by omega)
  refine ⟨L0, left, KL0, k, rfl, rfl, ?_, ?_, ?_⟩
  · simpa using hleft
  · rw [v.children, append_assoc]
    rfl
  · rw [v.keys, append_assoc]
    rfl

theorem View.rightSibling (v : View h n L KL c KR R) (hpos : 0 < KR.length) :
    ∃ k KR0 right R0, KR = k :: KR0 ∧ R = right :: R0 := by
  have hright := v.right
  obtain ⟨k, KR0, rfl⟩ := exists_cons_of_ne_nil (ne_nil_of_length_pos hpos)
  obtain ⟨right, R0, rfl⟩ := exists_cons_of_length_eq_add_one hright
  exact ⟨k, KR0, right, R0, rfl, rfl⟩

theorem borrowFromLeft_spec (v : View h n L KL c KR R) (hc : Sound h minKeys maxKeys c) (hpoor : ¬ c.isRich = true)
    (hpos : 0 < KL.length) (hrich : n.children[KL.length - 1]?.any Node.isRich = true) :
    ∃ n', borrowFromLeft n KL.length = some n' ∧ Fattened h n (pre h L KL) (flat h c) (post h KR R) n' KL.length := by
  obtain ⟨L0, left, KL0, k, rfl, rfl, hlen, hchildren, hkeys⟩ := v.leftSibling hpos
  have hi : (KL0 ++ [k]).length = L0.length + 1 := by rw [length_append, hlen, length_singleton]
  have hleft : Sound h minKeys maxKeys left := v.soundL left (mem_append_right _ mem_cons_self)
  have hgetL : n.children[L0.length]? = some left := by rw [hchildren, getElem?_middle]
  have hgetC : n.children[L0.length + 1]? = some c := by rw [hchildren, getElem?_middle_succ]
  have hgetK : n.keys[L0.length]? = some k := by rw [hkeys, hlen, getElem?_middle]
  rw [hi, Nat.add_sub_cancel, hgetL] at hrich
  have hmany := isRich_iff.mp hrich
  have hfew := hleft.keys_le
  obtain ⟨KX, up, hkx⟩ := exists_concat (l := left.keys) (by omega)
  rw [hkx, length_append, length_singleton] at hmany hfew
  have hf := hleft.fits
  rw [hkx] at hf
  obtain ⟨hfl, hfm, hflatL⟩ := hf.cut
  rw [← hf.last.1, ← hf.last.2] at hflatL
  rw [← hf.last.1] at hfl
  rw [← hf.last.2] at hfm
  obtain ⟨hfc, hflatC⟩ := hfm.join hc.fits k
  have hlenC : (k :: c.keys).length = minKeys + 1 := by rw [length_cons, hc.length_of_poor hpoor]
  have hc' := hfc.sound (Nat.le_of_eq hlenC.symm) (Nat.le_trans (Nat.le_of_eq hlenC) (show _ ≤ maxKeys by decide)) c.total
  rw [hi]
  unfold borrowFromLeft
  simp only [Nat.add_sub_cancel, hgetL, hgetC, hgetK, hkx, getLast?_concat, dropLast_concat, bind_eq_bind, bind_some]
  refine ⟨_, rfl, ⟨L0 ++ [Node.recount ⟨KX, left.children.dropLast, left.total⟩], KL0 ++ [up], _, KR, R,
      flatOf h [] left.children.getLast?.toList ++ [k], [],
      ⟨?_, ?_, ?_, v.right, ?_, v.soundR⟩, ?_, hc', ?_, ?_, rfl⟩, rfl, ?_, ?_⟩
  · show (n.children.set L0.length _).set (L0.length + 1) _ = _
    rw [hchildren, set_middle, set_middle_succ, append_assoc]
    rfl
  · show n.keys.set L0.length up = _
    rw [hkeys, hlen, set_middle, append_assoc]
    rfl
  · rw [length_append, length_append, hlen]
    rfl
  · refine forall_mem_append.mpr ⟨fun x hx => v.soundL x (mem_append_left _ hx), forall_mem_singleton.mpr ?_⟩
    exact hfl.sound (by omega) (by omega) _
  · rw [length_append, hlen]
    rfl
  · rw [pre_concat hlen, pre_concat hlen, flat_recount, flat_eq_flatOf h left, hkx, hflatL]
    simp only [append_assoc, cons_append, nil_append]
  · rw [flat_recount, flat_eq_flatOf h c]
    exact hflatC.trans (by simp)
  · exact Nat.le_of_eq (length_set)
  · exact Nat.le_succ_of_le (Nat.le_of_eq (length_set).symm)

theorem borrowFromRight_spec (v : View h n L KL c KR R) (hc : Sound h minKeys maxKeys c) (hpoor : ¬ c.isRich = true)
    (hpos : 0 < KR.length) (hrich : n.children[KL.length + 1]?.any Node.isRich = true) :
    ∃ n', borrowFromRight n KL.length = some n' ∧ Fattened h n (pre h L KL) (flat h c) (post h KR R) n' KL.length := by
  obtain ⟨k, KR0, right, R0, rfl, rfl⟩ := v.rightSibling hpos
  have hright : Sound h minKeys maxKeys right := v.soundR right mem_cons_self
  have hgetK : n.keys[KL.length]? = some k := by rw [v.keys, getElem?_middle]
  rw [v.getElem?_right] at hrich
  have hmany := isRich_iff.mp hrich
  have hfew := hright.keys_le
  obtain ⟨up, KX, hkx⟩ := exists_cons_of_ne_nil (ne_nil_of_length_pos (show 0 < right.keys.length by omega))
  rw [hkx, length_cons] at hmany hfew
  have hf : Fits h ([] ++ up :: KX) right.children := hkx ▸ hright.fits
  have hcut := hf.cut
  rw [length_nil, Nat.zero_add, drop_one] at hcut
  obtain ⟨hfm, hfr, hflatR⟩ := hcut
  obtain ⟨hfc, hflatC⟩ := hc.fits.join hfm k
  have hhead : right.children.head?.toList = right.children.take 1 := by cases right.children <;> rfl
  have hlenC : (c.keys ++ [k]).length = minKeys + 1 := by rw [length_append, hc.length_of_poor hpoor, length_singleton]
  have hc' := hfc.sound (Nat.le_of_eq hlenC.symm) (Nat.le_trans (Nat.le_of_eq hlenC) (show _ ≤ maxKeys by decide)) c.total
  unfold borrowFromRight
  simp only [v.getElem?_right, v.getElem?_eq, hgetK, hkx, head?_cons, tail_cons, hhead, bind_eq_bind, bind_some]
  refine ⟨_, rfl, ⟨L, KL, _, up :: KR0, Node.recount ⟨KX, right.children.tail, right.total⟩ :: R0,
      [], k :: flatOf h [] (right.children.take 1), ⟨?_, ?_, v.left, v.right, v.soundL, ?_⟩, rfl,
      hc', ?_, ?_, ?_⟩, rfl, ?_, ?_⟩
  · show (n.children.set (KL.length + 1) _).set KL.length _ = _
    rw [v.children, ← v.left, set_middle_succ, set_middle]
  · show n.keys.set KL.length up = _
    rw [v.keys, set_middle]
  · refine forall_mem_cons.mpr ⟨?_, fun x hx => v.soundR x (mem_cons_of_mem _ hx)⟩
    exact hfr.sound (by omega) (by omega) _
  · rw [append_nil]
  · rw [flat_recount, flat_eq_flatOf h c]
    exact hflatC
  · rw [post_cons, post_cons, flat_recount, flat_eq_flatOf h right, hkx]
    rw [show flatOf h (up :: KX) right.children = _ from hflatR]
    simp only [append_assoc, cons_append]
  · exact Nat.le_of_eq (length_set)
  · exact Nat.le_succ_of_le (Nat.le_of_eq (length_set).symm)

theorem mergeChildren_spec {right : Node K} {k : K} (v : View h n L KL c (k :: KR) (right :: R))
    (hc : Sound h minKeys maxKeys c) (hl : c.keys.length = minKeys) (hr : right.keys.length = minKeys) :
    ∃ n' c', mergeChildren n KL.length = some n' ∧ View h n' L KL c' KR R ∧ Sound h (minKeys + 1) maxKeys c' ∧
      flat h c' = flat h c ++ k :: flat h right ∧ n'.total = n.total ∧ n.keys.length = n'.keys.length + 1 := by
  have hgetK : n.keys[KL.length]? = some k := by rw [v.keys, getElem?_middle]
  obtain ⟨hfits, hflat⟩ := hc.fits.join (v.soundR right mem_cons_self).fits k
  have hkeys : n.keys.eraseIdx KL.length = KL ++ KR := by rw [v.keys, eraseIdx_middle]
  have hlen : (c.keys ++ k :: right.keys).length = 15 := by
    rw [length_append, length_cons, hl, hr]
    rfl
  unfold mergeChildren
  simp only [v.getElem?_right, v.getElem?_eq, hgetK, bind_eq_bind, bind_some, hkeys]
  refine ⟨_, _, rfl, ⟨?_, rfl, v.left, ?_, v.soundL, ?_⟩, hfits.sound ?_ ?_ c.total, ?_, rfl, ?_⟩
  · show (n.children.eraseIdx (KL.length + 1)).set KL.length _ = _
    rw [v.children, ← v.left, eraseIdx_middle_succ, set_middle]
  · simpa using v.right
  · exact fun x hx => v.soundR x (mem_cons_of_mem _ hx)
  · rw [hlen]
    decide
  · rw [hlen]
    decide
  · rw [flat_recount, flat_eq_flatOf h c, flat_eq_flatOf h right]
    exact hflat
  · rw [v.keys, length_append, length_append, length_cons]
    rfl

theorem fattenChild_spec (v : View h n L KL c KR R) (hc : Sound h minKeys maxKeys c) (hpos : 0 < n.keys.length) :
    ∃ n' i, fattenChild n KL.length = some (n', i) ∧ Fattened h n (pre h L KL) (flat h c) (post h KR R) n' i := by
  have hlen := v.length_keys
  have hchildren := v.length_children
  unfold fattenChild
  rw [v.getElem?_eq]
  simp only [bind_eq_bind, bind_some]
  split_ifs with hrich hl hr hzero
  · refine ⟨n, KL.length, rfl, ⟨L, KL, c, KR, R, [], [], v, rfl, hc.mono (isRich_iff.mp hrich) hc.keys_le, ?_, ?_, rfl⟩,
      rfl, le_rfl, Nat.le_succ _⟩
    · rw [append_nil]
    · rw [append_nil, nil_append]
  · obtain ⟨n', hn', hfat⟩ := borrowFromLeft_spec v hc hrich hl.1 hl.2
    exact ⟨n', KL.length, by rw [hn', map_some], hfat⟩
  · obtain ⟨n', hn', hfat⟩ := borrowFromRight_spec v hc hrich (by omega) hr.2
    exact ⟨n', KL.length, by rw [hn', map_some], hfat⟩
  · -- the left sibling has no key to spare either
    obtain ⟨L0, left, KL0, k, rfl, rfl, hlen0, hch, hke⟩ := v.leftSibling hzero
    have hleft : Sound h minKeys maxKeys left := v.soundL left (mem_append_right _ mem_cons_self)
    have hpoor : ¬ left.isRich = true := by
      intro hleftRich
      refine hl ⟨hzero, ?_⟩
      rw [length_append, ← hlen0, length_singleton, Nat.add_sub_cancel, hch, getElem?_middle]
      exact hleftRich
    have v0 : View h n L0 KL0 left (k :: KR) (c :: R) := by
      refine ⟨hch, hke, hlen0, ?_, fun x hx => v.soundL x (mem_append_left _ hx), ?_⟩
      · rw [length_cons, length_cons, v.right]
      · exact forall_mem_cons.mpr ⟨hc, v.soundR⟩
    obtain ⟨n', c', hn', v', hc', hflat, htotal, hkeys⟩ :=
      mergeChildren_spec v0 hleft (hleft.length_of_poor hpoor) (hc.length_of_poor hrich)
    have hi : (KL0 ++ [k]).length - 1 = KL0.length := by rw [length_append, length_singleton, Nat.add_sub_cancel]
    refine ⟨n', KL0.length, by rw [hi, hn', map_some], ⟨L0, KL0, c', KR, R, flat h left ++ [k], [], v', rfl, hc',
      pre_concat hlen0 left k, ?_, rfl⟩, htotal, by omega, by omega⟩
    rw [hflat]
    simp only [append_assoc, cons_append, nil_append, append_nil]
  · -- the first child: the right sibling has no key to spare
    obtain ⟨k, KR0, right, R0, rfl, rfl⟩ := v.rightSibling (by omega)
    have hright : Sound h minKeys maxKeys right := v.soundR right mem_cons_self
    have hpoor : ¬ right.isRich = true := by
      intro hrightRich
      refine hr ⟨by omega, ?_⟩
      rw [v.getElem?_right]
      exact hrightRich
    obtain ⟨n', c', hn', v', hc', hflat, htotal, hkeys⟩ :=
      mergeChildren_spec v hc (hc.length_of_poor hrich) (hright.length_of_poor hpoor)
    refine ⟨n', KL.length, by rw [hn', map_some], ⟨L, KL, c', KR0, R0, [], k :: flat h right, v', rfl, hc',
      (append_nil _).symm, ?_, ?_⟩, htotal, by omega, by omega⟩
    · rw [hflat, nil_append]
    · rw [post_cons]
      rfl

end Kevy.Rank
