import Kevy.Rank.Shape

/-!
# Insertion

An insert puts the key into the sorted list of the subtree. The node stays, or it has become two nodes with a key
between them.
-/

namespace Kevy.Rank

open Kevy.Lib List

variable {K : Type} {h lo : Nat} {n : Node K}

/-- A subtree with the keys `l`: one node, or two and the key between. -/
inductive Grown (h lo : Nat) (l : List K) : Node K → Option (K × Node K) → Prop
  | whole {n : Node K} (hn : Sound h lo maxKeys n) (hflat : flat h n = l) : Grown h lo l n none
  | split {n right : Node K} {median : K} (hn : Sound h minKeys maxKeys n) (hright : Sound h minKeys maxKeys right)
      (hflat : flat h n ++ median :: flat h right = l) : Grown h lo l n (some (median, right))

theorem splitIfOverfull_spec (hn : Sound h lo (maxKeys + 1) n) :
    ∃ n' split, splitIfOverfull n = some (n', split) ∧ Grown h lo (flat h n) n' split := by
  unfold splitIfOverfull
  split_ifs with hfit
  · exact ⟨n, none, rfl, .whole (hn.mono hn.le_keys hfit) rfl⟩
  · have hlen : n.keys.length = 16 := by
      have hle := hn.keys_le
      simp only [maxKeys] at hfit hle
      omega
    obtain ⟨KL, median, KR, hkeys, hKL⟩ := exists_middle (l := n.keys) (i := 8) (by omega)
    have hKR : KR.length = 7 := by
      rw [hkeys, length_append, length_cons] at hlen
      omega
    have htake : n.keys.take 8 = KL := by rw [hkeys, take_left' hKL]
    have hdrop : n.keys.drop 9 = KR := by
      rw [hkeys, ← drop_drop (i := 1) (j := 8), drop_left' hKL]
      rfl
    have hget : n.keys[8]? = some median := by rw [hkeys, ← hKL, getElem?_middle]
    simp only [hlen, show 16 / 2 = 8 from rfl, hget, htake, hdrop, Option.map_some]
    have hf := hn.fits
    rw [hkeys] at hf
    obtain ⟨hfl, hfr, hflat⟩ := hf.cut
    rw [hKL] at hfl hfr hflat
    refine ⟨_, _, rfl, .split (hfl.sound ?_ ?_ _) (hfr.sound ?_ ?_ _) ?_⟩
    · exact Nat.le_of_lt (by rw [hKL]; decide)
    · exact Nat.le_of_lt (by rw [hKL]; decide)
    · exact Nat.le_of_eq hKR.symm
    · exact Nat.le_of_lt (by rw [hKR]; decide)
    · rw [flat_recount, flat_recount, flat_eq_flatOf h n, hkeys]
      exact hflat.symm

theorem View.splice {L R : List (Node K)} {KL KR : List K} {c c' right : Node K} {median : K} {total : Nat}
    (v : View h n L KL c KR R) (hhi : n.keys.length ≤ maxKeys) (hlo : lo ≤ n.keys.length)
    (hc : Sound h minKeys maxKeys c') (hright : Sound h minKeys maxKeys right)
    (htotal : total = (pre h L KL ++ ((flat h c' ++ median :: flat h right) ++ post h KR R)).length) :
    Sound (h + 1) lo (maxKeys + 1) ⟨KL ++ median :: KR, L ++ c' :: right :: R, total⟩ ∧
      flat (h + 1) ⟨KL ++ median :: KR, L ++ c' :: right :: R, total⟩ =
        pre h L KL ++ ((flat h c' ++ median :: flat h right) ++ post h KR R) := by
  have v' : View h ⟨KL ++ median :: KR, L ++ c' :: right :: R, total⟩ L KL c' (median :: KR) (right :: R) := by
    refine ⟨rfl, rfl, v.left, ?_, v.soundL, ?_⟩
    · rw [length_cons, length_cons, v.right]
    · exact forall_mem_cons.mpr ⟨hright, v.soundR⟩
  have hflat : flat (h + 1) ⟨KL ++ median :: KR, L ++ c' :: right :: R, total⟩ =
      pre h L KL ++ ((flat h c' ++ median :: flat h right) ++ post h KR R) := by
    rw [v'.flat_eq, append_assoc]
    rfl
  refine ⟨v'.sound hc ?_ ?_ (by rw [hflat]; exact htotal), hflat⟩
  · rw [v'.length_keys, length_cons]
    have := v.length_keys
    omega
  · rw [v'.length_keys, length_cons]
    have := v.length_keys
    omega

theorem length_insertKey [LinearOrder K] (l : List K) (key : K) :
    (insertKey l key).length = if decide (key ∉ l) then l.length + 1 else l.length := by
  unfold insertKey
  by_cases hmem : key ∈ l
  · simp [hmem]
  · simp [hmem, orderedInsert_length]

theorem insertRec_spec [LinearOrder K] (key : K) {h lo : Nat} {n : Node K} (hn : Sound h lo maxKeys n)
    (hsorted : (flat h n).Pairwise (· < ·)) :
    ∃ n' split, insertRec h n key = some (n', decide (key ∉ flat h n), split) ∧
      Grown h lo (insertKey (flat h n) key) n' split := by
  induction h generalizing lo n with
  | zero =>
    unfold insertRec
    rcases hn.search_spec hsorted key with ⟨KL, KR, hsearch, hkeys, hmem⟩ | ⟨KL, KR, hsearch, hkeys, hl, hr⟩
    · rw [hsearch]
      refine ⟨n, none, by simp [hmem], .whole hn ?_⟩
      unfold insertKey
      rw [if_pos hmem]
    · have hnot : key ∉ flat 0 n := by
        show key ∉ n.keys
        rw [hkeys, ← nil_append KR, mem_middle hl hr]
        exact not_mem_nil
      have hinsert : insertKey (flat 0 n) key = KL ++ key :: KR := by
        show insertKey n.keys key = _
        rw [hkeys, ← nil_append KR, insertKey_middle hl hr]
        rfl
      rw [hsearch]
      dsimp only
      rw [if_pos hn.isLeaf_zero]
      have hkeys' : n.keys.insertIdx KL.length key = KL ++ key :: KR := by rw [hkeys, insertIdx_middle]
      have hlen : (KL ++ key :: KR).length = n.keys.length + 1 := by
        rw [hkeys, length_append, length_append, length_cons]
        rfl
      have hgrow : Sound 0 lo (maxKeys + 1)
          { n with keys := n.keys.insertIdx KL.length key, total := n.total + 1 } := by
        have hle := hn.le_keys
        have hge := hn.keys_le
        refine ⟨hn.1, ?_, ?_, ?_⟩ <;> dsimp only <;> rw [hkeys', hlen]
        · omega
        · omega
        · rw [hn.2.2.2]
      obtain ⟨n', split, hsplit, hgrown⟩ := splitIfOverfull_spec hgrow
      refine ⟨n', split, ?_, ?_⟩
      · rw [hsplit]
        simp [hnot]
      · rw [hinsert, ← hkeys']
        exact hgrown
  | succ h ih =>
    unfold insertRec
    rcases hn.search_spec hsorted key with ⟨KL, KR, hsearch, hkeys, hmem⟩ | ⟨KL, KR, hsearch, hkeys, hl, hr⟩
    · rw [hsearch]
      refine ⟨n, none, by simp [hmem], .whole hn ?_⟩
      unfold insertKey
      rw [if_pos hmem]
    · obtain ⟨L, c, R, v, hc⟩ := hn.view KL KR hkeys
      obtain ⟨hbefore, hafter⟩ := v.bounds hsorted hl hr
      have hcmem : c ∈ n.children := by
        rw [v.children]
        exact mem_append_right _ mem_cons_self
      obtain ⟨c', split, hrec, hgrown⟩ := ih hc (hn.sorted_child hsorted hcmem)
      have hmem : key ∈ flat (h + 1) n ↔ key ∈ flat h c := by
        rw [v.flat_eq, mem_middle hbefore hafter]
      have hinsert : insertKey (flat (h + 1) n) key = pre h L KL ++ (insertKey (flat h c) key ++ post h KR R) := by
        rw [v.flat_eq, insertKey_middle hbefore hafter]
      have htotal : (if decide (key ∉ flat h c) then n.total + 1 else n.total) =
          (insertKey (flat (h + 1) n) key).length := by
        rw [length_insertKey, hn.total_eq]
        simp only [hmem]
      rw [hsearch]
      dsimp only
      rw [if_neg (by rw [hn.isLeaf_succ]; decide), v.getElem?_eq]
      simp only [Option.bind_eq_bind, Option.bind_some, hrec]
      cases hgrown with
      | whole hc' hflat =>
        have v' := v.replace c' (if decide (key ∉ flat h c) then n.total + 1 else n.total)
        refine ⟨{ n with
          children := n.children.set KL.length c'
          total := if decide (key ∉ flat h c) then n.total + 1 else n.total }, none, by simp only [hmem], .whole ?_ ?_⟩
        · refine v'.sound hc' hn.le_keys hn.keys_le ?_
          rw [v'.flat_eq, hflat, ← hinsert]
          exact htotal
        · rw [v'.flat_eq, hflat, hinsert]
      | split hc' hright hflat =>
        rename_i right median
        rw [← hflat] at hinsert
        rw [hinsert] at htotal
        obtain ⟨hsound, hflat'⟩ := v.splice hn.keys_le hn.le_keys hc' hright htotal
        obtain ⟨n', split', hsplit, hgrown'⟩ := splitIfOverfull_spec hsound
        have hnode : (⟨n.keys.insertIdx KL.length median, (n.children.set KL.length c').insertIdx (KL.length + 1) right,
            if decide (key ∉ flat h c) then n.total + 1 else n.total⟩ : Node K) =
            ⟨KL ++ median :: KR, L ++ c' :: right :: R, if decide (key ∉ flat h c) then n.total + 1 else n.total⟩ := by
          rw [v.keys, insertIdx_middle, v.children, ← v.left, set_middle, insertIdx_middle_succ]
        refine ⟨n', split', ?_, ?_⟩
        · dsimp only
          rw [hnode, hsplit]
          simp only [hmem, Option.map_some]
        · rw [hinsert, ← hflat']
          exact hgrown'

end Kevy.Rank
