import Kevy.Lib.Weave
import Kevy.Rank.Tree

/-!
# The shape of a tree

`flat h n` are the keys of a subtree of height `h`, in order. A subtree is sound when all its leaves are at depth `h`,
every node below its root has between seven and fifteen keys, and every count is the number of keys. The proofs look
at a node through one of its children: the keys and children on its left, the child, and those on its right.
-/

namespace Kevy.Rank

open Kevy.Lib List

variable {K : Type}

def flat : Nat → Node K → List K
  | 0, n => n.keys
  | h + 1, n => weave (n.children.map (flat h)) n.keys

/-- A subtree of height `h` whose root has between `lo` and `hi` keys. -/
def Sound : (h lo hi : Nat) → Node K → Prop
  | 0, lo, hi, n => n.children = [] ∧ lo ≤ n.keys.length ∧ n.keys.length ≤ hi ∧ n.total = n.keys.length
  | h + 1, lo, hi, n => (∀ c ∈ n.children, Sound h minKeys maxKeys c) ∧ n.children.length = n.keys.length + 1 ∧
      lo ≤ n.keys.length ∧ n.keys.length ≤ hi ∧ n.total = (flat (h + 1) n).length

variable {h lo hi : Nat} {n : Node K}

namespace Sound

theorem le_keys (hn : Sound h lo hi n) : lo ≤ n.keys.length := by
  cases h with
  | zero => exact hn.2.1
  | succ h => exact hn.2.2.1

theorem keys_le (hn : Sound h lo hi n) : n.keys.length ≤ hi := by
  cases h with
  | zero => exact hn.2.2.1
  | succ h => exact hn.2.2.2.1

theorem total_eq (hn : Sound h lo hi n) : n.total = (flat h n).length := by
  cases h with
  | zero => exact hn.2.2.2
  | succ h => exact hn.2.2.2.2

theorem mono (hn : Sound h lo hi n) {lo' hi' : Nat} (hlo : lo' ≤ n.keys.length) (hhi : n.keys.length ≤ hi') :
    Sound h lo' hi' n := by
  cases h with
  | zero => exact ⟨hn.1, hlo, hhi, hn.2.2.2⟩
  | succ h => exact ⟨hn.1, hn.2.1, hlo, hhi, hn.2.2.2.2⟩

theorem nonempty (hn : Sound h minKeys hi n) : Sound h 1 hi n :=
  hn.mono (le_trans (by decide) hn.le_keys) hn.keys_le

theorem isLeaf_zero (hn : Sound 0 lo hi n) : n.isLeaf = true := by
  unfold Node.isLeaf
  rw [hn.1]
  rfl

theorem isLeaf_succ (hn : Sound (h + 1) lo hi n) : n.isLeaf = false := by
  unfold Node.isLeaf
  have hlen := hn.2.1
  cases hchildren : n.children with
  | nil =>
    rw [hchildren] at hlen
    cases hlen
  | cons c cs => rfl

theorem levels_eq (hn : Sound h lo hi n) : n.levels = h := by
  induction h generalizing n lo hi with
  | zero =>
    obtain ⟨keys, children, total⟩ := n
    obtain rfl : children = [] := hn.1
    rw [Node.levels]
  | succ h ih =>
    obtain ⟨keys, children, total⟩ := n
    obtain ⟨c, cs, rfl⟩ := exists_cons_of_length_eq_add_one hn.2.1
    rw [Node.levels, ih (hn.1 c mem_cons_self)]

theorem length_map_flat (hn : Sound (h + 1) lo hi n) : (n.children.map (flat h)).length = n.keys.length + 1 := by
  rw [length_map, hn.2.1]

theorem keys_sublist (hn : Sound h lo hi n) : n.keys.Sublist (flat h n) := by
  cases h with
  | zero => exact Sublist.refl _
  | succ h => exact sublist_weave hn.length_map_flat

theorem sorted_child [LT K] (hn : Sound (h + 1) lo hi n) (hsorted : (flat (h + 1) n).Pairwise (· < ·)) {c : Node K}
    (hc : c ∈ n.children) : (flat h c).Pairwise (· < ·) :=
  hsorted.sublist (sublist_of_mem_weave hn.length_map_flat (List.mem_map_of_mem hc))

end Sound

/-! ## Counts -/

theorem sum_total {cs : List (Node K)} (hcs : ∀ c ∈ cs, Sound h lo hi c) :
    (cs.map Node.total).sum = ((cs.map (flat h)).map List.length).sum := by
  rw [List.map_map]
  congr 1
  exact map_congr_left fun c hc => (hcs c hc).total_eq

/-- Keys and the subtrees around them, to be a node of height `h`. -/
def Fits (h : Nat) (ks : List K) (cs : List (Node K)) : Prop :=
  match h with
  | 0 => cs = []
  | h + 1 => (∀ c ∈ cs, Sound h minKeys maxKeys c) ∧ cs.length = ks.length + 1

def flatOf (h : Nat) (ks : List K) (cs : List (Node K)) : List K := flat h ⟨ks, cs, 0⟩

theorem flat_eq_flatOf (h : Nat) (n : Node K) : flat h n = flatOf h n.keys n.children := by
  cases h <;> rfl

theorem flat_recount (h : Nat) (n : Node K) : flat h n.recount = flatOf h n.keys n.children := flat_eq_flatOf h _

theorem Sound.fits (hn : Sound h lo hi n) : Fits h n.keys n.children := by
  cases h with
  | zero => exact hn.1
  | succ h => exact ⟨hn.1, hn.2.1⟩

namespace Fits

variable {ks ks' : List K} {k : K} {cs cs' : List (Node K)}

theorem sound (hf : Fits h ks cs) (hlo : lo ≤ ks.length) (hhi : ks.length ≤ hi) (total : Nat) :
    Sound h lo hi (Node.recount ⟨ks, cs, total⟩) := by
  cases h with
  | zero =>
    refine ⟨hf, hlo, hhi, ?_⟩
    show ks.length + (cs.map Node.total).sum = ks.length
    rw [show cs = [] from hf]
    rfl
  | succ h =>
    refine ⟨hf.1, hf.2, hlo, hhi, ?_⟩
    show ks.length + (cs.map Node.total).sum = (weave (cs.map (flat h)) ks).length
    rw [length_weave (by rw [length_map, hf.2]), sum_total hf.1]

theorem join (hf : Fits h ks cs) (hf' : Fits h ks' cs') (k : K) : Fits h (ks ++ k :: ks') (cs ++ cs') ∧
    flatOf h (ks ++ k :: ks') (cs ++ cs') = flatOf h ks cs ++ k :: flatOf h ks' cs' := by
  cases h with
  | zero => exact ⟨append_eq_nil_iff.mpr ⟨hf, hf'⟩, rfl⟩
  | succ h =>
    refine ⟨⟨forall_mem_append.mpr ⟨hf.1, hf'.1⟩, ?_⟩, ?_⟩
    · rw [length_append, hf.2, hf'.2, length_append, length_cons]
      omega
    · show weave ((cs ++ cs').map (flat h)) (ks ++ k :: ks') = _
      rw [map_append, weave_at (by rw [length_map, hf.2])]
      rfl

theorem cut (hf : Fits h (ks ++ k :: ks') cs) : Fits h ks (cs.take (ks.length + 1)) ∧
    Fits h ks' (cs.drop (ks.length + 1)) ∧ flatOf h (ks ++ k :: ks') cs =
      flatOf h ks (cs.take (ks.length + 1)) ++ k :: flatOf h ks' (cs.drop (ks.length + 1)) := by
  have hparts : Fits h ks (cs.take (ks.length + 1)) ∧ Fits h ks' (cs.drop (ks.length + 1)) := by
    cases h with
    | zero =>
      rw [show cs = [] from hf]
      exact ⟨take_nil, drop_nil⟩
    | succ h =>
      have hlen := hf.2
      rw [length_append, length_cons] at hlen
      refine ⟨⟨fun c hc => hf.1 c (mem_of_mem_take hc), ?_⟩, ⟨fun c hc => hf.1 c (mem_of_mem_drop hc), ?_⟩⟩
      · rw [length_take]
        omega
      · rw [length_drop]
        omega
  have hjoin := (hparts.1.join hparts.2 k).2
  rw [take_append_drop] at hjoin
  exact ⟨hparts.1, hparts.2, hjoin⟩

theorem last (hf : Fits h (ks ++ [k]) cs) :
    cs.dropLast = cs.take (ks.length + 1) ∧ cs.getLast?.toList = cs.drop (ks.length + 1) := by
  cases h with
  | zero =>
    rw [show cs = [] from hf]
    exact ⟨rfl, rfl⟩
  | succ h =>
    obtain ⟨CX, sub, rfl⟩ := exists_concat (l := cs) (by rw [hf.2]; omega)
    have hlen : ks.length + 1 = CX.length := by simpa using hf.2.symm
    rw [dropLast_concat, getLast?_concat, hlen, take_left, drop_left]
    exact ⟨rfl, rfl⟩

end Fits

/-! ## One child of a node -/

def pre (h : Nat) (L : List (Node K)) (KL : List K) : List K := before (L.map (flat h)) KL

def post (h : Nat) (KR : List K) (R : List (Node K)) : List K := after KR (R.map (flat h))

/-- A node, seen from its child `c`. -/
structure View (h : Nat) (n : Node K) (L : List (Node K)) (KL : List K) (c : Node K) (KR : List K)
    (R : List (Node K)) : Prop where
  children : n.children = L ++ c :: R
  keys : n.keys = KL ++ KR
  left : L.length = KL.length
  right : R.length = KR.length
  soundL : ∀ x ∈ L, Sound h minKeys maxKeys x
  soundR : ∀ x ∈ R, Sound h minKeys maxKeys x

variable {L R : List (Node K)} {KL KR : List K} {c : Node K}

theorem pre_concat (hlen : L.length = KL.length) (left : Node K) (k : K) :
    pre h (L ++ [left]) (KL ++ [k]) = pre h L KL ++ (flat h left ++ [k]) := by
  unfold pre
  rw [map_append]
  exact before_concat (by rw [length_map, hlen]) (flat h left) k

theorem post_cons (k : K) (KR : List K) (right : Node K) (R : List (Node K)) :
    post h (k :: KR) (right :: R) = k :: (flat h right ++ post h KR R) := rfl

namespace View

theorem flat_eq (v : View h n L KL c KR R) : flat (h + 1) n = pre h L KL ++ (flat h c ++ post h KR R) := by
  show weave (n.children.map (flat h)) n.keys = _
  rw [v.children, v.keys, map_append, map_cons]
  exact weave_split (by rw [length_map, v.left]) (by rw [length_map, v.right]) (flat h c)

theorem length_keys (v : View h n L KL c KR R) : n.keys.length = KL.length + KR.length := by
  rw [v.keys, length_append]

theorem length_children (v : View h n L KL c KR R) : n.children.length = n.keys.length + 1 := by
  rw [v.children, v.length_keys, length_append, length_cons, v.left, v.right]
  omega

theorem getElem?_eq (v : View h n L KL c KR R) : n.children[KL.length]? = some c := by
  rw [v.children, ← v.left, getElem?_middle]

theorem getElem?_right {right : Node K} (v : View h n L KL c KR (right :: R)) :
    n.children[KL.length + 1]? = some right := by
  rw [v.children, ← v.left, getElem?_middle_succ]

theorem replace (v : View h n L KL c KR R) (c' : Node K) (total : Nat) :
    View h { n with children := n.children.set KL.length c', total := total } L KL c' KR R := by
  refine ⟨?_, v.keys, v.left, v.right, v.soundL, v.soundR⟩
  show n.children.set KL.length c' = _
  rw [v.children, ← v.left, set_middle]

theorem sound (v : View h n L KL c KR R) (hc : Sound h minKeys maxKeys c) (hlo : lo ≤ n.keys.length)
    (hhi : n.keys.length ≤ hi) (htotal : n.total = (flat (h + 1) n).length) : Sound (h + 1) lo hi n := by
  refine ⟨?_, v.length_children, hlo, hhi, htotal⟩
  intro x hx
  rw [v.children] at hx
  rcases mem_append.mp hx with hx | hx
  · exact v.soundL x hx
  · rcases mem_cons.mp hx with rfl | hx
    · exact hc
    · exact v.soundR x hx

end View

theorem Sound.viewOf (hn : Sound (h + 1) lo hi n) (hchildren : n.children = L ++ c :: R) (hkeys : n.keys = KL ++ KR)
    (hlen : L.length = KL.length) : View h n L KL c KR R ∧ Sound h minKeys maxKeys c := by
  have hmem : ∀ x ∈ L ++ c :: R, Sound h minKeys maxKeys x := hchildren ▸ hn.1
  refine ⟨⟨hchildren, hkeys, hlen, ?_, ?_, ?_⟩, ?_⟩
  · have hcount := hn.2.1
    rw [hchildren, hkeys, length_append, length_append, length_cons] at hcount
    omega
  · exact fun x hx => hmem x (mem_append_left _ hx)
  · exact fun x hx => hmem x (mem_append_right _ (mem_cons_of_mem _ hx))
  · exact hmem c (mem_append_right _ mem_cons_self)

theorem Sound.view (hn : Sound (h + 1) lo hi n) (KL KR : List K) (hkeys : n.keys = KL ++ KR) :
    ∃ L c R, View h n L KL c KR R ∧ Sound h minKeys maxKeys c := by
  have hlen := hn.2.1
  rw [hkeys, length_append] at hlen
  obtain ⟨L, c, R, hchildren, hL⟩ := exists_middle (l := n.children) (i := KL.length) (by omega)
  exact ⟨L, c, R, hn.viewOf hchildren hkeys hL⟩

/-! ## Searching a node -/

section Order

variable [LinearOrder K]

theorem search_spec {keys : List K} (hsorted : keys.Pairwise (· < ·)) (key : K) :
    (∃ KL KR, search keys key = .found KL.length ∧ keys = KL ++ key :: KR) ∨
      ∃ KL KR, search keys key = .missing KL.length ∧ keys = KL ++ KR ∧ (∀ y ∈ KL, y < key) ∧ ∀ y ∈ KR, key < y := by
  obtain ⟨KL, KR, hkeys, htake, hlt, hle⟩ := takeWhile_lt_split hsorted key
  unfold search
  rw [htake]
  cases KR with
  | nil =>
    refine .inr ⟨KL, [], ?_, hkeys, hlt, nofun⟩
    rw [hkeys, append_nil]
    simp
  | cons k KR =>
    have hget : keys[KL.length]? = some k := by rw [hkeys, getElem?_middle]
    dsimp only
    rw [hget]
    by_cases hk : k = key
    · subst hk
      exact .inl ⟨KL, KR, if_pos rfl, hkeys⟩
    · refine .inr ⟨KL, k :: KR, if_neg (fun heq => hk (Option.some_inj.mp heq)), hkeys, hlt, ?_⟩
      intro y hy
      rw [hkeys] at hsorted
      obtain ⟨hhead, -⟩ := pairwise_cons.mp (pairwise_append.mp hsorted).2.1
      have hkey : key < k := lt_of_le_of_ne (hle k mem_cons_self) (Ne.symm hk)
      rcases mem_cons.mp hy with rfl | hy
      · exact hkey
      · exact hkey.trans (hhead y hy)

theorem Sound.search_spec (hn : Sound h lo hi n) (hsorted : (flat h n).Pairwise (· < ·)) (key : K) :
    (∃ KL KR, search n.keys key = .found KL.length ∧ n.keys = KL ++ key :: KR ∧ key ∈ flat h n) ∨
      ∃ KL KR, search n.keys key = .missing KL.length ∧ n.keys = KL ++ KR ∧ (∀ y ∈ KL, y < key) ∧ ∀ y ∈ KR, key < y := by
  refine (Rank.search_spec (hsorted.sublist hn.keys_sublist) key).imp_left ?_
  rintro ⟨KL, KR, hsearch, hkeys⟩
  exact ⟨KL, KR, hsearch, hkeys, hn.keys_sublist.mem (by rw [hkeys]; simp)⟩

theorem View.bounds (v : View h n L KL c KR R) (hsorted : (flat (h + 1) n).Pairwise (· < ·)) {key : K}
    (hl : ∀ y ∈ KL, y < key) (hr : ∀ y ∈ KR, key < y) : (∀ y ∈ pre h L KL, y < key) ∧ ∀ y ∈ post h KR R, key < y := by
  rw [v.flat_eq] at hsorted
  obtain ⟨hpre, hrest, -⟩ := pairwise_append.mp hsorted
  obtain ⟨-, hpost, -⟩ := pairwise_append.mp hrest
  exact ⟨lt_of_mem_before hpre hl, lt_of_mem_after hpost hr⟩

end Order

end Kevy.Rank
