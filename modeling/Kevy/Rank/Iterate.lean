import Kevy.Rank.Query

/-!
# Iterators

The stack of an iterator holds nodes of increasing height, each with the key to resume at. What is still to come is,
node by node, what the node owes from that key on. One call of `next` takes the first key away, and the stack never
outgrows its room because it has at most one node of every height.
-/

namespace Kevy.Rank

open Kevy.Lib List Option

variable {K : Type} {h lo H i : Nat} {n c : Node K} {L R : List (Node K)} {KL KR l : List K}
  {stack : List (Node K × Nat)}

theorem ite_bind {α β : Type} {p : Prop} [Decidable p] {x : Option α} {y z : α} (hx : (if p then x else some y) = some z)
    (k : α → Option β) : (if p then x.bind k else k y) = k z := by
  split_ifs at hx ⊢
  · rw [hx, bind_some]
  · rw [some.inj hx]

/-! ## What a stack owes -/

def ahead : Nat → Node K → Nat → List K
  | 0, n, i => n.keys.drop i
  | h + 1, n, i => post h (n.keys.drop i) (n.children.drop (i + 1))

/-- The keys of a node down from key `i`, with the subtrees before them. -/
def behind : Nat → Node K → Nat → List K
  | 0, n, i => (n.keys.take (i + 1)).reverse
  | h + 1, n, i => (pre h (n.children.take (i + 1)) (n.keys.take (i + 1))).reverse

/-- The stack holds nodes of heights from `lo` to `H`, and owes the list. -/
inductive Owes (owed : Nat → Node K → Nat → List K) (H : Nat) : Nat → List (Node K × Nat) → List K → Prop
  | nil {lo : Nat} : Owes owed H lo [] []
  | cons {lo h i : Nat} {n : Node K} {stack : List (Node K × Nat)} {l : List K} (hlo : lo ≤ h) (hH : h ≤ H)
      (hn : Sound h 1 maxKeys n) (hi : i < n.keys.length) (hrest : Owes owed H (h + 1) stack l) :
      Owes owed H lo ((n, i) :: stack) (owed h n i ++ l)

namespace Owes

variable {owed : Nat → Node K → Nat → List K}

theorem mono (hs : Owes owed H lo stack l) {lo' : Nat} (hle : lo' ≤ lo) : Owes owed H lo' stack l := by
  cases hs with
  | nil => exact .nil
  | cons hlo hH hn hi hrest => exact .cons (hle.trans hlo) hH hn hi hrest

theorem length_le (hs : Owes owed H lo stack l) : stack.length ≤ H + 1 - lo := by
  induction hs with
  | nil => exact Nat.zero_le _
  | cons hlo hH hn hi hrest ih =>
    rw [length_cons]
    omega

theorem push (hs : Owes owed H (h + 1) stack l) (hroom : H < maxHeight) (hH : h ≤ H) (hn : Sound h 1 maxKeys n)
    (hi : i < n.keys.length) :
    Rank.push stack (n, i) = some ((n, i) :: stack) ∧ Owes owed H h ((n, i) :: stack) (owed h n i ++ l) := by
  have hlen := hs.length_le
  exact ⟨if_pos (by omega), .cons le_rfl hH hn hi hs⟩

theorem push_if (hs : Owes owed H (h + 1) stack l) (hroom : H < maxHeight) (hH : h ≤ H) (hn : Sound h 1 maxKeys n)
    {p : Prop} [Decidable p] {rest : List K} (hpos : p → i < n.keys.length ∧ owed h n i = rest) (hneg : ¬ p → rest = []) :
    ∃ stack', (if p then Rank.push stack (n, i) else some stack) = some stack' ∧ Owes owed H h stack' (rest ++ l) := by
  split_ifs with hp
  · obtain ⟨hi, rfl⟩ := hpos hp
    exact ⟨_, hs.push hroom hH hn hi⟩
  · rw [hneg hp]
    exact ⟨stack, rfl, hs.mono (Nat.le_succ h)⟩

end Owes

theorem drain_spec {owed : Nat → Node K → Nat → List K} {next : Iter K → Option (Option (K × Iter K))}
    (hstop : ∀ it, it.remaining = 0 → next it = some none)
    (hstep : ∀ {stack : List (Node K × Nat)} {l : List K} {lo : Nat} (remaining : Nat), Owes owed H lo stack l → l ≠ [] →
      ∃ key stack' l', next ⟨stack, remaining + 1⟩ = some (some (key, ⟨stack', remaining⟩)) ∧ l = key :: l' ∧
        Owes owed H 0 stack' l')
    {remaining lo : Nat} {stack : List (Node K × Nat)} {l : List K} (hs : Owes owed H lo stack l)
    (hlen : remaining ≤ l.length) : drain next (remaining + 1) ⟨stack, remaining⟩ = some (l.take remaining) := by
  induction remaining generalizing lo stack l with
  | zero =>
    unfold drain
    rw [hstop _ rfl]
    rfl
  | succ remaining ih =>
    obtain ⟨key, stack', l', hnext, rfl, hs'⟩ := hstep remaining hs (by rintro rfl; cases hlen)
    unfold drain
    rw [hnext]
    show (drain next (remaining + 1) ⟨stack', remaining⟩).map (key :: ·) = _
    rw [ih hs' (Nat.le_of_succ_le_succ hlen)]
    rfl

/-! ## Forwards -/

theorem View.ahead_eq (v : View h n L KL c KR R) : ahead (h + 1) n KL.length = post h KR R := by
  show post h (n.keys.drop KL.length) (n.children.drop (KL.length + 1)) = _
  rw [v.children, v.keys, drop_left, ← v.left, drop_length_add_append]
  rfl

theorem View.post_eq_nil (v : View h n L KL c KR R) (hge : ¬ KL.length < n.keys.length) : post h KR R = [] := by
  have hkeys := v.length_keys
  rw [length_eq_zero_iff.mp (show KR.length = 0 by omega)]
  rfl

theorem descendLeft_spec (hroom : H < maxHeight) {h : Nat} {c : Node K} {stack : List (Node K × Nat)} {l : List K}
    (hc : Sound h 1 maxKeys c) (hH : h ≤ H) (hs : Owes ahead H (h + 1) stack l) :
    ∃ stack', descendLeft h stack c = some stack' ∧ Owes ahead H 0 stack' (flat h c ++ l) := by
  induction h generalizing c stack l with
  | zero =>
    obtain ⟨hpush, hs'⟩ := hs.push hroom hH hc hc.le_keys
    refine ⟨(c, 0) :: stack, ?_, hs'⟩
    unfold descendLeft
    rw [hpush]
    exact if_pos hc.isLeaf_zero
  | succ h ih =>
    obtain ⟨hpush, hs'⟩ := hs.push hroom hH hc hc.le_keys
    obtain ⟨L, c0, R, v, hc0⟩ := hc.view [] c.keys rfl
    have hahead : ahead (h + 1) c 0 = post h c.keys R := v.ahead_eq
    have hflat : flat (h + 1) c = flat h c0 ++ post h c.keys R := by
      rw [v.flat_eq, length_eq_zero_iff.mp v.left]
      rfl
    rw [hahead] at hs'
    obtain ⟨stack', hrec, hs''⟩ := ih hc0.nonempty (by omega) hs'
    refine ⟨stack', ?_, ?_⟩
    · unfold descendLeft
      have hget : c.children[0]? = some c0 := v.getElem?_eq
      rw [hpush]
      show (if c.isLeaf = true then _ else _) = _
      rw [if_neg (by rw [hc.isLeaf_succ]; decide), hget]
      exact hrec
    · rw [hflat, append_assoc]
      exact hs''

theorem next_stop (it : Iter K) (hzero : it.remaining = 0) : it.next = some none := if_pos hzero

theorem next_spec (hroom : H < maxHeight) (remaining : Nat) (hs : Owes ahead H lo stack l) (hl : l ≠ []) :
    ∃ key stack' l', Iter.next ⟨stack, remaining + 1⟩ = some (some (key, ⟨stack', remaining⟩)) ∧ l = key :: l' ∧
      Owes ahead H 0 stack' l' := by
  cases hs with
  | nil => exact absurd rfl hl
  | @cons _ h i n stack l _ hH hn hi hrest =>
    obtain ⟨KL, key, KR, hkeys, rfl⟩ := exists_middle hi
    have hget : n.keys[KL.length]? = some key := by rw [hkeys, getElem?_middle]
    unfold Iter.next
    cases h with
    | zero =>
      have hdrop : n.keys.drop KL.length = key :: KR := by rw [hkeys, drop_left]
      have hdrop' : n.keys.drop (KL.length + 1) = KR := by rw [hkeys, drop_length_add_append]; rfl
      obtain ⟨stack', hpush, hs'⟩ := hrest.push_if hroom hH hn (p := KL.length + 1 < n.keys.length)
        (fun hlt => ⟨hlt, hdrop'⟩) (fun hge => by rw [← hdrop', drop_eq_nil_iff]; omega)
      refine ⟨key, stack', KR ++ l, ?_, ?_, hs'⟩
      · rw [if_neg (Nat.succ_ne_zero _)]
        simp only [bind_eq_bind, hget, bind_some, hn.isLeaf_zero, if_true, Nat.add_sub_cancel]
        exact ite_bind hpush _
      · show n.keys.drop KL.length ++ l = _
        rw [hdrop]
        rfl
    | succ h =>
      obtain ⟨L, c, R, v, hc⟩ := hn.view (KL ++ [key]) KR (by rw [hkeys, append_assoc]; rfl)
      have hlen : (KL ++ [key]).length = KL.length + 1 := length_append
      have hchild : n.children[KL.length + 1]? = some c := hlen ▸ v.getElem?_eq
      have hahead : ahead (h + 1) n (KL.length + 1) = post h KR R := hlen ▸ v.ahead_eq
      obtain ⟨stack', hpush, hs'⟩ := hrest.push_if hroom hH hn (p := KL.length + 1 < n.keys.length)
        (fun hlt => ⟨hlt, hahead⟩) (fun hge => v.post_eq_nil (by rwa [hlen]))
      obtain ⟨stack'', hdesc, hs''⟩ := descendLeft_spec hroom hc.nonempty (Nat.le_of_succ_le hH) hs'
      refine ⟨key, stack'', flat h c ++ (post h KR R ++ l), ?_, ?_, hs''⟩
      · rw [if_neg (Nat.succ_ne_zero _)]
        simp only [bind_eq_bind, hget, bind_some, hn.isLeaf_succ, Bool.false_eq_true, if_false, hchild,
          hc.levels_eq, Nat.add_sub_cancel]
        rw [ite_bind hpush, hdesc, bind_some]
      · show post h (n.keys.drop KL.length) (n.children.drop (KL.length + 1)) ++ l = _
        rw [hkeys, drop_left, v.children, ← hlen, ← v.left, drop_left, post_cons, cons_append, append_assoc]

theorem Landed.stack_ahead (hroom : H < maxHeight) {rank idx : Nat} {path : List (Node K × Nat)} {node : Node K}
    (hland : Landed h n rank path node idx) : Sound h 1 maxKeys n → h ≤ H → ∀ {stack : List (Node K × Nat)} {l : List K},
    Owes ahead H (h + 1) stack l → ∃ stack',
      ((path.filter fun step => step.2 < step.1.keys.length).foldlM push stack).bind (push · (node, idx)) = some stack' ∧
        Owes ahead H 0 stack' ((flat h n).drop rank ++ l) := by
  induction hland with
  | leaf _ hrank =>
    intro hn hH stack l hs
    obtain ⟨hpush, hs'⟩ := hs.push hroom hH hn hrank
    exact ⟨_, hpush, hs'⟩
  | @here h rank n c L R KL KR k v hc hrank =>
    intro hn hH stack l hs
    have hidx : KL.length < n.keys.length := by
      rw [v.length_keys, length_cons]
      omega
    obtain ⟨hpush, hs'⟩ := hs.push hroom hH hn hidx
    refine ⟨_, hpush, ?_⟩
    rw [v.flat_eq, hrank, ← append_assoc, drop_left, ← v.ahead_eq]
    exact hs'.mono (Nat.zero_le _)
  | @down h rank r idx n c node L R KL KR path v hc hr hrank _ ih =>
    intro hn hH stack l hs
    obtain ⟨stack1, hpush, hs1⟩ := hs.push_if hroom hH hn (p := KL.length < n.keys.length)
      (fun hlt => ⟨hlt, v.ahead_eq⟩) v.post_eq_nil
    obtain ⟨stack2, hrec, hs2⟩ := ih hc.nonempty (Nat.le_of_succ_le hH) hs1
    refine ⟨stack2, ?_, ?_⟩
    · rw [filter_cons]
      split_ifs at hpush ⊢ <;> simp_all
    · rw [v.flat_eq, hrank, drop_length_add_append, drop_append_of_le_length hr.le, append_assoc]
      exact hs2

/-! ## Backwards -/

theorem View.behind_eq (v : View h n L KL c KR R) (hi : KL.length = i + 1) : behind (h + 1) n i = (pre h L KL).reverse := by
  show (pre h (n.children.take (i + 1)) (n.keys.take (i + 1))).reverse = _
  rw [← hi, v.children, v.keys, take_left, ← v.left, take_left]

theorem View.behind_key {k : K} (v : View h n L KL c (k :: KR) R) :
    behind (h + 1) n KL.length = (pre h L KL ++ (flat h c ++ [k])).reverse := by
  show (pre h (n.children.take (KL.length + 1)) (n.keys.take (KL.length + 1))).reverse = _
  rw [v.children, v.keys, take_length_add_append, ← v.left, take_length_add_append]
  exact congrArg List.reverse (pre_concat v.left c k)

theorem View.pre_eq_nil (v : View h n L KL c KR R) (hzero : ¬ 0 < KL.length) : pre h L KL = [] := by
  have hleft := v.left
  rw [length_eq_zero_iff.mp (show L.length = 0 by omega)]
  rfl

theorem descendRight_spec (hroom : H < maxHeight) {h : Nat} {c : Node K} {stack : List (Node K × Nat)} {l : List K}
    (hc : Sound h 1 maxKeys c) (hH : h ≤ H) (hs : Owes behind H (h + 1) stack l) :
    ∃ stack', descendRight h stack c = some stack' ∧ Owes behind H 0 stack' ((flat h c).reverse ++ l) := by
  induction h generalizing c stack l with
  | zero =>
    have hpos := hc.le_keys
    obtain ⟨hpush, hs'⟩ := hs.push hroom hH hc (Nat.sub_lt hpos Nat.zero_lt_one)
    refine ⟨(c, c.keys.length - 1) :: stack, ?_, ?_⟩
    · unfold descendRight
      rw [hpush]
      exact if_pos hc.isLeaf_zero
    · have hbehind : behind 0 c (c.keys.length - 1) = (flat 0 c).reverse := by
        show (c.keys.take (c.keys.length - 1 + 1)).reverse = c.keys.reverse
        rw [Nat.sub_add_cancel hpos, take_length]
      rwa [hbehind] at hs'
  | succ h ih =>
    have hpos := hc.le_keys
    obtain ⟨hpush, hs'⟩ := hs.push hroom hH hc (Nat.sub_lt hpos Nat.zero_lt_one)
    obtain ⟨L, c0, R, v, hc0⟩ := hc.view c.keys [] (append_nil _).symm
    have hflat : flat (h + 1) c = pre h L c.keys ++ flat h c0 := by
      rw [v.flat_eq, length_eq_zero_iff.mp v.right]
      simp [post]
    rw [v.behind_eq (Nat.sub_add_cancel hpos).symm] at hs'
    obtain ⟨stack', hrec, hs''⟩ := ih hc0.nonempty (by omega) hs'
    refine ⟨stack', ?_, ?_⟩
    · unfold descendRight
      have hget : c.children[c.children.length - 1]? = some c0 := by
        rw [v.length_children]
        exact v.getElem?_eq
      rw [hpush]
      show (if c.isLeaf = true then _ else _) = _
      rw [if_neg (by rw [hc.isLeaf_succ]; decide), hget]
      exact hrec
    · rw [hflat, reverse_append, append_assoc]
      exact hs''

theorem nextRev_stop (it : Iter K) (hzero : it.remaining = 0) : it.nextRev = some none := if_pos hzero

theorem nextRev_spec (hroom : H < maxHeight) (remaining : Nat) (hs : Owes behind H lo stack l) (hl : l ≠ []) :
    ∃ key stack' l', Iter.nextRev ⟨stack, remaining + 1⟩ = some (some (key, ⟨stack', remaining⟩)) ∧ l = key :: l' ∧
      Owes behind H 0 stack' l' := by
  cases hs with
  | nil => exact absurd rfl hl
  | @cons _ h i n stack l _ hH hn hi hrest =>
    obtain ⟨KL, key, KR, hkeys, rfl⟩ := exists_middle hi
    have hget : n.keys[KL.length]? = some key := by rw [hkeys, getElem?_middle]
    unfold Iter.nextRev
    cases h with
    | zero =>
      have hbehind : 0 < KL.length → behind 0 n (KL.length - 1) = KL.reverse := by
        intro hpos
        show (n.keys.take (KL.length - 1 + 1)).reverse = _
        rw [Nat.sub_add_cancel hpos, hkeys, take_left]
      obtain ⟨stack', hpush, hs'⟩ := hrest.push_if hroom hH hn (i := KL.length - 1) (p := 0 < KL.length)
        (fun hpos => ⟨by omega, hbehind hpos⟩)
        (fun hzero => by rw [length_eq_zero_iff.mp (Nat.eq_zero_of_not_pos hzero)]; rfl)
      refine ⟨key, stack', KL.reverse ++ l, ?_, ?_, hs'⟩
      · rw [if_neg (Nat.succ_ne_zero _)]
        simp only [bind_eq_bind, hget, bind_some, hn.isLeaf_zero, if_true, Nat.add_sub_cancel]
        exact ite_bind hpush _
      · show (n.keys.take (KL.length + 1)).reverse ++ l = _
        rw [hkeys, take_length_add_append, reverse_append]
        rfl
    | succ h =>
      obtain ⟨L, c, R, v, hc⟩ := hn.view KL (key :: KR) hkeys
      have hchild := v.getElem?_eq
      obtain ⟨stack', hpush, hs'⟩ := hrest.push_if hroom hH hn (i := KL.length - 1) (p := 0 < KL.length)
        (fun hpos => ⟨by omega, v.behind_eq (Nat.sub_add_cancel hpos).symm⟩)
        (fun hzero => by rw [v.pre_eq_nil hzero]; rfl)
      obtain ⟨stack'', hdesc, hs''⟩ := descendRight_spec hroom hc.nonempty (Nat.le_of_succ_le hH) hs'
      refine ⟨key, stack'', (flat h c).reverse ++ ((pre h L KL).reverse ++ l), ?_, ?_, hs''⟩
      · rw [if_neg (Nat.succ_ne_zero _)]
        simp only [bind_eq_bind, hget, bind_some, hn.isLeaf_succ, Bool.false_eq_true, if_false, hchild,
          hc.levels_eq, Nat.add_sub_cancel]
        rw [ite_bind hpush, hdesc, bind_some]
      · rw [v.behind_key]
        simp

theorem Landed.stack_behind (hroom : H < maxHeight) {rank idx : Nat} {path : List (Node K × Nat)} {node : Node K}
    (hland : Landed h n rank path node idx) : Sound h 1 maxKeys n → h ≤ H → ∀ {stack : List (Node K × Nat)} {l : List K},
    Owes behind H (h + 1) stack l → ∃ stack',
      (((path.filter fun step => 0 < step.2).map fun step => (step.1, step.2 - 1)).foldlM push stack).bind
        (push · (node, idx)) = some stack' ∧ Owes behind H 0 stack' (((flat h n).take (rank + 1)).reverse ++ l) := by
  induction hland with
  | leaf _ hrank =>
    intro hn hH stack l hs
    obtain ⟨hpush, hs'⟩ := hs.push hroom hH hn hrank
    exact ⟨_, hpush, hs'⟩
  | @here h rank n c L R KL KR k v hc hrank =>
    intro hn hH stack l hs
    have hidx : KL.length < n.keys.length := by
      rw [v.length_keys, length_cons]
      omega
    obtain ⟨hpush, hs'⟩ := hs.push hroom hH hn hidx
    refine ⟨_, hpush, ?_⟩
    obtain ⟨r, R, rfl⟩ := exists_cons_of_length_eq_add_one v.right
    rw [v.behind_key] at hs'
    rw [v.flat_eq, post_cons, hrank, ← append_assoc, take_length_add_append, append_assoc]
    exact hs'.mono (Nat.zero_le _)
  | @down h rank r idx n c node L R KL KR path v hc hr hrank _ ih =>
    intro hn hH stack l hs
    have hkeys := v.length_keys
    obtain ⟨stack1, hpush, hs1⟩ := hs.push_if hroom hH hn (i := KL.length - 1) (p := 0 < KL.length)
      (fun hpos => ⟨by omega, v.behind_eq (Nat.sub_add_cancel hpos).symm⟩)
      (fun hzero => by rw [v.pre_eq_nil hzero]; rfl)
    obtain ⟨stack2, hrec, hs2⟩ := ih hc.nonempty (Nat.le_of_succ_le hH) hs1
    refine ⟨stack2, ?_, ?_⟩
    · rw [filter_cons]
      split_ifs at hpush ⊢ <;> simp_all
    · rw [v.flat_eq, hrank, Nat.add_assoc, take_length_add_append, take_append_of_le_length hr,
        reverse_append, append_assoc]
      exact hs2

end Kevy.Rank
