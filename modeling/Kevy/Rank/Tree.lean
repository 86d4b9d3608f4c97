import Mathlib.Algebra.Order.Ring.Nat

/-!
# The rank tree

A B-tree whose nodes carry the number of keys below them. Inserting splits nodes of more than fifteen keys on the way
back up; removing makes sure on the way down that the child it goes into can spare a key, by borrowing from a sibling
or by merging two children.

A panic is `none`, and so is a recursion that goes deeper than the levels of the tree it was started on.
-/

namespace Kevy.Rank

def maxKeys : Nat := 15

def minKeys : Nat := maxKeys / 2

/-- A node: sorted keys, the subtrees around them (none for a leaf), and the number of keys in all of it. -/
structure Node (K : Type) where
  keys : List K
  children : List (Node K)
  total : Nat

variable {K : Type}

namespace Node

def leaf : Node K := ⟨[], [], 0⟩

def isLeaf (n : Node K) : Bool := n.children.isEmpty

def recount (n : Node K) : Node K := { n with total := n.keys.length + (n.children.map total).sum }

/-- How many levels are below the root, on the left edge. -/
def levels : Node K → Nat
  | ⟨_, [], _⟩ => 0
  | ⟨_, c :: _, _⟩ => c.levels + 1

def isRich (n : Node K) : Bool := n.keys.length > minKeys

end Node

/-- The answer of a binary search: where the key is, or where it would go. -/
inductive Search
  | found (i : Nat)
  | missing (i : Nat)
  deriving DecidableEq, Repr

/-- `binary_search` of sorted keys. -/
def search [LinearOrder K] (keys : List K) (key : K) : Search :=
  let i := (keys.takeWhile (· < key)).length
  if keys[i]? = some key then .found i else .missing i

/-! ## Insertion -/

def splitIfOverfull (n : Node K) : Option (Node K × Option (K × Node K)) :=
  if n.keys.length ≤ maxKeys then some (n, none)
  else
    let mid := n.keys.length / 2
    n.keys[mid]?.map fun median =>
      let right : Node K := ⟨n.keys.drop (mid + 1), n.children.drop (mid + 1), 0⟩
      let left : Node K := ⟨n.keys.take mid, n.children.take (mid + 1), n.total⟩
      (left.recount, some (median, right.recount))

def insertRec [LinearOrder K] (fuel : Nat) (n : Node K) (key : K) : Option (Node K × Bool × Option (K × Node K)) :=
  match search n.keys key with
  | .found _ => some (n, false, none)
  | .missing i =>
    if n.isLeaf then
      (splitIfOverfull { n with keys := n.keys.insertIdx i key, total := n.total + 1 }).map fun (n, split) =>
        (n, true, split)
    else
      match fuel with
      | 0 => none
      | fuel + 1 => do
        let child ← n.children[i]?
        let (child, inserted, split) ← insertRec fuel child key
        let total := if inserted then n.total + 1 else n.total
        match split with
        | none => some ({ n with children := n.children.set i child, total := total }, inserted, none)
        | some (median, right) =>
          (splitIfOverfull ⟨n.keys.insertIdx i median, (n.children.set i child).insertIdx (i + 1) right, total⟩).map
            fun (n, split) => (n, inserted, split)

/-! ## Removal -/

def borrowFromLeft (n : Node K) (i : Nat) : Option (Node K) := do
  let left ← n.children[i - 1]?
  let up ← left.keys.getLast?
  let moved := left.children.getLast?
  let down ← n.keys[i - 1]?
  let child ← n.children[i]?
  let left := Node.recount { left with keys := left.keys.dropLast, children := left.children.dropLast }
  let child := Node.recount { child with keys := down :: child.keys, children := moved.toList ++ child.children }
  some { n with keys := n.keys.set (i - 1) up, children := (n.children.set (i - 1) left).set i child }

def borrowFromRight (n : Node K) (i : Nat) : Option (Node K) := do
  let right ← n.children[i + 1]?
  let up ← right.keys.head?
  let moved := right.children.head?
  let down ← n.keys[i]?
  let child ← n.children[i]?
  let right := Node.recount { right with keys := right.keys.tail, children := right.children.tail }
  let child := Node.recount { child with keys := child.keys ++ [down], children := child.children ++ moved.toList }
  some { n with keys := n.keys.set i up, children := (n.children.set (i + 1) right).set i child }

def mergeChildren (n : Node K) (i : Nat) : Option (Node K) := do
  let separator ← n.keys[i]?
  let right ← n.children[i + 1]?
  let left ← n.children[i]?
  let left := Node.recount
    { left with keys := left.keys ++ separator :: right.keys, children := left.children ++ right.children }
  some { n with keys := n.keys.eraseIdx i, children := (n.children.eraseIdx (i + 1)).set i left }

def fattenChild (n : Node K) (i : Nat) : Option (Node K × Nat) := do
  let child ← n.children[i]?
  if child.isRich then some (n, i)
  else if 0 < i ∧ n.children[i - 1]?.any Node.isRich then (borrowFromLeft n i).map fun n => (n, i)
  else if i + 1 < n.children.length ∧ n.children[i + 1]?.any Node.isRich then (borrowFromRight n i).map fun n => (n, i)
  else if 0 < i then (mergeChildren n (i - 1)).map fun n => (n, i - 1)
  else (mergeChildren n i).map fun n => (n, i)

def removeMax (fuel : Nat) (n : Node K) : Option (Node K × K) :=
  let n := { n with total := n.total - 1 }
  if n.isLeaf then n.keys.getLast?.map fun key => ({ n with keys := n.keys.dropLast }, key)
  else
    match fuel with
    | 0 => none
    | fuel + 1 => do
      let (n, i) ← fattenChild n (n.children.length - 1)
      let child ← n.children[i]?
      let (child, key) ← removeMax fuel child
      some ({ n with children := n.children.set i child }, key)

def removeMin (fuel : Nat) (n : Node K) : Option (Node K × K) :=
  let n := { n with total := n.total - 1 }
  if n.isLeaf then n.keys.head?.map fun key => ({ n with keys := n.keys.tail }, key)
  else
    match fuel with
    | 0 => none
    | fuel + 1 => do
      let (n, i) ← fattenChild n 0
      let child ← n.children[i]?
      let (child, key) ← removeMin fuel child
      some ({ n with children := n.children.set i child }, key)

def removeHitInInternal (fuel : Nat) (recurse : Node K → Option (Node K × Bool)) (n : Node K) (i : Nat) :
    Option (Node K × Bool) := do
  let left ← n.children[i]?
  let right ← n.children[i + 1]?
  if left.isRich then
    let (left, pred) ← removeMax fuel left
    some ({ n with keys := n.keys.set i pred, children := n.children.set i left, total := n.total - 1 }, true)
  else if right.isRich then
    let (right, succ) ← removeMin fuel right
    some ({ n with keys := n.keys.set i succ, children := n.children.set (i + 1) right, total := n.total - 1 }, true)
  else
    let n ← mergeChildren n i
    let child ← n.children[i]?
    let (child, removed) ← recurse child
    some ({ n with children := n.children.set i child, total := n.total - removed.toNat }, removed)

def removeRec [LinearOrder K] (fuel : Nat) (n : Node K) (key : K) : Option (Node K × Bool) :=
  match search n.keys key with
  | .found i =>
    if n.isLeaf then some ({ n with keys := n.keys.eraseIdx i, total := n.total - 1 }, true)
    else
      match fuel with
      | 0 => none
      | fuel + 1 => removeHitInInternal fuel (fun child => removeRec fuel child key) n i
  | .missing i =>
    if n.isLeaf then some (n, false)
    else
      match fuel with
      | 0 => none
      | fuel + 1 => do
        let (n, i) ← fattenChild n i
        let child ← n.children[i]?
        let (child, removed) ← removeRec fuel child key
        some ({ n with children := n.children.set i child, total := n.total - removed.toNat }, removed)

/-! ## Ranks -/

/-- Where the walk to a rank goes on: into a child, or it is at a key. -/
inductive RankStep (K : Type)
  | descend (i : Nat) (child : Node K) (rank : Nat)
  | here (i : Nat)

/-- The inner loop of `descend_to_rank`, from child `i` on. -/
def rankStep : List (Node K) → (rank i : Nat) → Option (RankStep K)
  | [], _, _ => none
  | c :: cs, rank, i =>
    if rank < c.total then some (.descend i c rank)
    else if rank - c.total = 0 then some (.here i)
    else rankStep cs (rank - c.total - 1) (i + 1)

/-- `descend_to_rank`: the nodes passed through with the child taken, and the node and the index of the key. -/
def descendToRank (fuel : Nat) (n : Node K) (rank : Nat) : Option (List (Node K × Nat) × Node K × Nat) :=
  if n.isLeaf then some ([], n, rank)
  else
    match fuel with
    | 0 => none
    | fuel + 1 => do
      match ← rankStep n.children rank 0 with
      | .here i => some ([], n, i)
      | .descend i child rank =>
        let (path, node, idx) ← descendToRank fuel child rank
        some ((n, i) :: path, node, idx)

def totalBefore (n : Node K) (i : Nat) : Nat := ((n.children.take i).map Node.total).sum

/-- The loop of `rank_of`. -/
def rankLoop [LinearOrder K] (fuel : Nat) (n : Node K) (acc : Nat) (key : K) : Option (Option Nat) :=
  match search n.keys key with
  | .found i => some (some (acc + totalBefore n (i + 1) + i))
  | .missing i =>
    if n.isLeaf then some none
    else
      match fuel with
      | 0 => none
      | fuel + 1 => do
        let child ← n.children[i]?
        rankLoop fuel child (acc + i + totalBefore n i) key

/-- The loop of `partition_point`. -/
def partitionLoop (fuel : Nat) (n : Node K) (acc : Nat) (pred : K → Bool) : Option Nat :=
  let i := (n.keys.takeWhile pred).length
  if n.isLeaf then some (acc + i)
  else
    match fuel with
    | 0 => none
    | fuel + 1 => do
      let child ← n.children[i]?
      partitionLoop fuel child (acc + i + totalBefore n i) pred

/-! ## Iterators -/

def maxHeight : Nat := 24

/-- `Iter` and `IterRev`: the resume points, the next one first, and how many keys are still to come. -/
structure Iter (K : Type) where
  stack : List (Node K × Nat)
  remaining : Nat

def push (stack : List (Node K × Nat)) (step : Node K × Nat) : Option (List (Node K × Nat)) :=
  if stack.length < maxHeight then some (step :: stack) else none

def Iter.newFrom (root : Node K) (rank : Nat) : Option (Iter K) :=
  let remaining := root.total - rank
  if remaining = 0 then some ⟨[], 0⟩
  else do
    let (path, node, idx) ← descendToRank root.levels root rank
    let stack ← (path.filter fun step => step.2 < step.1.keys.length).foldlM push []
    let stack ← push stack (node, idx)
    some ⟨stack, remaining⟩

def Iter.capped (it : Iter K) (cap : Nat) : Iter K := { it with remaining := min it.remaining cap }

def descendLeft (fuel : Nat) (stack : List (Node K × Nat)) (n : Node K) : Option (List (Node K × Nat)) := do
  let stack ← push stack (n, 0)
  if n.isLeaf then some stack
  else
    match fuel with
    | 0 => none
    | fuel + 1 => do
      let child ← n.children[0]?
      descendLeft fuel stack child

def Iter.next (it : Iter K) : Option (Option (K × Iter K)) :=
  if it.remaining = 0 then some none
  else
    match it.stack with
    | [] => some none
    | (n, i) :: stack => do
      let key ← n.keys[i]?
      let stack ← if i + 1 < n.keys.length then push stack (n, i + 1) else some stack
      let stack ← if n.isLeaf then some stack else do
        let child ← n.children[i + 1]?
        descendLeft child.levels stack child
      some (some (key, ⟨stack, it.remaining - 1⟩))

def Iter.newThrough (root : Node K) (through : Nat) : Option (Iter K) :=
  let remaining := min through root.total
  if remaining = 0 then some ⟨[], 0⟩
  else do
    let (path, node, idx) ← descendToRank root.levels root (remaining - 1)
    let stack ← ((path.filter fun step => 0 < step.2).map fun step => (step.1, step.2 - 1)).foldlM push []
    let stack ← push stack (node, idx)
    some ⟨stack, remaining⟩

def descendRight (fuel : Nat) (stack : List (Node K × Nat)) (n : Node K) : Option (List (Node K × Nat)) := do
  let stack ← push stack (n, n.keys.length - 1)
  if n.isLeaf then some stack
  else
    match fuel with
    | 0 => none
    | fuel + 1 => do
      let child ← n.children[n.children.length - 1]?
      descendRight fuel stack child

/-- `IterRev::next`. -/
def Iter.nextRev (it : Iter K) : Option (Option (K × Iter K)) :=
  if it.remaining = 0 then some none
  else
    match it.stack with
    | [] => some none
    | (n, i) :: stack => do
      let key ← n.keys[i]?
      let stack ← if 0 < i then push stack (n, i - 1) else some stack
      let stack ← if n.isLeaf then some stack else do
        let child ← n.children[i]?
        descendRight child.levels stack child
      some (some (key, ⟨stack, it.remaining - 1⟩))

def drain (next : Iter K → Option (Option (K × Iter K))) : (fuel : Nat) → Iter K → Option (List K)
  | 0, _ => none
  | fuel + 1, it => do
    match ← next it with
    | none => some []
    | some (key, it) => (drain next fuel it).map (key :: ·)

/-! ## The tree -/

structure RankTree (K : Type) where
  root : Node K

inductive Bound (K : Type)
  | unbounded
  | included (key : K)
  | excluded (key : K)

namespace RankTree

def new : RankTree K := ⟨Node.leaf⟩

def len (t : RankTree K) : Nat := t.root.total

def select (t : RankTree K) (rank : Nat) : Option (Option K) :=
  if rank ≥ t.root.total then some none
  else do
    let (_, node, idx) ← descendToRank t.root.levels t.root rank
    let key ← node.keys[idx]?
    some (some key)

def iterFrom (t : RankTree K) (rank : Nat) : Option (List K) := do
  let it ← Iter.newFrom t.root rank
  drain Iter.next (it.remaining + 1) it

def iterRevFrom (t : RankTree K) (rank : Nat) : Option (List K) := do
  let it ← Iter.newThrough t.root rank
  drain Iter.nextRev (it.remaining + 1) it

variable [LinearOrder K]

def insert (t : RankTree K) (key : K) : Option (RankTree K × Bool) := do
  let (root, inserted, split) ← insertRec t.root.levels t.root key
  match split with
  | none => some (⟨root⟩, inserted)
  | some (median, right) => some (⟨Node.recount ⟨[median], [root, right], 0⟩⟩, inserted)

def remove (t : RankTree K) (key : K) : Option (RankTree K × Bool) := do
  let (root, removed) ← removeRec t.root.levels t.root key
  if root.keys.isEmpty && !root.isLeaf then do
    let child ← root.children.getLast?
    some (⟨child⟩, removed)
  else some (⟨root⟩, removed)

def rankOf (t : RankTree K) (key : K) : Option (Option Nat) := rankLoop t.root.levels t.root 0 key

def partitionPoint (t : RankTree K) (pred : K → Bool) : Option Nat := partitionLoop t.root.levels t.root 0 pred

/-- `bound_ranks`: the first rank inside, the first rank past. -/
def boundRanks (t : RankTree K) (start stop : Bound K) : Option (Nat × Nat) := do
  let lo ← match start with
    | .unbounded => some 0
    | .included k => t.partitionPoint fun x => x < k
    | .excluded k => t.partitionPoint fun x => x ≤ k
  let hi ← match stop with
    | .unbounded => some t.len
    | .included k => t.partitionPoint fun x => x ≤ k
    | .excluded k => t.partitionPoint fun x => x < k
  some (lo, hi)

def countIn (t : RankTree K) (start stop : Bound K) : Option Nat :=
  (t.boundRanks start stop).map fun (lo, hi) => hi - lo

def range (t : RankTree K) (start stop : Bound K) : Option (List K) := do
  let (lo, hi) ← t.boundRanks start stop
  let it ← Iter.newFrom t.root lo
  let it := it.capped (hi - lo)
  drain Iter.next (it.remaining + 1) it

end RankTree

end Kevy.Rank
