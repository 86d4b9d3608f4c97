import Mathlib.Data.List.Basic

/-!
# Messages under way

Numbered nodes that send each other messages. From one node to another they arrive in the order they were sent; nothing
is said about messages of different pairs.
-/

namespace Kevy.Lib

variable {α : Type}

/-- For every pair of nodes what is under way, the oldest first. -/
def Mesh (α : Type) : Type := Nat → Nat → List α

namespace Mesh

def empty : Mesh α := fun _ _ => []

def send (m : Mesh α) (src dst : Nat) (x : α) : Mesh α := fun i j => if i = src ∧ j = dst then m i j ++ [x] else m i j

def pop (m : Mesh α) (src dst : Nat) : Mesh α := fun i j => if i = src ∧ j = dst then (m i j).tail else m i j

def All (P : Nat → Nat → α → Prop) (m : Mesh α) : Prop := ∀ i j, ∀ x ∈ m i j, P i j x

variable {P Q : Nat → Nat → α → Prop} {m : Mesh α} {src dst : Nat} {x : α}

theorem all_empty : All P empty := fun _ _ _ hx => absurd hx List.not_mem_nil

theorem All.send (h : All P m) (hx : P src dst x) : All P (m.send src dst x) := by
  intro i j y hy
  rw [Mesh.send] at hy
  split at hy
  · rename_i hij
    rcases List.mem_append.mp hy with hy | hy
    · exact h i j y hy
    · rw [List.mem_singleton.mp hy, hij.1, hij.2]
      exact hx
  · exact h i j y hy

theorem All.pop (h : All P m) : All P (m.pop src dst) := by
  intro i j y hy
  rw [Mesh.pop] at hy
  split at hy
  · exact h i j y (List.mem_of_mem_tail hy)
  · exact h i j y hy

theorem All.imp (h : All P m) (himp : ∀ i j y, P i j y → Q i j y) : All Q m := fun i j y hy => himp i j y (h i j y hy)

theorem All.head (h : All P m) {rest : List α} (hm : m src dst = x :: rest) : P src dst x :=
  h src dst x (by rw [hm]; exact List.mem_cons_self)

end Mesh

end Kevy.Lib
