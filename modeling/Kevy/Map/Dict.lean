import Kevy.Map.Find

/-!
# The finite map

What the table is for: a list of entries, each a key with its value and its auxiliary word, no two with equal keys.
Inserting under a key that is there keeps the key and the word. A new entry has the word zero.
-/

namespace Kevy.Map

open Kevy.Lib Function

variable {K V : Type} {ops : KeyOps K} {t : Table K V}

/-- The entries, and whether they have auxiliary words. -/
structure Dict (K V : Type) where
  entries : List (K × V × UInt64)
  hasAux : Bool

variable {m : Dict K V}

namespace Dict

def find (ops : KeyOps K) (m : Dict K V) (key : K) : Option (K × V × UInt64) :=
  m.entries.find? fun e => ops.eq e.1 key

def get (ops : KeyOps K) (m : Dict K V) (key : K) : Option V := (m.find ops key).map fun e => e.2.1

def insert (ops : KeyOps K) (m : Dict K V) (key : K) (value : V) : Dict K V × Option V :=
  if (m.find ops key).isSome then
    ({ m with entries := m.entries.map fun e => if ops.eq e.1 key then (e.1, value, e.2.2) else e }, m.get ops key)
  else ({ m with entries := (key, value, 0) :: m.entries }, none)

def insertNew (ops : KeyOps K) (m : Dict K V) (key : K) (value : V) : Dict K V × Bool :=
  if (m.find ops key).isSome then (m, false) else ((m.insert ops key value).1, true)

/-- The map without the key, and the value that was there. -/
def remove (ops : KeyOps K) (m : Dict K V) (key : K) : Dict K V × Option V :=
  ({ m with entries := m.entries.filter fun e => !ops.eq e.1 key }, m.get ops key)

def clear (m : Dict K V) : Dict K V := { m with entries := [] }

def enableAux (m : Dict K V) : Dict K V := { m with hasAux := true }

def setAux (ops : KeyOps K) (m : Dict K V) (key : K) (word : UInt64) : Dict K V :=
  if m.hasAux then
    { m with entries := m.entries.map fun e => if ops.eq e.1 key then (e.1, e.2.1, word) else e }
  else m

def auxOf (ops : KeyOps K) (m : Dict K V) (key : K) : Option UInt64 :=
  if m.hasAux then (m.find ops key).map fun e => e.2.2 else none

end Dict

namespace Table

/-! ## The entries of a table -/

/-- The auxiliary word of a slot, zero without a lane. -/
def word (t : Table K V) (i : Nat) : UInt64 := t.aux.elim 0 fun lane => lane i

def entryRow (t : Table K V) (i : Nat) : Option (K × V × UInt64) := (t.slots i).map fun kv => (kv.1, kv.2, t.word i)

def entries (t : Table K V) : List (K × V × UInt64) := items t.entryRow t.cap

theorem length_entries (t : Table K V) : t.entries.length = (items t.slots t.cap).length :=
  items_map t.slots (fun i kv => (kv.1, kv.2, t.word i)) t.cap

theorem entryRow_update (t t' : Table K V) {p : Nat} {o : Option (K × V)} (hslots : t'.slots = Function.update t.slots p o)
    (hword : ∀ i, i ≠ p → t'.word i = t.word i) :
    t'.entryRow = Function.update t.entryRow p (o.map fun kv => (kv.1, kv.2, t'.word p)) := by
  funext i
  unfold entryRow
  rw [hslots]
  by_cases hi : i = p
  · subst hi
    rw [update_self, update_self]
  · rw [update_of_ne hi, update_of_ne hi, hword i hi]

structure Refines (ops : KeyOps K) (t : Table K V) (m : Dict K V) : Prop where
  wf : t.WF ops
  perm : t.entries.Perm m.entries
  aux : t.aux.isSome = m.hasAux

namespace Refines

variable (h : t.Refines ops m)
include h

variable {key : K} {kv : K × V}

theorem split {p : Nat} (hh : t.Holds ops key p kv) :
    m.entries.Perm ((kv.1, kv.2, t.word p) :: items (Function.update t.entryRow p none) t.cap) ∧
      ∀ x ∈ items (Function.update t.entryRow p none) t.cap, ops.eq x.1 key = false := by
  have hrow : t.entryRow p = some (kv.1, kv.2, t.word p) := by
    unfold entryRow
    rw [hh.slot, Option.map_some]
  refine ⟨h.perm.symm.trans (items_update_none hh.inside hrow), fun x hx => ?_⟩
  obtain ⟨q, hq, hxq⟩ := mem_items.mp hx
  have hne : q ≠ p := by
    rintro rfl
    rw [update_self] at hxq
    cases hxq
  rw [update_of_ne hne] at hxq
  obtain ⟨kv', hslot, rfl⟩ := Option.map_eq_some_iff.mp hxq
  rw [Bool.eq_false_iff]
  intro heq
  exact hne (h.wf.distinct q p kv' kv hq hh.inside hslot hh.slot (ops.trans heq (ops.symm hh.key_eq)))

theorem find_of_holds {p : Nat} (hh : t.Holds ops key p kv) : m.find ops key = some (kv.1, kv.2, t.word p) := by
  obtain ⟨hperm, hrest⟩ := h.split hh
  exact find?_of_perm_cons (q := fun e => ops.eq e.1 key) hperm hh.key_eq hrest

theorem lacks (hl : t.Lacks ops key) : ∀ x ∈ m.entries, ops.eq x.1 key = false := by
  intro x hx
  obtain ⟨p, hp, hxp⟩ := mem_items.mp (h.perm.mem_iff.mpr hx)
  obtain ⟨kv, hslot, rfl⟩ := Option.map_eq_some_iff.mp hxp
  exact hl p kv hp hslot

theorem find_of_lacks (hl : t.Lacks ops key) : m.find ops key = none :=
  List.find?_eq_none.mpr fun x hx heq => by
    have hfalse := h.lacks hl x hx
    rw [heq] at hfalse
    cases hfalse

theorem length_eq : t.occupied = m.entries.length := by
  rw [h.wf.occupied_eq, ← length_entries, h.perm.length_eq]

/-! ## Lookups -/

theorem get_eq (key : K) : t.get ops key = some (m.get ops key) := by
  unfold Table.get Dict.get
  rcases findByBorrow_spec h.wf key with ⟨p, kv, hfind, hh⟩ | ⟨hfind, hl⟩
  · rw [hfind, h.find_of_holds hh]
    show some ((t.slots p).map Prod.snd) = _
    rw [hh.slot]
    rfl
  · rw [hfind, h.find_of_lacks hl]
    rfl

theorem slotIsFull_of_holds {p : Nat} (hh : t.Holds ops key p kv) : t.slotIsFull p = true := by
  unfold slotIsFull
  rw [(h.wf.isFull_iff hh.inside).mpr (by rw [hh.slot]; rfl)]
  simp [hh.inside]

theorem auxOf_eq (key : K) : t.auxOf ops key = some (m.auxOf ops key) := by
  unfold Table.auxOf Dict.auxOf
  rw [← h.aux]
  rcases findByBorrow_spec h.wf key with ⟨p, kv, hfind, hh⟩ | ⟨hfind, hl⟩
  · rw [hfind, h.find_of_holds hh]
    cases haux : t.aux with
    | none => simp
    | some lane => simp [h.slotIsFull_of_holds hh, word, haux]
  · rw [hfind, h.find_of_lacks hl]
    simp

theorem iter_perm : t.iter.Perm (m.entries.map fun e => (e.1, e.2.1)) := by
  have hiter : t.iter = t.entries.map fun e => (e.1, e.2.1) := by
    show (List.range t.cap).filterMap _ = ((List.range t.cap).filterMap _).map _
    rw [List.map_filterMap]
    refine List.filterMap_congr fun i hi => ?_
    have hfull := h.wf.isFull_iff (List.mem_range.mp hi)
    unfold entryRow
    cases hslot : t.slots i with
    | none => simp
    | some kv => simp [hfull, hslot]
  rw [hiter]
  exact h.perm.map _

end Refines

end Table

end Kevy.Map
