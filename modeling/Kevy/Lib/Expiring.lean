import Mathlib.Logic.Function.Basic

/-!
# Maps whose entries expire

A map from keys to values that may carry a deadline. Who looks at a key sees its entry until the clock reaches the
deadline. `edit` is one operation on one key: look at it, and put what comes out. Two maps *show the same* at a
time when every key looks the same in both; that lasts as the clock goes on.
-/

namespace Kevy.Lib

structure Entry (V : Type) where
  value : V
  expireAt : Option Nat
  deriving DecidableEq, Repr

def Entry.expired {V : Type} (e : Entry V) (now : Nat) : Bool := e.expireAt.any fun d => decide (d ≤ now)

def alive {V : Type} (now : Nat) (x : Option (Entry V)) : Option (Entry V) := x.filter fun e => !e.expired now

abbrev Expiring (K V : Type) := K → Option (Entry V)

def Expiring.live {K V : Type} (s : Expiring K V) (now : Nat) (k : K) : Option (Entry V) := alive now (s k)

def Expiring.edit {K V : Type} [DecidableEq K] (s : Expiring K V) (now : Nat) (k : K)
    (f : Option (Entry V) → Option (Entry V)) : Expiring K V :=
  Function.update s k (f (s.live now k))

/-! ## Looking -/

section

variable {V : Type} {e : Entry V} {x : Option (Entry V)} {now later d : Nat} {v : V}

theorem expired_iff : e.expired now ↔ ∃ d, e.expireAt = some d ∧ d ≤ now := by
  unfold Entry.expired
  cases e.expireAt <;> simp

@[simp] theorem alive_none : alive now (none : Option (Entry V)) = none := rfl

@[simp] theorem alive_forever : alive now (some ⟨v, none⟩) = some ⟨v, none⟩ := rfl

theorem alive_of_lt (h : now < d) : alive now (some (⟨v, some d⟩ : Entry V)) = some ⟨v, some d⟩ := by
  have hd : ¬ d ≤ now := Nat.not_le.mpr h
  simp [alive, Entry.expired, hd]

theorem alive_of_le (h : d ≤ now) : alive now (some (⟨v, some d⟩ : Entry V)) = none := by
  simp [alive, Entry.expired, h]

theorem alive_alive (h : now ≤ later) (x : Option (Entry V)) : alive later (alive now x) = alive later x := by
  rcases x with _ | ⟨v, _ | d⟩
  · rfl
  · rfl
  · by_cases hd : d ≤ now
    · rw [alive_of_le hd, alive_of_le (Nat.le_trans hd h), alive_none]
    · rw [alive_of_lt (Nat.not_le.mp hd)]

theorem alive_eq_some (h : alive now x = some e) : x = some e ∧ ∀ d, e.expireAt = some d → now < d := by
  rcases x with _ | ⟨v, _ | d⟩
  · cases h
  · cases h
    exact ⟨rfl, fun _ hd => by cases hd⟩
  · by_cases hd : d ≤ now
    · rw [alive_of_le hd] at h
      cases h
    · rw [alive_of_lt (Nat.not_le.mp hd)] at h
      cases h
      exact ⟨rfl, fun _ hd' => by cases hd'; exact Nat.not_le.mp hd⟩

end

/-! ## Two maps -/

section

variable {K V : Type} {a b : Expiring K V} {now later t : Nat} {k : K}

def ShowSame (now : Nat) (a b : Expiring K V) : Prop := ∀ k, a.live now k = b.live now k

theorem ShowSame.mono (h : ShowSame now a b) (hle : now ≤ later) : ShowSame later a b := by
  intro k
  have hk : alive now (a k) = alive now (b k) := h k
  show alive later (a k) = alive later (b k)
  rw [← alive_alive hle (a k), ← alive_alive hle (b k), hk]

def Quiet (a : Expiring K V) (t now : Nat) (k : K) : Prop :=
  ∀ e d, a k = some e → e.expireAt = some d → t < d → now < d

theorem Quiet.mono (h : Quiet a t later k) (hle : now ≤ later) : Quiet a t now k :=
  fun e d he hd ht => Nat.lt_of_le_of_lt hle (h e d he hd ht)

theorem Quiet.live_eq (h : Quiet a t now k) (hle : t ≤ now) : a.live now k = a.live t k := by
  show alive now (a k) = alive t (a k)
  rcases hx : a k with _ | ⟨v, _ | d⟩
  · rfl
  · rfl
  · by_cases hd : d ≤ t
    · rw [alive_of_le hd, alive_of_le (Nat.le_trans hd hle)]
    · have hlt := Nat.not_le.mp hd
      rw [alive_of_lt hlt, alive_of_lt (h _ d hx rfl hlt)]

variable [DecidableEq K]

theorem edit_self (f : Option (Entry V) → Option (Entry V)) : a.edit now k f k = f (a.live now k) :=
  Function.update_self k _ a

theorem edit_other {j : K} (h : j ≠ k) (f : Option (Entry V) → Option (Entry V)) : a.edit now k f j = a j :=
  Function.update_of_ne h _ a

theorem ShowSame.edit (h : ShowSame now a b) {f g : Option (Entry V) → Option (Entry V)}
    (hk : alive now (f (a.live t k)) = alive now (g (b.live now k))) :
    ShowSame now (a.edit t k f) (b.edit now k g) := by
  intro j
  by_cases hj : j = k
  · subst hj
    show alive now (a.edit t j f j) = alive now (b.edit now j g j)
    rw [edit_self, edit_self, hk]
  · show alive now (a.edit t k f j) = alive now (b.edit now k g j)
    rw [edit_other hj, edit_other hj]
    exact h j

end

end Kevy.Lib
