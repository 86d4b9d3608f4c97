import Mathlib.Data.Finset.Card

/-!
# Votes and majorities

Members vote in rounds, at most once in each: `votes n k` is the vote of `n` in round `k`. Whoever has the
votes of a majority of the members is elected in that round. Two majorities share a member, so a round
elects one member at most; and votes are only ever added, so an election stands.
-/

namespace Kevy.Lib

variable {ν : Type}

abbrev Votes (ν : Type) := ν → Nat → Option ν

namespace Votes

def Elected (votes : Votes ν) (members : Finset ν) (k : Nat) (n : ν) : Prop :=
  ∃ Q ⊆ members, members.card < 2 * Q.card ∧ ∀ m ∈ Q, votes m k = some n

variable {votes : Votes ν} {members : Finset ν} {k : Nat}

variable {n : ν}

theorem Elected.unique [DecidableEq ν] {m : ν}
    (hn : votes.Elected members k n) (hm : votes.Elected members k m) : n = m := by
  obtain ⟨Q, hQ, hcard, hvote⟩ := hn
  obtain ⟨R, hR, hcard', hvote'⟩ := hm
  obtain ⟨x, hx⟩ := Finset.inter_nonempty_of_card_lt_card_add_card hQ hR (by omega)
  obtain ⟨hxQ, hxR⟩ := Finset.mem_inter.mp hx
  have h := (hvote x hxQ).symm.trans (hvote' x hxR)
  exact Option.some.inj h

theorem Elected.exists_vote (h : votes.Elected members k n) : ∃ m ∈ members, votes m k = some n := by
  obtain ⟨Q, hQ, hcard, hvote⟩ := h
  obtain ⟨m, hm⟩ := Finset.card_pos.mp (show 0 < Q.card by omega)
  exact ⟨m, hQ hm, hvote m hm⟩

def Extends (votes votes' : Votes ν) : Prop := ∀ n k m, votes n k = some m → votes' n k = some m

theorem Extends.refl (votes : Votes ν) : Extends votes votes := fun _ _ _ h => h

theorem Elected.mono {votes votes' : Votes ν}
    (hext : Extends votes votes') (h : votes.Elected members k n) : votes'.Elected members k n := by
  obtain ⟨Q, hQ, hcard, hvote⟩ := h
  exact ⟨Q, hQ, hcard, fun m hm => hext m k n (hvote m hm)⟩

variable [DecidableEq ν]

def cast (votes : Votes ν) (n : ν) (k : Nat) (m : ν) : Votes ν :=
  fun n' k' => if n' = n ∧ k' = k then some m else votes n' k'

theorem cast_self (votes : Votes ν) (n : ν) (k : Nat) (m : ν) : votes.cast n k m n k = some m := by
  simp [cast]

theorem cast_other (votes : Votes ν) {n' : ν} (k : Nat) (m : ν) (h : n' ≠ n) (k' : Nat) :
    votes.cast n k m n' k' = votes n' k' := by
  simp [cast, h]

theorem cast_later (votes : Votes ν) (n n' : ν) {k k' : Nat} (m : ν) (h : k' ≠ k) :
    votes.cast n k m n' k' = votes n' k' := by
  simp [cast, h]

theorem extends_cast (m : ν) (h : votes n k = none) : Extends votes (votes.cast n k m) := by
  intro n' k' m' h'
  by_cases heq : n' = n ∧ k' = k
  · obtain ⟨rfl, rfl⟩ := heq
    rw [h] at h'
    cases h'
  · rw [cast, if_neg heq]
    exact h'

end Votes

end Kevy.Lib
