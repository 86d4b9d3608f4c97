import Kevy.Atomic.Context

/-!
# What is seen of a cell

A reader sees the value of a live key without the fields that are due, the whole milliseconds the key has left, and the
deadlines of the fields that are not due. A key with less than a millisecond left is not seen. Looking at a key does not
change what is seen of it.
-/

namespace Kevy.Atomic

open Kevy.Lib Kevy.Resp Kevy.Store Option List

def without (names : List Bytes) : Value → Option Value
  | .hash fields =>
    let left := fields.filter fun p => !names.contains p.1
    if left.isEmpty then none else some (.hash left)
  | v => some v

namespace Cell

variable (clock : Clock)

def due (c : Cell) : List (Bytes × Nat) := c.fields.filter fun p => decide (p.2 ≤ clock.unixMs)

def notDue (c : Cell) : List (Bytes × Nat) := c.fields.filter fun p => !decide (p.2 ≤ clock.unixMs)

def msLeft (deadline : Nat) : Nat := (deadline - clock.ns) / 1000000

def seen (c : Cell) : Option (Value × Option Nat × List (Bytes × Nat)) :=
  c.entry.bind fun e =>
    if e.expireAt.any fun d => msLeft clock d = 0 then none
    else (without ((c.due clock).map Prod.fst) e.value).map fun v => (v, e.expireAt.map (msLeft clock), c.notDue clock)

variable {clock}

variable {c : Cell}

theorem seen_of_entry_none (h : c.entry = none) : c.seen clock = none := by
  rw [seen, h, bind_none]

theorem seen_of_expired (h : c.entry.any (·.expired clock.ns)) : c.seen clock = none := by
  rcases c with ⟨_ | ⟨v, _ | d⟩, fields⟩
  · rfl
  · cases h
  · have hd : d ≤ clock.ns := by simpa [Entry.expired] using h
    have hms : msLeft clock d = 0 := by rw [msLeft, Nat.sub_eq_zero_of_le hd, Nat.zero_div]
    simp [seen, hms]

@[simp] theorem seen_reap (c : Cell) : (c.reap clock).seen clock = c.seen clock := by
  unfold reap
  split_ifs with h
  · rw [seen_of_expired h]
    rfl
  · rfl

theorem dropAll_items {α β : Type} [BEq α] (name : β → α) (names : List α) (items : List β) :
    (dropAll name names items).2 = items.filter fun i => !names.contains (name i) := by
  unfold dropAll
  generalize 0 = n
  induction names generalizing n items with
  | nil => simp
  | cons x names ih =>
    rw [List.foldl_cons, ih, List.filter_filter]
    congr 1
    funext i
    rw [contains_cons, Bool.not_or, Bool.and_comm]

theorem hdelValue_eq (names : List Bytes) (v : Value) :
    (∃ fields, v = .hash fields ∧ ∃ n, hdelValue names (some v) = .ok (n, without names v)) ∨
    ((∃ e, hdelValue names (some v) = .error e) ∧ without names v = some v) := by
  cases v with
  | hash fields =>
    refine .inl ⟨fields, rfl, (dropAll Prod.fst names fields).1, ?_⟩
    unfold hdelValue onItems without
    dsimp only [elim_some, Value.hashFields]
    rw [dropAll_items]
  | str | list | set | zset => exact .inr ⟨⟨_, rfl⟩, rfl⟩

theorem without_without {names : List Bytes} {v v' : Value} (h : without names v = some v') :
    without [] v' = some v' := by
  cases v with
  | hash fields =>
    unfold without at h
    dsimp only at h
    split_ifs at h with hleft
    cases h
    simp only [without, contains_nil, Bool.not_false, filter_true]
    rw [if_neg hleft]
  | str | list | set | zset => cases h; rfl

theorem seen_mk (e : Entry Value) (fields : List (Bytes × Nat)) :
    (⟨some e, fields⟩ : Cell).seen clock = if e.expireAt.any fun d => msLeft clock d = 0 then none
      else (without (((⟨some e, fields⟩ : Cell).due clock).map Prod.fst) e.value).map fun v =>
        (v, e.expireAt.map (msLeft clock), (⟨some e, fields⟩ : Cell).notDue clock) := rfl

theorem hdelValue_none (names : List Bytes) : ∃ n, hdelValue names none = .ok (n, none) := by
  refine ⟨(dropAll Prod.fst names ([] : List (Bytes × Bytes))).1, ?_⟩
  unfold hdelValue onItems
  dsimp only [elim_none]
  rw [dropAll_items]
  rfl

theorem update_hdelValue_of_none (h : (c.reap clock).entry = none) (names : List Bytes) :
    (c.update clock (hdelValue names)).2 = c.reap clock := by
  obtain ⟨n, hn⟩ := hdelValue_none names
  unfold update
  dsimp only
  rw [h, map_none, hn]

theorem update_hdelValue_of_some {e : Entry Value} (h : c.reap clock = ⟨some e, c.fields⟩)
    (names : List Bytes) : (c.update clock (hdelValue names)).2 =
      (without names e.value).elim removed fun v => ⟨some { e with value := v }, c.fields⟩ := by
  unfold update
  dsimp only
  rw [h]
  dsimp only [map_some]
  rcases hdelValue_eq names e.value with ⟨-, -, n, hdel⟩ | ⟨⟨err, hdel⟩, hsame⟩
  · rw [hdel]
    cases without names e.value <;> rfl
  · rw [hdel, hsame]
    rfl

@[simp] theorem seen_purge (c : Cell) : (c.purge clock).seen clock = c.seen clock := by
  unfold purge
  dsimp only
  split_ifs with hdue
  · rfl
  change ((⟨c.entry, c.notDue clock⟩ : Cell).update clock (hdelValue ((c.due clock).map Prod.fst))).2.seen clock = _
  by_cases hexp : c.entry.any (·.expired clock.ns)
  · have hreap : (⟨c.entry, c.notDue clock⟩ : Cell).reap clock = removed := if_pos hexp
    rw [update_hdelValue_of_none (by rw [hreap]; rfl), hreap, seen_of_expired hexp]
    rfl
  have hreap : (⟨c.entry, c.notDue clock⟩ : Cell).reap clock = ⟨c.entry, c.notDue clock⟩ := if_neg hexp
  rcases hc : c.entry with _ | e
  · rw [hc] at hreap
    rw [seen_of_entry_none hc, update_hdelValue_of_none (by rw [hreap]), hreap]
    rfl
  · rw [hc] at hreap
    have hseen : c.seen clock = (⟨some e, c.fields⟩ : Cell).seen clock := by rw [← hc]
    have hdue' : ∀ e', (⟨some e', c.notDue clock⟩ : Cell).due clock = [] := by simp [due, notDue, List.filter_filter]
    have hnot : ∀ e', (⟨some e', c.notDue clock⟩ : Cell).notDue clock = c.notDue clock := by
      simp [notDue, List.filter_filter]
    rw [update_hdelValue_of_some hreap, hseen, seen_mk]
    cases hleft : without ((c.due clock).map Prod.fst) e.value with
    | none =>
      rw [show (⟨some e, c.fields⟩ : Cell).due clock = c.due clock from rfl, hleft, map_none, ite_self]
      rfl
    | some v =>
      rw [show (⟨some e, c.fields⟩ : Cell).due clock = c.due clock from rfl, hleft, elim_some, seen_mk, hdue',
        hnot, map_nil, without_without hleft]
      rfl

theorem seen_del (c : Cell) : (c.del clock).2.seen clock = none := by
  unfold del
  dsimp only
  split_ifs with h
  · rfl
  · exact seen_of_entry_none (by simpa using h)

theorem msLeft_add (ms : Nat) : msLeft clock (clock.ns + ms * 1000000) = ms := by
  rw [msLeft, Nat.add_sub_cancel_left, Nat.mul_div_cancel _ (by decide)]

theorem seen_deadline (v : Value) (d : Nat) : (⟨some ⟨v, some d⟩, []⟩ : Cell).seen clock =
    if msLeft clock d = 0 then none
      else (without [] v).map fun v => (v, some (msLeft clock d), []) := by
  simp [seen, due, notDue]

theorem seen_restore (h : c.fields = []) (c' : Cell) :
    (restore clock (c.cloneWithTtl clock) c').seen clock = c.seen clock := by
  obtain ⟨entry, fields⟩ := c
  cases h
  unfold cloneWithTtl
  by_cases hexp : entry.any (·.expired clock.ns)
  · rw [reap, if_pos hexp, seen_of_expired (c := ⟨entry, []⟩) hexp]
    exact seen_del c'
  rw [reap, if_neg hexp]
  rcases entry with _ | ⟨v, _ | d⟩
  · exact seen_del c'
  · rfl
  · show (inserted v (some (clock.ns + msLeft clock d * 1000000))).seen clock = _
    rw [inserted, seen_deadline, seen_deadline, msLeft_add]

end Cell

end Kevy.Atomic
