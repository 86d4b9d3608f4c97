import Kevy.Map.Growth

/-!
# The table refines the finite map

Any history of operations on a new table, for any hash and key equality: every reply is the reply of the plain finite
map, iteration up to order.
-/

namespace Kevy.Map

open Kevy.Lib Option

variable {K V : Type} {ops : KeyOps K} {t : Table K V} {m : Dict K V}

/-- The operations of a table. `rawRemove` and `rawInsert` go through a raw entry. -/
inductive Op (K V : Type)
  | insert (key : K) (value : V)
  | remove (key : K)
  | rawRemove (key : K)
  | rawInsert (key : K) (value : V)
  | clear
  | grow
  | enableAux
  | setAux (key : K) (word : UInt64)
  | get (key : K)
  | auxOf (key : K)
  | len
  | iter

inductive Reply (K V : Type)
  | done
  | value (v : Option V)
  | inserted (b : Bool)
  | word (w : Option UInt64)
  | size (n : Nat)
  | entries (l : List (K × V))

/-- The order of an iteration is nobody's business. -/
inductive Reply.Agrees : Reply K V → Reply K V → Prop
  | same (r : Reply K V) : Agrees r r
  | order {l l' : List (K × V)} (h : l.Perm l') : Agrees (.entries l) (.entries l')

def Table.apply (ops : KeyOps K) (t : Table K V) : Op K V → Option (Table K V × Reply K V)
  | .insert key value => (t.insertSlot ops key value).map fun (t, _, old) => (t, .value old)
  | .remove key => (t.remove ops key).map fun (t, old) => (t, .value old)
  | .rawRemove key => (t.rawRemove ops key).map fun (t, old) => (t, .value old)
  | .rawInsert key value => (t.rawInsert ops key value).map fun (t, b) => (t, .inserted b)
  | .clear => some (t.clear, .done)
  | .grow => (t.grow ops).map fun t => (t, .done)
  | .enableAux => some (t.enableAux, .done)
  | .setAux key word => (t.setAux ops key word).map fun t => (t, .done)
  | .get key => (t.get ops key).map fun v => (t, .value v)
  | .auxOf key => (t.auxOf ops key).map fun w => (t, .word w)
  | .len => some (t, .size t.occupied)
  | .iter => some (t, .entries t.iter)

def Dict.apply (ops : KeyOps K) (m : Dict K V) : Op K V → Dict K V × Reply K V
  | .insert key value => ((m.insert ops key value).1, .value (m.insert ops key value).2)
  | .remove key => ((m.remove ops key).1, .value (m.remove ops key).2)
  | .rawRemove key => ((m.remove ops key).1, .value (m.remove ops key).2)
  | .rawInsert key value => ((m.insertNew ops key value).1, .inserted (m.insertNew ops key value).2)
  | .clear => (m.clear, .done)
  | .grow => (m, .done)
  | .enableAux => (m.enableAux, .done)
  | .setAux key word => (m.setAux ops key word, .done)
  | .get key => (m, .value (m.get ops key))
  | .auxOf key => (m, .word (m.auxOf ops key))
  | .len => (m, .size m.entries.length)
  | .iter => (m, .entries (m.entries.map fun e => (e.1, e.2.1)))

def Table.run (ops : KeyOps K) : Table K V → List (Op K V) → Option (Table K V × List (Reply K V))
  | t, [] => some (t, [])
  | t, op :: rest => (t.apply ops op).bind fun (t, r) => (t.run ops rest).map fun (t, rs) => (t, r :: rs)

def Dict.run (ops : KeyOps K) : Dict K V → List (Op K V) → Dict K V × List (Reply K V)
  | m, [] => (m, [])
  | m, op :: rest =>
    let (m, r) := m.apply ops op
    let (m, rs) := m.run ops rest
    (m, r :: rs)

namespace Table

namespace Refines

variable (h : t.Refines ops m)
include h

/-! ## The operations -/

variable {key : K}

theorem get_of_holds {p : Nat} {kv : K × V} (hh : t.Holds ops key p kv) : m.get ops key = some kv.2 := by
  unfold Dict.get
  rw [h.find_of_holds hh, map_some]

theorem get_of_lacks (hl : t.Lacks ops key) : m.get ops key = none := by
  unfold Dict.get
  rw [h.find_of_lacks hl, map_none]

theorem insert_of_holds {p : Nat} {kv : K × V} (hh : t.Holds ops key p kv) (value : V) : m.insert ops key value =
      ({ m with entries := m.entries.map fun e => if ops.eq e.1 key then (e.1, value, e.2.2) else e }, some kv.2) := by
  unfold Dict.insert
  rw [h.get_of_holds hh, h.find_of_holds hh, isSome_some, if_pos rfl]

theorem insert_of_lacks (hl : t.Lacks ops key) (value : V) :
    m.insert ops key value = ({ m with entries := (key, value, 0) :: m.entries }, none) := by
  unfold Dict.insert
  rw [h.find_of_lacks hl, isSome_none, if_neg (by decide)]

theorem insertSlot (key : K) (value : V) :
    ∃ t' slot, t.insertSlot ops key value = some (t', slot, (m.insert ops key value).2) ∧
      t'.Refines ops (m.insert ops key value).1 := by
  obtain ⟨n, hn, hrefines, hpos, hroom⟩ := h.maybeGrow
  unfold Table.insertSlot insertWithRoom
  rw [hn]
  dsimp only [bind_some]
  rcases probe_spec hrefines.wf hpos key with ⟨p, kv, hprobe, hh⟩ | ⟨p, via, hprobe, hl, hplace⟩
  · rw [hprobe, hrefines.insert_of_holds hh value]
    refine ⟨_, p, ?_, hrefines.setValue hh value⟩
    simp [hh.slot]
  · rw [hprobe, hrefines.insert_of_lacks hl value]
    exact ⟨_, p, rfl, hrefines.fill hplace hl value hroom⟩

theorem remove_of_lacks (hl : t.Lacks ops key) : m.remove ops key = (m, none) := by
  have hsame : (m.entries.filter fun e => !ops.eq e.1 key) = m.entries :=
    List.filter_eq_self.mpr fun e he => by simp [h.lacks hl e he]
  unfold Dict.remove
  rw [hsame, h.get_of_lacks hl]

theorem remove (key : K) :
    ∃ t', t.remove ops key = some (t', (m.remove ops key).2) ∧ t'.Refines ops (m.remove ops key).1 := by
  unfold Table.remove
  rcases findByBorrow_spec h.wf key with ⟨p, kv, hfind, hh⟩ | ⟨hfind, hl⟩
  · rw [hfind]
    refine ⟨t.eraseSlot p (t.eraseMark p), ?_, h.eraseSlot hh (.inr rfl)⟩
    simp [Dict.remove, h.get_of_holds hh, hh.slot]
  · rw [hfind, h.remove_of_lacks hl]
    exact ⟨t, rfl, h⟩

theorem rawRemove (key : K) :
    ∃ t', t.rawRemove ops key = some (t', (m.remove ops key).2) ∧ t'.Refines ops (m.remove ops key).1 := by
  unfold Table.rawRemove
  rcases Nat.eq_zero_or_pos t.cap with hzero | hpos
  · have hl : t.Lacks ops key := fun p kv hp => by omega
    rw [h.remove_of_lacks hl]
    exact ⟨t, by simp [probe, hzero], h⟩
  · rcases probe_spec h.wf hpos key with ⟨p, kv, hprobe, hh⟩ | ⟨p, via, hprobe, hl, -⟩
    · rw [hprobe]
      refine ⟨t.eraseSlot p deletedByte, ?_, h.eraseSlot hh (.inl rfl)⟩
      simp [Dict.remove, h.get_of_holds hh, hh.slot]
    · rw [hprobe, h.remove_of_lacks hl]
      exact ⟨t, rfl, h⟩

theorem vacantInsert (hl : t.Lacks ops key) (value : V) :
    ∃ t', t.vacantInsert ops key value = some t' ∧ t'.Refines ops (m.insert ops key value).1 := by
  obtain ⟨n, hn, hrefines, hpos, hroom⟩ := h.maybeGrow
  have hl' : n.Lacks ops key := lacks_of_refines hrefines (h.lacks hl)
  unfold Table.vacantInsert
  rw [hn, h.insert_of_lacks hl value]
  rcases probe_spec hrefines.wf hpos key with ⟨p, kv, -, hh⟩ | ⟨p, via, hprobe, -, hplace⟩
  · exact absurd hh hl'.not_holds
  · refine ⟨n.fill ops p via key value, ?_, hrefines.fill hplace hl' value hroom⟩
    simp [hprobe]

theorem rawInsert (key : K) (value : V) :
    ∃ t', t.rawInsert ops key value = some (t', (m.insertNew ops key value).2) ∧
      t'.Refines ops (m.insertNew ops key value).1 := by
  have hvacant : ∀ p via, t.Lacks ops key → t.probe ops key = some (.notFound p via) →
      ∃ t', t.rawInsert ops key value = some (t', (m.insertNew ops key value).2) ∧
        t'.Refines ops (m.insertNew ops key value).1 := by
    intro p via hl hprobe
    obtain ⟨t', ht', hrefines⟩ := h.vacantInsert hl value
    unfold Table.rawInsert Dict.insertNew
    rw [hprobe, h.find_of_lacks hl, isSome_none, if_neg (by decide)]
    exact ⟨t', by simp [ht'], hrefines⟩
  rcases Nat.eq_zero_or_pos t.cap with hzero | hpos
  · exact hvacant 0 false (fun p kv hp => by omega) (if_pos hzero)
  · rcases probe_spec h.wf hpos key with ⟨p, kv, hprobe, hh⟩ | ⟨p, via, hprobe, hl, -⟩
    · unfold Table.rawInsert Dict.insertNew
      rw [hprobe, h.find_of_holds hh, isSome_some, if_pos rfl]
      exact ⟨t, rfl, h⟩
    · exact hvacant p via hl hprobe

theorem enableAux : t.enableAux.Refines ops m.enableAux := by
  unfold Table.enableAux Dict.enableAux
  cases haux : t.aux with
  | some lane => exact ⟨h.wf, h.perm, by rw [haux]; rfl⟩
  | none =>
    refine ⟨⟨h.wf.shaped, h.wf.mirrored, h.wf.tagged, h.wf.vacant, h.wf.distinct, h.wf.reach, h.wf.occupied_eq,
      h.wf.deleted_eq, h.wf.room⟩, ?_, rfl⟩
    have hrow : entryRow { t with aux := some fun _ => 0 } = t.entryRow := by
      funext i
      unfold entryRow word
      rw [haux]
      rfl
    unfold entries
    rw [hrow]
    exact h.perm

theorem setAux (key : K) (word : UInt64) :
    ∃ t', t.setAux ops key word = some t' ∧ t'.Refines ops (m.setAux ops key word) := by
  unfold Table.setAux Dict.setAux
  rcases findByBorrow_spec h.wf key with ⟨p, kv, hfind, hh⟩ | ⟨hfind, hl⟩
  · rw [hfind]
    refine ⟨_, rfl, ?_⟩
    dsimp only
    rw [if_pos (h.slotIsFull_of_holds hh)]
    split_ifs with haux
    · exact h.setWord hh word (h.aux.trans haux)
    · have hnone : t.aux = none := by
        rw [← isNone_iff_eq_none, ← isSome_eq_false_iff, h.aux]
        exact Bool.eq_false_iff.mpr haux
      rw [hnone, map_none, ← hnone]
      exact h
  · rw [hfind]
    refine ⟨t, rfl, ?_⟩
    have hsame : (m.entries.map fun e => if ops.eq e.1 key then (e.1, e.2.1, word) else e) = m.entries := by
      rw [List.map_congr_left (g := id) fun e he => by simp [h.lacks hl e he], List.map_id]
    rw [hsame]
    split_ifs <;> exact h

theorem apply (op : Op K V) :
    ∃ t' r, t.apply ops op = some (t', r) ∧ t'.Refines ops (m.apply ops op).1 ∧ r.Agrees (m.apply ops op).2 := by
  cases op with
  | insert key value =>
    obtain ⟨t', slot, ht', hrefines⟩ := h.insertSlot key value
    exact ⟨t', _, congrArg (Option.map _) ht', hrefines, .same _⟩
  | remove key =>
    obtain ⟨t', ht', hrefines⟩ := h.remove key
    exact ⟨t', _, congrArg (Option.map _) ht', hrefines, .same _⟩
  | rawRemove key =>
    obtain ⟨t', ht', hrefines⟩ := h.rawRemove key
    exact ⟨t', _, congrArg (Option.map _) ht', hrefines, .same _⟩
  | rawInsert key value =>
    obtain ⟨t', ht', hrefines⟩ := h.rawInsert key value
    exact ⟨t', _, congrArg (Option.map _) ht', hrefines, .same _⟩
  | clear => exact ⟨_, _, rfl, h.clear, .same _⟩
  | grow =>
    obtain ⟨t', ht', hrefines, -⟩ := h.grow
    exact ⟨t', _, congrArg (Option.map _) ht', hrefines, .same _⟩
  | enableAux => exact ⟨_, _, rfl, h.enableAux, .same _⟩
  | setAux key word =>
    obtain ⟨t', ht', hrefines⟩ := h.setAux key word
    exact ⟨t', _, congrArg (Option.map _) ht', hrefines, .same _⟩
  | get key => exact ⟨t, _, congrArg (Option.map _) (h.get_eq key), h, .same _⟩
  | auxOf key => exact ⟨t, _, congrArg (Option.map _) (h.auxOf_eq key), h, .same _⟩
  | len => exact ⟨t, _, rfl, h, h.length_eq ▸ .same _⟩
  | iter => exact ⟨t, _, rfl, h, .order h.iter_perm⟩

theorem run (history : List (Op K V)) :
    ∃ t' rs, t.run ops history = some (t', rs) ∧ t'.Refines ops (m.run ops history).1 ∧
      List.Forall₂ Reply.Agrees rs (m.run ops history).2 := by
  induction history generalizing t m with
  | nil => exact ⟨t, [], rfl, h, .nil⟩
  | cons op rest ih =>
    obtain ⟨t1, r, ht1, h1, hr⟩ := h.apply op
    obtain ⟨t', rs, ht', h', hrs⟩ := ih h1
    refine ⟨t', r :: rs, ?_, h', .cons hr hrs⟩
    show (t.apply ops op).bind _ = _
    rw [ht1]
    show (t1.run ops rest).map _ = _
    rw [ht', map_some]

end Refines

theorem WF.iter_distinct (h : t.WF ops) : t.iter.Pairwise fun a b => ops.eq a.1 b.1 = false := by
  refine pairwise_items fun i j a b hij hj ha hb => ?_
  rw [ite_none_right_eq_some] at ha hb
  rw [Bool.eq_false_iff]
  intro heq
  have := h.distinct i j a b (by omega) hj ha.2 hb.2 heq
  omega

/-- **The hash table refines a finite map.** For every hash and key equality, every history of operations answers on a
new table, and as a plain finite map does. Wherever it leads, the repeated control bytes are those they repeat, some
slot is empty, every probe ends, every stored key is found in its slot, and an iteration has no key twice. -/
theorem history_refines_map (ops : KeyOps K) (capHint : Nat) (history : List (Op K V)) :
    ∃ t rs, (withCapacity capHint).run ops history = some (t, rs) ∧
      t.entries.Perm (Dict.run ops ⟨[], false⟩ history).1.entries ∧
      List.Forall₂ Reply.Agrees rs (Dict.run ops ⟨[], false⟩ history).2 ∧
      t.Mirrored ∧ (0 < t.cap → ∃ p, p < t.cap ∧ t.ctrl p = emptyByte) ∧
      (∀ key, (t.probe ops key).isSome ∧ (t.findByBorrow ops key).isSome) ∧
      (∀ p kv, p < t.cap → t.slots p = some kv → t.findByBorrow ops kv.1 = some (some p)) ∧
      t.iter.Pairwise fun a b => ops.eq a.1 b.1 = false := by
  obtain ⟨t, rs, hrun, h, hrs⟩ := (refines_withCapacity ops capHint).run history
  refine ⟨t, rs, hrun, h.perm, hrs, h.wf.mirrored, h.wf.exists_empty, fun key => ⟨?_, ?_⟩, ?_, h.wf.iter_distinct⟩
  · rcases Nat.eq_zero_or_pos t.cap with hzero | hpos
    · simp [probe, hzero]
    · rcases probe_spec h.wf hpos key with ⟨p, kv, hprobe, -⟩ | ⟨p, via, hprobe, -⟩ <;> rw [hprobe] <;> rfl
  · rcases findByBorrow_spec h.wf key with ⟨p, kv, hfind, -⟩ | ⟨hfind, -⟩ <;> rw [hfind] <;> rfl
  · exact fun p kv hp hslot => h.wf.findByBorrow_eq ⟨hp, hslot, ops.refl kv.1⟩

end Table

end Kevy.Map
