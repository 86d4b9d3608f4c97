import Mathlib.Data.List.Nodup

/-!
# Finite maps as lists

A finite map is a list of pairs in which no key stands twice, in the order an iteration gives them. An insertion
replaces the value of a key in place or adds the pair at the end, so a map is what comes of inserting its own pairs
one by one. A change of the values that is undone key by key gives the map back (`restore`).
-/

namespace Kevy.Lib

open List Option

variable {α β γ : Type} [DecidableEq α]

/-- Set the value of a key: in place, or at the end. -/
def upsert (k : α) (v : β) : List (α × β) → List (α × β)
  | [] => [(k, v)]
  | p :: ps => if p.1 = k then (k, v) :: ps else p :: upsert k v ps

def adjust (k : α) (f : β → β) (ps : List (α × β)) : List (α × β) :=
  ps.map fun p => if p.1 = k then (p.1, f p.2) else p

theorem find?_of_nodup {f : γ → α} {l : List γ} (hnodup : (l.map f).Nodup) {x : γ} (hmem : x ∈ l) :
    (l.find? fun y => f y = f x) = some x := by
  induction l with
  | nil => cases hmem
  | cons y l ih =>
    rw [map_cons, nodup_cons] at hnodup
    rcases mem_cons.mp hmem with rfl | hmem
    · exact find?_cons_of_pos (by simp)
    · have hne : f y ≠ f x := fun heq => hnodup.1 (heq ▸ List.mem_map_of_mem hmem)
      rw [find?_cons_of_neg (by simpa using hne)]
      exact ih hnodup.2 hmem

theorem keys_adjust (k : α) (f : β → β) (ps : List (α × β)) : (adjust k f ps).map Prod.fst = ps.map Prod.fst := by
  rw [adjust, List.map_map]
  apply map_congr_left
  intro p _
  show (if p.1 = k then (p.1, f p.2) else p).1 = p.1
  split_ifs <;> rfl

variable {k : α} {ps : List (α × β)}

theorem upsert_of_notMem (h : k ∉ ps.map Prod.fst) (v : β) : upsert k v ps = ps ++ [(k, v)] := by
  induction ps with
  | nil => rfl
  | cons p ps ih =>
    rw [map_cons, mem_cons, not_or] at h
    rw [upsert, if_neg (Ne.symm h.1), ih h.2, cons_append]

theorem keys_upsert_of_mem (h : k ∈ ps.map Prod.fst) (v : β) : (upsert k v ps).map Prod.fst = ps.map Prod.fst := by
  induction ps with
  | nil => cases h
  | cons p ps ih =>
    by_cases hp : p.1 = k
    · rw [upsert, if_pos hp, map_cons, map_cons, hp]
    · have hk : k ∈ ps.map Prod.fst := by
        rcases mem_cons.mp h with heq | hk
        · exact absurd heq.symm hp
        · exact hk
      rw [upsert, if_neg hp, map_cons, map_cons, ih hk]

theorem nodup_upsert (h : (ps.map Prod.fst).Nodup) (k : α) (v : β) : ((upsert k v ps).map Prod.fst).Nodup := by
  by_cases hk : k ∈ ps.map Prod.fst
  · rwa [keys_upsert_of_mem hk]
  · rw [upsert_of_notMem hk, map_append]
    exact nodup_append.mpr ⟨h, nodup_singleton k, fun a ha b hb heq => by
      rw [heq, mem_singleton.mp hb] at ha
      exact hk ha⟩

theorem foldl_upsert (ps acc : List (α × β)) (h : ((acc ++ ps).map Prod.fst).Nodup) :
    ps.foldl (fun m p => upsert p.1 p.2 m) acc = acc ++ ps := by
  induction ps generalizing acc with
  | nil => exact (append_nil acc).symm
  | cons p ps ih =>
    have hp : p.1 ∉ acc.map Prod.fst := by
      rw [map_append, map_cons] at h
      exact fun hmem => (disjoint_of_nodup_append h) hmem mem_cons_self
    rw [foldl_cons, upsert_of_notMem hp, ih _ (by rwa [append_assoc]), append_assoc]
    rfl

/-! ## Maps -/

structure KeyedList (α β : Type) where
  items : List (α × β)
  nodup : (items.map Prod.fst).Nodup
  deriving DecidableEq, Repr

namespace KeyedList

omit [DecidableEq α] in
@[ext] theorem ext {m m' : KeyedList α β} (h : m.items = m'.items) : m = m' := by
  cases m
  cases m'
  cases h
  rfl

def empty : KeyedList α β := ⟨[], nodup_nil⟩

def keys (m : KeyedList α β) : List α := m.items.map Prod.fst

def insert (m : KeyedList α β) (k : α) (v : β) : KeyedList α β := ⟨upsert k v m.items, nodup_upsert m.nodup k v⟩

def modify (m : KeyedList α β) (k : α) (f : β → β) : KeyedList α β :=
  ⟨adjust k f m.items, by rw [keys_adjust]; exact m.nodup⟩

def filter (m : KeyedList α β) (p : α × β → Bool) : KeyedList α β :=
  ⟨m.items.filter p, m.nodup.sublist (filter_sublist.map Prod.fst)⟩

def ofList (ps : List (α × β)) : KeyedList α β := ps.foldl (fun m p => m.insert p.1 p.2) empty

def mapValues (m : KeyedList α β) (f : β → γ) : KeyedList α γ :=
  ⟨m.items.map fun p => (p.1, f p.2), by
    rw [List.map_map]
    exact m.nodup⟩

theorem items_foldl_insert (ps : List (α × β)) (m : KeyedList α β) :
    (ps.foldl (fun m p => m.insert p.1 p.2) m).items = ps.foldl (fun l p => upsert p.1 p.2 l) m.items := by
  induction ps generalizing m with
  | nil => rfl
  | cons p ps ih => exact ih (m.insert p.1 p.2)

theorem ofList_items (m : KeyedList α β) : ofList m.items = m := by
  apply ext
  rw [ofList, items_foldl_insert]
  exact foldl_upsert m.items [] m.nodup

theorem keys_modify (m : KeyedList α β) (k : α) (f : β → β) : (m.modify k f).keys = m.keys :=
  keys_adjust k f m.items

omit [DecidableEq α] in
theorem keys_mapValues (m : KeyedList α β) (f : β → γ) : (m.mapValues f).keys = m.keys := by
  unfold keys mapValues
  rw [List.map_map]
  rfl

/-! ## Lookups -/

def get (m : KeyedList α β) (k : α) : Option β := (m.items.find? fun p => p.1 = k).map Prod.snd

def erase (m : KeyedList α β) (k : α) : KeyedList α β := m.filter fun p => !decide (p.1 = k)

@[simp] theorem get_empty (k : α) : (empty : KeyedList α β).get k = none := rfl

theorem find_upsert (k k' : α) (v : β) (ps : List (α × β)) : ((upsert k v ps).find? fun p => p.1 = k').map Prod.snd =
      if k' = k then some v else (ps.find? fun p => p.1 = k').map Prod.snd := by
  induction ps with
  | nil =>
    by_cases h : k = k'
    · simp [upsert, h]
    · simp [upsert, h, Ne.symm h]
  | cons p ps ih =>
    unfold upsert
    split_ifs with hp hk hk
    · simp [hk]
    · have hne : p.1 ≠ k' := fun h => hk (h.symm.trans hp)
      rw [find?_cons_of_neg (by simpa using fun h => hk h.symm), find?_cons_of_neg (by simpa using hne)]
    · have hne : p.1 ≠ k' := fun h => hp (h.trans hk)
      rw [find?_cons_of_neg (by simpa using hne), ih, if_pos hk]
    · by_cases hp' : p.1 = k'
      · rw [find?_cons_of_pos (by simpa using hp'), find?_cons_of_pos (by simpa using hp')]
      · rw [find?_cons_of_neg (by simpa using hp'), find?_cons_of_neg (by simpa using hp'), ih, if_neg hk]

@[simp] theorem get_insert (m : KeyedList α β) (k k' : α) (v : β) :
    (m.insert k v).get k' = if k' = k then some v else m.get k' := find_upsert k k' v m.items

@[simp] theorem get_erase (m : KeyedList α β) (k k' : α) : (m.erase k).get k' = if k' = k then none else m.get k' := by
  unfold get erase filter
  dsimp only
  rw [find?_filter]
  split_ifs with h
  · rw [find?_eq_none.mpr (by simp [h]), map_none]
  · congr 2
    funext p
    by_cases hp : p.1 = k'
    · have hne : p.1 ≠ k := fun heq => h (hp.symm.trans heq)
      simp [hp, h]
    · simp [hp]

theorem get_modify (m : KeyedList α β) (k k' : α) (f : β → β) :
    (m.modify k f).get k' = if k' = k then (m.get k').map f else m.get k' := by
  change (((m.items.map _).find? _).map _) = _
  rw [find?_map, Option.map_map, get]
  have hkeys : (fun p : α × β => decide (p.1 = k')) ∘ (fun p => if p.1 = k then (p.1, f p.2) else p) =
      fun p => decide (p.1 = k') := by
    funext p
    dsimp only [Function.comp_apply]
    split <;> rfl
  rw [hkeys]
  cases hfind : m.items.find? fun p => decide (p.1 = k') with
  | none => split <;> rfl
  | some p =>
    have hp : p.1 = k' := by simpa using find?_some hfind
    subst hp
    by_cases hk : p.1 = k
    · simp [hk]
    · simp [hk]

theorem get_mapValues (m : KeyedList α β) (f : β → γ) (k : α) : (m.mapValues f).get k = (m.get k).map f := by
  change (((m.items.map _).find? _).map _) = _
  rw [find?_map, Option.map_map, get, Option.map_map]
  rfl

theorem mem_items_iff (m : KeyedList α β) (k : α) (v : β) : (k, v) ∈ m.items ↔ m.get k = some v := by
  unfold get
  constructor
  · intro hmem
    rw [find?_of_nodup m.nodup hmem, map_some]
  · intro hget
    obtain ⟨p, hfind, rfl⟩ := map_eq_some_iff.mp hget
    have hkey : p.1 = k := by simpa using find?_some hfind
    rw [← hkey]
    exact mem_of_find?_eq_some hfind

theorem find_of_perm {m : KeyedList α β} (h : ps.Perm m.items) (k : α) :
    (ps.find? fun p => p.1 = k).map Prod.snd = m.get k := by
  have hnodup : (ps.map Prod.fst).Nodup := (h.map Prod.fst).nodup_iff.mpr m.nodup
  cases hget : m.get k with
  | some v =>
    have hmem : (k, v) ∈ ps := h.mem_iff.mpr ((mem_items_iff m k v).mpr hget)
    rw [find?_of_nodup hnodup hmem, map_some]
  | none =>
    rw [map_eq_none_iff, find?_eq_none]
    rintro ⟨k', v⟩ hmem heq
    cases of_decide_eq_true heq
    rw [(mem_items_iff m k' v).mp (h.mem_iff.mp hmem)] at hget
    cases hget

end KeyedList

/-! ## Undoing a change key by key -/

section Restore

variable {lose : β → β} {pick : α × β → Option (α × γ)} {set : γ → β → β}

theorem adjust_cons_other {p : α × β} (h : p.1 ≠ k) (f : β → β) (ps : List (α × β)) :
    adjust k f (p :: ps) = p :: adjust k f ps := by
  rw [adjust, map_cons, if_neg h]
  rfl

theorem adjust_of_notMem (h : k ∉ ps.map Prod.fst) (f : β → β) : adjust k f ps = ps := by
  have hsame : ∀ p ∈ ps, (if p.1 = k then (p.1, f p.2) else p) = id p := by
    intro p hp
    apply if_neg
    rintro rfl
    exact h (List.mem_map_of_mem hp)
  rw [adjust, map_congr_left hsame, List.map_id]

theorem foldl_adjust_cons {q : α × β} (cs : List (α × γ)) (ps : List (α × β)) (h : ∀ c ∈ cs, q.1 ≠ c.1) :
    cs.foldl (fun l c => adjust c.1 (set c.2) l) (q :: ps) = q :: cs.foldl (fun l c => adjust c.1 (set c.2) l) ps := by
  induction cs generalizing ps with
  | nil => rfl
  | cons c cs ih =>
    rw [foldl_cons, foldl_cons, adjust_cons_other (h c mem_cons_self)]
    exact ih _ (forall_mem_cons.mp h).2

/-- **What was lost of the values comes back.** `pick` keeps, under its key, what `set` needs to undo `lose`, and
leaves out only what loses nothing. -/
theorem restore (hnodup : (ps.map Prod.fst).Nodup)
    (hpick : ∀ p ∈ ps, ∀ c, pick p = some c → c.1 = p.1 ∧ set c.2 (lose p.2) = p.2)
    (hnone : ∀ p ∈ ps, pick p = none → lose p.2 = p.2) :
    (ps.filterMap pick).foldl (fun l c => adjust c.1 (set c.2) l) (ps.map fun p => (p.1, lose p.2)) = ps := by
  induction ps with
  | nil => rfl
  | cons p ps ih =>
    rw [map_cons] at hnodup
    obtain ⟨hp, hps⟩ := nodup_cons.mp hnodup
    have hrest := ih hps (forall_mem_cons.mp hpick).2 (forall_mem_cons.mp hnone).2
    have hothers : ∀ c ∈ ps.filterMap pick, p.1 ≠ c.1 := by
      intro c hc heq
      obtain ⟨q, hq, hqc⟩ := mem_filterMap.mp hc
      have hkey := (hpick q (mem_cons_of_mem p hq) c hqc).1
      rw [heq, hkey] at hp
      exact hp (List.mem_map_of_mem hq)
    rw [map_cons]
    cases hc : pick p with
    | none =>
      rw [filterMap_cons_none hc, hnone p mem_cons_self hc, foldl_adjust_cons _ _ hothers, hrest]
    | some c =>
      obtain ⟨hkey, hset⟩ := hpick p mem_cons_self c hc
      have hhead : adjust c.1 (set c.2) ((p.1, lose p.2) :: ps.map fun q => (q.1, lose q.2)) =
          p :: ps.map fun q => (q.1, lose q.2) := by
        rw [adjust, map_cons, if_pos hkey.symm, hset]
        congr 1
        apply adjust_of_notMem
        rw [List.map_map, hkey]
        exact hp
      rw [filterMap_cons_some hc, foldl_cons, hhead, foldl_adjust_cons _ _ hothers, hrest]

theorem items_foldl_modify (cs : List (α × γ)) (m : KeyedList α β) :
    (cs.foldl (fun m c => m.modify c.1 (set c.2)) m).items = cs.foldl (fun l c => adjust c.1 (set c.2) l) m.items := by
  induction cs generalizing m with
  | nil => rfl
  | cons c cs ih => exact ih (m.modify c.1 (set c.2))

theorem KeyedList.restore (m : KeyedList α β) (lose : β → β) (pick : α × β → Option (α × γ)) (set : γ → β → β)
    (hpick : ∀ p ∈ m.items, ∀ c, pick p = some c → c.1 = p.1 ∧ set c.2 (lose p.2) = p.2)
    (hnone : ∀ p ∈ m.items, pick p = none → lose p.2 = p.2) :
    (m.items.filterMap pick).foldl (fun l c => l.modify c.1 (set c.2)) (m.mapValues lose) = m := by
  apply KeyedList.ext
  rw [items_foldl_modify]
  exact Lib.restore m.nodup hpick hnone

theorem KeyedList.modify_modify (m : KeyedList α β) (k : α) (f g : β → β) :
    (m.modify k f).modify k g = m.modify k fun v => g (f v) := by
  apply KeyedList.ext
  show adjust k g (adjust k f m.items) = adjust k (fun v => g (f v)) m.items
  unfold adjust
  rw [List.map_map]
  apply map_congr_left
  intro p _
  show (if (if p.1 = k then (p.1, f p.2) else p).1 = k then _ else _) = _
  split_ifs <;> simp_all

end Restore

end Kevy.Lib
