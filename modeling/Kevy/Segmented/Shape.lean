import Kevy.Segmented.Model

/-!
# The invariant of a segmented map

The directory names the buckets by prefixes, and every key is in the bucket its hash leads to. So an operation on a
key concerns one bucket, and the entries of the others do not have the key.
-/

namespace Kevy.Segmented

open Kevy.Lib Kevy.Map List Option

variable {K V : Type} {ops : KeyOps K}

/-! ## Finite maps -/

section Dict

variable {A B R : List (K × V × UInt64)} {key : K}

def Distinct (ops : KeyOps K) (A : List (K × V × UInt64)) : Prop := A.Pairwise fun a b => ops.eq a.1 b.1 = false

theorem Distinct.perm (hd : Distinct ops A) (hperm : A.Perm B) : Distinct ops B :=
  Pairwise.perm hd hperm fun {a b} hab => Bool.eq_false_iff.mpr fun hba => by
    rw [ops.symm hba] at hab
    cases hab

theorem Distinct.found (hd : Distinct ops A) {x : K × V × UInt64} (hx : A.find? (fun e => ops.eq e.1 key) = some x) :
    ops.eq x.1 key = true ∧ ∃ rest, A.Perm (x :: rest) ∧ ∀ y ∈ rest, ops.eq y.1 key = false := by
  have hkey : ops.eq x.1 key = true := find?_some (p := fun e : K × V × UInt64 => ops.eq e.1 key) hx
  obtain ⟨L, R, rfl⟩ := append_of_mem (mem_of_find?_eq_some hx)
  refine ⟨hkey, L ++ R, perm_middle, fun y hy => Bool.eq_false_iff.mpr fun hyk => ?_⟩
  have hne := (pairwise_cons.mp (hd.perm perm_middle)).1 y hy
  rw [ops.trans hkey (ops.symm hyk)] at hne
  cases hne

theorem find?_perm (hd : Distinct ops A) (hperm : A.Perm B) (key : K) :
    A.find? (fun e => ops.eq e.1 key) = B.find? fun e => ops.eq e.1 key := by
  cases hA : A.find? (fun e => ops.eq e.1 key) with
  | none =>
    symm
    rw [find?_eq_none] at hA ⊢
    exact fun x hx => hA x (hperm.mem_iff.mpr hx)
  | some x =>
    obtain ⟨hx, rest, hrest, hlack⟩ := hd.found hA
    exact (find?_of_perm_cons (q := fun e => ops.eq e.1 key) (hperm.symm.trans hrest) hx hlack).symm

theorem find?_append_of_lacks (hR : ∀ e ∈ R, ops.eq e.1 key = false) :
    (A ++ R).find? (fun e => ops.eq e.1 key) = A.find? fun e => ops.eq e.1 key := by
  have hnone : R.find? (fun e => ops.eq e.1 key) = none :=
    find?_eq_none.mpr fun e he => by rw [hR e he]; decide
  rw [find?_append, hnone, or_none]

variable {m : Dict K V}

theorem Distinct.insert (hd : Distinct ops m.entries) (key : K) (value : V) :
    Distinct ops (m.insert ops key value).1.entries := by
  unfold Dict.insert
  split_ifs with hfind
  · refine pairwise_map.mpr (Pairwise.imp (fun {a b} hab => ?_) hd)
    split_ifs <;> exact hab
  · refine pairwise_cons.mpr ⟨fun e he => Bool.eq_false_iff.mpr fun heq => hfind ?_, hd⟩
    exact find?_isSome.mpr ⟨e, he, ops.symm heq⟩

theorem Distinct.remove (hd : Distinct ops m.entries) (key : K) : Distinct ops (m.remove ops key).1.entries :=
  Pairwise.sublist filter_sublist hd

theorem hasAux_insert (m : Dict K V) (key : K) (value : V) : (m.insert ops key value).1.hasAux = m.hasAux := by
  unfold Dict.insert
  split_ifs <;> rfl

theorem key_of_mem_insert {e : K × V × UInt64} {value : V} (he : e ∈ (m.insert ops key value).1.entries) :
    e.1 = key ∨ ∃ e' ∈ m.entries, e'.1 = e.1 := by
  unfold Dict.insert at he
  split_ifs at he
  · obtain ⟨e', he', rfl⟩ := List.mem_map.mp he
    refine .inr ⟨e', he', ?_⟩
    split_ifs <;> rfl
  · rcases mem_cons.mp he with rfl | he
    · exact .inl rfl
    · exact .inr ⟨e, he, rfl⟩

theorem entries_insert_new {value : V} (h : (m.insert ops key value).2.isNone) :
    (m.insert ops key value).1.entries = (key, value, 0) :: m.entries := by
  unfold Dict.insert Dict.get at h ⊢
  split_ifs at h ⊢ with hfind
  · rw [isNone_iff_eq_none, map_eq_none_iff] at h
    rw [h] at hfind
    cases hfind
  · rfl

theorem length_insert (key : K) (value : V) : (m.insert ops key value).1.entries.length =
    if (m.insert ops key value).2.isNone then m.entries.length + 1 else m.entries.length := by
  split_ifs with hreply
  · rw [entries_insert_new hreply, length_cons]
  · unfold Dict.insert at hreply ⊢
    split_ifs at hreply ⊢
    · exact length_map _
    · exact absurd rfl hreply

theorem length_remove (hd : Distinct ops m.entries) (key : K) : (m.remove ops key).1.entries.length =
    if (m.remove ops key).2.isSome then m.entries.length - 1 else m.entries.length := by
  unfold Dict.remove Dict.get Dict.find
  rw [isSome_map]
  cases hfind : m.entries.find? (fun e => ops.eq e.1 key) with
  | none =>
    rw [find?_eq_none] at hfind
    rw [filter_eq_self.mpr fun e he => by simpa using hfind e he]
    rfl
  | some x =>
    obtain ⟨hx, rest, hperm, hlack⟩ := hd.found hfind
    have hkeep : (x :: rest).filter (fun e => !ops.eq e.1 key) = rest := by
      rw [filter_cons_of_neg (by simp [hx])]
      exact filter_eq_self.mpr fun y hy => by simp [hlack y hy]
    dsimp only
    rw [(hperm.filter _).length_eq, hkeep, hperm.length_eq]
    rfl

theorem insert_part (hd : Distinct ops m.entries) (hperm : m.entries.Perm (A ++ R))
    (hR : ∀ e ∈ R, ops.eq e.1 key = false) (value : V) :
    (m.insert ops key value).2 = (Dict.insert ops ⟨A, m.hasAux⟩ key value).2 ∧
      (m.insert ops key value).1.entries.Perm ((Dict.insert ops ⟨A, m.hasAux⟩ key value).1.entries ++ R) := by
  have hfind : m.find ops key = Dict.find ops ⟨A, m.hasAux⟩ key :=
    (find?_perm hd hperm key).trans (find?_append_of_lacks hR)
  unfold Dict.insert Dict.get
  rw [hfind]
  split_ifs
  · refine ⟨rfl, (hperm.map _).trans ?_⟩
    rw [map_append]
    refine Perm.append_left _ (Perm.of_eq ?_)
    refine (map_congr_left fun e he => ?_).trans (List.map_id R)
    rw [hR e he]
    rfl
  · exact ⟨rfl, hperm.cons _⟩

theorem remove_part (hd : Distinct ops m.entries) (hperm : m.entries.Perm (A ++ R))
    (hR : ∀ e ∈ R, ops.eq e.1 key = false) : (m.remove ops key).2 = (Dict.remove ops ⟨A, m.hasAux⟩ key).2 ∧
      (m.remove ops key).1.entries.Perm ((Dict.remove ops ⟨A, m.hasAux⟩ key).1.entries ++ R) := by
  have hfind : m.find ops key = Dict.find ops ⟨A, m.hasAux⟩ key :=
    (find?_perm hd hperm key).trans (find?_append_of_lacks hR)
  unfold Dict.remove Dict.get
  rw [hfind]
  refine ⟨rfl, (hperm.filter _).trans ?_⟩
  rw [filter_append]
  refine Perm.append_left _ (Perm.of_eq (filter_eq_self.mpr fun e he => ?_))
  rw [hR e he]
  rfl

theorem get_part (hd : Distinct ops m.entries) (hperm : m.entries.Perm (A ++ R))
    (hR : ∀ e ∈ R, ops.eq e.1 key = false) : m.get ops key = Dict.get ops ⟨A, m.hasAux⟩ key :=
  congrArg (Option.map _) ((find?_perm hd hperm key).trans (find?_append_of_lacks hR))

end Dict

/-! ## The top bits of a hash -/

theorem route_eq (g : Nat) (hash : UInt64) : route g hash = hash.toNat / 2 ^ (64 - g) := by
  unfold route
  split_ifs with hzero
  · rw [hzero]
    exact (Nat.div_eq_of_lt hash.toNat_lt).symm
  · rfl

theorem route_lt {g : Nat} (hg : g ≤ 64) (hash : UInt64) : route g hash < 2 ^ g := by
  have hlt := hash.toNat_lt
  rw [route_eq, Nat.div_lt_iff_lt_mul (Nat.two_pow_pos _), ← Nat.pow_add, Nat.add_sub_cancel' hg]
  exact hlt

theorem route_div {g d : Nat} (hg : g ≤ 64) (hd : d ≤ g) (hash : UInt64) :
    route g hash / 2 ^ (g - d) = hash.toNat / 2 ^ (64 - d) := by
  have hsum : 64 - g + (g - d) = 64 - d := by omega
  rw [route_eq, Nat.div_div_eq_div_mul, ← Nat.pow_add, hsum]

theorem lowBit_iff {g lb : Nat} (hg : g ≤ 64) (hlt : lb < g) (hash : UInt64) :
    route g hash / 2 ^ (g - (lb + 1)) % 2 = 0 ↔ lowBit lb hash = true := by
  have hsub : 64 - (lb + 1) = 63 - lb := by omega
  rw [route_div hg hlt, hsub]
  unfold lowBit
  rw [beq_iff_eq]

/-! ## The invariant -/

/-- A bucket: a proper table without auxiliary words, not deeper than the limit. -/
structure Bucket.Sound (ops : KeyOps K) (b : Bucket K V) : Prop where
  wf : b.map.WF ops
  aux : b.map.aux = none
  depth : b.localBits ≤ maxBits

theorem Bucket.Sound.refines {b : Bucket K V} (hb : b.Sound ops) : b.map.Refines ops ⟨b.map.entries, false⟩ :=
  ⟨hb.wf, Perm.refl _, by rw [hb.aux]; rfl⟩

def allEntries (vals : List (Bucket K V)) : List (K × V × UInt64) := vals.flatMap fun b => b.map.entries

/-- The directory over the buckets, which hold the entries of the finite map. -/
structure Holds (ops : KeyOps K) (m : SegMap) (vals : List (Bucket K V)) (dict : Dict K V) : Prop where
  dir : Directory m.globalBits m.dirs (vals.map Bucket.localBits)
  bits : m.globalBits ≤ maxBits
  sound : ∀ b ∈ vals, b.Sound ops
  routed : ∀ {bi : Nat} {b : Bucket K V}, vals[bi]? = some b → ∀ e ∈ b.map.entries,
    m.dirs[route m.globalBits (ops.hash e.1)]? = some bi
  perm : dict.entries.Perm (allEntries vals)
  noAux : dict.hasAux = false
  len_eq : m.len = dict.entries.length
  distinct : Distinct ops dict.entries

namespace Holds

variable {m : SegMap} {vals : List (Bucket K V)} {dict : Dict K V}

theorem bits_le (hm : Holds ops m vals dict) : m.globalBits ≤ 64 := hm.bits.trans (by decide)

theorem bucket (hm : Holds ops m vals dict) (key : K) :
    ∃ bi b, m.dirs[route m.globalBits (ops.hash key)]? = some bi ∧ vals[bi]? = some b ∧ bi < vals.length := by
  obtain ⟨bi, hbi, hlt⟩ := hm.dir.exists_slot (route_lt hm.bits_le (ops.hash key))
  rw [length_map] at hlt
  exact ⟨bi, vals[bi], hbi, getElem?_eq_getElem hlt, hlt⟩

theorem perm_bucket {bi : Nat} {b : Bucket K V} (hb : vals[bi]? = some b) :
    (allEntries vals).Perm (b.map.entries ++ allEntries (vals.eraseIdx bi)) := by
  obtain ⟨hlt, rfl⟩ := List.getElem?_eq_some_iff.mp hb
  have hvals : vals.Perm (vals[bi] :: vals.eraseIdx bi) := by
    rw [eraseIdx_eq_take_drop_succ]
    nth_rewrite 1 [← take_append_drop bi vals]
    rw [drop_eq_getElem_cons hlt]
    exact perm_middle
  exact hvals.flatMap_right _

theorem setBucket (hm : Holds ops m vals dict) {bi : Nat} {b : Bucket K V} (hb : vals[bi]? = some b) {map : Table K V}
    {dict' : Dict K V} (hwf : map.WF ops) (haux : map.aux = none)
    (hroute : ∀ e ∈ map.entries, m.dirs[route m.globalBits (ops.hash e.1)]? = some bi)
    (hperm : dict'.entries.Perm (map.entries ++ allEntries (vals.eraseIdx bi))) (hnoAux : dict'.hasAux = false)
    (hdistinct : Distinct ops dict'.entries) (refs : List Nat) :
    Holds ops { m with buckets := refs, len := dict'.entries.length } (vals.set bi { b with map := map }) dict' := by
  obtain ⟨hlt, heq⟩ := List.getElem?_eq_some_iff.mp hb
  have hset : (vals.set bi { b with map := map })[bi]? = some { b with map := map } := getElem?_set_self hlt
  refine ⟨?_, hm.bits, fun x hx => ?_, fun {x bx} hx e he => ?_, hperm.trans ?_, hnoAux, rfl, hdistinct⟩
  · have hdepth : (vals.map Bucket.localBits).set bi b.localBits = vals.map Bucket.localBits := by
      refine ext_getElem? fun j => ?_
      by_cases hj : j = bi
      · subst hj
        rw [getElem?_set_self (by rwa [length_map]), getElem?_map, hb]
        rfl
      · rw [getElem?_set_ne (Ne.symm hj)]
    rw [map_set]
    exact hdepth.symm ▸ hm.dir
  · rcases mem_or_eq_of_mem_set hx with hx | rfl
    · exact hm.sound x hx
    · exact ⟨hwf, haux, (hm.sound b (mem_of_getElem? hb)).depth⟩
  · by_cases hxb : x = bi
    · subst hxb
      obtain rfl := some_inj.mp (hset.symm.trans hx)
      exact hroute e he
    · rw [getElem?_set_ne (Ne.symm hxb)] at hx
      exact hm.routed hx e he
  · have hnew := perm_bucket hset
    rw [eraseIdx_set_eq] at hnew
    exact hnew.symm

theorem others_lack (hm : Holds ops m vals dict) {key : K} {bi : Nat}
    (hslot : m.dirs[route m.globalBits (ops.hash key)]? = some bi) :
    ∀ e ∈ allEntries (vals.eraseIdx bi), ops.eq e.1 key = false := by
  intro e he
  obtain ⟨b, hb, heb⟩ := mem_flatMap.mp he
  obtain ⟨j, hj, hget⟩ := mem_eraseIdx_iff_getElem?.mp hb
  refine Bool.eq_false_iff.mpr fun heq => hj ?_
  have hroute := hm.routed hget e heb
  rw [ops.hash_eq heq, hslot, some_inj] at hroute
  exact hroute.symm

end Holds

end Kevy.Segmented
