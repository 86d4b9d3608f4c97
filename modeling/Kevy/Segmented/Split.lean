import Kevy.Segmented.Shape

/-!
# Splitting a bucket

A split parts the entries of a bucket by the next bit of their hashes, and the directory gives the upper half of the
bucket's slots to the new bucket. The finite map is the same before and after.
-/

namespace Kevy.Segmented

open Kevy.Lib Kevy.Map List Option

variable {K V : Type} {ops : KeyOps K}

/-! ## Parting the entries -/

/-- A table without auxiliary words that holds the entries. -/
structure Plain (ops : KeyOps K) (t : Table K V) (A : List (K × V × UInt64)) : Prop where
  wf : t.WF ops
  aux : t.aux = none
  perm : t.entries.Perm A

theorem plain_of_refines {t : Table K V} {m : Dict K V} (h : t.Refines ops m) (hnoAux : m.hasAux = false) :
    Plain ops t m.entries :=
  ⟨h.wf, isNone_iff_eq_none.mp (by rw [← not_isSome, h.aux, hnoAux]; rfl), h.perm⟩

variable {A : List (K × V × UInt64)}

theorem Plain.refines {t : Table K V} (h : Plain ops t A) : t.Refines ops ⟨A, false⟩ :=
  ⟨h.wf, h.perm, by rw [h.aux]; rfl⟩

theorem Plain.insertSlot {t : Table K V} (h : Plain ops t A) {k : K}
    (hlacks : ∀ e ∈ A, ops.eq e.1 k = false) (v : V) :
    ∃ t' slot, t.insertSlot ops k v = some (t', slot, none) ∧ Plain ops t' ((k, v, 0) :: A) := by
  obtain ⟨t', slot, hinsert, href⟩ := h.refines.insertSlot k v
  have hfind : Dict.find ops ⟨A, false⟩ k = none :=
    find?_eq_none.mpr fun e he => by rw [hlacks e he]; decide
  have hdict : Dict.insert ops ⟨A, false⟩ k v = (⟨(k, v, 0) :: A, false⟩, none) := by
    unfold Dict.insert
    rw [hfind]
    rfl
  rw [hdict] at hinsert href
  exact ⟨t', slot, hinsert, plain_of_refines href rfl⟩

def zeroWord (kv : K × V) : K × V × UInt64 := (kv.1, kv.2, 0)

theorem partitionLoop_spec (lb : Nat) {L : List (K × V)} {lo hi : Table K V} {A B : List (K × V × UInt64)}
    (hlo : Plain ops lo A) (hhi : Plain ops hi B) (hdistinct : L.Pairwise (fun a b => ops.eq a.1 b.1 = false))
    (hlacks : ∀ kv ∈ L, ∀ e ∈ A ++ B, ops.eq e.1 kv.1 = false) :
    ∃ lo' hi' A' B', partitionLoop ops lb L lo hi = some (lo', hi') ∧ Plain ops lo' A' ∧ Plain ops hi' B' ∧
      A'.Perm ((L.filter fun kv => lowBit lb (ops.hash kv.1)).map zeroWord ++ A) ∧
      B'.Perm ((L.filter fun kv => !lowBit lb (ops.hash kv.1)).map zeroWord ++ B) := by
  induction L generalizing lo hi A B with
  | nil =>
    exact ⟨lo, hi, A, B, rfl, hlo, hhi, Perm.refl _, Perm.refl _⟩
  | cons kv L ih =>
    obtain ⟨k, v⟩ := kv
    obtain ⟨hhead, htail⟩ := pairwise_cons.mp hdistinct
    have hk := hlacks (k, v) mem_cons_self
    -- the entry that goes in now is not among the keys still to come
    have hrest : ∀ {A' B' : List (K × V × UInt64)}, (A' ++ B').Perm ((k, v, 0) :: (A ++ B)) →
        ∀ kv ∈ L, ∀ e ∈ A' ++ B', ops.eq e.1 kv.1 = false := by
      intro A' B' hperm kv hkv e he
      rcases mem_cons.mp (hperm.mem_iff.mp he) with rfl | he
      · exact hhead kv hkv
      · exact hlacks kv (mem_cons_of_mem _ hkv) e he
    unfold partitionLoop
    cases hbit : lowBit lb (ops.hash k) with
    | true =>
      obtain ⟨lo1, slot, hinsert, hlo1⟩ := hlo.insertSlot (fun e he => hk e (mem_append_left _ he)) v
      obtain ⟨lo', hi', A', B', hloop, hlo', hhi', hA, hB⟩ := ih hlo1 hhi htail (hrest (Perm.refl _))
      refine ⟨lo', hi', A', B', ?_, hlo', hhi', hA.trans ?_, hB.trans ?_⟩
      · simp only [if_true, hinsert, bind_eq_bind, bind_some, hloop]
      · rw [filter_cons_of_pos (by exact hbit)]
        exact perm_middle
      · rw [filter_cons_of_neg (by simp [hbit])]
    | false =>
      obtain ⟨hi1, slot, hinsert, hhi1⟩ := hhi.insertSlot (fun e he => hk e (mem_append_right _ he)) v
      obtain ⟨lo', hi', A', B', hloop, hlo', hhi', hA, hB⟩ := ih hlo hhi1 htail (hrest perm_middle)
      refine ⟨lo', hi', A', B', ?_, hlo', hhi', hA.trans ?_, hB.trans ?_⟩
      · simp only [Bool.false_eq_true, if_false, hinsert, bind_eq_bind, bind_some, hloop]
      · rw [filter_cons_of_neg (by simp [hbit])]
      · rw [filter_cons_of_pos (by simp [hbit])]
        exact perm_middle

theorem Bucket.Sound.entries_perm {b : Bucket K V} (hb : b.Sound ops) : b.map.entries.Perm (b.map.iter.map zeroWord) := by
  have hzero : b.map.entries.map (fun e => zeroWord (e.1, e.2.1)) = b.map.entries := by
    refine (map_congr_left fun e he => ?_).trans (List.map_id _)
    obtain ⟨i, -, hrow⟩ := mem_items.mp he
    obtain ⟨kv, -, rfl⟩ := map_eq_some_iff.mp hrow
    show (kv.1, kv.2, 0) = (kv.1, kv.2, b.map.word i)
    unfold Table.word
    rw [hb.aux]
    rfl
  have hiter := (hb.refines.iter_perm).map zeroWord
  rw [List.map_map] at hiter
  exact (Perm.of_eq hzero.symm).trans hiter.symm

theorem filter_zeroWord (p : K → Bool) (L : List (K × V)) :
    (L.filter fun kv => p kv.1).map zeroWord = (L.map zeroWord).filter fun e => p e.1 := by
  rw [List.filter_map]
  rfl

theorem partitionBucket_spec {b : Bucket K V} (hb : b.Sound ops) (hdepth : b.localBits < maxBits) :
    ∃ lo hi, partitionBucket ops b = some (lo, hi) ∧ lo.Sound ops ∧ hi.Sound ops ∧
      lo.localBits = b.localBits + 1 ∧ hi.localBits = b.localBits + 1 ∧
      lo.map.entries.Perm (b.map.entries.filter fun e => lowBit b.localBits (ops.hash e.1)) ∧
      hi.map.entries.Perm (b.map.entries.filter fun e => !lowBit b.localBits (ops.hash e.1)) := by
  have hblank : Plain ops (Table.withCapacity (b.map.occupied / 2) : Table K V) [] :=
    plain_of_refines (Table.refines_withCapacity ops _) rfl
  obtain ⟨lo, hi, A, B, hloop, hlo, hhi, hA, hB⟩ := partitionLoop_spec b.localBits hblank hblank hb.wf.iter_distinct
    (fun _ _ e he => nomatch he)
  refine ⟨⟨b.localBits + 1, lo⟩, ⟨b.localBits + 1, hi⟩, ?_, ⟨hlo.wf, hlo.aux, hdepth⟩, ⟨hhi.wf, hhi.aux, hdepth⟩, rfl, rfl,
    hlo.perm.trans (hA.trans ?_), hhi.perm.trans (hB.trans ?_)⟩
  · unfold partitionBucket
    dsimp only
    rw [hloop]
    rfl
  · rw [append_nil, filter_zeroWord fun k => lowBit b.localBits (ops.hash k)]
    exact (hb.entries_perm.filter _).symm
  · rw [append_nil, filter_zeroWord fun k => !lowBit b.localBits (ops.hash k)]
    exact (hb.entries_perm.filter _).symm

/-! ## The directory -/

variable {m : SegMap} {vals : List (Bucket K V)} {dict : Dict K V}

theorem Holds.double (hm : Holds ops m vals dict) (hlt : m.globalBits < maxBits) :
    Holds ops (doubleDirectory m) vals dict := by
  refine ⟨hm.dir.double, hlt, hm.sound, fun {bi b} hb e he => ?_, hm.perm, hm.noAux, hm.len_eq, hm.distinct⟩
  have hbits : m.globalBits + 1 ≤ 64 := le_trans hlt (by decide)
  have hhalf : route (m.globalBits + 1) (ops.hash e.1) / 2 = route m.globalBits (ops.hash e.1) := by
    have hdiv := route_div hbits (Nat.le_succ m.globalBits) (ops.hash e.1)
    rwa [Nat.add_sub_cancel_left, Nat.pow_one, ← route_eq] at hdiv
  show (doubled m.dirs)[route (m.globalBits + 1) (ops.hash e.1)]? = some bi
  rw [getElem?_doubled, hhalf]
  exact hm.routed hb e he

structure Halves (ops : KeyOps K) (b lo hi : Bucket K V) : Prop where
  soundLo : lo.Sound ops
  soundHi : hi.Sound ops
  bitsLo : lo.localBits = b.localBits + 1
  bitsHi : hi.localBits = b.localBits + 1
  permLo : lo.map.entries.Perm (b.map.entries.filter fun e => lowBit b.localBits (ops.hash e.1))
  permHi : hi.map.entries.Perm (b.map.entries.filter fun e => !lowBit b.localBits (ops.hash e.1))

variable {b lo hi : Bucket K V} {bi slot : Nat}

theorem getElem?_halves (hb : vals[bi]? = some b) (lo hi : Bucket K V) :
    (vals.set bi lo ++ [hi])[bi]? = some lo ∧ (vals.set bi lo ++ [hi])[vals.length]? = some hi := by
  obtain ⟨hbi, -⟩ := List.getElem?_eq_some_iff.mp hb
  rw [getElem?_append_left (by rwa [length_set]), getElem?_set_self hbi,
    getElem?_append_right (by rw [length_set]), length_set, Nat.sub_self]
  exact ⟨rfl, rfl⟩

theorem halves_cases (hb : vals[bi]? = some b) {x : Nat} {y : Bucket K V}
    (h : (vals.set bi lo ++ [hi])[x]? = some y) :
    x = bi ∧ y = lo ∨ x = vals.length ∧ y = hi ∨ x ≠ bi ∧ x ≠ vals.length ∧ vals[x]? = some y := by
  obtain ⟨hlo, hhi⟩ := getElem?_halves hb lo hi
  by_cases hx : x = bi
  · subst hx
    exact .inl ⟨rfl, some_inj.mp (h.symm.trans hlo)⟩
  by_cases hlast : x = vals.length
  · subst hlast
    exact .inr (.inl ⟨rfl, some_inj.mp (h.symm.trans hhi)⟩)
  have hlt := (List.getElem?_eq_some_iff.mp h).1
  rw [length_append, length_set, length_singleton] at hlt
  rw [getElem?_append_left (by rw [length_set]; omega), getElem?_set_ne (Ne.symm hx)] at h
  exact .inr (.inr ⟨hx, hlast, h⟩)

theorem depths_getElem? (hb : vals[bi]? = some b) : (vals.map Bucket.localBits)[bi]? = some b.localBits := by
  rw [getElem?_map, hb]
  rfl

theorem Halves.perm (hh : Halves ops b lo hi) (hb : vals[bi]? = some b) :
    (allEntries (vals.set bi lo ++ [hi])).Perm (allEntries vals) := by
  obtain ⟨hlt, -⟩ := List.getElem?_eq_some_iff.mp hb
  have hset : (vals.set bi lo)[bi]? = some lo := getElem?_set_self hlt
  have herase : (vals.set bi lo).eraseIdx bi = vals.eraseIdx bi := by
    rw [eraseIdx_set_eq]
  have hboth : (lo.map.entries ++ hi.map.entries).Perm b.map.entries :=
    (hh.permLo.append hh.permHi).trans (filter_append_perm _ _)
  have hnew : (allEntries (vals.set bi lo ++ [hi])).Perm
      ((lo.map.entries ++ hi.map.entries) ++ allEntries (vals.eraseIdx bi)) := by
    unfold allEntries
    rw [flatMap_append, flatMap_singleton, append_assoc]
    refine ((Holds.perm_bucket hset).append_right _).trans ?_
    rw [herase, append_assoc]
    exact (perm_append_comm).append_left _
  exact hnew.trans ((hboth.append_right _).trans (Holds.perm_bucket hb).symm)

theorem Holds.split (hm : Holds ops m vals dict) (hslot : m.dirs[slot]? = some bi) (hb : vals[bi]? = some b)
    (hlt : b.localBits < m.globalBits) (hh : Halves ops b lo hi) (refs : List Nat) :
    Holds ops { m with dirs := repoint m.dirs (m.globalBits - b.localBits) slot vals.length, buckets := refs }
      (vals.set bi lo ++ [hi]) dict := by
  have hrepoint := fun (s : Nat) {b' : Nat} (hs : m.dirs[s]? = some b') =>
    hm.dir.getElem?_repoint (n := vals.length) (depths_getElem? hb) hlt hslot hs
  refine ⟨?_, hm.bits, fun x hx => ?_, fun {x bx} hx e he => ?_, hm.perm.trans (hh.perm hb).symm, hm.noAux, hm.len_eq,
    hm.distinct⟩
  · have hdir := hm.dir.split (depths_getElem? hb) hlt hslot
    rw [length_map] at hdir
    rwa [map_append, map_set, hh.bitsLo, map_singleton, hh.bitsHi]
  · rcases mem_append.mp hx with hx | hx
    · rcases mem_or_eq_of_mem_set hx with hx | rfl
      · exact hm.sound x hx
      · exact hh.soundLo
    · exact mem_singleton.mp hx ▸ hh.soundHi
  · show (repoint m.dirs (m.globalBits - b.localBits) slot vals.length)[route m.globalBits (ops.hash e.1)]? = some x
    have hbit := lowBit_iff hm.bits_le hlt (ops.hash e.1)
    rcases halves_cases hb hx with ⟨rfl, rfl⟩ | ⟨rfl, rfl⟩ | ⟨hxb, -, hx⟩
    · obtain ⟨he, hlow⟩ := mem_filter.mp (hh.permLo.mem_iff.mp he)
      rw [hrepoint _ (hm.routed hb e he), if_pos rfl, if_pos (hbit.mpr hlow)]
    · obtain ⟨he, hhigh⟩ := mem_filter.mp (hh.permHi.mem_iff.mp he)
      have hnot : ¬ route m.globalBits (ops.hash e.1) / 2 ^ (m.globalBits - (b.localBits + 1)) % 2 = 0 := by
        rw [hbit]
        simpa using hhigh
      rw [hrepoint _ (hm.routed hb e he), if_pos rfl, if_neg hnot]
    · rw [hrepoint _ (hm.routed hx e he), if_neg hxb]

/-! ## The loop -/

theorem Holds.slot_split (hm : Holds ops m vals dict) (hslot : m.dirs[slot]? = some bi) (hb : vals[bi]? = some b)
    (hlt : b.localBits < m.globalBits) (hh : Halves ops b lo hi) :
    ∃ bi' b', (repoint m.dirs (m.globalBits - b.localBits) slot vals.length)[slot]? = some bi' ∧
      (vals.set bi lo ++ [hi])[bi']? = some b' ∧ b'.localBits = b.localBits + 1 := by
  obtain ⟨hlo, hhi⟩ := getElem?_halves hb lo hi
  have hrepoint := hm.dir.getElem?_repoint (n := vals.length) (depths_getElem? hb) hlt hslot hslot
  rw [if_pos rfl] at hrepoint
  split_ifs at hrepoint
  · exact ⟨bi, lo, hrepoint, hlo, hh.bitsLo⟩
  · exact ⟨vals.length, hi, hrepoint, hhi, hh.bitsHi⟩

/-! ## Sizes -/

def Bucket.Small (b : Bucket K V) : Prop := b.map.occupied ≤ bucketSplit ∨ maxBits ≤ b.localBits

/-- The hashes do not all start with one prefix of more than `bits` bits that ends in a one. -/
def Spread (ops : KeyOps K) (bits : Nat) (entries : List (K × V × UInt64)) : Prop :=
  ∀ j p, bits ≤ j → j < maxBits → ∃ e ∈ entries, (ops.hash e.1).toNat / 2 ^ (63 - j) ≠ 2 * p + 1

/-- The bucket a split is at: at most one entry too many, a key that leads to the slot unless the directory is about
to double, and keys that are spread. -/
structure AtHand (ops : KeyOps K) (m : SegMap) (slot : Nat) (b : Bucket K V) : Prop where
  size : b.map.occupied ≤ bucketSplit + 1
  leads : b.localBits < m.globalBits → ∃ e ∈ b.map.entries, route m.globalBits (ops.hash e.1) = slot
  spread : Spread ops m.globalBits b.map.entries

theorem Bucket.Sound.occupied_eq (hb : b.Sound ops) : b.map.occupied = b.map.entries.length := hb.refines.length_eq

theorem Halves.occupied (hh : Halves ops b lo hi) (hb : b.Sound ops) :
    lo.map.occupied + hi.map.occupied = b.map.occupied := by
  have hperm := ((hh.permLo.append hh.permHi).trans (filter_append_perm _ _)).length_eq
  rwa [length_append, ← hh.soundLo.occupied_eq, ← hh.soundHi.occupied_eq, ← hb.occupied_eq] at hperm

theorem Spread.mono {bits bits' : Nat} {B : List (K × V × UInt64)} (h : Spread ops bits A) (hbits : bits ≤ bits')
    (hsub : A ⊆ B) : Spread ops bits' B := fun j p hj hmax => by
  obtain ⟨e, he, hne⟩ := h j p (hbits.trans hj) hmax
  exact ⟨e, hsub he, hne⟩

/-- A half that is still too large has all the entries. -/
theorem AtHand.half {p : K × V × UInt64 → Bool} {half : Bucket K V} (hat : AtHand ops m slot b) (hb : b.Sound ops)
    (hhalf : half.Sound ops) (hperm : half.map.entries.Perm (b.map.entries.filter p))
    (hbig : bucketSplit < half.map.occupied) {m' : SegMap} {slot' : Nat} (hbits : m.globalBits ≤ m'.globalBits)
    {e : K × V × UInt64} (he : e ∈ half.map.entries) (hroute : route m'.globalBits (ops.hash e.1) = slot') :
    AtHand ops m' slot' half := by
  have hsize := hat.size
  have hlen := hperm.length_eq
  rw [hb.occupied_eq] at hsize
  rw [hhalf.occupied_eq] at hbig
  have hfilter : b.map.entries.filter p = b.map.entries := filter_sublist.eq_of_length_le (by omega)
  rw [hfilter] at hperm
  refine ⟨?_, fun _ => ⟨e, he, hroute⟩, hat.spread.mono hbits fun x hx => hperm.mem_iff.mpr hx⟩
  rw [hhalf.occupied_eq, hperm.length_eq]
  exact hsize

theorem AtHand.turn (hat : AtHand ops m slot b) (hb : vals[bi]? = some b) (hsound : b.Sound ops)
    (hh : Halves ops b lo hi) {m' : SegMap} {slot' bi' : Nat} {b' : Bucket K V}
    (hm' : Holds ops m' (vals.set bi lo ++ [hi]) dict) (hbits : m.globalBits ≤ m'.globalBits) (hslot : m'.dirs[slot']? = some bi')
    (hb' : (vals.set bi lo ++ [hi])[bi']? = some b')
    (hleads : ∃ e ∈ b.map.entries, route m'.globalBits (ops.hash e.1) = slot')
    (hsmall : ∀ j x, vals[j]? = some x → j ≠ bi → x.Small) :
    (∀ j x, (vals.set bi lo ++ [hi])[j]? = some x → j ≠ bi' → x.Small) ∧
      (bucketSplit < b'.map.occupied → AtHand ops m' slot' b') := by
  obtain ⟨e, he, hroute⟩ := hleads
  obtain ⟨hlo, hhi⟩ := getElem?_halves hb lo hi
  have hcount := hh.occupied hsound
  have hsize := hat.size
  -- where the key is, the slot leads
  have hat' : ∀ {x : Nat} {half : Bucket K V}, (vals.set bi lo ++ [hi])[x]? = some half → e ∈ half.map.entries →
      x = bi' ∧ half = b' := by
    intro x half hx hmem
    have hsame := hm'.routed hx e hmem
    rw [hroute, hslot, some_inj] at hsame
    rw [hsame, hx, some_inj] at hb'
    exact ⟨hsame.symm, hb'⟩
  cases hbit : lowBit b.localBits (ops.hash e.1) with
  | true =>
    have hmem := hh.permLo.mem_iff.mpr (mem_filter.mpr ⟨he, hbit⟩)
    obtain ⟨rfl, rfl⟩ := hat' hlo hmem
    have hpos : 0 < lo.map.occupied := by rw [hh.soundLo.occupied_eq]; exact length_pos_of_mem hmem
    refine ⟨fun j x hx hne => ?_, fun hbig => hat.half hsound hh.soundLo hh.permLo hbig hbits hmem hroute⟩
    rcases halves_cases hb hx with ⟨rfl, -⟩ | ⟨-, rfl⟩ | ⟨-, -, hx⟩
    · exact absurd rfl hne
    · exact .inl (by omega)
    · exact hsmall j x hx hne
  | false =>
    have hmem := hh.permHi.mem_iff.mpr (mem_filter.mpr ⟨he, by rw [hbit]; rfl⟩)
    obtain ⟨rfl, rfl⟩ := hat' hhi hmem
    have hpos : 0 < hi.map.occupied := by rw [hh.soundHi.occupied_eq]; exact length_pos_of_mem hmem
    refine ⟨fun j x hx hne => ?_, fun hbig => hat.half hsound hh.soundHi hh.permHi hbig hbits hmem hroute⟩
    rcases halves_cases hb hx with ⟨-, rfl⟩ | ⟨rfl, -⟩ | ⟨hfirst, -, hx⟩
    · exact .inl (by omega)
    · exact absurd rfl hne
    · exact hsmall j x hx hfirst

/-- A bucket at full depth has a key that leads to the lower of the two slots it gets. -/
theorem AtHand.leads_double (hat : AtHand ops m slot b) (hm : Holds ops m vals dict) (hslot : m.dirs[slot]? = some bi)
    (hb : vals[bi]? = some b) (hfull : b.localBits = m.globalBits) (hlt : m.globalBits < maxBits) :
    ∃ e ∈ b.map.entries, route (m.globalBits + 1) (ops.hash e.1) = slot * 2 := by
  obtain ⟨e, he, hne⟩ := hat.spread m.globalBits slot le_rfl hlt
  obtain ⟨-, p, -, hcover⟩ := hm.dir.covers (depths_getElem? hb)
  have hbits : m.globalBits < 64 := lt_trans hlt (by decide)
  have hone := (hcover _ (route_lt hm.bits_le (ops.hash e.1))).mp (hm.routed hb e he)
  have htwo := (hcover slot (hm.dir.length_eq ▸ lt_of_getElem?_eq_some hslot)).mp hslot
  rw [hfull, Nat.sub_self, Nat.pow_zero, Nat.div_one] at hone htwo
  have hhalf := route_div (g := m.globalBits + 1) (by omega) (Nat.le_succ m.globalBits) (ops.hash e.1)
  rw [Nat.add_sub_cancel_left, Nat.pow_one, ← route_eq, hone, ← htwo] at hhalf
  rw [show 63 - m.globalBits = 64 - (m.globalBits + 1) by omega, ← route_eq] at hne
  exact ⟨e, he, by omega⟩

theorem Holds.makeRoom (hm : Holds ops m vals dict) (hslot : m.dirs[slot]? = some bi) (hb : vals[bi]? = some b)
    (hdepth : b.localBits < maxBits) :
    ∃ m' slot', (if b.localBits = m.globalBits then (doubleDirectory m, slot * 2) else (m, slot)) = (m', slot') ∧
      Holds ops m' vals dict ∧ m'.dirs[slot']? = some bi ∧ b.localBits < m'.globalBits ∧ m'.buckets = m.buckets ∧
      m.globalBits ≤ m'.globalBits ∧
      (AtHand ops m slot b → ∃ e ∈ b.map.entries, route m'.globalBits (ops.hash e.1) = slot') := by
  split_ifs with hfull
  · refine ⟨doubleDirectory m, slot * 2, rfl, hm.double (hfull ▸ hdepth), ?_, ?_, rfl, Nat.le_succ _,
      fun hat => hat.leads_double hm hslot hb hfull (hfull ▸ hdepth)⟩
    · show (doubled m.dirs)[slot * 2]? = some bi
      rw [getElem?_doubled, Nat.mul_div_cancel _ (by decide), hslot]
    · show b.localBits < m.globalBits + 1
      omega
  · have hle := (hm.dir.covers (depths_getElem? hb)).1
    exact ⟨m, slot, rfl, hm, hslot, by omega, rfl, le_rfl, fun hat => hat.leads (by omega)⟩

/-- **`split`** ends, and changes nothing that can be seen; with spread keys it leaves no bucket too large. -/
theorem split_spec {others : List Nat} {fuel : Nat} {h : Heap (Bucket K V)} {m : SegMap} {slot bi : Nat}
    {b : Bucket K V} (hc : h.Counted (m.buckets ++ others)) (hm : Holds ops m (h.values m.buckets) dict)
    (hslot : m.dirs[slot]? = some bi) (hb : (h.values m.buckets)[bi]? = some b) (hfuel : maxBits < fuel + b.localBits) :
    ∃ h' m' vals, split ops fuel h m slot = some (h', m') ∧ Heap.Owner h h' m'.buckets others vals ∧
      Holds ops m' vals dict ∧ ((bucketSplit < b.map.occupied → b.localBits < maxBits → AtHand ops m slot b) →
        (∀ j x, (h.values m.buckets)[j]? = some x → j ≠ bi → x.Small) → ∀ x ∈ vals, x.Small) := by
  induction fuel generalizing h m slot bi b with
  | zero =>
    have hle := (hm.sound b (mem_of_getElem? hb)).depth
    omega
  | succ fuel ih =>
    obtain ⟨hbi, rfl⟩ := Heap.exists_cell hb
    unfold split
    simp only [hslot, getElem?_eq_getElem hbi, bind_eq_bind, bind_some]
    by_cases hdone : (h.cell m.buckets[bi]).map.occupied ≤ bucketSplit ∨ (h.cell m.buckets[bi]).localBits ≥ maxBits
    · rw [if_pos hdone]
      refine ⟨h, m, _, rfl, Heap.Owner.refl hc, hm, fun _ hsmall x hx => ?_⟩
      obtain ⟨j, hj⟩ := mem_iff_getElem?.mp hx
      by_cases hjb : j = bi
      · rw [hjb, hb, some_inj] at hj
        exact hj ▸ hdone
      · exact hsmall j x hj hjb
    · rw [if_neg hdone]
      have hdepth : (h.cell m.buckets[bi]).localBits < maxBits := by omega
      obtain ⟨m1, slot1, hroom, hm1, hslot1, hlt, hrefs, hbits1, hleads⟩ := hm.makeRoom hslot hb hdepth
      obtain ⟨lo, hi, hpart, hhalves⟩ : ∃ lo hi, partitionBucket ops (h.cell m.buckets[bi]) = some (lo, hi) ∧
            Halves ops (h.cell m.buckets[bi]) lo hi := by
        obtain ⟨lo, hi, hpart, h1, h2, h3, h4, h5, h6⟩ := partitionBucket_spec (hm.sound _ (mem_of_getElem? hb)) hdepth
        exact ⟨lo, hi, hpart, h1, h2, h3, h4, h5, h6⟩
      have hlen : (h.values m.buckets).length = m.buckets.length := length_map _
      have hlo := Heap.Owner.replace hc hbi lo
      have hhi := Heap.Owner.push hlo.counted hi
      rw [hlo.values_eq] at hhi
      have hboth := hlo.trans hhi
      have hm2 := hm1.split hslot1 hb hlt hhalves
      obtain ⟨bi', b', hslot', hb', hbits⟩ := hm1.slot_split hslot1 hb hlt hhalves
      rw [hlen] at hslot'
      rw [hlen] at hm2
      simp only [hroom, hrefs, hpart, bind_some]
      obtain ⟨h', m', vals, hrun, howner, hm', hsmall'⟩ := ih (m := { m1 with
          dirs := repoint m1.dirs (m1.globalBits - (h.cell m.buckets[bi]).localBits) slot1 m.buckets.length,
          buckets := m.buckets.set bi ((h.release m.buckets[bi]).alloc lo).2 ++
            [(((h.release m.buckets[bi]).alloc lo).1.alloc hi).2] })
        hboth.counted (by rw [hboth.values_eq]; exact hm2 _) hslot' (by rw [hboth.values_eq]; exact hb') (by omega)
      refine ⟨h', m', vals, hrun, hboth.trans howner, hm', fun hat hsmall => ?_⟩
      have hat := hat (by omega) hdepth
      obtain ⟨hothers, hhand⟩ := hat.turn hb (hm.sound _ (mem_of_getElem? hb)) hhalves (hm2 _) hbits1 hslot' hb'
        (hleads hat) hsmall
      exact hsmall' (fun hbig _ => hhand hbig) (by rw [hboth.values_eq]; exact hothers)

end Kevy.Segmented
