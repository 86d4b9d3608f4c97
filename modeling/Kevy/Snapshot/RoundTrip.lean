import Kevy.Snapshot.Load

/-!
# A snapshot comes back

The reader takes a written file apart record by record (`loopReads_records`), so that what it loads is a fold over
the entries that were written, and a file cut before the end-of-data opcode is an unexpected end. What the records
of the group reads do is then undone loss: the setters put back what a stream's record could not carry.
-/

namespace Kevy.Snapshot

open Kevy.Lib Kevy.Resp List Option Function

/-! ## Records -/

theorem length_writeCursor (position : FeedPosition) : (writeCursor position).length = 16 := by
  rw [writeCursor, length_append, writeU64, writeU64, length_leBytes, length_leBytes]

theorem snapshotVersion_cases (src : SnapshotSource) (cursor : Option FeedPosition) :
    snapshotVersion src cursor = 4 ∨ snapshotVersion src cursor = 5 ∨ snapshotVersion src cursor = 6 ∨
      snapshotVersion src cursor = 7 := by
  unfold snapshotVersion
  split_ifs <;> simp

theorem le_snapshotVersion {src : SnapshotSource} {cursor : Option FeedPosition} : 4 ≤ snapshotVersion src cursor := by
  unfold snapshotVersion
  split_ifs <;> decide

theorem parses_header {version : UInt8} (h : version = 4 ∨ version = 5 ∨ version = 6 ∨ version = 7)
    (cursor : Option FeedPosition) : Parses readSnapshotHeader (writeHeader version cursor) version := by
  have hmagic : Parses (readExact .unexpectedEof 8) magic magic := Reads.readExact rfl
  have hcursor : Parses (readExact .unexpectedEof 16) (writeCursor (cursor.getD {})) (writeCursor (cursor.getD {})) :=
    Reads.readExact (length_writeCursor _)
  rcases h with rfl | rfl | rfl | rfl
  · exact hmagic.bind ((parses_u8 4).bind (Reads.pure 4))
  all_goals exact hmagic.bind ((parses_u8 _).bind hcursor.map)

def entryFits (e : Bytes × Entry Value) : Bool := fits32 e.1.length && e.2.value.fits

def readBack (w : Clock) (e : Bytes × Entry Value) : Option UInt64 × Bytes × Value :=
  (savedDeadline w e.2, e.1, e.2.value.asWritten)

variable {e : Bytes × Entry Value}

section Loop

variable {mono : Nat → Nat} {now : Nat} {keep : Bytes → Bool} {version : UInt8} {w : Clock}

theorem parses_loadEntry (hv : 4 ≤ version) (hfits : entryFits e)
    (hroster : e.2.value.rostered) (st : Loading) : Parses (loadStep mono now keep version st) (writeEntry w e)
      (.inl (st.loadEntry mono now keep version (readBack w e))) := by
  obtain ⟨hkey, hvalue⟩ := (Bool.and_eq_true _ _).mp hfits
  have hrecord : Parses (readEntry version e.2.value.op)
      (writeTtl (savedDeadline w e.2) ++ (writeBytes e.1 ++ writePayload e.2.value)) (readBack w e) :=
    (parses_ttl _).bind ((parses_bytes hkey).bind (parses_payload hv hvalue hroster).map)
  refine (parses_u8 e.2.value.op).bind ?_
  have hop : e.2.value.op ≠ 0 ∧ e.2.value.op ≠ 7 := by
    cases e.2.value <;> simp [Value.op]
  rw [if_neg hop.1, if_neg hop.2]
  exact hrecord.map

/-- The key and the field of a field deadline fit the format. -/
def ttlFits (p : (Bytes × Bytes) × UInt64) : Bool := fits32 p.1.1.length && fits32 p.1.2.length

theorem parses_loadHashTtl {p : (Bytes × Bytes) × UInt64} (hfits : ttlFits p) (st : Loading) :
    Parses (loadStep mono now keep version st) (writeHashTtl p) (.inl (st.loadHashTtl keep p)) := by
  obtain ⟨hkey, hfield⟩ := (Bool.and_eq_true _ _).mp hfits
  have hrecord : Parses readHashTtl (writeBytes p.1.1 ++ (writeBytes p.1.2 ++ writeU64 p.2)) p :=
    (parses_bytes hkey).bind ((parses_bytes hfield).bind (parses_u64 p.2).map)
  exact (parses_u8 7).bind hrecord.map

def loaded (mono : Nat → Nat) (now : Nat) (keep : Bytes → Bool) (version : UInt8) (w : Clock)
    (entries : List (Bytes × Entry Value)) (ttls : List ((Bytes × Bytes) × UInt64)) (st : Loading) : Loading :=
  ttls.foldl (Loading.loadHashTtl keep)
    (entries.foldl (fun st e => st.loadEntry mono now keep version (readBack w e)) st)

theorem loopReads_records (hv : 4 ≤ version) (entries : List (Bytes × Entry Value))
    (ttls : List ((Bytes × Bytes) × UInt64)) (hentries : ∀ e ∈ entries, entryFits e)
    (hroster : ∀ e ∈ entries, e.2.value.rostered) (httls : ∀ p ∈ ttls, ttlFits p) (st : Loading) :
    @LoopReads LoadError Loading Loading .unexpectedEof (loadStep mono now keep version) st
      (entries.flatMap (writeEntry w) ++ (ttls.flatMap writeHashTtl ++ [0]))
      (loaded mono now keep version w entries ttls st) := by
  induction entries generalizing st with
  | cons e entries ih =>
    rw [flatMap_cons, append_assoc]
    refine LoopReads.more (parses_loadEntry hv (hentries e mem_cons_self) (hroster e mem_cons_self) st)
      (cons_ne_nil _ _) ?_
    exact ih (forall_mem_cons.mp hentries).2 (forall_mem_cons.mp hroster).2 _
  | nil =>
    rw [flatMap_nil, nil_append]
    induction ttls generalizing st with
    | nil => exact LoopReads.last ((parses_u8 0).bind (Reads.pure _))
    | cons p ttls ih =>
      rw [flatMap_cons, append_assoc]
      refine LoopReads.more (parses_loadHashTtl (httls p mem_cons_self) st) (cons_ne_nil _ _) ?_
      exact ih (forall_mem_cons.mp httls).2 _

end Loop

/-! ## What the group reads put back -/

def restoreGroup (r : GroupReads) (g : ConsumerGroup) : ConsumerGroup where
  lastDeliveredId := g.lastDeliveredId
  pel := r.wide.foldl setCount g.pel
  consumers := r.active.foldl setActive g.consumers
  entriesRead := r.entriesRead

def restoreStream (s : StreamData) (r : GroupReads) : StreamData :=
  r.wide.foldl (fun s p => s.setDeliveryCount r.group p)
    (r.active.foldl (fun s c => s.consumerActive r.group c) (s.setEntriesRead r.group r.entriesRead))

theorem foldl_modify_groups {γ : Type} (group : Bytes) (f : ConsumerGroup → γ → ConsumerGroup) (cs : List γ)
    (s : StreamData) (g : ConsumerGroup → ConsumerGroup) :
    cs.foldl (fun s c => { s with groups := s.groups.modify group fun g => f g c })
      { s with groups := s.groups.modify group g } =
      { s with groups := s.groups.modify group fun x => cs.foldl f (g x) } := by
  induction cs generalizing g with
  | nil => rfl
  | cons c cs ih =>
    rw [foldl_cons]
    show cs.foldl _ { s with groups := (s.groups.modify group g).modify group fun g => f g c } = _
    rw [KeyedList.modify_modify]
    exact ih _

theorem restoreStream_eq (s : StreamData) (r : GroupReads) :
    restoreStream s r = { s with groups := s.groups.modify r.group (restoreGroup r) } := by
  have hactive (g : ConsumerGroup) : r.active.foldl (fun g c => { g with consumers := setActive g.consumers c }) g =
      { g with consumers := r.active.foldl setActive g.consumers } :=
    foldl_hom (fun cs => { g with consumers := cs }) fun _ _ => rfl
  have hwide (g : ConsumerGroup) : r.wide.foldl (fun g p => { g with pel := setCount g.pel p }) g =
      { g with pel := r.wide.foldl setCount g.pel } := foldl_hom (fun ps => { g with pel := ps }) fun _ _ => rfl
  unfold restoreStream StreamData.setDeliveryCount StreamData.consumerActive StreamData.setEntriesRead
  rw [foldl_modify_groups r.group (fun g c => { g with consumers := setActive g.consumers c }),
    foldl_modify_groups r.group (fun g p => { g with pel := setCount g.pel p })]
  congr 2
  funext g
  rw [hwide, hactive]
  rfl

theorem foldl_setActive (cs : List (Bytes × UInt64)) (m : KeyedList Bytes ConsumerState) (h : ∀ c ∈ cs, c.1 ∈ m.keys) :
    cs.foldl setActive m = cs.foldl (fun m c => m.modify c.1 fun q => { q with lastActiveMs := some c.2 }) m := by
  induction cs generalizing m with
  | nil => rfl
  | cons c cs ih =>
    have hc : m.keys.contains c.1 = true := contains_iff_mem.mpr (h c mem_cons_self)
    have hset : setActive m c = m.modify c.1 fun q => { q with lastActiveMs := some c.2 } := by
      rw [setActive, if_pos hc]
    rw [foldl_cons, foldl_cons, hset]
    apply ih
    intro d hd
    rw [KeyedList.keys_modify]
    exact h d (mem_cons_of_mem c hd)

theorem restore_consumers (g : ConsumerGroup) :
    g.active.foldl setActive (g.consumers.mapValues ConsumerState.asWritten) = g.consumers := by
  rw [foldl_setActive]
  · apply KeyedList.restore g.consumers ConsumerState.asWritten _ fun t q => { q with lastActiveMs := some t }
    · intro p _ c hc
      obtain ⟨t, ht, rfl⟩ := map_eq_some_iff.mp hc
      refine ⟨rfl, ?_⟩
      rw [← ht]
      rfl
    · intro p _ hnone
      have hlast : p.2.lastActiveMs = none := map_eq_none_iff.mp hnone
      unfold ConsumerState.asWritten
      rw [← hlast]
  · intro c hc
    obtain ⟨p, hp, hpc⟩ := mem_filterMap.mp hc
    obtain ⟨t, _, rfl⟩ := map_eq_some_iff.mp hpc
    rw [KeyedList.keys_mapValues]
    exact List.mem_map_of_mem hp

theorem restore_pel (g : ConsumerGroup) : g.wide.foldl setCount (g.pel.mapValues PelEntry.asWritten) = g.pel := by
  apply KeyedList.restore g.pel PelEntry.asWritten _ fun n q => { q with deliveryCount := n }
  · intro p _ c hc
    split_ifs at hc with hwide
    obtain rfl := some.inj hc
    exact ⟨rfl, rfl⟩
  · intro p _ hnone
    split_ifs at hnone with hwide
    unfold PelEntry.asWritten
    rw [Nat.min_eq_left (Nat.not_lt.mp hwide), UInt64.ofNat_toNat]

theorem restore_collectGroup {key : Bytes} {g : Bytes × ConsumerGroup} :
    (∀ r, collectGroup key g = some r → r.key = key ∧ r.group = g.1 ∧ restoreGroup r g.2.asWritten = g.2) ∧
      (collectGroup key g = none → g.2.asWritten = g.2) := by
  have hback : restoreGroup ⟨key, g.1, g.2.entriesRead, g.2.active, g.2.wide⟩ g.2.asWritten = g.2 := by
    unfold restoreGroup ConsumerGroup.asWritten
    rw [restore_consumers, restore_pel]
  unfold collectGroup
  constructor
  · intro r hr
    split_ifs at hr
    obtain rfl := some.inj hr
    exact ⟨rfl, rfl, hback⟩
  · intro hnone
    split_ifs at hnone with hempty
    simp only [Bool.and_eq_true, isNone_iff_eq_none, List.isEmpty_iff] at hempty
    obtain ⟨⟨hread, hactive⟩, hwide⟩ := hempty
    have hc := restore_consumers g.2
    have hp := restore_pel g.2
    rw [hactive] at hc
    rw [hwide] at hp
    unfold ConsumerGroup.asWritten
    rw [show g.2.consumers.mapValues ConsumerState.asWritten = g.2.consumers from hc,
      show g.2.pel.mapValues PelEntry.asWritten = g.2.pel from hp, ← hread]

theorem foldl_restoreStream (key : Bytes) (s : StreamData) :
    (s.groups.items.filterMap (collectGroup key)).foldl restoreStream s.asWritten = s := by
  have hgroups (rs : List GroupReads) (m : KeyedList Bytes ConsumerGroup) :
      rs.foldl restoreStream { s with groups := m } =
        { s with groups := rs.foldl (fun m r => m.modify r.group (restoreGroup r)) m } :=
    foldl_hom (fun m => { s with groups := m }) fun _ r => restoreStream_eq _ r
  have hpick : (s.groups.items.filterMap (collectGroup key)).map (fun r => (r.group, r)) =
      s.groups.items.filterMap fun g => (collectGroup key g).map fun r => (r.group, r) := map_filterMap
  have hrestore := KeyedList.restore s.groups ConsumerGroup.asWritten
    (fun g => (collectGroup key g).map fun r => (r.group, r)) restoreGroup ?_ ?_
  · rw [← hpick, foldl_map] at hrestore
    rw [StreamData.asWritten, hgroups, hrestore]
  · intro g _ c hc
    obtain ⟨r, hr, rfl⟩ := map_eq_some_iff.mp hc
    exact (restore_collectGroup.1 r hr).2
  · intro g _ hnone
    exact restore_collectGroup.2 (map_eq_none_iff.mp hnone)

/-! ## The store in front of the trailer -/

section Store

variable {mono : Nat → Nat} {now : Nat} {keep : Bytes → Bool} {version : UInt8} {w : Clock}

def relocated (w : Clock) (now t : Nat) (e : Entry Value) : Option Nat :=
  (savedDeadline w e).bind fun d => packDeadline (deadlineAt t (d.toNat - now))

def Holds (mono : Nat → Nat) (w : Clock) (now : Nat) (f : Value → Value) (s : Store) (e : Bytes × Entry Value) : Prop :=
  ∃ i, s.map e.1 = some ⟨f e.2.value, relocated w now (mono i) e.2⟩

theorem isStub_asWritten (v : Value) : v.asWritten.isStub = v.isStub := by cases v <;> rfl

theorem map_loadEntry (hv : 4 ≤ version) (hstub : e.2.value.isStub → e.2.expireAt = none)
    (hkeep : keep e.1) (st : Loading) : (st.loadEntry mono now keep version (readBack w e)).store.map =
      Function.update st.store.map e.1 (some ⟨e.2.value.asWritten, relocated w now (mono st.ticks) e.2⟩) := by
  have hv3 : 3 ≤ version := UInt8.le_trans (by decide) hv
  have hrem : remaining now version (savedDeadline w e.2) = (savedDeadline w e.2).map fun d => d.toNat - now := by
    simp only [remaining, if_pos hv3]
  have hload : st.loadEntry mono now keep version (readBack w e) = st.loadValue mono e.1 e.2.value.asWritten
      (remaining now version (savedDeadline w e.2)) := if_pos hkeep
  rw [hload, Loading.loadValue, isStub_asWritten]
  split_ifs with h
  · have hnone : relocated w now (mono st.ticks) e.2 = none := by
      rw [relocated, savedDeadline, hstub h]
      rfl
    rw [hnone]
    rfl
  · show Function.update st.store.map e.1 (some ⟨_, (remaining now version (savedDeadline w e.2)).bind _⟩) = _
    rw [hrem, bind_map]
    rfl

theorem loadEntry_of_not_keep (hkeep : ¬ keep e.1) (st : Loading) :
    st.loadEntry mono now keep version (readBack w e) = st := if_neg hkeep

theorem hfttl_loadEntry {st : Loading} (h : st.store.hfttl = .empty) (r : Option UInt64 × Bytes × Value) :
    (st.loadEntry mono now keep version r).store.hfttl = .empty := by
  unfold Loading.loadEntry Loading.loadValue
  split_ifs
  · exact h
  · show st.store.hfttl.filter _ = .empty
    rw [h]
    rfl
  · exact h

theorem foldl_loadEntry (hv : 4 ≤ version) (entries : List (Bytes × Entry Value))
    (hnodup : (entries.map Prod.fst).Nodup) (hstub : ∀ e ∈ entries, e.2.value.isStub → e.2.expireAt = none)
    (st : Loading) (hempty : st.store.hfttl = .empty) :
    let st' := entries.foldl (fun st e => st.loadEntry mono now keep version (readBack w e)) st
    (∀ e ∈ entries, keep e.1 → Holds mono w now Value.asWritten st'.store e) ∧
      (∀ k, (∀ e ∈ entries, keep e.1 → e.1 ≠ k) → st'.store.map k = st.store.map k) ∧ st'.store.hfttl = .empty := by
  induction entries generalizing st with
  | nil => exact ⟨nofun, fun _ _ => rfl, hempty⟩
  | cons e entries ih =>
    rw [map_cons] at hnodup
    obtain ⟨he, hrest⟩ := nodup_cons.mp hnodup
    obtain ⟨hin, hout, hfield⟩ := ih hrest (forall_mem_cons.mp hstub).2
      (st.loadEntry mono now keep version (readBack w e)) (hfttl_loadEntry hempty _)
    refine ⟨fun x hx hkeep => ?_, fun k hk => ?_, hfield⟩
    · rcases mem_cons.mp hx with rfl | hx
      · refine ⟨st.ticks, ?_⟩
        rw [foldl_cons, hout x.1 fun y hy _ heq => he (heq ▸ List.mem_map_of_mem hy),
          map_loadEntry hv (hstub x mem_cons_self) hkeep, update_self]
      · exact hin x hx hkeep
    · rw [foldl_cons, hout k (forall_mem_cons.mp hk).2]
      by_cases hkeep : keep e.1
      · rw [map_loadEntry hv (hstub e mem_cons_self) hkeep]
        exact update_of_ne (hk e mem_cons_self hkeep).symm _ _
      · rw [loadEntry_of_not_keep hkeep]

theorem foldl_loadHashTtl (ttls : List ((Bytes × Bytes) × UInt64)) (st : Loading) :
    let st' := ttls.foldl (Loading.loadHashTtl keep) st
    st'.store.map = st.store.map ∧
      st'.store.hfttl = (ttls.filter fun p => keep p.1.1).foldl (fun m p => m.insert p.1 p.2) st.store.hfttl := by
  induction ttls generalizing st with
  | nil => exact ⟨rfl, rfl⟩
  | cons p ttls ih =>
    rw [foldl_cons, filter_cons, Loading.loadHashTtl]
    split_ifs
    · exact ih _
    · exact ih st

end Store

/-! ## The trailer -/

section Trailer

variable {mono : Nat → Nat} {keep : Bytes → Bool} {later : Nat} {key : Bytes} {d : Option Nat} {s : StreamData}
  {st : Loading}

/-- A key holds the stream, or held it until its deadline. -/
def Cell (later : Nat) (x : Option (Entry Value)) (s : StreamData) (d : Option Nat) : Prop :=
  x = some ⟨.stream s, d⟩ ∨ x = none ∧ ∃ t, d = some t ∧ t ≤ later

/-- A state in which `key` holds the stream `s` and everything else is as in `st`. -/
structure Touched (later : Nat) (key : Bytes) (d : Option Nat) (s : StreamData) (st st' : Loading) : Prop where
  cell : Cell later (st'.store.map key) s d
  others : ∀ k, k ≠ key → st'.store.map k = st.store.map k
  fields : st'.store.hfttl = st.store.hfttl

def Fieldless (st : Loading) (key : Bytes) : Prop := ∀ p ∈ st.store.hfttl.items, p.1.1 ≠ key

theorem clearHashKeyTtls_of_fieldless (h : Fieldless st key) : st.store.clearHashKeyTtls key = st.store.hfttl := by
  apply KeyedList.ext
  apply filter_eq_self.mpr
  intro p hp
  exact decide_eq_true (h p hp)

theorem Touched.trans {st' st'' : Loading} {s' s'' : StreamData} (h : Touched later key d s' st st')
    (h' : Touched later key d s'' st' st'') : Touched later key d s'' st st'' where
  cell := h'.cell
  others k hk := (h'.others k hk).trans (h.others k hk)
  fields := h'.fields.trans h.fields

theorem Touched.fieldless {st' : Loading} (h : Touched later key d s st st') {k : Bytes} (hfield : Fieldless st k) :
    Fieldless st' k := by
  unfold Fieldless
  rw [h.fields]
  exact hfield

theorem streamMut_touched (hmono : ∀ i, mono i ≤ later) (h : Cell later (st.store.map key) s d)
    (hfield : Fieldless st key) (f : StreamData → StreamData) :
    ∃ st', st.streamMut mono key f = .ok st' ∧ Touched later key d (f s) st st' := by
  unfold Loading.streamMut
  rcases h with h | ⟨h, hexpired⟩
  · rw [h]
    by_cases hdue : (⟨.stream s, d⟩ : Entry Value).expired (mono st.ticks)
    · simp only [if_pos hdue]
      refine ⟨_, rfl, .inr ⟨update_self .., ?_⟩, fun k hk => update_of_ne hk _ _,
        clearHashKeyTtls_of_fieldless hfield⟩
      obtain ⟨t, ht, hle⟩ := expired_iff.mp hdue
      exact ⟨t, ht, Nat.le_trans hle (hmono _)⟩
    · simp only [if_neg hdue]
      exact ⟨_, rfl, .inl (update_self ..), fun k hk => update_of_ne hk _ _, rfl⟩
  · rw [h]
    exact ⟨st, rfl, .inr ⟨h, hexpired⟩, fun _ _ => rfl, rfl⟩

theorem foldlM_streamMut_touched {γ : Type} (hmono : ∀ i, mono i ≤ later) (F : StreamData → γ → StreamData)
    (cs : List γ) (h : Cell later (st.store.map key) s d) (hfield : Fieldless st key) :
    ∃ st', cs.foldlM (fun st c => st.streamMut mono key fun s => F s c) st = .ok st' ∧
      Touched later key d (cs.foldl F s) st st' := by
  induction cs generalizing st s with
  | nil => exact ⟨st, rfl, h, fun _ _ => rfl, rfl⟩
  | cons c cs ih =>
    obtain ⟨st1, hrun, htouched⟩ := streamMut_touched hmono h hfield fun s => F s c
    obtain ⟨st', hrun', htouched'⟩ := ih htouched.cell (htouched.fieldless hfield)
    refine ⟨st', ?_, htouched.trans htouched'⟩
    rw [foldlM_cons, hrun]
    exact hrun'

theorem applyGroupReads_touched (hmono : ∀ i, mono i ≤ later) (r : GroupReads)
    (h : Cell later (st.store.map r.key) s d) (hfield : Fieldless st r.key) :
    ∃ st', st.applyGroupReads mono r = .ok st' ∧ Touched later r.key d (restoreStream s r) st st' := by
  obtain ⟨st1, hrun1, h1⟩ := streamMut_touched hmono h hfield fun s => s.setEntriesRead r.group r.entriesRead
  obtain ⟨st2, hrun2, h2⟩ := foldlM_streamMut_touched hmono (fun s c => s.consumerActive r.group c) r.active
    h1.cell (h1.fieldless hfield)
  obtain ⟨st3, hrun3, h3⟩ := foldlM_streamMut_touched hmono (fun s p => s.setDeliveryCount r.group p) r.wide
    h2.cell (h2.fieldless (h1.fieldless hfield))
  refine ⟨st3, ?_, (h1.trans h2).trans h3⟩
  rw [Loading.applyGroupReads, hrun1]
  show Except.bind (r.active.foldlM (fun st c => st.streamMut mono r.key fun s => s.consumerActive r.group c) st1)
    (fun st => r.wide.foldlM (fun st p => st.streamMut mono r.key fun s => s.setDeliveryCount r.group p) st) = _
  rw [hrun2]
  exact hrun3

def applyKept (mono : Nat → Nat) (keep : Bytes → Bool) (st : Loading) (r : GroupReads) : Except LoadError Loading :=
  if keep r.key then st.applyGroupReads mono r else .ok st

theorem foldlM_applyKept_touched (hmono : ∀ i, mono i ≤ later) (hkeep : keep key) (rs : List GroupReads)
    (hrs : ∀ r ∈ rs, r.key = key) (h : Cell later (st.store.map key) s d) (hfield : Fieldless st key) :
    ∃ st', rs.foldlM (applyKept mono keep) st = .ok st' ∧ Touched later key d (rs.foldl restoreStream s) st st' := by
  induction rs generalizing st s with
  | nil => exact ⟨st, rfl, h, fun _ _ => rfl, rfl⟩
  | cons r rs ih =>
    obtain rfl := hrs r mem_cons_self
    obtain ⟨st1, hrun, htouched⟩ := applyGroupReads_touched hmono r h hfield
    obtain ⟨st', hrun', htouched'⟩ := ih (forall_mem_cons.mp hrs).2 htouched.cell (htouched.fieldless hfield)
    refine ⟨st', ?_, htouched.trans htouched'⟩
    rw [foldlM_cons, applyKept, if_pos hkeep, hrun]
    exact hrun'

theorem foldlM_applyKept_skipped (hkeep : ¬ keep key) (rs : List GroupReads) (hrs : ∀ r ∈ rs, r.key = key) :
    rs.foldlM (applyKept mono keep) st = .ok st := by
  induction rs with
  | nil => rfl
  | cons r rs ih =>
    have hr : ¬ keep r.key := hrs r mem_cons_self ▸ hkeep
    rw [foldlM_cons, applyKept, if_neg hr]
    exact ih (forall_mem_cons.mp hrs).2

theorem key_of_mem_collect {r : GroupReads} (h : r ∈ collect e) : r.key = e.1 := by
  unfold collect at h
  split at h
  · obtain ⟨g, _, hg⟩ := mem_filterMap.mp h
    exact (restore_collectGroup.1 r hg).1
  · cases h

theorem asWritten_of_not_stream {v : Value} (h : ¬ v.isStream) : v.asWritten = v := by
  cases v <;> first | rfl | exact absurd rfl h

theorem collect_of_not_stream (h : ¬ e.2.value.isStream) : collect e = [] := by
  unfold collect
  split
  · rename_i s hs
    rw [hs] at h
    exact absurd rfl h
  · rfl

variable {w : Clock} {now : Nat}

def Shows (mono : Nat → Nat) (w : Clock) (now later : Nat) (s : Store) (e : Bytes × Entry Value) : Prop :=
  ∃ i, s.map.live later e.1 = alive later (some ⟨e.2.value, relocated w now (mono i) e.2⟩)

theorem collect_shows (hmono : ∀ i, mono i ≤ later) (hkeep : keep e.1)
    (h : Holds mono w now Value.asWritten st.store e) (hfield : e.2.value.isStream → Fieldless st e.1) :
    ∃ st', (collect e).foldlM (applyKept mono keep) st = .ok st' ∧ Shows mono w now later st'.store e ∧
      (∀ k, k ≠ e.1 → st'.store.map k = st.store.map k) ∧ st'.store.hfttl = st.store.hfttl := by
  obtain ⟨i, hi⟩ := h
  by_cases hstream : e.2.value.isStream
  · obtain ⟨s, hs⟩ : ∃ s, e.2.value = .stream s := by
      cases hv : e.2.value with
      | stream s => exact ⟨s, rfl⟩
      | _ => rw [hv] at hstream; cases hstream
    rw [hs] at hi
    obtain ⟨st', hrun, htouched⟩ := foldlM_applyKept_touched hmono hkeep (collect e)
      (fun r hr => key_of_mem_collect hr) (.inl hi) (hfield hstream)
    have hcollect : collect e = s.groups.items.filterMap (collectGroup e.1) := by
      rw [collect, hs]
    refine ⟨st', hrun, ⟨i, ?_⟩, htouched.others, htouched.fields⟩
    have hcell := htouched.cell
    rw [hcollect, foldl_restoreStream] at hcell
    show alive later (st'.store.map e.1) = _
    rw [hs]
    rcases hcell with hcell | ⟨hcell, t, ht, hle⟩
    · rw [hcell]
    · rw [hcell, ht, alive_of_le hle, alive_none]
  · rw [collect_of_not_stream hstream]
    refine ⟨st, rfl, ⟨i, ?_⟩, fun _ _ => rfl, rfl⟩
    rw [asWritten_of_not_stream hstream] at hi
    show alive later (st.store.map e.1) = _
    rw [hi]

theorem foldlM_collect_shows (hmono : ∀ i, mono i ≤ later) (entries : List (Bytes × Entry Value))
    (hnodup : (entries.map Prod.fst).Nodup) (h : ∀ e ∈ entries, keep e.1 → Holds mono w now Value.asWritten st.store e)
    (hfield : ∀ e ∈ entries, e.2.value.isStream → Fieldless st e.1) :
    ∃ st', (entries.flatMap collect).foldlM (applyKept mono keep) st = .ok st' ∧
      (∀ e ∈ entries, keep e.1 → Shows mono w now later st'.store e) ∧
      (∀ k, (∀ e ∈ entries, keep e.1 → e.1 ≠ k) → st'.store.map k = st.store.map k) ∧
      st'.store.hfttl = st.store.hfttl := by
  induction entries generalizing st with
  | nil => exact ⟨st, rfl, nofun, fun _ _ => rfl, rfl⟩
  | cons e entries ih =>
    rw [map_cons] at hnodup
    obtain ⟨he, hrest⟩ := nodup_cons.mp hnodup
    have hne : ∀ x ∈ entries, x.1 ≠ e.1 := fun x hx heq => he (heq ▸ List.mem_map_of_mem hx)
    obtain ⟨st1, hrun, hshows, hothers, hfields⟩ : ∃ st1,
        (collect e).foldlM (applyKept mono keep) st = .ok st1 ∧ (keep e.1 → Shows mono w now later st1.store e) ∧
        (∀ k, (keep e.1 → e.1 ≠ k) → st1.store.map k = st.store.map k) ∧ st1.store.hfttl = st.store.hfttl := by
      by_cases hkeep : keep e.1
      · obtain ⟨st1, hrun, hshows, hothers, hfields⟩ := collect_shows hmono hkeep (h e mem_cons_self hkeep)
          (hfield e mem_cons_self)
        exact ⟨st1, hrun, fun _ => hshows, fun k hk => hothers k (hk hkeep).symm, hfields⟩
      · exact ⟨st, foldlM_applyKept_skipped hkeep _ fun r hr => key_of_mem_collect hr, fun hk => absurd hk hkeep,
          fun _ _ => rfl, rfl⟩
    obtain ⟨st', hrun', hshows', hothers', hfields'⟩ := @ih st1 hrest (fun x hx hkeep => by
        obtain ⟨i, hi⟩ := h x (mem_cons_of_mem e hx) hkeep
        exact ⟨i, (hothers x.1 fun _ => (hne x hx).symm).trans hi⟩)
      (fun x hx hstream => by
        unfold Fieldless
        rw [hfields]
        exact hfield x (mem_cons_of_mem e hx) hstream)
    refine ⟨st', ?_, fun x hx hkeep => ?_, fun k hk => ?_, hfields'.trans hfields⟩
    · rw [flatMap_cons, foldlM_append, hrun]
      exact hrun'
    · rcases mem_cons.mp hx with rfl | hx
      · obtain ⟨i, hi⟩ := hshows hkeep
        refine ⟨i, ?_⟩
        show alive later (st'.store.map x.1) = _
        rw [hothers' x.1 fun y hy _ => hne y hy]
        exact hi
      · exact hshows' x hx hkeep
    · rw [hothers' k (forall_mem_cons.mp hk).2, hothers k (hk e mem_cons_self)]

end Trailer

/-! ## The whole file -/

theorem fits32_of_le {m n : Nat} (h : fits32 n) (hle : m ≤ n) : fits32 m :=
  decide_eq_true (Nat.le_trans hle (of_decide_eq_true h))

theorem parses_counter (n : Option UInt64) : Parses readCounter (writeTtl n) n := by
  cases n with
  | none => exact (parses_u8 0).bind (Reads.pure none)
  | some n => exact (parses_u8 1).bind (parses_u64 n).map

theorem parses_groupReads (hfits : entryFits e) {r : GroupReads} (hr : r ∈ collect e) :
    Parses readGroupReads (writeGroupReads r) r := by
  obtain ⟨hkey, hvalue⟩ := (Bool.and_eq_true _ _).mp hfits
  unfold collect at hr
  split at hr
  · rename_i s hs
    rw [hs] at hvalue
    obtain ⟨g, hg, hr⟩ := mem_filterMap.mp hr
    unfold collectGroup at hr
    split_ifs at hr
    obtain rfl := some.inj hr
    have hstream : s.fits := hvalue
    unfold StreamData.fits at hstream
    simp only [Bool.and_eq_true, List.all_eq_true] at hstream
    obtain ⟨hname, hgroup⟩ := hstream.2.2 g hg
    unfold ConsumerGroup.fits at hgroup
    simp only [Bool.and_eq_true, List.all_eq_true] at hgroup
    obtain ⟨⟨hclen, hconsumers⟩, hplen, _⟩ := hgroup
    have hactive : Parses (readVec readScore) (writeVec writeScore g.2.active) g.2.active := by
      apply parses_vec (fits32_of_le hclen (length_filterMap_le _ _))
      intro c hc
      obtain ⟨c', hc', heq⟩ := mem_filterMap.mp hc
      obtain ⟨t, _, rfl⟩ := map_eq_some_iff.mp heq
      exact parses_score (hconsumers c' hc')
    have hwide : Parses (readVec readWide) (writeVec writeWide g.2.wide) g.2.wide :=
      parses_vec (fits32_of_le hplen (length_filterMap_le _ _)) fun p _ =>
        (parses_id p.1).bind (parses_u64 p.2).map
    exact (parses_bytes hkey).bind ((parses_bytes hname).bind ((parses_counter _).bind (hactive.bind hwide.map)))
  · cases hr

section File

variable {mono : Nat → Nat} {now : Nat} {keep : Bytes → Bool} {st st' : Loading}

theorem trailerStep_groupReads {r : GroupReads} (hparse : Parses readGroupReads (writeGroupReads r) r)
    (hrun : applyKept mono keep st r = .ok st') (aux : Option (List Bytes)) (rest : Bytes) :
    trailerStep mono keep (st, aux) (10 :: writeGroupReads r ++ rest) = .ok (.inl (st', aux), rest) := by
  have happly : readAndApply mono keep st (writeGroupReads r ++ rest) = .ok (st', rest) := by
    rw [readAndApply, bind_of_ok (hparse.whole rest)]
    unfold applyKept at hrun
    split_ifs at hrun ⊢ with hkeep
    · rw [hrun]
      rfl
    · cases hrun
      rfl
  show readTrailerRecord mono keep (st, aux) 10 (writeGroupReads r ++ rest) = _
  rw [readTrailerRecord, if_neg fun h => absurd h.1 (by decide), if_pos rfl]
  exact bind_of_ok happly

theorem readLoop_trailer (reads : List GroupReads) (hparse : ∀ r ∈ reads, Parses readGroupReads (writeGroupReads r) r)
    (hrun : reads.foldlM (applyKept mono keep) st = .ok st') (aux : Option (List Bytes)) (fuel : Nat)
    (hfuel : (reads.flatMap fun r => 10 :: writeGroupReads r).length < fuel) :
    readLoop .unexpectedEof (trailerStep mono keep) fuel (st, aux) (reads.flatMap fun r => 10 :: writeGroupReads r) =
      .ok ((st', aux), []) := by
  induction reads generalizing st fuel with
  | nil =>
    obtain ⟨fuel, rfl⟩ := Nat.exists_eq_succ_of_ne_zero (Nat.ne_of_gt hfuel)
    cases hrun
    rfl
  | cons r reads ih =>
    rw [flatMap_cons, length_append, length_cons] at hfuel
    obtain ⟨fuel, rfl⟩ : ∃ n, fuel = n + 1 := Nat.exists_eq_succ_of_ne_zero (by omega)
    rw [foldlM_cons] at hrun
    cases hr : applyKept mono keep st r with
    | error e =>
      rw [hr] at hrun
      cases hrun
    | ok st1 =>
      rw [hr] at hrun
      rw [flatMap_cons]
      refine (bind_of_ok (trailerStep_groupReads (hparse r mem_cons_self) hr aux _)).trans ?_
      exact ih (forall_mem_cons.mp hparse).2 hrun fuel (by omega)

def auxFits (aux : Option (List Bytes)) : Bool :=
  aux.all fun frame => fits32 frame.length && frame.all fun part => fits32 part.length

theorem readUntil_trailer {aux : Option (List Bytes)} (haux : auxFits aux) (reads : List GroupReads)
    (hparse : ∀ r ∈ reads, Parses readGroupReads (writeGroupReads r) r)
    (hrun : reads.foldlM (applyKept mono keep) st = .ok st') :
    ∃ trailer, writeTrailer aux reads = .ok trailer ∧
      readUntil .unexpectedEof (trailerStep mono keep) (st, none) trailer = .ok ((st', aux), []) := by
  cases aux with
  | none => exact ⟨_, rfl, readLoop_trailer reads hparse hrun none _ (Nat.lt_succ_self _)⟩
  | some frame =>
    obtain ⟨hlen, hparts⟩ := (Bool.and_eq_true _ _).mp haux
    have hframe : Parses (readVec readBytes) (writeVec writeBytes frame) frame :=
      parses_vec hlen fun part hp => parses_bytes (List.all_eq_true.mp hparts part hp)
    refine ⟨_, if_pos hlen, ?_⟩
    refine (bind_of_ok (bind_of_ok (hframe.whole _))).trans ?_
    apply readLoop_trailer reads hparse hrun
    rw [length_cons, length_append]
    omega

def SnapshotSource.fits (src : SnapshotSource) : Bool :=
  src.entries.items.all entryFits && src.hashTtl.items.all ttlFits && auxFits src.aux

variable {src : SnapshotSource} {w : Clock} {cursor : Option FeedPosition}

theorem SnapshotSource.mem_of_live {n : Nat} (h : e ∈ src.live n) : e ∈ src.entries.items ∧ ¬ e.2.expired n := by
  obtain ⟨hmem, hlive⟩ := mem_filter.mp h
  exact ⟨hmem, by simpa using hlive⟩

theorem SnapshotSource.nodup_live (n : Nat) : ((src.live n).map Prod.fst).Nodup :=
  src.entries.nodup.sublist (filter_sublist.map Prod.fst)

theorem parses_data (hfits : src.fits) : Parses (readData mono now keep) (snapshotData src w cursor ++ [0])
      (loaded mono now keep (snapshotVersion src cursor) w (src.live w.mono) src.hashTtl.items ⟨.empty, 0⟩) := by
  unfold SnapshotSource.fits at hfits
  simp only [Bool.and_eq_true, List.all_eq_true] at hfits
  obtain ⟨⟨hentries, httls⟩, _⟩ := hfits
  rw [snapshotData, append_assoc, append_assoc]
  refine (parses_header (snapshotVersion_cases src cursor) cursor).bind (LoopReads.reads ?_)
  exact loopReads_records le_snapshotVersion _ _ (fun e he => hentries e (SnapshotSource.mem_of_live he).1)
    (fun e he => src.rostered e (SnapshotSource.mem_of_live he).1) httls _

theorem load_cut (hfits : src.fits) (trailer : Bytes) {n : Nat} (hn : n ≤ (snapshotData src w cursor).length) :
    loadSnapshotWithAux mono now keep ((snapshotData src w cursor ++ 0 :: trailer).take n) = .error .unexpectedEof := by
  have hcut : readData mono now keep ((snapshotData src w cursor).take n) = .error .unexpectedEof := by
    apply (parses_data hfits).short
    · exact ( take_prefix n _).trans (prefix_append _ _)
    · intro heq
      have hlen := congrArg List.length heq
      rw [length_take, length_append, length_singleton] at hlen
      omega
  rw [take_append_of_le_length hn, loadSnapshotWithAux, StateT.run']
  show Prod.fst <$> _ = _
  rw [bind_of_error hcut]
  rfl

/-- **A written file loads**: at `later`, a kept key shows what was written of it and other keys show nothing. -/
theorem load_written (hfits : src.fits) {later : Nat} (hmono : ∀ i, mono i ≤ later) :
    ∃ trailer st, writeSnapshotToWithCursor src w cursor = .ok (snapshotData src w cursor ++ 0 :: trailer) ∧
      loadSnapshotWithAux mono now keep (snapshotData src w cursor ++ 0 :: trailer) = .ok (st, src.aux) ∧
      (∀ e ∈ src.live w.mono, keep e.1 → Shows mono w now later st.store e) ∧
      (∀ k, (∀ e ∈ src.live w.mono, keep e.1 → e.1 ≠ k) → st.store.map k = none) ∧
      st.store.hfttl = src.hashTtl.filter fun p => keep p.1.1 := by
  have hall := hfits
  unfold SnapshotSource.fits at hall
  simp only [Bool.and_eq_true, List.all_eq_true] at hall
  obtain ⟨⟨hentries, _⟩, haux⟩ := hall
  obtain ⟨hin, hout, hempty⟩ := @foldl_loadEntry mono now keep _ w le_snapshotVersion (src.live w.mono) (src.nodup_live w.mono)
    (fun e he => src.stub_forever e (SnapshotSource.mem_of_live he).1) ⟨.empty, 0⟩ rfl
  obtain ⟨hmap, hfields⟩ := @foldl_loadHashTtl keep src.hashTtl.items
    ((src.live w.mono).foldl (fun st e => st.loadEntry mono now keep (snapshotVersion src cursor) (readBack w e))
      ⟨.empty, 0⟩)
  have hfttl : (loaded mono now keep (snapshotVersion src cursor) w (src.live w.mono) src.hashTtl.items
      ⟨.empty, 0⟩).store.hfttl = src.hashTtl.filter fun p => keep p.1.1 := by
    rw [loaded, hfields, hempty]
    exact KeyedList.ofList_items (src.hashTtl.filter fun p => keep p.1.1)
  obtain ⟨st, hrun, hshows, hothers, hkept⟩ := @foldlM_collect_shows mono keep later
    (loaded mono now keep (snapshotVersion src cursor) w (src.live w.mono) src.hashTtl.items ⟨.empty, 0⟩) w now
    hmono (src.live w.mono) (src.nodup_live w.mono)
    (fun e he hkeep => by
      obtain ⟨i, hi⟩ := hin e he hkeep
      exact ⟨i, (congrFun hmap e.1).trans hi⟩)
    (fun e he hstream p hp => by
      rw [hfttl] at hp
      exact src.stream_whole e (SnapshotSource.mem_of_live he).1 hstream p (mem_of_mem_filter hp))
  obtain ⟨trailer, hwrite, hread⟩ := readUntil_trailer haux ((src.live w.mono).flatMap collect) (fun r hr => by
      obtain ⟨e, he, hr⟩ := mem_flatMap.mp hr
      exact parses_groupReads (hentries e (SnapshotSource.mem_of_live he).1) hr) hrun
  refine ⟨trailer, st, ?_, ?_, hshows, fun k hk => ?_, hkept.trans hfttl⟩
  · rw [writeSnapshotToWithCursor, hwrite]
    rfl
  · have hdata := (@parses_data mono now keep src w cursor hfits).whole trailer
    rw [append_assoc, singleton_append] at hdata
    rw [loadSnapshotWithAux, StateT.run']
    show Prod.fst <$> _ = _
    rw [bind_of_ok hdata, hread]
    rfl
  · rw [hothers k hk]
    exact (congrFun hmap k).trans (hout k hk)

theorem parses_cursor {version : UInt8} (h : version = 4 ∨ version = 5 ∨ version = 6 ∨ version = 7)
    (cursor : Option FeedPosition) :
    Parses readCursor (writeHeader version cursor) (if 5 ≤ version then some (cursor.getD {}) else none) := by
  have hmagic : Parses (readExact .unexpectedEof 8) magic magic := Reads.readExact rfl
  have hposition : Parses (do
      let generation ← readU64
      let offset ← readU64
      pure (some ⟨generation, offset⟩)) (writeCursor (cursor.getD {})) (some (cursor.getD {})) :=
    (parses_u64 _).bind (parses_u64 _).map
  rcases h with rfl | rfl | rfl | rfl
  · exact hmagic.bind ((parses_u8 4).bind (Reads.pure none))
  all_goals exact hmagic.bind ((parses_u8 _).bind hposition)

/-- The cursor of a written file. With field deadlines or row segments the header carries a position even where none
was given, and then it is the zero one. -/
theorem cursor_written (rest : Bytes) : readSnapshotCursor (snapshotData src w cursor ++ rest) =
      .ok (cursor.or (if src.rowSegs || !src.hashTtl.items.isEmpty then some {} else none)) := by
  have hcursor : (if 5 ≤ snapshotVersion src cursor then some (cursor.getD {}) else none) =
      cursor.or (if src.rowSegs || !src.hashTtl.items.isEmpty then some {} else none) := by
    unfold snapshotVersion
    cases cursor <;> cases src.rowSegs <;> cases src.hashTtl.items.isEmpty <;> rfl
  rw [snapshotData, append_assoc, readSnapshotCursor, StateT.run']
  show Prod.fst <$> readCursor _ = _
  rw [(parses_cursor (snapshotVersion_cases src cursor) cursor).whole, hcursor]
  rfl

end File

/-! ## Deadlines -/

/-- A deadline reads on the wall clock as it did, or as the present once it has passed. -/
def SameDeadline (written loaded : Clock) : Option Nat → Option Nat → Prop
  | none, none => True
  | some d, some d' => deadlineUnixMs loaded d' = max loaded.wall (deadlineUnixMs written d)
  | _, _ => False

theorem sameDeadline_relocated {w r : Clock} {e : Entry Value} (hlive : ¬ e.expired w.mono) (hpos : 0 < r.mono)
    (hwall : r.wall ≤ u64Max)
    (hend : ∀ d, e.expireAt = some d → r.mono + (deadlineUnixMs w d - r.wall) * 1000000 ≤ u64Max) :
    SameDeadline w r e.expireAt (relocated w r.wall r.mono e) := by
  cases hd : e.expireAt with
  | none =>
    rw [relocated, savedDeadline, hd]
    trivial
  | some d =>
    have hahead : w.mono < d := by
      by_contra hle
      exact hlive (expired_iff.mpr ⟨d, hd, Nat.not_lt.mp hle⟩)
    have hunix : deadlineUnixMs w d = min (w.wall + remainingMs d w.mono) u64Max := if_pos (Nat.le_of_lt hahead)
    have hle : deadlineUnixMs w d ≤ u64Max := by
      rw [hunix]
      exact Nat.min_le_right _ _
    have hround : (UInt64.ofNat (deadlineUnixMs w d)).toNat = deadlineUnixMs w d := by
      apply UInt64.toNat_ofNat_of_lt'
      unfold u64Max at hle
      show _ < 2 ^ 64
      omega
    have hfit := hend d hd
    have hat : deadlineAt r.mono (deadlineUnixMs w d - r.wall) =
        r.mono + (deadlineUnixMs w d - r.wall) * 1000000 := by
      rw [deadlineAt, Nat.min_eq_left (Nat.le_trans (Nat.le_add_left _ _) hfit), Nat.min_eq_left hfit]
    have hnew : relocated w r.wall r.mono e = some (r.mono + (deadlineUnixMs w d - r.wall) * 1000000) := by
      rw [relocated, savedDeadline, hd, map_some, bind_some, ← hunix, hround, hat, packDeadline, if_neg]
      omega
    rw [hnew]
    show deadlineUnixMs r _ = _
    rw [deadlineUnixMs, if_pos (Nat.le_add_right _ _), Nat.add_sub_cancel_left, Nat.mul_div_cancel _ (by decide)]
    omega

/-- **A snapshot comes back.** For a source whose lengths and counts fit the format, the written bytes load: looked at
from any time after the load, each live key shows its value with its deadline, other keys show nothing, the field
deadlines and the frame are there, the cursor is the one that was given, and no front of the file that ends before
the end-of-data opcode loads. -/
theorem snapshot_round_trip (src : SnapshotSource) (hfits : src.fits) (w : Clock) (cursor : Option FeedPosition)
    (mono : Nat → Nat) (wall later : Nat) (hpos : ∀ i, 0 < mono i) (hlater : ∀ i, mono i ≤ later)
    (hwall : wall ≤ u64Max) (hend : ∀ e ∈ src.live w.mono, ∀ d, e.2.expireAt = some d → ∀ i,
      mono i + (deadlineUnixMs w d - wall) * 1000000 ≤ u64Max) :
    ∃ trailer st, writeSnapshotToWithCursor src w cursor = .ok (snapshotData src w cursor ++ 0 :: trailer) ∧
      loadSnapshotWithAux mono wall (fun _ => true) (snapshotData src w cursor ++ 0 :: trailer) = .ok (st, src.aux) ∧
      (∀ e ∈ src.live w.mono, ∃ i d, SameDeadline w ⟨mono i, wall⟩ e.2.expireAt d ∧
        st.store.map.live later e.1 = alive later (some ⟨e.2.value, d⟩)) ∧
      (∀ k, (∀ e ∈ src.live w.mono, e.1 ≠ k) → st.store.map k = none) ∧ st.store.hfttl = src.hashTtl ∧
      readSnapshotCursor (snapshotData src w cursor ++ 0 :: trailer) =
        .ok (cursor.or (if src.rowSegs || !src.hashTtl.items.isEmpty then some {} else none)) ∧
      ∀ n ≤ (snapshotData src w cursor).length,
        loadSnapshotWithAux mono wall (fun _ => true) ((snapshotData src w cursor ++ 0 :: trailer).take n) =
          .error .unexpectedEof := by
  obtain ⟨trailer, st, hwrite, hload, hshows, hnone, hfields⟩ :=
    @load_written mono wall (fun _ => true) src w cursor hfits later hlater
  refine ⟨trailer, st, hwrite, hload, fun e he => ?_, fun k hk => hnone k fun e he _ => hk e he, ?_,
    cursor_written _, fun n hn => load_cut hfits trailer hn⟩
  · obtain ⟨i, hi⟩ := hshows e he rfl
    exact ⟨i, _, sameDeadline_relocated (SnapshotSource.mem_of_live he).2 (hpos i) hwall fun d hd => hend e he d hd i, hi⟩
  · rw [hfields]
    apply KeyedList.ext
    exact filter_eq_self.mpr fun _ _ => rfl

def sampleSource : SnapshotSource where
  entries := ⟨[([107], ⟨.str [118], some 3000001⟩), ([104], ⟨.hash ⟨[([102], [118])], by decide⟩, none⟩)], by decide⟩
  hashTtl := ⟨[(([104], [102]), 5)], by decide⟩
  rowSegs := false
  aux := none
  rostered := by decide
  stub_forever := by decide
  stream_whole := by decide

theorem snapshot_round_trip_sample :
    sampleSource.fits ∧ ∃ bytes st, writeSnapshotToWithCursor sampleSource ⟨1, 10⟩ (some ⟨3, 42⟩) = .ok bytes ∧
      loadSnapshotWithAux (fun _ => 7) 11 (fun _ => true) bytes = .ok (st, none) ∧
      st.store.hfttl = sampleSource.hashTtl ∧ readSnapshotCursor bytes = .ok (some ⟨3, 42⟩) := by
  have hend : ∀ e ∈ sampleSource.live 1, ∀ d, e.2.expireAt = some d → ∀ i : Nat,
      7 + (deadlineUnixMs ⟨1, 10⟩ d - 11) * 1000000 ≤ u64Max := by
    have hlive : sampleSource.live 1 = sampleSource.entries.items := by decide
    rw [hlive]
    intro e he d hd _
    rcases mem_cons.mp he with rfl | he
    · obtain rfl := some.inj hd
      decide
    · rw [mem_singleton.mp he] at hd
      cases hd
  obtain ⟨trailer, st, hwrite, hload, _, _, hfields, hcursor, _⟩ := snapshot_round_trip sampleSource (by decide)
    ⟨1, 10⟩ (some ⟨3, 42⟩) (fun _ => 7) 11 8 (fun _ => by decide) (fun _ => by decide) (by decide) hend
  exact ⟨by decide, _, st, hwrite, hload, hfields, hcursor⟩

/-! ## Where a snapshot does not come back -/

def oneString (b : Bytes) : SnapshotSource where
  entries := ⟨[([107], ⟨.str b, none⟩)], by simp⟩
  hashTtl := .empty
  rowSegs := false
  aux := none
  rostered := by simp [Value.rostered]
  stub_forever := by simp
  stream_whole := by simp [Value.isStream]

theorem writeBytes_wrapped {b : Bytes} (h : b.length % 2 ^ 32 = 0) : writeBytes b = writeBytes [] ++ b := by
  have hlen : leBytes 4 b.length = [0, 0, 0, 0] := by
    simp only [leBytes]
    rw [show b.length % 256 = 0 by omega, show b.length / 256 % 256 = 0 by omega,
      show b.length / 256 / 256 % 256 = 0 by omega, show b.length / 256 / 256 / 256 % 256 = 0 by omega]
    rfl
  rw [writeBytes, hlen]
  rfl

theorem load_wrapped {b : Bytes} (h : (0 :: 0 :: b).length % 2 ^ 32 = 0) (w : Clock) :
    ∃ bytes st, writeSnapshotToWithCursor (oneString (0 :: 0 :: b)) w none = .ok bytes ∧
      loadSnapshotWithAux (fun _ => 1) 0 (fun _ => true) bytes = .ok (st, none) ∧
      st.store.map [107] = some ⟨.str [], none⟩ := by
  have hdata : snapshotData (oneString (0 :: 0 :: b)) w none = snapshotData (oneString []) w none ++ (0 :: 0 :: b) := by
    show magic ++ _ ++ (([1] ++ ([0] ++ (writeBytes [107] ++ writeBytes (0 :: 0 :: b))) ++ []) ++ []) = _
    rw [writeBytes_wrapped h]
    simp only [append_nil, append_assoc]
    rfl
  have hread := (@parses_data (fun _ => 1) 0 (fun _ => true) (oneString []) w none (by decide)).whole
    (0 :: (b ++ [0]))
  have hwrite : writeSnapshotToWithCursor (oneString (0 :: 0 :: b)) w none =
      .ok (snapshotData (oneString (0 :: 0 :: b)) w none ++ [0]) := rfl
  refine ⟨_, loaded (fun _ => 1) 0 (fun _ => true) (snapshotVersion (oneString []) none) w ((oneString []).live w.mono)
    (oneString []).hashTtl.items ⟨.empty, 0⟩, hwrite, ?_, rfl⟩
  have hbytes : snapshotData (oneString []) w none ++ 0 :: 0 :: b ++ [0] =
      snapshotData (oneString []) w none ++ [0] ++ 0 :: (b ++ [0]) := by simp
  rw [hdata, hbytes, loadSnapshotWithAux, StateT.run']
  show Prod.fst <$> _ = _
  rw [bind_of_ok hread]
  rfl

/-- A store with a field deadline, written without a cursor, has one; and a string of 2³² zero bytes comes back
empty. -/
theorem snapshot_differs : (∃ bytes, writeSnapshotToWithCursor sampleSource ⟨1, 10⟩ none = .ok bytes ∧
      readSnapshotCursor bytes = .ok (some {})) ∧
    ∃ bytes st, writeSnapshotToWithCursor (oneString (List.replicate (2 ^ 32) 0)) ⟨1, 10⟩ none = .ok bytes ∧
      loadSnapshotWithAux (fun _ => 1) 0 (fun _ => true) bytes = .ok (st, none) ∧
      st.store.map [107] = some ⟨.str [], none⟩ := by
  refine ⟨⟨_, rfl, cursor_written _⟩, ?_⟩
  have hreplicate : List.replicate (2 ^ 32) (0 : UInt8) = 0 :: 0 :: List.replicate (2 ^ 32 - 2) 0 := by
    rw [← replicate_succ, ← replicate_succ, show 2 ^ 32 - 2 + 1 + 1 = 2 ^ 32 by omega]
  rw [hreplicate]
  apply load_wrapped
  rw [length_cons, length_cons, length_replicate]
  omega

end Kevy.Snapshot
