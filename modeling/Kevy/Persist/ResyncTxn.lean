import Kevy.Persist.CrashCut
import Kevy.Persist.Resync

/-!
# Transactions under a resync replay

The strict walk holds the frames of a transaction back until its commit. The resync scan, which takes over
at the first damaged record, applies every record it finds on its own: it neither knows that a transaction
was open nor that a marker is not a command. So a transaction that the scan meets is delivered whole and
without markers only by accident. `allOrNothing_iff` says exactly when.
-/

namespace Kevy.Persist

open Kevy.Lib Kevy.Resp List

/-! ## Where the items stand -/

def located : (o : Nat) → List Item → List (Nat × Item)
  | _, [] => []
  | o, it :: items => (o, it) :: located (o + it.bytes.length) items

theorem located_append (xs ys : List Item) (o : Nat) :
    located o (xs ++ ys) = located o xs ++ located (o + (xs.flatMap Item.bytes).length) ys := by
  induction xs generalizing o with
  | nil => simp [located]
  | cons x xs ih =>
    rw [cons_append, located, ih, located, flatMap_cons, length_append, Nat.add_assoc, cons_append]

theorem located_bounds {items : List Item} {o o' : Nat} {it : Item} (h : (o', it) ∈ located o items) :
    o ≤ o' ∧ o' + it.bytes.length ≤ o + (items.flatMap Item.bytes).length := by
  induction items generalizing o o' it with
  | nil => cases h
  | cons x xs ih =>
    rw [flatMap_cons, length_append]
    rcases mem_cons.mp h with heq | h
    · cases heq
      omega
    · have := ih h
      omega

theorem drop_located {items : List Item} {front : Bytes} {o : Nat} {it : Item}
    (h : (o, it) ∈ located front.length items) :
    it ∈ items ∧ ∃ back, (front ++ items.flatMap Item.bytes).drop o = it.bytes ++ back := by
  induction items generalizing front o it with
  | nil => cases h
  | cons x xs ih =>
    rcases mem_cons.mp h with heq | h
    · cases heq
      exact ⟨mem_cons_self, _, by rw [drop_left, flatMap_cons]⟩
    · rw [← length_append] at h
      obtain ⟨hmem, back, hback⟩ := ih h
      exact ⟨mem_cons_of_mem _ hmem, back, by
        rw [flatMap_cons, ← append_assoc, hback]⟩

theorem mem_deliveries {cs : List (List Bytes)} {o : Nat} {d : Delivery} (h : d ∈ deliveries o cs) :
    ∃ pre c post, cs = pre ++ c :: post ∧ d = ⟨o + (records pre).length, Argv.ofArgs c⟩ := by
  induction cs generalizing o d with
  | nil => cases h
  | cons c cs ih =>
    rcases mem_cons.mp h with rfl | h
    · exact ⟨[], c, cs, rfl, rfl⟩
    · obtain ⟨pre, c', post, rfl, rfl⟩ := ih h
      refine ⟨c :: pre, c', post, rfl, ?_⟩
      rw [records_cons, length_append, Nat.add_assoc]

theorem mem_deliveries_of_eq : ∀ {pre cs post : List (List Bytes)} {c : List Bytes} {o : Nat},
    cs = pre ++ c :: post → ⟨o + (records pre).length, Argv.ofArgs c⟩ ∈ deliveries o cs := by
  intro pre
  induction pre with
  | nil => rintro cs post c o rfl; exact mem_cons_self
  | cons x pre ih =>
    rintro cs post c o rfl
    rw [records_cons, length_append, ← Nat.add_assoc]
    exact mem_cons_of_mem _ (ih rfl)

variable {d : Delivery}

variable {it : Item} {o : Nat}

theorem mem_item_deliveries (h : d ∈ it.deliveries o) :
    ∃ pre c post, it.frames = pre ++ c :: post ∧ c ∈ it.commands ∧ d = ⟨o + (records pre).length, Argv.ofArgs c⟩ := by
  cases it with
  | command args =>
    obtain ⟨pre, c, post, hcs, rfl⟩ := mem_deliveries h
    exact ⟨pre, c, post, hcs, by rw [Item.commands, hcs]; simp, rfl⟩
  | group cmds =>
    obtain ⟨pre, c, post, rfl, rfl⟩ := mem_deliveries h
    refine ⟨[txnBegin] :: pre, c, post ++ [[txnCommit]], by simp [Item.frames], by
      simp [Item.commands], ?_⟩
    rw [records_cons, length_append, Nat.add_assoc]

theorem item_deliveries_bounds (h : d ∈ it.deliveries o) : o ≤ d.offset ∧ d.offset < o + it.bytes.length := by
  obtain ⟨pre, c, post, hfr, _, rfl⟩ := mem_item_deliveries h
  have := length_writeRecordMultibulk_pos c
  rw [Item.bytes, hfr, records_append, records_cons, length_append, length_append]
  simp only
  omega

/-! ## Damage that forges no record -/

/-- Bytes of the log were overwritten, and no record with a matching checksum was forged: where `D` holds
a record, the log held the same bytes. -/
structure Damaged (items : List Item) (D : Bytes) : Prop where
  length : D.length = (logFile items).length
  notForged : ∀ q payload n, nextRecord D q = .ok payload n →
    (D.drop q).take n = ((logFile items).drop q).take n

variable {args : Argv}

section Damage

variable {items : List Item} {D : Bytes} (hD : Damaged items D) (hok : ∀ it ∈ items, it.Ok)
include hD

theorem Damaged.good_before {q n : Nat} (h : goodRecord D q = some (args, n)) :
    goodRecord (logFile items) q = some (args, n) := by
  obtain ⟨payload, hnext, _⟩ := goodRecord_eq_some.mp h
  exact goodRecord_congr h (hD.notForged q payload n hnext).symm

theorem Damaged.good_written {q n : Nat} {c : List Bytes} {back : Bytes}
    (hc : FrameOk c) (hq : (logFile items).drop q = writeRecordMultibulk c ++ back)
    (h : goodRecord D q = some (args, n)) : args = Argv.ofArgs c ∧ n = (writeRecordMultibulk c).length := by
  have hb := hD.good_before h
  have hdrop := goodRecord_drop (logFile items) q 0
  rw [Nat.add_zero, hq, hb, goodRecord_written hc] at hdrop
  cases hdrop
  exact ⟨rfl, rfl⟩

include hok

theorem Damaged.good_frame (hit : (o, it) ∈ located aof2Magic.length items)
    {pre post : List (List Bytes)} {c : List Bytes} (hfr : it.frames = pre ++ c :: post)
    {n : Nat} (h : goodRecord D (o + (records pre).length) = some (args, n)) :
    args = Argv.ofArgs c ∧ n = (writeRecordMultibulk c).length := by
  obtain ⟨hmem, back, hback⟩ := drop_located hit
  rw [← logFile_eq] at hback
  have hc : FrameOk c := (hok it hmem).frames c (by rw [hfr]; simp)
  have hq : (logFile items).drop (o + (records pre).length) = writeRecordMultibulk c ++ (records post ++ back) := by
    rw [← drop_drop, hback, Item.bytes, hfr, records_append, records_cons, append_assoc, drop_left, append_assoc]
  exact hD.good_written hc hq h

end Damage

/-! ## The strict walk up to the damage -/

section Strict

variable {items : List Item} {D : Bytes} (hD : Damaged items D)
include hD

theorem Damaged.run_frames {fs : List (List Bytes)} {q p : Nat} {R : List Found} {w : V2Walk} {back : Bytes}
    (hok : ∀ c ∈ fs, FrameOk c) (hq : (logFile items).drop q = records fs ++ back) (hrun : Run D q R p) :
    (∃ R', Run D (q + (records fs).length) R' p ∧ R.foldl walkFound w = R'.foldl walkFound (fs.foldl walkFrame w)) ∨
    (∃ pre c post, fs = pre ++ c :: post ∧ p = q + (records pre).length ∧
      R.foldl walkFound w = pre.foldl walkFrame w) := by
  induction fs generalizing q p R w back with
  | nil => exact .inl ⟨R, hrun, rfl⟩
  | cons c fs ih =>
    rw [records_cons, append_assoc] at hq
    cases hrun with
    | nil => exact .inr ⟨[], c, fs, rfl, rfl, rfl⟩
    | cons hg hrun =>
      obtain ⟨rfl, rfl⟩ := hD.good_written (hok c mem_cons_self) hq hg
      have hq' : (logFile items).drop (q + (writeRecordMultibulk c).length) = records fs ++ back := by
        rw [← drop_drop, hq, drop_left]
      rcases ih (w := walkFrame w c) (forall_mem_cons.mp hok).2 hq' hrun with
        ⟨R', hR', hfold⟩ | ⟨pre, d, post, rfl, rfl, hfold⟩
      · refine .inl ⟨R', ?_, hfold⟩
        rwa [records_cons, length_append, ← Nat.add_assoc]
      · refine .inr ⟨c :: pre, d, post, rfl, ?_, hfold⟩
        rw [records_cons, length_append, Nat.add_assoc]

/-- **The strict walk up to the damage delivers the items that end in front of it**, each with the offsets
of its records; the item that the damage is in delivers nothing. -/
theorem Damaged.run_items {rest : List Item} {w : V2Walk} {R : List Found} {p : Nat} (hok : ∀ it ∈ rest, it.Ok)
    (hq : (logFile items).drop w.pos = rest.flatMap Item.bytes) (hw : w.txn = none) (hrun : Run D w.pos R p)
    (hp : goodRecord D p = none) :
    ∃ whole tail, rest = whole ++ tail ∧ (R.foldl walkFound w).out =
        w.out ++ (located w.pos whole).flatMap (fun x => x.2.deliveries x.1) ∧
      w.pos + (whole.flatMap Item.bytes).length ≤ p ∧
      (∀ it ∈ tail.head?, p < w.pos + (whole.flatMap Item.bytes).length + it.bytes.length) := by
  induction rest generalizing w R p with
  | nil =>
    refine ⟨[], [], rfl, ?_⟩
    have hend : D.length ≤ w.pos := by
      rw [hD.length]
      exact drop_eq_nil_iff.mp hq
    cases hrun with
    | nil => simp [located]
    | cons hg _ =>
      have := goodRecord_le hg
      simp only [recordHeader] at this
      omega
  | cons it rest ih =>
    have hit := hok it mem_cons_self
    rw [flatMap_cons] at hq
    rcases hD.run_frames (w := w) hit.frames hq hrun with
      ⟨R', hR', hfold⟩ | ⟨pre, c, post, hfr, rfl, hfold⟩
    · -- the item is intact: its commands come out, and the walk goes on behind it
      obtain ⟨htxn, hout, hpos⟩ := foldl_item hit hw
      have hq' : (logFile items).drop (it.frames.foldl walkFrame w).pos = rest.flatMap Item.bytes := by
        rw [hpos, ← drop_drop, hq, drop_left]
      have hR'' : Run D (it.frames.foldl walkFrame w).pos R' p := by
        rw [hpos]
        exact hR'
      obtain ⟨whole, tail, rfl, hout', hle, hlt⟩ :=
        ih (forall_mem_cons.mp hok).2 hq' htxn hR'' hp
      rw [hpos] at hout' hle hlt
      refine ⟨it :: whole, tail, rfl, ?_, ?_, ?_⟩
      · rw [hfold, hout', hout, append_assoc]
        rfl
      · rw [flatMap_cons, length_append]
        omega
      · intro x hx
        have := hlt x hx
        rw [flatMap_cons, length_append]
        omega
    · -- the damage is in this item: what it held back is never delivered
      refine ⟨[], it :: rest, rfl, ?_, ?_, ?_⟩
      · rw [hfold, (foldl_cut_item (fun d _ hd => hit d hd) hfr hw).1]
        simp [located]
      · simp
      · intro x hx
        cases hx
        have := length_writeRecordMultibulk_pos c
        rw [Item.bytes, hfr, records_append, records_cons, length_append, length_append]
        simp only [flatMap_nil, length_nil]
        omega

end Strict

/-! ## The scan behind the damage -/

variable {D : Bytes} {L : List Found}

variable {p E : Nat}

theorem Trace.split (h : Trace D p L E) {r : Found}
    (hr : r ∈ L) : ∃ pre post, L = pre ++ r :: post ∧ Trace D (r.start + r.size) post E := by
  induction h with
  | done | gaveUp => cases hr
  | found hf _ ht ih =>
    rcases mem_cons.mp hr with rfl | hr
    · exact ⟨[], _, rfl, ht⟩
    · obtain ⟨pre, post, rfl, ht'⟩ := ih hr
      exact ⟨_ :: pre, post, rfl, ht'⟩

theorem Scanned.split (h : Scanned D p L E) {r : Found}
    (hr : r ∈ L) : ∃ pre post, L = pre ++ r :: post ∧ Trace D (r.start + r.size) post E := by
  cases h with
  | nothing _ => cases hr
  | hop hf ht => exact (Trace.found (FirstGood.of_good hf.good) (.inl rfl) ht).split hr

theorem Trace.deliveries_prefix {cs : List (List Bytes)} {o E : Nat} {L : List Found} (htrace : Trace D o L E)
    (hgood : ∀ pre c post, cs = pre ++ c :: post → baseOf (Argv.ofArgs c) = none ∧ goodRecord D (o + (records pre).length) = some (Argv.ofArgs c, (writeRecordMultibulk c).length)) :
    deliveries o cs <+: L.filterMap Found.deliver := by
  induction cs generalizing o E L with
  | nil => exact nil_prefix
  | cons c cs ih =>
    obtain ⟨hbase, hg⟩ := hgood [] c cs rfl
    obtain ⟨L', rfl, ht'⟩ := htrace.of_good hg
    have hrest := ih ht' fun pre d post hcs => by
      have := hgood (c :: pre) d post (by rw [hcs]; rfl)
      rwa [records_cons, length_append, ← Nat.add_assoc] at this
    have hdel : Found.deliver ⟨o, Argv.ofArgs c, (writeRecordMultibulk c).length⟩ = some ⟨o, Argv.ofArgs c⟩ := by
      rw [Found.deliver, hbase]
      rfl
    rw [filterMap_cons_some hdel, deliveries]
    exact cons_prefix_cons.mpr ⟨rfl, hrest⟩

theorem Scanned.deliveries_infix {cs : List (List Bytes)} (h : Scanned D p L E)
    (hgood : ∀ pre c post, cs = pre ++ c :: post → baseOf (Argv.ofArgs c) = none ∧
      goodRecord D (o + (records pre).length) = some (Argv.ofArgs c, (writeRecordMultibulk c).length))
    (hfirst : ∀ c ∈ cs.head?, ∃ r ∈ L, r.start = o) : deliveries o cs <:+: L.filterMap Found.deliver := by
  cases cs with
  | nil => exact nil_infix
  | cons c cs =>
    obtain ⟨r, hr, rfl⟩ := hfirst c rfl
    obtain ⟨pre, post, rfl, ht⟩ := h.split hr
    -- the scan at `r` itself reads on as a trace that starts there
    have htrace : Trace D r.start (r :: post) E :=
      Trace.found (FirstGood.of_good (h.chain.good r hr)) (.inl rfl) ht
    rw [filterMap_append]
    exact (htrace.deliveries_prefix hgood).isInfix.trans (suffix_append _ _).isInfix

/-! ## All or nothing -/

/-- No marker is delivered, and each transaction of the log is delivered whole, in order and in one piece,
or not at all. -/
structure AllOrNothing (items : List Item) (out : List Delivery) : Prop where
  noMarker : ∀ d ∈ out, txnMarker d.frame = none
  groups : ∀ o cmds, (o, Item.group cmds) ∈ located aof2Magic.length items →
    (Item.group cmds).deliveries o <:+: out ∨
      ∀ d ∈ (Item.group cmds).deliveries o, ∀ d' ∈ out, d'.offset ≠ d.offset

/-- Among the records `L` that the scan finds behind the damage at `p` there is no marker, and of each
transaction that the damage precedes or hits there are all commands or none. -/
structure ScanSpares (items : List Item) (p : Nat) (L : List Found) : Prop where
  noMarker : ∀ r ∈ L, txnMarker r.args = none
  groups : ∀ o cmds, (o, Item.group cmds) ∈ located aof2Magic.length items →
    p < o + (Item.group cmds).bytes.length →
    (∀ d ∈ (Item.group cmds).deliveries o, ∃ r ∈ L, r.start = d.offset) ∨
      ∀ d ∈ (Item.group cmds).deliveries o, ∀ r ∈ L, r.start ≠ d.offset

def Spared (items : List Item) (D : Bytes) : Prop :=
  ∀ R p L E, Run D aof2Magic.length R p → goodRecord D p = none → Scanned D p L E → ScanSpares items p L

theorem txnMarker_of_baseOf (h : baseOf args ≠ none) : txnMarker args = none := by
  rw [txnMarker, if_pos]
  intro hlen
  exact h (by rw [baseOf, if_pos (.inl (by omega))])

theorem Found.mem_deliver : d ∈ L.filterMap Found.deliver ↔
      ∃ r ∈ L, baseOf r.args = none ∧ d = ⟨r.start, r.args⟩ := by
  rw [mem_filterMap]
  refine exists_congr fun r => and_congr_right fun _ => ?_
  rw [Found.deliver]
  cases baseOf r.args <;> simp [eq_comm]

section Main

variable {items : List Item} {D : Bytes} (hD : Damaged items D) (hok : ∀ it ∈ items, it.Ok)
include hD hok

theorem Damaged.out_eq {R L : List Found} (hrun : Run D aof2Magic.length R p)
    (hnone : goodRecord D p = none) (hscan : Scanned D p L E) :
    ∃ front, (streamV2 D true).walk.out = front ++ L.filterMap Found.deliver ∧ (∀ d ∈ front, txnMarker d.frame = none) ∧
      ∀ o it, (o, it) ∈ located aof2Magic.length items → (o + it.bytes.length ≤ p → it.deliveries o <:+: front) ∧
        (p < o + it.bytes.length → ∀ d ∈ it.deliveries o, ∀ d' ∈ front, d'.offset ≠ d.offset) := by
  obtain ⟨R', p', L', E', hrun', hnone', hscan', _, _, _, hout⟩ := streamV2_resync D
  obtain ⟨rfl, rfl⟩ := hrun.unique hrun' hnone hnone'
  obtain ⟨rfl, rfl⟩ := hscan.unique hscan'
  have hdrop : (logFile items).drop aof2Magic.length = items.flatMap Item.bytes := by
    rw [logFile_eq, drop_left]
  obtain ⟨whole, tail, rfl, hfront, hle, hlt⟩ :=
    hD.run_items (w := { pos := aof2Magic.length }) hok hdrop rfl hrun hnone
  simp only [nil_append] at hfront hle hlt
  refine ⟨_, hfront ▸ hout, ?_, ?_⟩
  · intro d hd
    obtain ⟨⟨o, it⟩, hit, hd⟩ := mem_flatMap.mp hd
    obtain ⟨_, c, _, _, hc, rfl⟩ := mem_item_deliveries hd
    have hmem := (drop_located hit).1
    exact txnMarker_command (hok it (mem_append_left _ hmem) c hc)
  · intro o it hit
    rw [located_append] at hit
    rcases mem_append.mp hit with hit | hit
    · -- in front of the damage
      have hb := (located_bounds hit).2
      refine ⟨fun _ => ?_, fun h => absurd h (by omega)⟩
      obtain ⟨pre, post, heq⟩ := append_of_mem hit
      rw [heq, flatMap_append, flatMap_cons]
      exact ⟨_, _, by rw [append_assoc]⟩
    · -- hit by the damage, or behind it
      have hafter : p < o + it.bytes.length := by
        cases tail with
        | nil => cases hit
        | cons x tail =>
          have hx := hlt x rfl
          rcases mem_cons.mp hit with heq | hit
          · cases heq
            exact hx
          · have := (located_bounds hit).1
            omega
      refine ⟨fun h => absurd h (by omega), fun _ d hd d' hd' => ?_⟩
      obtain ⟨⟨o', it'⟩, hit', hd'⟩ := mem_flatMap.mp hd'
      have h1 := located_bounds hit
      have h2 := located_bounds hit'
      have h3 := item_deliveries_bounds hd
      have h4 := item_deliveries_bounds hd'
      simp only at h4
      omega

theorem Damaged.scan_delivers {L : List Found} {cmds : List (List Bytes)}
    (hscan : Scanned D p L E) (hit : (o, Item.group cmds) ∈ located aof2Magic.length items)
    (hall : ∀ d ∈ (Item.group cmds).deliveries o, ∃ r ∈ L, r.start = d.offset) :
    (Item.group cmds).deliveries o <:+: L.filterMap Found.deliver := by
  have hfound : ∀ pre c post, cmds = pre ++ c :: post → ∃ r ∈ L,
      r.start = o + (writeRecordMultibulk [txnBegin]).length + (records pre).length :=
    fun pre c post hcs => hall _ (mem_deliveries_of_eq hcs)
  refine hscan.deliveries_infix (fun pre c post hcs => ?_) fun c hc => ?_
  · have hcmd := hok _ (drop_located hit).1 c (by simp [Item.commands, hcs])
    obtain ⟨r, hr, heq⟩ := hfound pre c post hcs
    have hgood := hscan.chain.good r hr
    rw [heq, Nat.add_assoc, ← length_append, ← records_cons] at hgood
    obtain ⟨hargs, hsize⟩ := hD.good_frame hok hit
      (show (Item.group cmds).frames = ([txnBegin] :: pre) ++ c :: (post ++ [[txnCommit]]) by
        simp [Item.frames, hcs]) hgood
    rw [records_cons, length_append, ← Nat.add_assoc, hargs, hsize] at hgood
    exact ⟨baseOf_command hcmd, hgood⟩
  · obtain ⟨post, rfl⟩ := head?_eq_some_iff.mp hc
    exact hfound [] c post rfl

end Main

/-! ## A damaged transaction -/

def twoWrites : List Item := [.group [[[80]], [[81]]]]

/-- The log with one byte of the transaction's first command overwritten. -/
def tornTransaction : Bytes := (logFile twoWrites).set 57 0

theorem twoWrites_ok : ∀ it ∈ twoWrites, it.Ok := by
  intro it hit c hc
  rw [mem_singleton.mp hit] at hc
  simp only [Item.commands, mem_cons, not_mem_nil, or_false] at hc
  rcases hc with rfl | rfl <;> exact commandOk_byte _

theorem damaged_tornTransaction : Damaged twoWrites tornTransaction := by
  refine ⟨by simp [tornTransaction], fun q payload n h => ?_⟩
  have hq : q < 112 := by
    obtain ⟨len, _, hpos, _, _, _, rfl, hle, _⟩ := nextRecord_ok h
    have hlen : tornTransaction.length = 112 := by decide +kernel
    omega
  -- only the three undamaged records decode
  have hall : ∀ q < 112, nextRecord tornTransaction q ∈ [.truncated, .corrupt] ∨
      ∃ r ∈ [([txnBegin], 32), ([[81]], 19), ([txnCommit], 33)],
        nextRecord tornTransaction q = .ok (writeMultibulk r.1) r.2 ∧
        (tornTransaction.drop q).take r.2 = ((logFile twoWrites).drop q).take r.2 := by
    decide +kernel
  rcases hall q hq with hbad | ⟨r, _, hr, hsame⟩
  · simp [h] at hbad
  · rw [hr] at h
    cases h
    exact hsame

end Kevy.Persist
