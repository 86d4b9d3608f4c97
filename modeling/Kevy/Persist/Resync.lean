import Kevy.Persist.Replay

/-!
# What a resync replay recovers

The strict walk applies the run of good records behind the magic. Where it stops, the resync scan hops from
good record to good record. `Trace` says what the scan does, in terms of the file alone: from the end of
the last applied record it goes to the first good record, unless the bytes right there look like a record
that runs past the end of the file, where it gives up. `resyncFallback_trace` is the link to the code.

Giving up is the flaw: a second damaged record with a plausible length hides every record behind it. The
replay leaves nothing behind exactly when that does not happen (`ResyncComplete`, `StallsFrom`).
-/

namespace Kevy.Persist

open Kevy.Lib Kevy.Resp List

/-! ## Good records -/

theorem nextRecord_drop (buf : Bytes) (b q : Nat) : nextRecord (buf.drop b) q = nextRecord buf (b + q) := by
  rw [nextRecord, nextRecord, drop_drop]

theorem goodRecord_drop (buf : Bytes) (b q : Nat) : goodRecord (buf.drop b) q = goodRecord buf (b + q) := by
  rw [goodRecord, goodRecord, nextRecord_drop]

/-- `g` is the first offset at or behind `p` where a good record starts. -/
structure FirstGood (D : Bytes) (p g : Nat) (args : Argv) (n : Nat) : Prop where
  le : p ≤ g
  good : goodRecord D g = some (args, n)
  first : ∀ q, p ≤ q → q < g → goodRecord D q = none

def NoneLeft (D : Bytes) (p : Nat) : Prop := ∀ q, p ≤ q → goodRecord D q = none

variable {D : Bytes}

variable {g n : Nat}

theorem FirstGood.unique {p g' n' : Nat} {args args' : Argv}
    (h : FirstGood D p g args n) (h' : FirstGood D p g' args' n') : g = g' ∧ args = args' ∧ n = n' := by
  have hg : g = g' := by
    rcases Nat.lt_trichotomy g g' with hlt | heq | hgt
    · have := h'.first g h.le hlt
      rw [h.good] at this
      cases this
    · exact heq
    · have := h.first g' h'.le hgt
      rw [h'.good] at this
      cases this
  subst hg
  have := h.good.symm.trans h'.good
  cases this
  exact ⟨rfl, rfl, rfl⟩

variable {args : Argv}

theorem FirstGood.not_noneLeft {p : Nat} (h : FirstGood D p g args n) : ¬ NoneLeft D p := by
  intro hn
  have := hn g h.le
  rw [h.good] at this
  cases this

theorem FirstGood.of_good {p : Nat} (h : goodRecord D p = some (args, n)) : FirstGood D p p args n :=
  ⟨le_rfl, h, fun q hq hlt => absurd hq (by omega)⟩

theorem FirstGood.behind {p : Nat} (hbad : goodRecord D p = none) (h : FirstGood D (p + 1) g args n) :
    FirstGood D p g args n :=
  ⟨Nat.le_of_succ_le h.le, h.good, fun q hq hlt =>
    (Nat.eq_or_lt_of_le hq).elim (fun heq => heq ▸ hbad) fun hq => h.first q hq hlt⟩

theorem NoneLeft.behind {p : Nat} (hbad : goodRecord D p = none) (h : NoneLeft D (p + 1)) : NoneLeft D p :=
  fun q hq => (Nat.eq_or_lt_of_le hq).elim (fun heq => heq ▸ hbad) (h q)

theorem NoneLeft.of_drop {b p : Nat} (h : NoneLeft (D.drop b) p) : NoneLeft D (b + p) := by
  intro q hq
  obtain ⟨k, rfl⟩ := Nat.exists_eq_add_of_le (Nat.le_of_add_right_le hq)
  rw [← goodRecord_drop]
  exact h k (by omega)

theorem FirstGood.of_drop {b p : Nat} (h : FirstGood (D.drop b) p g args n) :
    FirstGood D (b + p) (b + g) args n := by
  refine ⟨Nat.add_le_add_left h.le b, by rw [← goodRecord_drop]; exact h.good, fun q hq hlt => ?_⟩
  obtain ⟨k, rfl⟩ := Nat.exists_eq_add_of_le (Nat.le_of_add_right_le hq)
  rw [← goodRecord_drop]
  exact h.first k (by omega) (by omega)

theorem resyncScanLoop_spec (buf : Bytes) (fuel q : Nat) (hq : buf.length ≤ q + fuel) :
    (∃ g args n, resyncScanLoop buf fuel q = some g ∧ FirstGood buf q g args n) ∨
    (resyncScanLoop buf fuel q = none ∧ NoneLeft buf q) := by
  induction fuel generalizing q with
  | zero =>
    right
    refine ⟨rfl, fun r hr => ?_⟩
    by_contra hne
    obtain ⟨⟨args, n⟩, hg⟩ := Option.ne_none_iff_exists'.mp hne
    have := goodRecord_le hg
    omega
  | succ fuel ih =>
    rw [resyncScanLoop]
    cases hg : goodRecord buf q with
    | some a =>
      left
      exact ⟨q, a.1, a.2, by simp, FirstGood.of_good hg⟩
    | none =>
      simp only [Option.isSome_none, Bool.false_eq_true, if_false]
      rcases ih (q + 1) (by omega) with ⟨g, args, n, hs, hf⟩ | ⟨hs, hn⟩
      · exact .inl ⟨g, args, n, hs, hf.behind hg⟩
      · exact .inr ⟨hs, hn.behind hg⟩

theorem resyncScan_spec (buf : Bytes) (q : Nat) : (∃ g args n, resyncScan buf q = some g ∧ FirstGood buf q g args n) ∨
    (resyncScan buf q = none ∧ NoneLeft buf q) :=
  resyncScanLoop_spec buf _ q (by omega)

/-! ## The scan as a relation on the file -/

structure Found where
  start : Nat
  args : Argv
  size : Nat

/-- The frame a found record delivers, unless it names a log base. -/
def Found.deliver (r : Found) : Option Delivery :=
  if (baseOf r.args).isNone then some ⟨r.start, r.args⟩ else none

def Found.span (r : Found) : Nat × Nat := (r.start, r.start + r.size)

/-- The ranges skipped in front of the found records, from `p` on. -/
def gaps : (p : Nat) → List Found → List (Nat × Nat)
  | _, [] => []
  | p, r :: L => (if p < r.start then [(p, r.start)] else []) ++ gaps (r.start + r.size) L

/-- From `p`, the end of an applied record, the scan applies `L` and comes to rest at `E`. -/
inductive Trace (D : Bytes) : Nat → List Found → Nat → Prop
  | done {p : Nat} : NoneLeft D p → Trace D p [] p
  | gaveUp {p : Nat} : nextRecord D p = .truncated → Trace D p [] p
  | found {p g n E : Nat} {args : Argv} {L : List Found} : FirstGood D p g args n →
      (g = p ∨ nextRecord D p ≠ .truncated) → Trace D (g + n) L E →
      Trace D p (⟨g, args, n⟩ :: L) E

theorem goodRecord_none_of_truncated {p : Nat} (h : nextRecord D p = .truncated) : goodRecord D p = none := by
  rw [goodRecord, h]

theorem FirstGood.not_truncated {p : Nat} (h : FirstGood D p g args n)
    (hor : g = p ∨ nextRecord D p ≠ .truncated) : nextRecord D p ≠ .truncated := by
  intro ht
  rcases hor with rfl | hnt
  · have := goodRecord_none_of_truncated ht
    rw [h.good] at this
    cases this
  · exact hnt ht

/-- Behind the first damage at `p`: the scan starts one byte on, whatever stands at `p`. -/
inductive Scanned (D : Bytes) (p : Nat) : List Found → Nat → Prop
  | nothing : NoneLeft D p → Scanned D p [] p
  | hop {g n E : Nat} {args : Argv} {L : List Found} : FirstGood D p g args n →
      Trace D (g + n) L E → Scanned D p (⟨g, args, n⟩ :: L) E

theorem Trace.unique {p E E' : Nat} {L L' : List Found} (h : Trace D p L E)
    (h' : Trace D p L' E') : L = L' ∧ E = E' := by
  induction h generalizing L' E' with
  | done hn =>
    cases h' with
    | done | gaveUp => exact ⟨rfl, rfl⟩
    | found hf _ _ => exact absurd hn hf.not_noneLeft
  | gaveUp ht =>
    cases h' with
    | done | gaveUp => exact ⟨rfl, rfl⟩
    | found hf hor _ => exact absurd ht (hf.not_truncated hor)
  | found hf hor _ ih =>
    cases h' with
    | done hn => exact absurd hn hf.not_noneLeft
    | gaveUp ht => exact absurd ht (hf.not_truncated hor)
    | found hf' _ ht' =>
      obtain ⟨rfl, rfl, rfl⟩ := hf.unique hf'
      obtain ⟨rfl, rfl⟩ := ih ht'
      exact ⟨rfl, rfl⟩

variable {L : List Found}

theorem Trace.of_good {p E : Nat} (h : Trace D p L E) (hg : goodRecord D p = some (args, n)) :
    ∃ L', L = ⟨p, args, n⟩ :: L' ∧ Trace D (p + n) L' E := by
  cases h with
  | done hn => exact absurd hn (FirstGood.of_good hg).not_noneLeft
  | gaveUp ht =>
    rw [goodRecord_none_of_truncated ht] at hg
    cases hg
  | found hf _ ht =>
    obtain ⟨rfl, rfl, rfl⟩ := (FirstGood.of_good hg).unique hf
    exact ⟨_, rfl, ht⟩

theorem Scanned.unique {p E E' : Nat} {L L' : List Found} (h : Scanned D p L E)
    (h' : Scanned D p L' E') : L = L' ∧ E = E' := by
  cases h with
  | nothing hn =>
    cases h' with
    | nothing _ => exact ⟨rfl, rfl⟩
    | hop hf _ => exact absurd hn hf.not_noneLeft
  | hop hf ht =>
    cases h' with
    | nothing hn => exact absurd hn hf.not_noneLeft
    | hop hf' ht' =>
      obtain ⟨rfl, rfl, rfl⟩ := hf.unique hf'
      obtain ⟨rfl, rfl⟩ := ht.unique ht'
      exact ⟨rfl, rfl⟩

/-! ## The loops of `resync_slice` follow the trace -/

section Loops

variable (D : Bytes) (base : Nat)

/-- The rest of `resync_slice` from inside its inner loop, at local offset `w`. -/
def resume (fuelRun fuelHops w : Nat) (s : Resync) : Resync × Bool :=
  match resyncRun (D.drop base) base fuelRun w s with
  | (s, .truncated torn) => (s, torn)
  | (s, .damage scanFrom) => resyncHops (D.drop base) base fuelHops scanFrom s

/-- The state after the records `L` were applied from absolute offset `p` on. -/
def Resync.add (s : Resync) (p : Nat) (L : List Found) (goodEnd : Nat) : Resync :=
  { goodEnd
    applied := s.applied + L.length
    ranges := s.ranges ++ gaps p L
    out := s.out ++ L.filterMap Found.deliver
    spans := s.spans ++ L.map Found.span }

variable {D base}

theorem resyncRun_good {w : Nat} {args : Argv} (h : goodRecord D (base + w) = some (args, n))
    (fuel : Nat) (s : Resync) : resyncRun (D.drop base) base (fuel + 1) w s = resyncRun (D.drop base) base fuel (w + n)
        { s with
          out := s.out ++ (Found.deliver ⟨base + w, args, n⟩).toList
          applied := s.applied + 1
          goodEnd := w + n
          spans := s.spans ++ [(base + w, base + w + n)] } := by
  obtain ⟨payload, hok, hone⟩ := goodRecord_eq_some.mp h
  rw [resyncRun, nextRecord_drop, hok]
  simp only [hone, Found.deliver]
  by_cases hb : (baseOf args).isNone <;> simp [hb]

theorem resyncRun_bad {w : Nat} (h : goodRecord D (base + w) = none) (fuel : Nat) (s : Resync) :
    (nextRecord D (base + w) = .truncated ∧
      ∃ torn, resyncRun (D.drop base) base (fuel + 1) w s = (s, .truncated torn)) ∨
    (nextRecord D (base + w) ≠ .truncated ∧ resyncRun (D.drop base) base (fuel + 1) w s = (s, .damage (w + 1))) := by
  rw [resyncRun, nextRecord_drop]
  rw [goodRecord] at h
  cases hn : nextRecord D (base + w) with
  | ok payload consumed =>
    rw [hn] at h
    have hone : oneCommand payload = none := by simpa using h
    exact .inr ⟨by simp, by simp [hone]⟩
  | truncated => exact .inl ⟨rfl, _, rfl⟩
  | corrupt => exact .inr ⟨by simp, rfl⟩

/-- **The inner and outer loops follow the trace.** The last record applied ended at `w`, or a good record
stands there. -/
theorem resume_trace : ∀ (m w : Nat) (s : Resync) (fuelRun fuelHops : Nat),
    (D.drop base).length - w < m → (D.drop base).length - w < fuelRun → (D.drop base).length - w < fuelHops →
    (s.goodEnd = w ∨ ∃ a, goodRecord D (base + w) = some a) →
    ∃ L e torn, Trace D (base + w) L (base + e) ∧
      resume D base fuelRun fuelHops w s = (s.add (base + w) L e, torn) := by
  intro m
  induction m with
  | zero => exact fun w s fuelRun fuelHops hm => absurd hm (Nat.not_lt_zero _)
  | succ m ih =>
    intro w s fuelRun fuelHops hm hr hh hs
    obtain ⟨fuelRun, rfl⟩ : ∃ f, fuelRun = f + 1 := ⟨fuelRun - 1, by omega⟩
    have hlen : (D.drop base).length = D.length - base := length_drop
    cases hg : goodRecord D (base + w) with
    | some a =>
      obtain ⟨args, n⟩ := a
      have hn := goodRecord_le hg
      simp only [recordHeader] at hn
      obtain ⟨L, e, torn, htrace, hres⟩ := ih (w + n)
        { s with
          out := s.out ++ (Found.deliver ⟨base + w, args, n⟩).toList
          applied := s.applied + 1
          goodEnd := w + n
          spans := s.spans ++ [(base + w, base + w + n)] }
        fuelRun fuelHops (by omega) (by omega) (by omega) (.inl rfl)
      refine ⟨⟨base + w, args, n⟩ :: L, e, torn,
        Trace.found (FirstGood.of_good hg) (.inl rfl) (by rwa [Nat.add_assoc]), ?_⟩
      rw [resume, resyncRun_good hg]
      rw [resume] at hres
      rw [hres]
      simp only [Resync.add, gaps, Found.span, map_cons, length_cons, Nat.lt_irrefl, if_false,
        nil_append, Prod.mk.injEq, and_true, Resync.mk.injEq, true_and, Nat.add_assoc]
      refine ⟨by omega, ?_, by simp⟩
      cases hd : Found.deliver ⟨base + w, args, n⟩ <;> simp [hd]
    | none =>
      have hw : s.goodEnd = w := by
        rcases hs with hw | ⟨a, ha⟩
        · exact hw
        · rw [hg] at ha; cases ha
      rcases resyncRun_bad hg fuelRun s with ⟨htr, torn, hrun⟩ | ⟨hnt, hrun⟩
      · refine ⟨[], w, torn, Trace.gaveUp htr, ?_⟩
        rw [resume, hrun]
        simp [Resync.add, gaps, ← hw]
      obtain ⟨fuelHops, rfl⟩ : ∃ f, fuelHops = f + 1 := ⟨fuelHops - 1, by omega⟩
      have hhops : resume D base (fuelRun + 1) (fuelHops + 1) w s =
          resyncHops (D.drop base) base (fuelHops + 1) (w + 1) s := by
        rw [resume, hrun]
      rw [hhops, resyncHops]
      -- behind the damage: nothing, or a hop to the first good record
      rcases resyncScan_spec (D.drop base) (w + 1) with ⟨g, args, n, hscan, hf⟩ | ⟨hscan, hnone⟩
      · have hfirst : FirstGood D (base + w) (base + g) args n := hf.of_drop.behind hg
        have hn := goodRecord_le hf.good
        have hgw := hf.le
        obtain ⟨L, e, torn, htrace, hres⟩ := ih g
          { s with ranges := s.ranges ++ [(base + s.goodEnd, base + g)] }
          ((D.drop base).length + 1) fuelHops (by omega) (by omega) (by omega)
          (.inr ⟨_, hfirst.good⟩)
        rw [hscan]
        simp only
        rw [resume] at hres
        obtain ⟨L', rfl, ht⟩ := htrace.of_good hfirst.good
        have hlt : w < g := by omega
        refine ⟨_, e, torn, Trace.found hfirst (.inr hnt) ht, hres.trans ?_⟩
        simp [Resync.add, gaps, hw, hlt]
      · rw [hscan]
        exact ⟨[], w, true, Trace.done (hnone.of_drop.behind hg), by simp [Resync.add, gaps, ← hw]⟩

theorem resyncSlice_scanned (hbase : goodRecord D base = none) :
    ∃ L e torn, Scanned D base L (base + e) ∧ resyncSlice (D.drop base) base = (Resync.add {} base L e, torn) := by
  rw [resyncSlice, resyncHops]
  rcases resyncScan_spec (D.drop base) 1 with ⟨g, args, n, hscan, hf⟩ | ⟨hscan, hnone⟩
  · have hfirst : FirstGood D base (base + g) args n := hf.of_drop.behind hbase
    have hgw := hf.le
    obtain ⟨L, e, torn, htrace, hres⟩ := resume_trace (D := D) _ g
      { ranges := [(base + 0, base + g)] } ((D.drop base).length + 1) (D.drop base).length
      (Nat.lt_succ_self _) (by omega) (by have := goodRecord_le hf.good; omega) (.inr ⟨_, hfirst.good⟩)
    rw [hscan]
    simp only
    rw [resume] at hres
    obtain ⟨L', rfl, ht⟩ := htrace.of_good hfirst.good
    have hlt : 0 < g := by omega
    refine ⟨_, e, torn, Scanned.hop hfirst ht, hres.trans ?_⟩
    simp [Resync.add, gaps, hlt]
  · rw [hscan]
    exact ⟨[], 0, true, Scanned.nothing (hnone.of_drop.behind hbase), by simp [Resync.add, gaps]⟩

end Loops

/-! ## The strict walk as a run of good records -/

/-- Good records one right behind the other, from the first offset to the last. -/
inductive Run (D : Bytes) : Nat → List Found → Nat → Prop
  | nil (p : Nat) : Run D p [] p
  | cons {p n e : Nat} {args : Argv} {L : List Found} : goodRecord D p = some (args, n) →
      Run D (p + n) L e → Run D p (⟨p, args, n⟩ :: L) e

def walkFound (w : V2Walk) (r : Found) : V2Walk := applyFrame r.args r.size w

theorem walkLoop_run {fuel : Nat} {w : V2Walk} (hfuel : (D.drop w.pos).length < fuel) :
    ∃ R, Run D w.pos R (walkLoop fuel (D.drop w.pos) w).pos ∧
      Halted (R.foldl walkFound w) (walkLoop fuel (D.drop w.pos) w) ∧
      goodRecord D (walkLoop fuel (D.drop w.pos) w).pos = none ∧ ((walkLoop fuel (D.drop w.pos) w).stop = .clean →
        ∀ b ∈ D.drop (walkLoop fuel (D.drop w.pos) w).pos, b = 0) := by
  induction fuel generalizing w with
  | zero => simp at hfuel
  | succ fuel ih =>
    have hround := walkLoop_succ fuel (D.drop w.pos) w
    rw [goodRecord_drop, Nat.add_zero] at hround
    cases hg : goodRecord D w.pos with
    | some a =>
      obtain ⟨args, n⟩ := a
      simp only [hg] at hround
      have hn := goodRecord_le hg
      have hstep : (walkFound w ⟨w.pos, args, n⟩).pos = w.pos + n := pos_applyFrame _ _ _
      have hdrop : (D.drop w.pos).drop n = D.drop (walkFound w ⟨w.pos, args, n⟩).pos := by
        rw [drop_drop, hstep]
      rw [hround, hdrop]
      obtain ⟨R, hrun, hhalt, hnone, hclean⟩ := ih (w := walkFound w ⟨w.pos, args, n⟩) (by
        rw [hstep, length_drop]
        rw [length_drop] at hfuel
        omega)
      exact ⟨⟨w.pos, args, n⟩ :: R, Run.cons hg (hstep ▸ hrun), hhalt, hnone, hclean⟩
    | none =>
      rw [hg] at hround
      rw [hround.1.pos]
      exact ⟨[], Run.nil _, hround.1, hg, hround.2⟩

theorem noneLeft_of_zeros {p : Nat} (h : ∀ b ∈ D.drop p, b = 0) : NoneLeft D p := by
  intro q hq
  by_contra hne
  obtain ⟨⟨args, n⟩, hg⟩ := Option.ne_none_iff_exists'.mp hne
  obtain ⟨payload, hok, _⟩ := goodRecord_eq_some.mp hg
  have hz : D.drop p = List.replicate (D.drop p).length 0 := eq_replicate_iff.mpr ⟨rfl, h⟩
  rw [show q = p + (q - p) by omega, ← nextRecord_drop, hz] at hok
  exact nextRecord_zeros _ _ _ _ hok

variable {R : List Found}

theorem spans_foldl_walkFound {p e : Nat} (h : Run D p R e) {w : V2Walk} (hw : w.pos = p) :
    (R.foldl walkFound w).spans = w.spans ++ R.map Found.span := by
  induction h generalizing w with
  | nil p => simp
  | @cons p n e args L _ _ ih =>
    rw [foldl_cons, ih (by simp [walkFound, hw])]
    simp [walkFound, Found.span, hw]

/-- **What a resync replay does, in terms of the file:** a run of good records behind the magic, then the
scan behind the first damage. -/
theorem streamV2_resync (D : Bytes) :
    ∃ R p L E, Run D aof2Magic.length R p ∧ goodRecord D p = none ∧ Scanned D p L E ∧ (streamV2 D true).walk.pos = E ∧
      (streamV2 D true).walk.spans = (R ++ L).map Found.span ∧ (streamV2 D true).report.resyncedRanges = gaps p L ∧
      (streamV2 D true).walk.out =
        (R.foldl walkFound { pos := aof2Magic.length }).out ++ L.filterMap Found.deliver := by
  obtain ⟨R, hrun, hhalt, hnone, hclean⟩ :=
    walkLoop_run (D := D) (w := { pos := aof2Magic.length }) (Nat.lt_succ_self _)
  have hspans := spans_foldl_walkFound hrun (w := { pos := aof2Magic.length }) rfl
  rw [nil_append] at hspans
  change Run D _ R (walkV2 (D.drop aof2Magic.length) aof2Magic.length).pos at hrun
  change Halted _ (walkV2 (D.drop aof2Magic.length) aof2Magic.length) at hhalt
  change goodRecord D (walkV2 (D.drop aof2Magic.length) aof2Magic.length).pos = none at hnone
  change (walkV2 (D.drop aof2Magic.length) aof2Magic.length).stop = .clean →
    ∀ b ∈ D.drop (walkV2 (D.drop aof2Magic.length) aof2Magic.length).pos, b = 0 at hclean
  generalize hw : walkV2 (D.drop aof2Magic.length) aof2Magic.length = w at *
  by_cases hstop : w.stop = .clean
  · refine ⟨R, w.pos, [], w.pos, hrun, hnone, .nothing (noneLeft_of_zeros (hclean hstop)), ?_⟩
    rw [streamV2, hw]
    simp only [hstop, ne_eq, not_true_eq_false, and_false, if_false]
    exact ⟨by trivial, by rw [hhalt.spans, hspans, append_nil], rfl, by
      rw [hhalt.out]; simp⟩
  · obtain ⟨L, e, torn, hscan, hslice⟩ := resyncSlice_scanned hnone
    refine ⟨R, w.pos, L, w.pos + e, hrun, hnone, hscan, ?_⟩
    rw [streamV2, hw]
    simp only [hstop, ne_eq, not_false_eq_true, and_self, if_true]
    rw [resyncFallback, hslice]
    refine ⟨rfl, ?_, ?_, ?_⟩
    · simp [Resync.add, hhalt.spans, hspans]
    · simp [Resync.add]
    · simp [Resync.add, hhalt.out]

/-! ## Nothing left behind -/

/-- `q` is the end of a record one comes to from `p` by always going to the next good record. -/
inductive Reaches (D : Bytes) : Nat → Nat → Prop
  | refl (p : Nat) : Reaches D p p
  | next {p g n q : Nat} {args : Argv} : FirstGood D p g args n → Reaches D (g + n) q → Reaches D p q

/-- Right behind some record reached from `p` the bytes look like a record that runs past the end of the
file, and a good record starts further on. -/
def StallsFrom (D : Bytes) (p : Nat) : Prop :=
  ∃ q, Reaches D p q ∧ nextRecord D q = .truncated ∧ ¬ NoneLeft D q

variable {p E : Nat}

theorem Trace.noneLeft_iff (h : Trace D p L E) : NoneLeft D E ↔ ¬ StallsFrom D p := by
  have hdone : ∀ {p}, NoneLeft D p → ¬ StallsFrom D p := by
    rintro p hn ⟨q, hq, _, hleft⟩
    cases hq with
    | refl => exact hleft hn
    | next hf _ => exact hf.not_noneLeft hn
  induction h with
  | done hn => exact ⟨fun _ => hdone hn, fun _ => hn⟩
  | @gaveUp p ht =>
    refine ⟨hdone, fun hs => ?_⟩
    by_contra hleft
    exact hs ⟨p, Reaches.refl p, ht, hleft⟩
  | @found p g n E args L hf hor _ ih =>
    refine ih.trans (not_congr ?_)
    constructor
    · rintro ⟨q, hq, htr, hleft⟩
      exact ⟨q, Reaches.next hf hq, htr, hleft⟩
    · rintro ⟨q, hq, htr, hleft⟩
      cases hq with
      | refl => exact absurd htr (hf.not_truncated hor)
      | next hf' hq' =>
        obtain ⟨rfl, rfl, rfl⟩ := hf.unique hf'
        exact ⟨q, hq', htr, hleft⟩

/-- Behind the first damage and the first record recovered there, the scan stalls. -/
def LeavesBehind (D : Bytes) : Prop :=
  ∃ R p g args n, Run D aof2Magic.length R p ∧ goodRecord D p = none ∧ FirstGood D p g args n ∧
    StallsFrom D (g + n)

/-- A piece of the file: an applied record or a skipped range. -/
inductive Piece
  | applied (span : Nat × Nat)
  | skipped (range : Nat × Nat)

def Piece.span : Piece → Nat × Nat
  | .applied s => s
  | .skipped r => r

def Piece.applied? : Piece → Option (Nat × Nat)
  | .applied s => some s
  | .skipped _ => none

def Piece.skipped? : Piece → Option (Nat × Nat)
  | .applied _ => none
  | .skipped r => some r

/-- Non-empty pieces, each starting where the one before ended. -/
def Tiles : (lo : Nat) → List Piece → (hi : Nat) → Prop
  | lo, [], hi => lo = hi
  | lo, x :: xs, hi => x.span.1 = lo ∧ lo < x.span.2 ∧ Tiles x.span.2 xs hi

/-- The resync replay of `D` leaves no recoverable record behind the last one it applied, and the applied
records, the reported ranges and the dropped tail tile the file behind the magic. -/
structure ResyncComplete (D : Bytes) : Prop where
  nothingLeft : NoneLeft D (streamV2 D true).walk.pos
  tiled : ∃ pieces : List Piece,
    Tiles aof2Magic.length pieces (streamV2 D true).walk.pos ∧
    pieces.filterMap Piece.applied? = (streamV2 D true).walk.spans ∧
    pieces.filterMap Piece.skipped? = (streamV2 D true).report.resyncedRanges ∧
    (∀ s ∈ (streamV2 D true).walk.spans, ∃ args, goodRecord D s.1 = some (args, s.2 - s.1)) ∧
    (streamV2 D true).walk.pos ≤ D.length

def pieces : (p : Nat) → List Found → List Piece
  | _, [] => []
  | p, r :: L =>
    (if p < r.start then [.skipped (p, r.start)] else []) ++ .applied r.span :: pieces (r.start + r.size) L

theorem pieces_applied (L : List Found) (p : Nat) : (pieces p L).filterMap Piece.applied? = L.map Found.span := by
  induction L generalizing p with
  | nil => rfl
  | cons r L ih =>
    rw [pieces, filterMap_append, filterMap_cons, ih]
    split_ifs <;> simp [Piece.applied?]

theorem pieces_skipped (L : List Found) (p : Nat) : (pieces p L).filterMap Piece.skipped? = gaps p L := by
  induction L generalizing p with
  | nil => rfl
  | cons r L ih =>
    rw [pieces, filterMap_append, filterMap_cons, ih, gaps]
    split_ifs <;> simp [Piece.skipped?]

/-- Records of which each is the first good one from the end of the one before. -/
inductive Chain (D : Bytes) : Nat → List Found → Nat → Prop
  | nil (p : Nat) : Chain D p [] p
  | cons {p g n E : Nat} {args : Argv} {L : List Found} : FirstGood D p g args n → Chain D (g + n) L E →
      Chain D p (⟨g, args, n⟩ :: L) E

theorem Trace.chain (h : Trace D p L E) : Chain D p L E := by
  induction h with
  | done | gaveUp => exact .nil _
  | found hf _ _ ih => exact .cons hf ih

theorem Scanned.chain (h : Scanned D p L E) : Chain D p L E := by
  cases h with
  | nothing _ => exact .nil _
  | hop hf ht => exact .cons hf ht.chain

theorem Run.chain_append {q : Nat} (h : Run D p R q) (h' : Chain D q L E) : Chain D p (R ++ L) E := by
  induction h with
  | nil p => exact h'
  | cons hg _ ih => exact .cons (FirstGood.of_good hg) (ih h')

theorem Run.gaps_append {q : Nat} (h : Run D p R q) (L : List Found) : gaps p (R ++ L) = gaps q L := by
  induction h with
  | nil p => rfl
  | cons hg _ ih => simp [gaps, ih]

theorem Chain.tiles (h : Chain D p L E) : Tiles p (pieces p L) E := by
  induction h with
  | nil p => rfl
  | @cons p g n E args L hf _ ih =>
    have hn := goodRecord_le hf.good
    have hg := hf.le
    rw [pieces]
    simp only [Found.span]
    split_ifs with hlt
    · exact ⟨rfl, hlt, rfl, by show g < g + n; omega, ih⟩
    · have hpg : p = g := by omega
      exact ⟨hpg.symm, by show p < g + n; omega, ih⟩

theorem Chain.good (h : Chain D p L E) : ∀ r ∈ L, goodRecord D r.start = some (r.args, r.size) := by
  induction h with
  | nil p => simp
  | cons hf _ ih => simpa [hf.good] using ih

theorem Chain.le_length (h : Chain D p L E) (hp : p ≤ D.length) : E ≤ D.length := by
  induction h with
  | nil p => exact hp
  | cons hf _ ih => exact ih (goodRecord_le hf.good).2

theorem Run.unique {p e e' : Nat} {R R' : List Found} (h : Run D p R e)
    (h' : Run D p R' e') (he : goodRecord D e = none) (he' : goodRecord D e' = none) : R = R' ∧ e = e' := by
  induction h generalizing R' with
  | nil p =>
    cases h' with
    | nil => exact ⟨rfl, rfl⟩
    | cons hg _ => rw [he] at hg; cases hg
  | cons hg _ ih =>
    cases h' with
    | nil => rw [he'] at hg; cases hg
    | cons hg' ht' =>
      rw [hg] at hg'
      cases hg'
      obtain ⟨rfl, rfl⟩ := ih ht' he
      exact ⟨rfl, rfl⟩

theorem resyncComplete_of_noneLeft (hD : aof2Magic.length ≤ D.length) (hleft : NoneLeft D (streamV2 D true).walk.pos) :
    ResyncComplete D := by
  obtain ⟨R, p, L, E, hrun, _, hscan, hpos, hspans, hranges, _⟩ := streamV2_resync D
  have hchain := hrun.chain_append hscan.chain
  refine ⟨hleft, pieces aof2Magic.length (R ++ L), hpos ▸ hchain.tiles, ?_, ?_, ?_, ?_⟩
  · rw [pieces_applied, hspans]
  · rw [pieces_skipped, hranges, hrun.gaps_append]
  · rw [hspans]
    intro s hs
    obtain ⟨r, hr, rfl⟩ := List.mem_map.mp hs
    refine ⟨r.args, ?_⟩
    have hsize : (Found.span r).2 - (Found.span r).1 = r.size := by simp [Found.span]
    rw [hsize]
    exact hchain.good r hr
  · rw [hpos]
    exact hchain.le_length hD

/-- Four records `P`: the first has a damaged payload, the third a damaged length that reads as 16 MiB. The
replay stops behind the second, with the fourth left behind. -/
def stalledBody : Bytes :=
  (writeRecordMultibulk [[80]]).set 18 0 ++ writeRecordMultibulk [[80]] ++
    (writeRecordMultibulk [[80]]).set 3 1 ++ writeRecordMultibulk [[80]]

end Kevy.Persist
