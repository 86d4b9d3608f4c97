import Kevy.Moves.Steps

/-!
# What a move keeps

What was taken off the source travels with the operations until it is placed again. Every step of a move keeps what
stands under the keys, apart from the destination a `RENAME` replaces; the one exception is a step that puts back, when
the source is no longer what the take has left.
-/

namespace Kevy.Moves

open Kevy.Resp Option Function

/-! ## What is on its way -/

inductive Cargo
  | whole (value : Value) (ttlMs : Option Nat)
  | element (x : Bytes)
  | member (x : Bytes)
  deriving DecidableEq

def Stage.cargo (p : Plan) : Stage → Option Cargo
  | .renamePut value ttlMs | .renameRestore value ttlMs => some (.whole value ttlMs)
  | .listPush x | .listRestore x => some (.element x)
  | .setPut | .setPutBack =>
    match p.kind with
    | .set member => some (.member member)
    | _ => none
  | _ => none

def Stage.restores : Stage → Bool
  | .renameRestore _ _ | .listRestore _ | .setPutBack => true
  | _ => false

def Removed (p : Plan) (e : Entry) (o : Option Entry) : Cargo → Prop
  | .whole value ttlMs => e.value = value ∧ (e.expireAtNs = none → ttlMs = none) ∧ o = none
  | .element x => ∃ fromLeft toLeft xs, p.kind = .list fromLeft toLeft ∧
      e.value = .list (if fromLeft then x :: xs else xs ++ [x]) ∧ o = Keyspace.ofList e xs
  | .member x => ∃ ms, e.value = .set ms ∧ x ∈ ms ∧ o = Keyspace.ofSet e (ms.erase x)

def Keyspace.Holds (ks : Keyspace) (key : Bytes) (c : Cargo) : Prop :=
  ∃ e, ks.data key = some e ∧
    match c with
    | .whole value _ => e.value = value
    | .element x => ∃ xs, e.value = .list xs ∧ x ∈ xs
    | .member x => ∃ ms, e.value = .set ms ∧ x ∈ ms

def Value.Within : Value → Value → Prop
  | .list xs, .list ys => xs.Sublist ys
  | .set ms, .set ns => ms ⊆ ns
  | .other d, .other d' => d = d'
  | _, _ => False

def Kept (e : Entry) (o : Option Entry) : Prop :=
  ∃ e', o = some e' ∧ e.value.Within e'.value ∧ e'.expireAtNs = e.expireAtNs ∧ e'.fieldDeadlines = e.fieldDeadlines

theorem Value.Within.refl : (v : Value) → v.Within v
  | .list xs => List.Sublist.refl xs
  | .set ms => Finset.Subset.refl ms
  | .other _ => rfl

theorem Kept.refl (e : Entry) : Kept e (some e) := ⟨e, rfl, .refl _, rfl, rfl⟩

/-! ## Reading what was placed -/

namespace Keyspace

variable {ks : Keyspace} {key : Bytes} {e : Entry}

theorem data_place (ks : Keyspace) (key : Bytes) (o : Option Entry) : (ks.place key o).data key = o := by
  simp only [place, update_self]

theorem live_place_of_ne {k : Bytes} (h : k ≠ key) (o : Option Entry) : (ks.place key o).live k = ks.live k := by
  simp only [live, place, update_of_ne h]

theorem live_place_none (ks : Keyspace) (key : Bytes) : (ks.place key none).live key = none := by
  simp only [live, place, update_self, filter_none]

theorem live_place_some (h : e.isExpiredAt ks.now = false) : (ks.place key (some e)).live key = some e := by
  simp only [live, place, update_self, filter_some, h, Bool.not_false, if_true]

theorem not_expired_of_live (h : ks.live key = some e) : e.isExpiredAt ks.now = false := by
  have hkept := (filter_eq_some_iff.mp h).2
  simpa using hkept

theorem live_place_value (h : ks.live key = some e) (k : Bytes) (v : Value) :
    (ks.place k (some { e with value := v })).live k = some { e with value := v } := by
  have hlive := not_expired_of_live h
  exact live_place_some hlive

theorem live_place_fresh (ks : Keyspace) (key : Bytes) (v : Value) :
    (ks.place key (some (.fresh v))).live key = some (.fresh v) :=
  live_place_some rfl

theorem live_place_ofList (h : ks.live key = some e) (xs : List Bytes) :
    (ks.place key (ofList e xs)).live key = ofList e xs := by
  unfold ofList
  split
  · exact live_place_none ks key
  · exact live_place_value h key _

theorem live_place_ofSet (h : ks.live key = some e) (ms : Finset Bytes) :
    (ks.place key (ofSet e ms)).live key = ofSet e ms := by
  unfold ofSet
  split
  · exact live_place_none ks key
  · exact live_place_value h key _

theorem keeps_place {o : Option Entry} (h : ∀ e, ks.live key = some e → Kept e ((ks.place key o).live key)) (k : Bytes)
    (e : Entry) (he : ks.live k = some e) : Kept e ((ks.place key o).live k) := by
  by_cases hk : k = key
  · subst hk
    exact h e he
  · rw [live_place_of_ne hk, he]
    exact Kept.refl e

/-! ## The operations of the store -/

variable {left : Bool} {x : Bytes} {ks' : Keyspace}

theorem push_spec (h : ks.push key left x = some ks') :
    (∀ k e, ks.live k = some e → Kept e (ks'.live k)) ∧ ks'.Holds key (.element x) := by
  unfold push at h
  split at h
  next hlive =>
    cases h
    refine ⟨keeps_place fun e he => ?_, _, data_place .., [x], rfl, List.mem_singleton_self x⟩
    rw [hlive] at he
    cases he
  next e hlive =>
    split at h
    next xs hxs =>
      cases h
      refine ⟨keeps_place fun e' he' => ?_, _, data_place .., _, rfl, ?_⟩
      · obtain rfl : e = e' := some.inj (hlive.symm.trans he')
        refine ⟨_, live_place_value hlive key _, ?_, rfl, rfl⟩
        rw [hxs]
        cases left
        · exact List.sublist_append_left xs [x]
        · exact List.sublist_cons_self x xs
      · cases left <;> simp
    next => cases h

theorem pop_none (h : ks.pop key left = some (none, ks')) : ks' = ks := by
  unfold pop at h
  split at h
  · cases h
    rfl
  · split at h
    · split at h
      · cases h
        rfl
      · cases h
    · cases h

theorem pop_some (h : ks.pop key left = some (some x, ks')) :
    ∃ e xs, ks.live key = some e ∧ e.value = .list (if left then x :: xs else xs ++ [x]) ∧
      ks' = ks.place key (ofList e xs) := by
  unfold pop at h
  split at h
  next => cases h
  next e hlive =>
    split at h
    next xs hxs =>
      split at h
      next => cases h
      next y hy =>
        cases h
        refine ⟨e, _, hlive, ?_, rfl⟩
        rw [hxs]
        cases left
        · rw [if_neg (by simp)] at hy
          simp [List.dropLast_append_getLast? x hy]
        · rw [if_pos rfl] at hy
          simp [List.cons_head?_tail hy]
    next => cases h

variable {m : Bytes}

theorem sadd_spec (h : ks.sadd key m = some ks') :
    (∀ k e, ks.live k = some e → Kept e (ks'.live k)) ∧ ks'.Holds key (.member m) := by
  unfold sadd at h
  split at h
  next hlive =>
    cases h
    refine ⟨keeps_place fun e he => ?_, _, data_place .., {m}, rfl, Finset.mem_singleton_self m⟩
    rw [hlive] at he
    cases he
  next e hlive =>
    split at h
    next ms hms =>
      cases h
      refine ⟨keeps_place fun e' he' => ?_, _, data_place .., _, rfl, Finset.mem_insert_self m ms⟩
      obtain rfl : e = e' := some.inj (hlive.symm.trans he')
      refine ⟨_, live_place_value hlive key _, ?_, rfl, rfl⟩
      rw [hms]
      exact Finset.subset_insert m ms
    next => cases h

theorem srem_false (h : ks.srem key m = (false, ks')) : ks' = ks := by
  unfold srem at h
  split at h
  · cases h
    rfl
  · split at h
    · split at h <;> cases h
      rfl
    · cases h
      rfl

theorem srem_true (h : ks.srem key m = (true, ks')) :
    ∃ e ms, ks.live key = some e ∧ e.value = .set ms ∧ m ∈ ms ∧ ks' = ks.place key (ofSet e (ms.erase m)) := by
  unfold srem at h
  split at h
  next => cases h
  next e hlive =>
    split at h
    next ms hms =>
      split at h
      next hm =>
        cases h
        exact ⟨e, ms, hlive, hms, hm, rfl⟩
      next => cases h
    next => cases h

theorem push_back {xs : List Bytes}
    (hvalue : e.value = .list (if left then x :: xs else xs ++ [x])) (hleft : ks.live key = ofList e xs)
    (hnone : ofList e xs = none → e.NoDeadlines) :
    ∃ ks', ks.push key left x = some ks' ∧ ks'.live key = some e := by
  obtain ⟨v, at', fields⟩ := e
  unfold push
  by_cases hxs : xs = []
  · obtain ⟨rfl, rfl⟩ := hnone (if_pos hxs)
    rw [hleft, ofList, if_pos hxs]
    refine ⟨_, rfl, (live_place_fresh ..).trans ?_⟩
    subst hxs
    cases hvalue
    cases left <;> rfl
  · rw [ofList, if_neg hxs] at hleft
    rw [hleft]
    refine ⟨_, rfl, (live_place_value hleft key _).trans ?_⟩
    cases hvalue
    rfl

theorem sadd_back {ms : Finset Bytes} (hvalue : e.value = .set ms) (hm : m ∈ ms)
    (hleft : ks.live key = ofSet e (ms.erase m)) (hnone : ofSet e (ms.erase m) = none → e.NoDeadlines) :
    ∃ ks', ks.sadd key m = some ks' ∧ ks'.live key = some e := by
  obtain ⟨v, at', fields⟩ := e
  cases hvalue
  unfold sadd
  have hback := Finset.insert_erase hm
  by_cases hms : ms.erase m = ∅
  · obtain ⟨rfl, rfl⟩ := hnone (if_pos hms)
    rw [hleft, ofSet, if_pos hms]
    refine ⟨_, rfl, (live_place_fresh ..).trans ?_⟩
    rw [hms] at hback
    rw [← hback]
    rfl
  · rw [ofSet, if_neg hms] at hleft
    rw [hleft]
    refine ⟨_, rfl, (live_place_value hleft key _).trans ?_⟩
    rw [hback]

def putBack (ks : Keyspace) (p : Plan) : Cargo → Keyspace
  | .whole value ttlMs => ks.putWithTtl p.src value ttlMs
  | .element x =>
    match p.kind with
    | .list fromLeft _ => (ks.push p.src fromLeft x).getD ks
    | _ => ks
  | .member x => (ks.sadd p.src x).getD ks

theorem putBack_spec {p : Plan} {o : Option Entry} {c : Cargo} (hc : Removed p e o c) (ho : ks.live p.src = o)
    (hnone : o = none → e.NoDeadlines) :
    (ks.putBack p c).live p.src = some e ∧ ∀ k e', ks.live k = some e' → Kept e' ((ks.putBack p c).live k) := by
  cases c with
  | whole value ttlMs =>
    obtain ⟨hvalue, httl, rfl⟩ := hc
    obtain ⟨hat, hfields⟩ := hnone rfl
    obtain rfl := httl hat
    have hentry : (⟨value, none, []⟩ : Entry) = e := by rw [← hvalue, ← hat, ← hfields]
    refine ⟨(live_place_some rfl).trans (congrArg some hentry), keeps_place fun e' he' => ?_⟩
    rw [ho] at he'
    cases he'
  | element x =>
    obtain ⟨fromLeft, toLeft, xs, hkind, hvalue, rfl⟩ := hc
    obtain ⟨ks', hks', hlive⟩ := push_back hvalue ho hnone
    have hback : ks.putBack p (.element x) = ks' := by simp only [putBack, hkind, hks', getD_some]
    rw [hback]
    exact ⟨hlive, (push_spec hks').1⟩
  | member x =>
    obtain ⟨ms, hvalue, hm, rfl⟩ := hc
    obtain ⟨ks', hks', hlive⟩ := sadd_back hvalue hm ho hnone
    have hback : ks.putBack p (.member x) = ks' := by simp only [putBack, hks', getD_some]
    rw [hback]
    exact ⟨hlive, (sadd_spec hks').1⟩

end Keyspace

/-! ## What one step does -/

inductive Outcome (p : Plan) (s : State) : State → Prop
  /-- There was nothing to take. -/
  | nothing (r : Reply) (hcargo : s.stage.cargo p = none) (hr : r.refuses = true) :
    Outcome p s (s.going s.keys (.answered r))
  /-- The source gave something up. -/
  | took (e : Entry) (o : Option Entry) (c : Cargo) (next : Stage) (hcargo : s.stage.cargo p = none)
      (hlive : s.keys.live p.src = some e) (hleft : (s.keys.place p.src o).live p.src = o) (hc : Removed p e o c)
      (hnext : next.cargo p = some c) (hback : next.restores = false) :
    Outcome p s (s.taking p (s.keys.place p.src o) next)
  /-- The destination has it. -/
  | placed (c : Cargo) (ks : Keyspace) (r : Reply) (hcargo : s.stage.cargo p = some c) (hr : r.refuses = false)
      (hkept : ∀ k e, s.keys.live k = some e → Kept e (ks.live k) ∨ (k = p.dst ∧ p.kind = .rename false))
      (hholds : ks.Holds p.dst c) :
    Outcome p s (s.going ks (.answered r))
  /-- The source is given back what it gave up. -/
  | gaveBack (c : Cargo) (r : Reply) (hcargo : s.stage.cargo p = some c) (hstage : s.stage.restores = true)
      (hr : r.refuses = true) :
    Outcome p s (s.going (s.keys.putBack p c) (.answered r))
  /-- The next operation carries what this one did. -/
  | passed (next : Stage) (hcargo : next.cargo p = s.stage.cargo p) (hreply : ∀ r, next ≠ .answered r) :
    Outcome p s (s.going s.keys next)
  /-- The move is over. -/
  | finished : Outcome p s s

namespace State

variable {p : Plan} {s : State}

theorem renameTake_outcome (hstage : s.stage = .renameTake) : Outcome p s (s.renameTake p) := by
  have hcargo : s.stage.cargo p = none := by rw [hstage]; rfl
  unfold renameTake Keyspace.takeWithTtl
  cases hlive : s.keys.live p.src with
  | none => exact .nothing .noSuchKey hcargo rfl
  | some e =>
    have hremoved : Removed p e none (.whole e.value (e.expireAtNs.map fun at' => remainingMs at' s.keys.now)) := by
      refine ⟨rfl, fun hat => ?_, rfl⟩
      rw [hat]
      rfl
    exact .took e none _ _ hcargo hlive (Keyspace.live_place_none ..) hremoved rfl rfl

theorem renamePut_outcome {nx : Bool} {value : Value} {ttlMs : Option Nat} (hkind : p.kind = .rename nx)
    (hstage : s.stage = .renamePut value ttlMs) : Outcome p s (s.renamePut p nx value ttlMs) := by
  have hcargo : s.stage.cargo p = some (.whole value ttlMs) := by rw [hstage]; rfl
  unfold renamePut
  split
  · refine .passed _ hcargo.symm ?_
    intro r hr
    cases hr
  next hfree =>
    refine .placed _ _ _ hcargo (by cases nx <;> rfl) ?_ ⟨_, Keyspace.data_place .., rfl⟩
    intro k e he
    by_cases hk : k = p.dst
    · subst hk
      -- a `RENAMENX` gets here over an absent destination only
      rw [he, isSome_some, Bool.and_true, Bool.not_eq_true] at hfree
      exact .inr ⟨rfl, by rw [hkind, hfree]⟩
    · refine .inl ?_
      rw [Keyspace.putWithTtl, Keyspace.live_place_of_ne hk, he]
      exact Kept.refl e

theorem listTake_outcome {fromLeft toLeft : Bool} (hkind : p.kind = .list fromLeft toLeft)
    (hstage : s.stage = .listTake) : Outcome p s (s.listTake p fromLeft) := by
  have hcargo : s.stage.cargo p = none := by rw [hstage]; rfl
  unfold listTake
  split
  next => exact .nothing _ hcargo rfl
  next ks hpop =>
    rw [Keyspace.pop_none hpop]
    exact .nothing _ hcargo rfl
  next x ks hpop =>
    obtain ⟨e, xs, hlive, hvalue, rfl⟩ := Keyspace.pop_some hpop
    have hremoved : Removed p e (Keyspace.ofList e xs) (.element x) := ⟨fromLeft, toLeft, xs, hkind, hvalue, rfl⟩
    exact .took e _ _ _ hcargo hlive (Keyspace.live_place_ofList hlive xs) hremoved rfl rfl

theorem listPush_outcome {toLeft : Bool} (hstage : s.stage = .listPush x) : Outcome p s (s.listPush p toLeft x) := by
  have hcargo : s.stage.cargo p = some (.element x) := by rw [hstage]; rfl
  unfold listPush
  split
  next ks hpush =>
    obtain ⟨hkept, hholds⟩ := Keyspace.push_spec hpush
    exact .placed _ ks _ hcargo rfl (fun k e he => .inl (hkept k e he)) hholds
  next =>
    refine .passed _ hcargo.symm ?_
    intro r hr
    cases hr

theorem setTake_outcome {member : Bytes} {dstIsSet : Bool} (hkind : p.kind = .set member)
    (hstage : s.stage = .setTake dstIsSet) : Outcome p s (s.setTake p member dstIsSet) := by
  have hcargo : s.stage.cargo p = none := by rw [hstage]; rfl
  unfold setTake
  split
  next => exact .nothing _ hcargo rfl
  next => exact .nothing _ hcargo rfl
  next =>
    split
    · split
      next ks hrem =>
        obtain ⟨e, ms, hlive, hvalue, hm, rfl⟩ := Keyspace.srem_true hrem
        have hremoved : Removed p e (Keyspace.ofSet e (ms.erase member)) (.member member) := ⟨ms, hvalue, hm, rfl⟩
        have hnext : Stage.setPut.cargo p = some (.member member) := by simp only [Stage.cargo, hkind]
        exact .took e _ _ _ hcargo hlive (Keyspace.live_place_ofSet hlive _) hremoved hnext rfl
      next ks hrem =>
        rw [Keyspace.srem_false hrem]
        exact .nothing _ hcargo rfl
    · exact .nothing _ hcargo rfl

theorem setPut_outcome {member : Bytes} (hkind : p.kind = .set member) (hstage : s.stage = .setPut) :
    Outcome p s (s.setPut p member) := by
  have hcargo : s.stage.cargo p = some (.member member) := by simp only [hstage, Stage.cargo, hkind]
  unfold setPut
  split
  next ks hadd =>
    obtain ⟨hkept, hholds⟩ := Keyspace.sadd_spec hadd
    exact .placed _ ks _ hcargo rfl (fun k e he => .inl (hkept k e he)) hholds
  next =>
    refine .passed _ ?_ ?_
    · rw [hstage]
      rfl
    · intro r hr
      cases hr

theorem advance_outcome (p : Plan) (s : State) : Outcome p s (s.advance p) := by
  unfold advance
  split
  next hstage => exact renameTake_outcome hstage
  next hkind hstage => exact renamePut_outcome hkind hstage
  next value ttlMs _ hstage =>
    have hcargo : s.stage.cargo p = some (.whole value ttlMs) := by rw [hstage]; rfl
    exact .gaveBack _ .zero hcargo (by rw [hstage]; rfl) rfl
  next hkind hstage => exact listTake_outcome hkind hstage
  next hstage => exact listPush_outcome hstage
  next fromLeft toLeft x hkind hstage =>
    have hcargo : s.stage.cargo p = some (.element x) := by rw [hstage]; rfl
    have hback : s.keys.putBack p (.element x) = (s.keys.push p.src fromLeft x).getD s.keys := by
      simp only [Keyspace.putBack, hkind]
    rw [← hback]
    exact .gaveBack _ .wrongType hcargo (by rw [hstage]; rfl) rfl
  next hstage =>
    refine .passed _ ?_ ?_
    · rw [hstage]
      rfl
    · intro r hr
      cases hr
  next hkind hstage => exact setTake_outcome hkind hstage
  next hkind hstage => exact setPut_outcome hkind hstage
  next member hkind hstage =>
    have hcargo : s.stage.cargo p = some (.member member) := by simp only [hstage, Stage.cargo, hkind]
    exact .gaveBack _ .wrongType hcargo (by rw [hstage]; rfl) rfl
  next => exact .finished

/-! ## Whole runs -/

/-- What the move carries is what the source gave up. -/
def Honest (p : Plan) (s : State) : Prop :=
  ∀ c, s.stage.cargo p = some c → ∃ e, s.held = some e ∧ Removed p e s.left c

theorem Honest.advance (h : s.Honest p) : (s.advance p).Honest p := by
  intro c hc
  have hout := advance_outcome p s
  generalize s.advance p = s' at hout hc ⊢
  cases hout with
  | nothing => cases hc
  | took e o c' next hcargo hlive hleft hremoved hnext =>
    obtain rfl : c' = c := some.inj (hnext.symm.trans hc)
    have hremoved' : Removed p e ((s.keys.place p.src o).live p.src) c' := by rwa [hleft]
    exact ⟨e, hlive, hremoved'⟩
  | placed | gaveBack => cases hc
  | passed next hcargo => exact h c (hcargo.symm.trans hc)
  | finished => exact h c hc

theorem honest_run (p : Plan) (ks : Keyspace) (events : List Event) : (p.run ks events).Honest p := by
  suffices hfold : ∀ s : State, s.Honest p → (events.foldl (State.step p) s).Honest p by
    apply hfold
    intro c hc
    rw [Plan.start, Plan.first] at hc
    cases hkind : p.kind <;> rw [hkind] at hc <;> cases hc
  induction events with
  | nil => exact fun s h => h
  | cons event events ih =>
    intro s h
    cases event with
    | advance => exact ih _ h.advance
    | others change => exact ih _ h

/-- If the step puts back, the source is as the take has left it; and if nothing was left, nothing of what it held ends
by itself. -/
def Restorable (p : Plan) (s : State) : Prop :=
  s.stage.restores = true →
    s.keys.live p.src = s.left ∧ (s.left = none → ∀ e, s.held = some e → e.NoDeadlines)

/-- No data is lost by the next step of the move. -/
structure Keeps (p : Plan) (s : State) : Prop where
  /-- What stands under a key stays, but for what is taken off the source and a destination that `RENAME` replaces. -/
  keys : ∀ key e, s.keys.live key = some e →
    Kept e ((s.advance p).keys.live key) ∨
      (key = p.src ∧ ∃ c, (s.advance p).stage.cargo p = some c ∧ Removed p e ((s.advance p).keys.live key) c) ∨
      (key = p.dst ∧ p.kind = .rename false)
  /-- What was taken is carried on; with the reply it is at the destination, or the source is as before the take. -/
  cargo : ∀ c, s.stage.cargo p = some c →
    (s.advance p).stage.cargo p = some c ∨
      ∃ r, (s.advance p).stage = .answered r ∧
        if r.refuses then (s.advance p).keys.live p.src = s.held else (s.advance p).keys.Holds p.dst c
  /-- A move that has taken nothing is answered with a refusal, and the source is as it was. -/
  refused : s.stage.cargo p = none → ∀ r, (s.advance p).stage = .answered r → s.stage ≠ .answered r →
    r.refuses = true ∧ (s.advance p).keys.live p.src = s.keys.live p.src

theorem Honest.keeps (h : s.Honest p) (hback : s.Restorable p) : s.Keeps p := by
  have hout := advance_outcome p s
  generalize hs' : s.advance p = s' at hout
  constructor <;> rw [hs']
  · intro key e he
    cases hout with
    | nothing | passed | finished => exact .inl (he ▸ Kept.refl e)
    | took e' o c next _ hlive hleft hremoved hnext =>
      by_cases hkey : key = p.src
      · subst hkey
        obtain rfl : e' = e := some.inj (hlive.symm.trans he)
        exact .inr (.inl ⟨rfl, c, hnext, hleft.symm ▸ hremoved⟩)
      · refine .inl ?_
        have hother : (s.keys.place p.src o).live key = some e := (Keyspace.live_place_of_ne hkey o).trans he
        exact hother.symm ▸ Kept.refl e
    | placed c ks r _ _ hkept =>
      rcases hkept key e he with hkept | hdst
      · exact .inl hkept
      · exact .inr (.inr hdst)
    | gaveBack c r hcargo hstage =>
      obtain ⟨e', hheld, hremoved⟩ := h c hcargo
      obtain ⟨hsrc, hnone⟩ := hback hstage
      exact .inl ((Keyspace.putBack_spec hremoved hsrc fun ho => hnone ho e' hheld).2 key e he)
  · intro c hc
    cases hout with
    | nothing r hcargo | took e o c' next hcargo =>
      rw [hcargo] at hc
      cases hc
    | placed c' ks r hcargo hr _ hholds =>
      obtain rfl : c' = c := some.inj (hcargo.symm.trans hc)
      refine .inr ⟨r, rfl, ?_⟩
      rw [hr]
      exact hholds
    | gaveBack c' r hcargo hstage hr =>
      obtain rfl : c' = c := some.inj (hcargo.symm.trans hc)
      obtain ⟨e, hheld, hremoved⟩ := h c' hcargo
      obtain ⟨hsrc, hnone⟩ := hback hstage
      refine .inr ⟨r, rfl, ?_⟩
      rw [hr, hheld]
      exact (Keyspace.putBack_spec hremoved hsrc fun ho => hnone ho e hheld).1
    | passed next hcargo => exact .inl (hcargo.trans hc)
    | finished => exact .inl hc
  · intro hc r hr hbefore
    cases hout with
    | nothing r' _ hrefuses =>
      cases hr
      exact ⟨hrefuses, rfl⟩
    | took e o c next _ _ _ _ hnext =>
      rw [State.taking] at hr
      rw [show next = .answered r from hr] at hnext
      cases hnext
    | placed c ks r' hcargo | gaveBack c r' hcargo =>
      rw [hcargo] at hc
      cases hc
    | passed next _ hreply => exact absurd hr (hreply r)
    | finished => exact absurd hr hbefore

theorem Keeps.held_of_refused {c : Cargo} {r : Reply} (h : s.Keeps p) (hc : s.stage.cargo p = some c)
    (hr : (s.advance p).stage = .answered r) (hrefuses : r.refuses = true) :
    (s.advance p).keys.live p.src = s.held := by
  rcases h.cargo c hc with hcargo | ⟨r', hr', hplace⟩
  · rw [hr] at hcargo
    cases hcargo
  · obtain rfl : r = r' := Stage.answered.inj (hr.symm.trans hr')
    rwa [if_pos hrefuses] at hplace

end State

/-- **A move loses nothing.** Whatever other clients do between the steps of a move over two shards, the next step keeps
what was taken until it is at the destination or the source is as before the take, and keeps what others wrote, apart
from a destination `RENAME` replaces, if a step that puts back finds the source as the take has left it. -/
theorem move_loses_nothing (p : Plan) (ks : Keyspace) (events : List Event) (h : (p.run ks events).Restorable p) :
    (p.run ks events).Keeps p :=
  (State.honest_run p ks events).keeps h

/-! ## Sources that have changed -/

def plan (kind : Kind) : Plan := ⟨kind, [97], [98], by decide⟩

def twoKeys (src dst : Entry) : Keyspace :=
  ⟨0, fun key => if key = [97] then some src else if key = [98] then some dst else none⟩

/-- A list whose key has a deadline is put back after the destination has refused: the list kept an element. -/
theorem move_loses_nothing_listed :
    let p := plan (.list true false)
    let ks := twoKeys ⟨.list [[1], [2]], some 5000000, []⟩ (.fresh (.other [9]))
    let s := p.run ks [.advance, .advance]
    s.Restorable p ∧ s.Keeps p ∧ (s.advance p).keys.live [97] = ks.live [97] := by
  have hback : ((plan (.list true false)).run (twoKeys ⟨.list [[1], [2]], some 5000000, []⟩ (.fresh (.other [9])))
      [.advance, .advance]).Restorable (plan (.list true false)) := by
    intro _
    refine ⟨by decide, fun hnone => ?_⟩
    exact absurd hnone (by decide)
  exact ⟨hback, move_loses_nothing _ _ _ hback, by decide⟩

/-- The client of a `RENAMENX` is told `:0`, and what another client had written under the source meanwhile is gone. A
refused list element finds a string in its place and is nowhere. The last element of a list goes back without the
deadline of its key, with no other client around. -/
theorem put_back_over_others :
    let renameNx := plan (.rename true)
    let move := plan (.list true false)
    let old := Entry.fresh (.other [1])
    let mine := Entry.fresh (.other [2])
    let busy := Entry.fresh (.other [9])
    let write : Event := .others fun ks => ks.place [97] (some mine)
    let overwritten := renameNx.run (twoKeys old busy) [.advance, write, .advance]
    let dropped := move.run (twoKeys (.fresh (.list [[7]])) busy) [.advance, write, .advance]
    let kept := move.run (twoKeys ⟨.list [[7]], some 5000000, []⟩ busy) [.advance, .advance]
    (overwritten.keys.live [97] = some mine ∧ (overwritten.advance renameNx).stage = .answered .zero ∧
      (overwritten.advance renameNx).keys.live [97] = some old ∧ ¬ overwritten.Keeps renameNx) ∧
    ((dropped.advance move).stage = .answered .wrongType ∧ (dropped.advance move).keys.live [97] = some mine ∧
      (dropped.advance move).keys.live [98] = some busy ∧ ¬ dropped.Keeps move) ∧
    (kept.advance move).keys.live [97] = some (.fresh (.list [[7]])) ∧ ¬ kept.Keeps move := by
  intro renameNx move old mine busy write overwritten dropped kept
  have hover : (overwritten.advance renameNx).keys.live [97] = some old := by decide
  have hdrop : (dropped.advance move).keys.live [97] = some mine := by decide
  have hkept : (kept.advance move).keys.live [97] = some (.fresh (.list [[7]])) := by decide
  refine ⟨⟨by decide, by decide, hover, fun hkeeps => ?_⟩, ⟨by decide, hdrop, by decide, fun hkeeps => ?_⟩, hkept,
    fun hkeeps => ?_⟩
  · rcases hkeeps.keys [97] mine (by decide) with ⟨e, he, hwithin, _⟩ | ⟨_, c, hc, _⟩ | ⟨hdst, _⟩
    · obtain rfl : old = e := some.inj (hover.symm.trans he)
      exact absurd hwithin (by simp [mine, old, Entry.fresh, Value.Within])
    · have hnothing : (overwritten.advance renameNx).stage.cargo renameNx = none := by decide
      rw [hnothing] at hc
      cases hc
    · exact absurd hdst (by decide)
  · have hheld := hkeeps.held_of_refused (c := .element [7]) (r := .wrongType) (by decide) (by decide) rfl
    exact absurd hheld (by decide)
  · have hheld := hkeeps.held_of_refused (c := .element [7]) (r := .wrongType) (by decide) (by decide) rfl
    exact absurd hheld (by decide)

end Kevy.Moves
