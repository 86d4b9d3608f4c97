import Kevy.Store.Values

/-!
# Replaying a log later

The log of a shard holds every write as it was given, and behind a write that moved a deadline by a relative amount
the absolute deadline. Replay runs the same commands under a later clock. A deadline frame whose time has passed by
then deletes its key on the spot, and a command that stood behind it and found the key alive now finds nothing: it
creates the key anew, or does nothing where it had prolonged its life. As long as no command looks at a key in the
time between, the replayed store shows what the live store shows.
-/

namespace Kevy.Store

open Kevy.Lib Kevy.Resp List Option

section

variable {V W : Type} (M : Values V W)

/-! ## Runs -/

/-- Commands executed one after another, each at its clock time. -/
def runAt (cmds : List (Nat × Command W)) (s : Keyspace V) : Keyspace V :=
  cmds.foldl (fun s x => exec M x.2 x.1 s) s

def logOf : List (Nat × Command W) → Keyspace V → List (Command W)
  | [], _ => []
  | (t, c) :: rest, s => logWrite M c t s ++ logOf rest (exec M c t s)

/-- A `SET` that overwrites whatever is there. -/
def Opts.blind (o : Opts) : Bool := o.cond == .always && !o.get && o.ttl != .keep

def Command.reads : Command W → List Bytes
  | .set key _ o => if o.blind then [] else [key]
  | .setEx _ _ _ => []
  | .getSet key _ => [key]
  | .mset _ => []
  | .msetNx pairs => pairs.map Prod.fst
  | .del _ => []
  | .expire key _ _ => [key]
  | .expireAt key _ _ => [key]
  | .persist key => [key]
  | .getEx key _ => [key]
  | .rename src dst nx => if nx then [src, dst] else [src]
  | .update key _ => [key]
  | .flushAll => []

/-- No command of the history looks at a key with a deadline still ahead of it that the clock `now` has reached. -/
def Undisturbed (now : Nat) : List (Nat × Command W) → Keyspace V → Prop
  | [], _ => True
  | (t, c) :: rest, s => (∀ k ∈ c.reads, Quiet s t now k) ∧ Undisturbed now rest (exec M c t s)

end

section

variable {V W : Type} {M : Values V W} {a b : Keyspace V} {t now later : Nat} {k : Bytes}

theorem view_eq (h : ShowSame now a b) (hq : Quiet a t now k) (hle : t ≤ now) : a.live t k = b.live now k := by
  rw [← hq.live_eq hle]
  exact h k

/-! ## Commands that name no relative time -/

theorem alive_expireAtEntry (hle : t ≤ now) (due : Int) (x : Option (Entry V)) :
    alive now (expireAtEntry t due x) = alive now (expireAtEntry now due x) := by
  rcases x with _ | e
  · rfl
  unfold expireAtEntry
  rw [bind_some, bind_some]
  by_cases hnow : due ≤ now
  · rw [if_pos hnow]
    split_ifs
    · rfl
    · exact alive_of_le (by omega)
  · rw [if_neg hnow, if_neg (by omega)]

theorem alive_expireAtCondEntry (hle : t ≤ now) (ms : Int) (cond : Option ExpireCond) (x : Option (Entry V)) :
    alive now (expireAtCondEntry t ms cond x) = alive now (expireAtCondEntry now ms cond x) := by
  unfold expireAtCondEntry
  cases cond with
  | none => exact alive_expireAtEntry hle ms x
  | some c =>
    show alive now (expireIfEntry t c ms x) = alive now (expireIfEntry now c ms x)
    unfold expireIfEntry
    split_ifs
    · exact alive_expireAtEntry hle ms x
    · rfl

theorem alive_getExEntry (hle : t ≤ now) {ttl : GetExTtl} (hrel : ∀ ms, ttl ≠ .px ms)
    (x : Option (Entry V)) : alive now (getExEntry M t ttl x) = alive now (getExEntry M now ttl x) := by
  unfold getExEntry
  split_ifs
  · rfl
  · cases ttl with
    | none | persist => rfl
    | px ms => exact absurd rfl (hrel ms)
    | pxAt ms => exact alive_expireAtEntry hle ms x

theorem alive_writeEntry (hle : t ≤ now) {ttl : Ttl} (hrel : ∀ ms, ttl ≠ .px ms) (value : Bytes)
    (x : Option (Entry V)) : alive now (writeEntry M t value ttl x) = alive now (writeEntry M now value ttl x) := by
  cases ttl with
  | clear | keep => rfl
  | px ms => exact absurd rfl (hrel ms)
  | pxAt ms =>
    show alive now (if ms ≤ t then _ else _) = alive now (if ms ≤ now then _ else _)
    by_cases hnow : ms ≤ now
    · rw [if_pos hnow]
      split_ifs
      · rfl
      · exact alive_of_le hnow
    · rw [if_neg hnow, if_neg (by omega)]

theorem alive_setEntry (hle : t ≤ now) {o : Opts} (hrel : ∀ ms, o.ttl ≠ .px ms) (value : Bytes) (x : Option (Entry V)) :
    alive now (setEntry M t value o x) = alive now (setEntry M now value o x) := by
  unfold setEntry
  split_ifs
  · rfl
  · exact alive_writeEntry hle hrel value x
  · rfl

theorem setEntry_blind {o : Opts} (h : o.blind = true) (value : Bytes) (x y : Option (Entry V)) :
    setEntry M now value o x = setEntry M now value o y := by
  obtain ⟨cond, get, ttl⟩ := o
  obtain ⟨⟨rfl, rfl⟩, hkeep⟩ : (cond = .always ∧ get = false) ∧ ttl ≠ .keep := by
    simpa [Opts.blind] using h
  show writeEntry M now value ttl x = writeEntry M now value ttl y
  cases ttl with
  | keep => exact absurd rfl hkeep
  | clear | px | pxAt => rfl

/-! ## Several keys -/

variable {c : Command W}

section ShowSame

variable (h : ShowSame now a b)
include h

theorem showSame_msetPairs (pairs : List (Bytes × Bytes)) :
    ShowSame now (msetPairs M t pairs a) (msetPairs M now pairs b) := by
  unfold msetPairs
  induction pairs generalizing a b with
  | nil => exact h
  | cons p pairs ih => exact ih (h.edit rfl)

theorem showSame_delKeys (keys : List Bytes) : ShowSame now (delKeys t keys a) (delKeys now keys b) := by
  unfold delKeys
  induction keys generalizing a b with
  | nil => exact h
  | cons k keys ih => exact ih (h.edit rfl)

theorem showSame_delKeys_missing (hle : t ≤ now) {keys : List Bytes}
    (hmissing : ∀ k ∈ keys, a.live t k = none) : ShowSame now (delKeys t keys a) b := by
  have hdel : ∀ (keys : List Bytes) (s : Keyspace V) (j : Bytes),
      delKeys t keys s j = if j ∈ keys then none else s j := by
    intro keys
    induction keys with
    | nil => intro s j; rfl
    | cons k keys ih =>
      intro s j
      show delKeys t keys (s.edit t k fun _ => none) j = _
      rw [ih]
      by_cases hj : j = k
      · subst hj
        simp [edit_self]
      · rw [edit_other hj]
        simp [hj]
  intro j
  show alive now (delKeys t keys a j) = b.live now j
  rw [hdel, ← h j]
  split_ifs with hj
  · show alive now none = alive now (a j)
    have hdead : alive t (a j) = none := hmissing j hj
    rw [← alive_alive hle (a j), hdead]
  · rfl

theorem showSame_msetNx (hle : t ≤ now) {pairs : List (Bytes × Bytes)}
    (hq : ∀ k ∈ pairs.map Prod.fst, Quiet a t now k) :
    ShowSame now (exec M (.msetNx pairs) t a) (exec M (.msetNx pairs) now b) := by
  have hany : (pairs.any fun p => (a.live t p.1).isSome) = pairs.any fun p => (b.live now p.1).isSome := by
    rw [Bool.eq_iff_iff, List.any_eq_true, List.any_eq_true]
    apply exists_congr
    intro p
    apply and_congr_right
    intro hp
    rw [view_eq h (hq p.1 (List.mem_map_of_mem hp)) hle]
  show ShowSame now (if _ then a else msetPairs M t pairs a) (if _ then b else msetPairs M now pairs b)
  rw [hany]
  split_ifs
  · exact h
  · exact showSame_msetPairs h pairs

theorem showSame_renameIf (hle : t ≤ now) {src dst : Bytes} {nx : Bool}
    (hsrc : Quiet a t now src) (hdst : nx = true → Quiet a t now dst) :
    ShowSame now (renameIf t src dst nx a) (renameIf now src dst nx b) := by
  have hview := view_eq h hsrc hle
  have hlooked : ShowSame now (a.edit t src id) (b.edit now src id) := h.edit (by rw [hview])
  unfold renameIf
  simp only [hview]
  by_cases hstay : ((b.live now src).isNone || decide (src = dst)) = true
  · rw [if_pos hstay, if_pos hstay]
    exact hlooked
  rw [if_neg hstay, if_neg hstay]
  have hne : dst ≠ src := by
    intro heq
    exact hstay (by simp [heq])
  have htaken : (nx && ((a.edit t src id).live t dst).isSome) = (nx && ((b.edit now src id).live now dst).isSome) := by
    cases nx with
    | false => rfl
    | true =>
      unfold Expiring.live
      rw [edit_other hne, edit_other hne]
      show (a.live t dst).isSome = (b.live now dst).isSome
      rw [view_eq h (hdst rfl) hle]
  rw [htaken]
  split_ifs
  · exact hlooked
  · have hgone : ShowSame now ((a.edit t src id).edit t src fun _ => none)
        ((b.edit now src id).edit now src fun _ => none) := hlooked.edit rfl
    exact hgone.edit rfl

theorem showSame_exec (hle : t ≤ now) (hrel : relativeTtl c = none) (hq : ∀ k ∈ c.reads, Quiet a t now k) :
    ShowSame now (exec M c t a) (exec M c now b) := by
  cases c with
  | set key value o =>
    have hpx : ∀ ms, o.ttl ≠ .px ms := by
      intro ms heq
      simp [relativeTtl, heq] at hrel
    apply h.edit
    by_cases hblind : o.blind = true
    · rw [alive_setEntry hle hpx, setEntry_blind hblind]
    · have hview := view_eq h (hq key (by simp [Command.reads, hblind])) hle
      rw [hview]
      exact alive_setEntry hle hpx value _
  | setEx key ms value => cases hrel
  | getSet key value =>
    apply h.edit
    rw [view_eq h (hq key (by simp [Command.reads])) hle]
  | mset pairs => exact showSame_msetPairs h pairs
  | msetNx pairs => exact showSame_msetNx h hle hq
  | del keys => exact showSame_delKeys h keys
  | expire key ms cond => cases hrel
  | expireAt key ms cond =>
    apply h.edit
    rw [view_eq h (hq key (by simp [Command.reads])) hle]
    exact alive_expireAtCondEntry hle ms cond _
  | persist key =>
    apply h.edit
    rw [view_eq h (hq key (by simp [Command.reads])) hle]
  | getEx key ttl =>
    have hpx : ∀ ms, ttl ≠ .px ms := by
      intro ms heq
      simp [relativeTtl, heq] at hrel
    apply h.edit
    rw [view_eq h (hq key (by simp [Command.reads])) hle]
    exact alive_getExEntry hle hpx _
  | rename src dst nx =>
    apply showSame_renameIf h hle
    · exact hq src (by cases nx <;> simp [Command.reads])
    · intro hnx
      exact hq dst (by simp [Command.reads, hnx])
  | update key w =>
    apply h.edit
    rw [view_eq h (hq key (by simp [Command.reads])) hle]
  | flushAll => exact fun _ => rfl

end ShowSame

/-! ## Commands that name a relative time -/

/-- What a command put live and what it puts on replay, before the deadline frame: the same, or the same value with
a deadline that is no earlier. -/
inductive Redated : Option (Entry V) → Option (Entry V) → Prop
  | same (x : Option (Entry V)) : Redated x x
  | moved {v : V} {d d' : Nat} (h : d ≤ d') : Redated (some ⟨v, some d⟩) (some ⟨v, some d'⟩)

theorem redated_expireAtEntry (hle : t ≤ now) (ms : Int) (x : Option (Entry V)) :
    Redated (expireAtEntry t (t + ms) x) (expireAtEntry now (now + ms) x) := by
  rcases x with _ | e
  · exact .same none
  unfold expireAtEntry
  rw [bind_some, bind_some]
  by_cases hms : ms ≤ 0
  · rw [if_pos (by omega), if_pos (by omega)]
    exact .same none
  · rw [if_neg (by omega), if_neg (by omega)]
    exact .moved (by omega)

theorem allows_some (c : ExpireCond) (due : Int) (d : Nat) : c.allows due (some d) = true ↔
      c.nx = false ∧ (c.gt = true → (d : Int) < due) ∧ (c.lt = true → due < d) := by
  obtain ⟨nx, xx, gt, lt⟩ := c
  cases nx <;> cases gt <;> cases lt <;> simp [ExpireCond.allows]

variable {x : Option (Entry V)}

theorem redated_expireIfEntry (hle : t ≤ now) (c : ExpireCond) (ms : Int)
    (hx : ∀ e d, x = some e → e.expireAt = some d → now < d) :
    Redated (expireIfEntry t c (t + ms) x) (expireIfEntry now c (now + ms) x) := by
  rcases x with _ | ⟨v, _ | d⟩
  · unfold expireIfEntry
    show Redated (if _ then none else none) (if _ then none else none)
    rw [ite_self, ite_self]
    exact .same none
  · -- no deadline yet: the condition does not look at the new one
    show Redated (if c.allows (t + ms) none then _ else _) (if c.allows (t + ms) none then _ else _)
    split_ifs
    · exact redated_expireAtEntry hle ms _
    · exact .same _
  · have hd : now < d := hx _ d rfl rfl
    unfold expireIfEntry
    rw [bind_some]
    by_cases hlive : c.allows (t + ms) (some d) = true <;> by_cases hreplay : c.allows (now + ms) (some d) = true
    · rw [if_pos hlive, if_pos hreplay]
      exact redated_expireAtEntry hle ms _
    · -- `LT` allowed the earlier deadline and refuses the later one
      rw [if_pos hlive, if_neg hreplay]
      rw [allows_some] at hlive hreplay
      obtain ⟨hnx, hgt, hlt⟩ := hlive
      have hbound : t + ms < d ∧ (d : Int) ≤ now + ms := by
        by_contra hno
        exact hreplay ⟨hnx, fun h => by have := hgt h; omega, fun h => by have := hlt h; omega⟩
      unfold expireAtEntry
      rw [bind_some, if_neg (by omega)]
      exact .moved (by omega)
    · -- `GT` refused the earlier deadline and allows the later one
      rw [if_neg hlive, if_pos hreplay]
      rw [allows_some] at hlive hreplay
      obtain ⟨hnx, hgt, hlt⟩ := hreplay
      have hbound : (d : Int) < now + ms := by
        by_contra hno
        exact hlive ⟨hnx, fun h => absurd (hgt h) hno, fun h => by have := hlt h; omega⟩
      unfold expireAtEntry
      rw [bind_some, if_neg (by omega)]
      exact .moved (by omega)
    · rw [if_neg hlive, if_neg hreplay]
      exact .same _

theorem redated_expireEntry (hle : t ≤ now) (ms : Int) (cond : Option ExpireCond)
    (hx : ∀ e d, x = some e → e.expireAt = some d → now < d) :
    Redated (expireEntry t ms cond x) (expireEntry now ms cond x) := by
  cases cond with
  | none => exact redated_expireAtEntry hle ms x
  | some c => exact redated_expireIfEntry hle c ms hx

theorem redated_setEntry (hle : t ≤ now) {o : Opts} {ms : Nat} (ho : o.ttl = .px ms) (value : Bytes)
    (x : Option (Entry V)) : Redated (setEntry M t value o x) (setEntry M now value o x) := by
  unfold setEntry
  rw [ho]
  split_ifs
  · exact .same x
  · exact .moved (by omega)
  · exact .same x

theorem redated_getExEntry (hle : t ≤ now) (ms : Nat) (x : Option (Entry V)) :
    Redated (getExEntry M t (.px ms) x) (getExEntry M now (.px ms) x) := by
  unfold getExEntry
  split_ifs
  · exact .same x
  · exact redated_expireAtEntry hle ms x

theorem quiet_view_lt {s : Keyspace V} (h : Quiet s t now k) (e : Entry V) (d : Nat)
    (he : s.live t k = some e) (hd : e.expireAt = some d) : now < d := by
  obtain ⟨hraw, hlt⟩ := alive_eq_some he
  exact h e d hraw hd (hlt d hd)

theorem relative_edit (hc : relativeTtl c = some k) :
    ∃ f : Nat → Option (Entry V) → Option (Entry V), (∀ now s, exec M c now s = s.edit now k (f now)) ∧
      ∀ {a b : Keyspace V} {t now : Nat}, ShowSame now a b → t ≤ now → (∀ k ∈ c.reads, Quiet a t now k) →
        Redated (f t (a.live t k)) (f now (b.live now k)) := by
  cases c with
  | set key value o =>
    cases ho : o.ttl with
    | px ms =>
      obtain rfl : key = k := by simpa [relativeTtl, ho] using hc
      refine ⟨fun now => setEntry M now value o, fun _ _ => rfl, fun {a b t now} h hle hq => ?_⟩
      by_cases hblind : o.blind = true
      · show Redated (setEntry M t value o (a.live t key)) (setEntry M now value o (b.live now key))
        rw [setEntry_blind hblind value (a.live t key) (b.live now key)]
        exact redated_setEntry hle ho value _
      · have hview := view_eq h (hq key (by simp [Command.reads, hblind])) hle
        rw [hview]
        exact redated_setEntry hle ho value _
    | clear => simp [relativeTtl, ho] at hc
    | keep => simp [relativeTtl, ho] at hc
    | pxAt ms => simp [relativeTtl, ho] at hc
  | setEx key ms value =>
    obtain rfl : key = k := by simpa [relativeTtl] using hc
    refine ⟨fun now => setEntry M now value ⟨.always, false, .px ms⟩, fun _ _ => rfl,
      fun {a b t now} h hle hq => ?_⟩
    show Redated (setEntry M t value _ (a.live t key)) (setEntry M now value _ (b.live now key))
    rw [setEntry_blind rfl value (a.live t key) (b.live now key)]
    exact redated_setEntry hle rfl value _
  | expire key ms cond =>
    obtain rfl : key = k := by simpa [relativeTtl] using hc
    refine ⟨fun now => expireEntry now ms cond, fun _ _ => rfl, fun {a b t now} h hle hq => ?_⟩
    have hkey := hq key (by simp [Command.reads])
    rw [← view_eq h hkey hle]
    exact redated_expireEntry hle ms cond fun e d he hd => quiet_view_lt hkey e d he hd
  | getEx key ttl =>
    cases ttl with
    | px ms =>
      obtain rfl : key = k := by simpa [relativeTtl] using hc
      refine ⟨fun now => getExEntry M now (.px ms), fun _ _ => rfl, fun {a b t now} h hle hq => ?_⟩
      rw [view_eq h (hq key (by simp [Command.reads])) hle]
      exact redated_getExEntry hle ms _
    | none => cases hc
    | persist => cases hc
    | pxAt ms => cases hc
  | getSet | mset | msetNx | del | expireAt | persist | rename | update | flushAll => cases hc

/-! ## The deadline frame -/

theorem alive_deadline_moved {v : V} {d d' : Nat} (h : d ≤ d') :
    alive later (some ⟨v, some d⟩) = alive later (expireAtEntry later d (alive later (some ⟨v, some d'⟩))) := by
  by_cases hreached : d' ≤ later
  · rw [alive_of_le hreached, alive_of_le (Nat.le_trans h hreached)]
    rfl
  · rw [alive_of_lt (Nat.not_le.mp hreached)]
    unfold expireAtEntry
    rw [bind_some]
    by_cases hd : d ≤ later
    · rw [if_pos (by omega), alive_of_le hd, alive_none]
    · rw [if_neg (by omega), Int.toNat_natCast]

theorem alive_deadline_frame {y : Option (Entry V)} {d : Nat} (h : Redated x y)
    (hd : x.bind Entry.expireAt = some d) : alive later x = alive later (expireAtEntry later d (alive later y)) := by
  cases h with
  | same =>
    obtain ⟨⟨v, due⟩, rfl, hdue⟩ := bind_eq_some_iff.mp hd
    obtain rfl : due = some d := hdue
    exact alive_deadline_moved le_rfl
  | moved hle =>
    cases hd
    exact alive_deadline_moved hle

theorem Redated.eq_of_none {y : Option (Entry V)} (h : Redated x y) (hd : x.bind Entry.expireAt = none) : x = y := by
  cases h with
  | same => rfl
  | moved _ => cases hd

theorem showSame_deadline_frame (h : ShowSame now a b) (hle : now ≤ later)
    {f g : Option (Entry V) → Option (Entry V)} (hfg : Redated (f (a.live t k)) (g (b.live now k))) {d : Nat}
    (hd : (f (a.live t k)).bind Entry.expireAt = some d) :
    ShowSame later (a.edit t k f) ((b.edit now k g).edit later k (expireAtEntry later d)) := by
  intro j
  by_cases hj : j = k
  · subst hj
    show alive later (a.edit t j f j) = alive later ((b.edit now j g).edit later j _ j)
    rw [edit_self, edit_self]
    show _ = alive later (expireAtEntry later d (alive later (b.edit now j g j)))
    rw [edit_self]
    exact alive_deadline_frame hfg hd
  · show alive later (a.edit t k f j) = alive later ((b.edit now k g).edit later k _ j)
    rw [edit_other hj, edit_other hj, edit_other hj]
    exact h.mono hle j

/-! ## One command and its frames -/

theorem showSame_unrecorded (h : ShowSame now a b) (hle : t ≤ now)
    (hrec : recorded c t a = false) : ShowSame now (exec M c t a) b := by
  cases c with
  | del keys =>
    have hmissing : ∀ k ∈ keys, a.live t k = none := by
      have hboth := hrec
      simp [recorded] at hboth
      exact hboth.2
    exact showSame_delKeys_missing h hle hmissing
  | set | setEx | getSet | mset | msetNx | expire | expireAt | persist | getEx | rename | update | flushAll =>
    cases hrec

theorem showSame_relative (h : ShowSame now a b) (hle : t ≤ now) (hc : relativeTtl c = some k)
    (hq : ∀ k ∈ c.reads, Quiet a t now k) {more : List (Nat × Command W)}
    (hmore : more.map Prod.snd = ttlFollowup (exec M c t a) c) (hclock : ∀ f ∈ more, now ≤ f.1) :
    ∃ later, now ≤ later ∧ (later = now ∨ ∃ f ∈ more, later = f.1) ∧
      ShowSame later (exec M c t a) (runAt M more (exec M c now b)) := by
  obtain ⟨f, hexec, hredated⟩ := @relative_edit V W M k c hc
  have hxy := hredated h hle hq
  have hdeadline : deadlineUnixMs (exec M c t a) k = (f t (a.live t k)).bind Entry.expireAt := by
    unfold deadlineUnixMs
    rw [hexec, edit_self]
  unfold ttlFollowup deadlineFrame at hmore
  rw [hc, bind_some, hdeadline] at hmore
  cases hd : (f t (a.live t k)).bind Entry.expireAt with
  | none =>
    obtain rfl : more = [] := by simpa [hd] using hmore
    refine ⟨now, le_rfl, .inl rfl, ?_⟩
    show ShowSame now (exec M c t a) (exec M c now b)
    rw [hexec, hexec]
    exact h.edit (by rw [hxy.eq_of_none hd])
  | some d =>
    obtain ⟨later, rfl⟩ : ∃ later, more = [(later, .expireAt k d none)] := by
      rw [hd, map_some, toList_some, map_eq_singleton_iff] at hmore
      obtain ⟨⟨later, frame⟩, rfl, rfl⟩ := hmore
      exact ⟨later, rfl⟩
    have hlater : now ≤ later := hclock _ mem_cons_self
    refine ⟨later, hlater, .inr ⟨_, mem_cons_self, rfl⟩, ?_⟩
    show ShowSame later (exec M c t a) (exec M (.expireAt k d none) later (exec M c now b))
    rw [hexec, hexec]
    exact showSame_deadline_frame h hlater hxy hd

theorem showSame_logWrite (h : ShowSame now a b) (hle : t ≤ now) {horizon : Nat}
    (hq : ∀ k ∈ c.reads, Quiet a t horizon k) {frames : List (Nat × Command W)}
    (hframes : frames.map Prod.snd = logWrite M c t a) (hclock : frames.Pairwise fun x y => x.1 ≤ y.1)
    (hfrom : ∀ f ∈ frames, now ≤ f.1 ∧ f.1 ≤ horizon) :
    ∃ later, now ≤ later ∧ (later = now ∨ ∃ f ∈ frames, later = f.1) ∧
      ShowSame later (exec M c t a) (runAt M frames b) := by
  unfold logWrite at hframes
  split_ifs at hframes with hrec
  · rw [map_eq_cons_iff] at hframes
    obtain ⟨⟨at0, frame⟩, more, rfl, rfl, hmore⟩ := hframes
    obtain ⟨hnow, hhor⟩ := hfrom _ mem_cons_self
    have hq' : ∀ k ∈ frame.reads, Quiet a t at0 k := fun k hk => (hq k hk).mono hhor
    obtain ⟨hmoreclock, -⟩ := pairwise_cons.mp hclock
    cases hrel : relativeTtl frame with
    | none =>
      obtain rfl : more = [] := by simpa [ttlFollowup, hrel] using hmore
      refine ⟨at0, hnow, .inr ⟨_, mem_cons_self, rfl⟩, ?_⟩
      exact showSame_exec (h.mono hnow) (Nat.le_trans hle hnow) hrel hq'
    | some k =>
      obtain ⟨later, hlater, hwhich, hshow⟩ :=
        showSame_relative (h.mono hnow) (Nat.le_trans hle hnow) hrel hq' hmore hmoreclock
      refine ⟨later, Nat.le_trans hnow hlater, .inr ?_, hshow⟩
      rcases hwhich with rfl | ⟨f, hf, rfl⟩
      · exact ⟨_, mem_cons_self, rfl⟩
      · exact ⟨f, mem_cons_of_mem _ hf, rfl⟩
  · obtain rfl : frames = [] := by simpa using hframes
    exact ⟨now, le_rfl, .inl rfl, showSame_unrecorded h hle (Bool.eq_false_iff.mpr hrec)⟩

theorem showSame_run {horizon : Nat} (hnow : now ≤ horizon) {history : List (Nat × Command W)}
    (h : ShowSame now a b) (hle : ∀ x ∈ history, x.1 ≤ now) (hq : Undisturbed M horizon history a)
    {frames : List (Nat × Command W)} (hframes : frames.map Prod.snd = logOf M history a)
    (hclock : frames.Pairwise fun x y => x.1 ≤ y.1) (hfrom : ∀ f ∈ frames, now ≤ f.1 ∧ f.1 ≤ horizon) :
    ShowSame horizon (runAt M history a) (runAt M frames b) := by
  induction history generalizing a b now frames with
  | nil =>
    obtain rfl : frames = [] := by simpa [logOf] using hframes
    exact h.mono hnow
  | cons x history ih =>
    obtain ⟨t, c⟩ := x
    obtain ⟨hqc, hqrest⟩ := hq
    obtain ⟨own, rest, rfl, hown, hrest⟩ := map_eq_append_iff.mp hframes
    obtain ⟨hclock1, hclock2, hacross⟩ := pairwise_append.mp hclock
    obtain ⟨later, hlater, hwhich, hshow⟩ := showSame_logWrite h (hle _ mem_cons_self) hqc hown hclock1
      fun f hf => hfrom f (mem_append_left _ hf)
    have hreached : later ≤ horizon ∧ ∀ f ∈ rest, later ≤ f.1 := by
      rcases hwhich with rfl | ⟨f, hf, rfl⟩
      · exact ⟨hnow, fun f hf => (hfrom f (mem_append_right _ hf)).1⟩
      · exact ⟨(hfrom f (mem_append_left _ hf)).2, fun g hg => hacross f hf g hg⟩
    show ShowSame horizon (runAt M history (exec M c t a)) (runAt M (own ++ rest) b)
    unfold runAt at ih hshow ⊢
    rw [foldl_append]
    refine ih hreached.1 hshow (fun x hx => Nat.le_trans (hle x (mem_cons_of_mem _ hx)) hlater) hqrest
      hrest hclock2 fun f hf => ⟨hreached.2 f hf, (hfrom f (mem_append_right _ hf)).2⟩

end

/-! ## The result -/

def emptyKeyspace {V : Type} : Keyspace V := fun _ => none

end Kevy.Store
