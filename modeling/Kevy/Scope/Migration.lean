import Kevy.Lib.KeyedList
import Kevy.Lib.Runs
import Kevy.Resp.Basic

/-!
# Writes to a scope that moves away

The node keeps the prefixes that are on the move in one map and those that have moved in another, each behind its own
mutex. A write check reads the one map and then the other, and a commit takes the prefix out of the one map before it
puts it into the other. A check changes nothing, so it is two reads at two points of a run.
-/

namespace Kevy.Scope

open Kevy.Lib Kevy.Resp List

/-- `MigrationState`, with `from` and `to`. -/
structure MigrationState where
  fromId : String
  toId : String
  deriving DecidableEq

structure MigrationTable where
  migrating : KeyedList Bytes MigrationState := .empty
  migrated : KeyedList Bytes MigrationState := .empty

inductive MigrationError
  | alreadyMigrating
  | alreadyMigrated

namespace MigrationTable

/-- `start`. It holds the first map from its check to its insertion, so it is one step, at the look into the second. -/
def start (t : MigrationTable) (pfx : Bytes) (st : MigrationState) : Except MigrationError MigrationTable :=
  if (t.migrating.get pfx).isSome then .error .alreadyMigrating
  else if (t.migrated.get pfx).isSome then .error .alreadyMigrated
  else .ok { t with migrating := t.migrating.insert pfx st }

/-- The first access of `commit`. -/
def commitTake (t : MigrationTable) (pfx : Bytes) : Option (MigrationState × MigrationTable) :=
  (t.migrating.get pfx).map fun entry => (entry, { t with migrating := t.migrating.erase pfx })

/-- The second access of `commit`. -/
def commitPut (t : MigrationTable) (pfx : Bytes) (entry : MigrationState) : MigrationTable :=
  { t with migrated := t.migrated.insert pfx entry }

def abort (t : MigrationTable) (pfx : Bytes) : MigrationTable := { t with migrating := t.migrating.erase pfx }

end MigrationTable

def longer (key : Bytes) (best : Option (Bytes × MigrationState)) (p : Bytes × MigrationState) :
    Option (Bytes × MigrationState) :=
  if p.1.isPrefixOf key && best.all fun prev => prev.1.length < p.1.length then some p else best

/-- The loop of `match_migrating` and `match_migrated`: the longest prefix of the key. -/
def matchLongest (m : KeyedList Bytes MigrationState) (key : Bytes) : Option MigrationState :=
  (m.items.foldl (longer key) none).map Prod.snd

/-! ## The check -/

/-- `Scope` of the ownership table. -/
structure OwnedScope where
  pfx : Bytes
  writer : String
  fallback : Option String := none

inductive Routing
  | owned
  | misdirected (target : String)
  | unknown

def Routing.misdirectedTarget : Routing → Option String
  | .misdirected target => some target
  | _ => none

/-- `ScopeState`, without its migrations. -/
structure ScopeConfig where
  ownership : Option (List OwnedScope)
  peerAddrs : List (String × String)
  selfNodeId : Option String

/-- `route_with_fallback_state`; with nobody down it is `route`. -/
def routeWithFallbackState (scopes : List OwnedScope) (key : Bytes) (selfId : String) (down : List String) : Routing :=
  match scopes.find? fun s => s.pfx.isPrefixOf key with
  | none => .unknown
  | some s =>
    let activeOwner := if down.contains s.writer then s.fallback.getD s.writer else s.writer
    if activeOwner = selfId then .owned else .misdirected activeOwner

inductive WriteRedirect
  | misdirected (addr : String)
  | quiesced (toAddr : String)

namespace ScopeConfig

def resolveAddr (cfg : ScopeConfig) (nodeId : String) : String :=
  ((cfg.peerAddrs.find? fun p => p.1 = nodeId).map Prod.snd).getD nodeId

/-- `route_write`, with the two maps as they are when it reads them, the prefix the shard ingests and the peers that the
election snapshot has as down. -/
def routeWrite (cfg : ScopeConfig) (ingesting : Option Bytes) (snapshot : Option (List String))
    (migrating migrated : KeyedList Bytes MigrationState) (key : Bytes) : Option WriteRedirect :=
  if ingesting.any fun p => p.isPrefixOf key then none
  else match matchLongest migrating key with
    | some m => some (.quiesced (cfg.resolveAddr m.toId))
    | none =>
      match matchLongest migrated key with
      | some m => some (.misdirected (cfg.resolveAddr m.toId))
      | none => do
        let table ← cfg.ownership
        let selfId ← cfg.selfNodeId
        let routing := routeWithFallbackState table key selfId (snapshot.getD [])
        routing.misdirectedTarget.map fun target => .misdirected (cfg.resolveAddr target)

end ScopeConfig

/-! ## Runs -/

/-- The table, and the commits that are between their two accesses. -/
structure Node where
  table : MigrationTable := {}
  inFlight : List (Bytes × MigrationState) := []

inductive Event
  | start (pfx : Bytes) (st : MigrationState)
  | commitTake (pfx : Bytes)
  | commitPut (pfx : Bytes) (entry : MigrationState)
  | abort (pfx : Bytes)

namespace Node

def step (s : Node) : Event → Option Node
  | .start pfx st => some ((s.table.start pfx st).toOption.elim s fun table => { s with table })
  | .commitTake pfx => some ((s.table.commitTake pfx).elim s fun r => ⟨r.2, (pfx, r.1) :: s.inFlight⟩)
  | .commitPut pfx entry =>
    if (pfx, entry) ∈ s.inFlight then some ⟨s.table.commitPut pfx entry, s.inFlight.erase (pfx, entry)⟩ else none
  | .abort pfx => some { s with table := s.table.abort pfx }

def InFlight (s : Node) (pfx : Bytes) : Prop := ∃ entry, (pfx, entry) ∈ s.inFlight

/-- A commit of the prefix has begun. -/
def Committed (s : Node) (pfx : Bytes) : Prop := s.InFlight pfx ∨ (s.table.migrated.get pfx).isSome

/-- The event does not abort the migration of the prefix: an abort that finds it committed ends a later one. -/
def Spares (pfx : Bytes) (s : Node) (e : Event) : Prop := e = .abort pfx → s.Committed pfx

variable {s s' : Node} {e : Event} {pfx : Bytes}

/-- What a step can do to a prefix: it leaves a map or a commit only for the next place on its way, or by an abort. -/
structure Carries (s s' : Node) (e : Event) : Prop where
  migrated : ∀ q, (s.table.migrated.get q).isSome → (s'.table.migrated.get q).isSome
  inFlight : ∀ q, s.InFlight q → s'.Committed q
  migrating : ∀ q, (s.table.migrating.get q).isSome →
    (s'.table.migrating.get q).isSome ∨ s'.InFlight q ∨ e = .abort q

theorem isSome_get_insert {m : KeyedList Bytes MigrationState} {q : Bytes} (h : (m.get q).isSome) (p : Bytes)
    (st : MigrationState) : ((m.insert p st).get q).isSome := by
  rw [KeyedList.get_insert]
  split_ifs
  · rfl
  · exact h

theorem carries_self : Carries s s e := ⟨fun _ h => h, fun _ h => .inl h, fun _ h => .inl h⟩

theorem carries_of_step (hs : s.step e = some s') : Carries s s' e := by
  cases e with
  | start p st =>
    obtain rfl := Option.some_inj.mp hs
    unfold MigrationTable.start
    split_ifs
    · exact carries_self
    · exact carries_self
    · exact ⟨fun _ h => h, fun _ h => .inl h, fun _ h => .inl (isSome_get_insert h p st)⟩
  | commitTake p =>
    obtain rfl := Option.some_inj.mp hs
    unfold MigrationTable.commitTake
    cases s.table.migrating.get p with
    | none => exact carries_self
    | some entry =>
      refine ⟨fun _ h => h, fun _ ⟨x, hx⟩ => .inl ⟨x, mem_cons_of_mem _ hx⟩, fun q h => ?_⟩
      by_cases heq : q = p
      · exact .inr (.inl ⟨entry, heq ▸ mem_cons_self⟩)
      · refine .inl ?_
        show ((s.table.migrating.erase p).get q).isSome
        rwa [KeyedList.get_erase, if_neg heq]
  | commitPut p entry =>
    dsimp only [step] at hs
    split_ifs at hs
    obtain rfl := Option.some_inj.mp hs
    refine ⟨fun _ h => isSome_get_insert h p entry, fun q ⟨x, hx⟩ => ?_, fun _ h => .inl h⟩
    by_cases heq : (q, x) = (p, entry)
    · obtain ⟨rfl, rfl⟩ := Prod.mk.inj heq
      refine .inr ?_
      rw [MigrationTable.commitPut, KeyedList.get_insert, if_pos rfl]
      rfl
    · exact .inl ⟨x, (mem_erase_of_ne heq).mpr hx⟩
  | abort p =>
    obtain rfl := Option.some_inj.mp hs
    refine ⟨fun _ h => h, fun _ h => .inl h, fun q h => ?_⟩
    by_cases heq : q = p
    · exact .inr (.inr (heq ▸ rfl))
    · refine .inl ?_
      rwa [MigrationTable.abort, KeyedList.get_erase, if_neg heq]

theorem Committed.step (h : s.Committed pfx) (hs : s.step e = some s') : s'.Committed pfx :=
  h.elim ((carries_of_step hs).inFlight pfx) fun h => .inr ((carries_of_step hs).migrated pfx h)

/-- **A migration goes on** until it is aborted: the prefix is in the first map, or its commit has begun. -/
theorem migration_step (hspares : Spares pfx s e) (hs : s.step e = some s')
    (h : (s.table.migrating.get pfx).isSome ∨ s.Committed pfx) :
    (s'.table.migrating.get pfx).isSome ∨ s'.Committed pfx := by
  rcases h with h | h
  · rcases (carries_of_step hs).migrating pfx h with h | h | habort
    · exact .inl h
    · exact .inr (.inl h)
    · exact .inr ((hspares habort).step hs)
  · exact .inr (h.step hs)

end Node

theorem isSome_matchLongest {m : KeyedList Bytes MigrationState} {pfx key : Bytes} (h : (m.get pfx).isSome)
    (hkey : pfx <+: key) : (matchLongest m key).isSome := by
  obtain ⟨st, hst⟩ := Option.isSome_iff_exists.mp h
  -- once there is a best match there is one to the end, and a prefix of the key is one if it is the first
  have hloop : ∀ (l : List (Bytes × MigrationState)) (best : Option (Bytes × MigrationState)),
      best.isSome ∨ (pfx, st) ∈ l → (l.foldl (longer key) best).isSome := by
    intro l
    induction l with
    | nil => exact fun best hbest => hbest.resolve_right not_mem_nil
    | cons p l ih =>
      intro best hbest
      apply ih
      unfold longer
      cases best with
      | some b =>
        left
        split_ifs <;> rfl
      | none =>
        rcases mem_cons.mp (hbest.resolve_left Bool.false_ne_true) with rfl | hl
        · left
          rw [ isPrefixOf_iff_prefix.mpr hkey]
          rfl
        · exact .inr hl
  rw [matchLongest, Option.isSome_map]
  exact hloop _ none (.inr ((m.mem_items_iff pfx st).mpr hst))

/-- **A write under a migrating prefix is refused**, from the start of the migration until it is aborted, if the two reads
of the check do not both fall between the two steps of a commit of that prefix. -/
theorem write_under_migration_refused (cfg : ScopeConfig) (ingesting : Option Bytes) (snapshot : Option (List String))
    {s₀ s₂ s₃ : Node} {t₁ : MigrationTable} {pfx key : Bytes} {st : MigrationState}
    (hstart : s₀.table.start pfx st = .ok t₁) (hrun : Reached Node.step (Node.Spares pfx) { s₀ with table := t₁ } s₂)
    (hlater : Reached Node.step (fun _ _ => True) s₂ s₃) (hkey : pfx <+: key)
    (hshard : ¬ ingesting.any fun p => p.isPrefixOf key) (hgap : ¬ (s₂.InFlight pfx ∧ s₃.InFlight pfx)) :
    (∃ addr, cfg.routeWrite ingesting snapshot s₂.table.migrating s₃.table.migrated key = some (.quiesced addr)) ∨
      ∃ addr, cfg.routeWrite ingesting snapshot s₂.table.migrating s₃.table.migrated key = some (.misdirected addr) := by
  have hmoving : (s₂.table.migrating.get pfx).isSome ∨ s₂.Committed pfx := by
    refine hrun.invariant (P := fun s => (s.table.migrating.get pfx).isSome ∨ s.Committed pfx) ?_
      fun s e s' h hspares hs => Node.migration_step hspares hs h
    unfold MigrationTable.start at hstart
    split_ifs at hstart
    obtain rfl := Except.ok.inj hstart
    exact .inl (by rw [KeyedList.get_insert, if_pos rfl]; rfl)
  rw [ScopeConfig.routeWrite, if_neg hshard]
  cases hfirst : matchLongest s₂.table.migrating key with
  | some m => exact .inl ⟨_, rfl⟩
  | none =>
    have hcommitted : s₂.Committed pfx := by
      refine hmoving.resolve_left fun h => ?_
      have hsome := isSome_matchLongest h hkey
      rw [hfirst] at hsome
      cases hsome
    have hsecond : (s₃.table.migrated.get pfx).isSome := by
      have hlast : s₃.Committed pfx :=
        hlater.invariant (P := fun s => s.Committed pfx) hcommitted fun _ _ _ h _ hs => h.step hs
      rcases hcommitted with hflight | hdone
      · exact hlast.resolve_left fun h => hgap ⟨hflight, h⟩
      · exact hlater.invariant (P := fun s => (s.table.migrated.get pfx).isSome) hdone
          fun _ _ _ h _ hs => (Node.carries_of_step hs).migrated pfx h
    obtain ⟨m, hm⟩ := Option.isSome_iff_exists.mp (isSome_matchLongest hsecond hkey)
    rw [hm]
    exact .inr ⟨_, rfl⟩

/-- The node `a` owns the keys under the byte 97, and moves them to `b`. -/
def ownerOfA : ScopeConfig := ⟨some [⟨[97], "a", none⟩], [("b", "b:6004")], some "a"⟩

theorem write_under_migration_refused_committed :
    (∃ addr, ownerOfA.routeWrite none none .empty (KeyedList.empty.insert [97] ⟨"a", "b"⟩) [97, 58] =
        some (.quiesced addr)) ∨
      ∃ addr, ownerOfA.routeWrite none none .empty (KeyedList.empty.insert [97] ⟨"a", "b"⟩) [97, 58] =
        some (.misdirected addr) := by
  have hrun : Reached Node.step (Node.Spares [97]) ⟨⟨KeyedList.empty.insert [97] ⟨"a", "b"⟩, .empty⟩, []⟩
      ⟨⟨.empty, KeyedList.empty.insert [97] ⟨"a", "b"⟩⟩, []⟩ :=
    (Reached.start.step (e := .commitTake [97]) nofun rfl).step (e := .commitPut [97] ⟨"a", "b"⟩) nofun rfl
  have hstart : ({} : Node).table.start [97] ⟨"a", "b"⟩ = .ok ⟨KeyedList.empty.insert [97] ⟨"a", "b"⟩, .empty⟩ := rfl
  exact write_under_migration_refused ownerOfA none none hstart hrun .start ⟨[58], rfl⟩ Bool.false_ne_true
    fun h => absurd h.1.choose_spec not_mem_nil

/-- In the gap of the commit the owner of the keys accepts the write. -/
theorem commit_gap_accepts_write : ∃ s₁ s₂, ({} : Node).step (.start [97] ⟨"a", "b"⟩) = some s₁ ∧
    ({} : Node).table.start [97] ⟨"a", "b"⟩ = .ok s₁.table ∧ s₁.step (.commitTake [97]) = some s₂ ∧
      ownerOfA.routeWrite none none s₂.table.migrating s₂.table.migrated [97, 58] = none :=
  ⟨_, _, rfl, rfl, rfl, rfl⟩

end Kevy.Scope
