import Kevy.Store.Values

/-!
# Renaming a key

`RENAME` takes the entry out from under one key and puts it under another as it is, a cold one as its stub: the value
log is read at a place, whatever the key. A segment is read by the key, so a stub into one is materialised first. The
deadlines of hash fields stand beside the entries, and taking an entry out drops them.
-/

namespace Kevy.Fields

open Kevy.Lib Kevy.Resp Function
open Kevy.Store (Value)

variable {α V : Type}

/-- What a shard has under a key: the entry, and the key's part of `hfttl`. -/
structure Slot (α : Type) where
  entry : Option (Entry α)
  fields : List (Bytes × Nat)

inductive RenameOutcome
  | renamed
  | noSuchSrc
  | dstExists
  deriving DecidableEq

/-- `remove_entry` and `take_entry_keepalive`. -/
def Slot.removed : Slot α := ⟨none, []⟩

/-- `insert_entry`. -/
def Slot.inserted (e : Entry α) : Slot α := ⟨some e, []⟩

def Slot.reap (now : Nat) (c : Slot α) : Slot α := if c.entry.any (·.expired now) then removed else c

/-- `rename_if`, where `promote` materialises a stub into a segment and leaves other values. -/
def renameIf (promote : Bytes → α → α) (now : Nat) (src dst : Bytes) (nx : Bool) (s : Bytes → Slot α) :
    RenameOutcome × (Bytes → Slot α) :=
  match alive now (s src).entry with
  | none => (.noSuchSrc, update s src ((s src).reap now))
  | some e =>
    let e := { e with value := promote src e.value }
    let s := update s src { s src with entry := some e }
    if src = dst then (if nx then .dstExists else .renamed, s)
    -- a destination past its deadline is reaped here, and written over below
    else if nx && (alive now (s dst).entry).isSome then (.dstExists, s)
    else (.renamed, update (update s src .removed) dst (.inserted e))

/-- The whole key has moved, or nothing has happened. -/
def Carried (src dst : Bytes) (outcome : RenameOutcome) (before after : Bytes → Option α) : Prop :=
  (outcome = .renamed → after dst = before src ∧ (src ≠ dst → after src = none) ∧
    ∀ key, key ≠ src → key ≠ dst → after key = before key) ∧
  (outcome ≠ .renamed → after = before)

/-! ## Cold values -/

/-- `ColdRef`: where the record of a cold value is. -/
structure ColdRef where
  fileId : Nat
  offset : Nat
  isSeg : Bool

inductive Stored (V : Type)
  | hot (v : V)
  | cold (ref : ColdRef)

/-- What the files hold. -/
structure Records (V : Type) where
  vlog : Nat → Nat → V
  seg : Bytes → ColdRef → V

namespace Records

/-- `tier_read_record`. -/
def read (files : Records V) (key : Bytes) (ref : ColdRef) : V :=
  if ref.isSeg then files.seg key ref else files.vlog ref.fileId ref.offset

def shown (files : Records V) (key : Bytes) : Stored V → V
  | .hot v => v
  | .cold ref => files.read key ref

/-- `promote_in_place`, of a stub into a segment. -/
def promote (files : Records V) (key : Bytes) : Stored V → Stored V
  | .hot v => .hot v
  | .cold ref => if ref.isSeg then .hot (files.read key ref) else .cold ref

/-- What a client finds under a key: its value, its deadline, and those of its fields. -/
def look (files : Records V) (now : Nat) (s : Bytes → Slot (Stored V)) (key : Bytes) :
    Option (V × Option Nat × List (Bytes × Nat)) :=
  (alive now (s key).entry).map fun e => (files.shown key e.value, e.expireAt, (s key).fields)

variable {files : Records V} {now : Nat} {src key : Bytes} {s : Bytes → Slot (Stored V)} {c : Slot (Stored V)}

theorem shown_promote (v : Stored V) : files.shown key (files.promote src v) = files.shown src v := by
  cases v with
  | hot v => rfl
  | cold ref =>
    rw [promote, shown, read]
    split_ifs with hseg
    · rfl
    · rw [shown, read, if_neg hseg]

theorem look_update_of_ne {k : Bytes} (h : k ≠ key) : files.look now (update s key c) k = files.look now s k := by
  rw [look, look, update_of_ne h]

theorem look_update (h : files.look now (update s key c) key = files.look now s key) :
    files.look now (update s key c) = files.look now s := by
  funext k
  by_cases hk : k = key
  · rw [hk, h]
  · exact look_update_of_ne hk

/-- **`RENAME` carries the whole key** just when there is nothing to move or no field of it has a deadline. -/
theorem rename_carries_iff (files : Records V) (now : Nat) (src dst : Bytes) (nx : Bool) (s : Bytes → Slot (Stored V)) :
    Carried src dst (renameIf files.promote now src dst nx s).1 (files.look now s)
        (files.look now (renameIf files.promote now src dst nx s).2) ↔
      src = dst ∨ files.look now s src = none ∨ (nx && (files.look now s dst).isSome) ∨ (s src).fields = [] := by
  unfold renameIf
  cases hlive : alive now (s src).entry with
  | none =>
    have hsrc : files.look now s src = none := by rw [look, hlive]; rfl
    refine iff_of_true ⟨nofun, fun _ => look_update ?_⟩ (.inr (.inl hsrc))
    rw [hsrc, look, update_self, Slot.reap]
    split_ifs
    · rfl
    · rw [hlive]; rfl
  | some e =>
    have hsrc : files.look now s src = some (files.shown src e.value, e.expireAt, (s src).fields) := by
      rw [look, hlive]; rfl
    have hread (key : Bytes) : files.shown key (files.promote src e.value) = files.shown src e.value := shown_promote _
    have hkept : alive now (some ⟨files.promote src e.value, e.expireAt⟩) = some ⟨files.promote src e.value, e.expireAt⟩ :=
      Option.filter_eq_some_iff.mpr ⟨rfl, (Option.filter_eq_some_iff.mp hlive).2⟩
    dsimp only
    generalize files.promote src e.value = v at hread hkept ⊢
    have hsame : files.look now (update s src ⟨some ⟨v, e.expireAt⟩, (s src).fields⟩) = files.look now s := by
      apply look_update
      rw [hsrc, look, update_self, hkept, Option.map_some, hread]
    by_cases heq : src = dst
    · rw [if_pos heq]
      refine iff_of_true ⟨fun _ => ⟨?_, fun hne => absurd heq hne, fun key _ _ => congrFun hsame key⟩, fun _ => hsame⟩
        (.inl heq)
      rw [← heq]
      exact congrFun hsame src
    rw [if_neg heq, update_of_ne (Ne.symm heq)]
    have hdst : (files.look now s dst).isSome = (alive now (s dst).entry).isSome := Option.isSome_map
    rw [← hdst]
    by_cases hrefused : (nx && (files.look now s dst).isSome) = true
    · rw [if_pos hrefused]
      exact iff_of_true ⟨nofun, fun _ => hsame⟩ (.inr (.inr (.inl hrefused)))
    rw [if_neg hrefused]
    have hmoved (s : Bytes → Slot (Stored V)) : files.look now (update s dst (.inserted ⟨v, e.expireAt⟩)) dst =
        some (files.shown src e.value, e.expireAt, []) := by
      rw [look, update_self, Slot.inserted, hkept, Option.map_some, hread]
    constructor
    · rintro ⟨hcarried, -⟩
      have hboth := (hcarried rfl).1
      rw [hmoved, hsrc, Option.some_inj, Prod.mk.injEq, Prod.mk.injEq] at hboth
      exact .inr (.inr (.inr hboth.2.2.symm))
    · rintro (h | h | h | hfields)
      · exact absurd h heq
      · cases hsrc.symm.trans h
      · exact absurd h hrefused
      · refine ⟨fun _ => ⟨by rw [hmoved, hsrc, hfields], fun _ => ?_, fun key hs hd => ?_⟩, fun hne => absurd rfl hne⟩
        · rw [look_update_of_ne heq, look, update_self]
          rfl
        · rw [look_update_of_ne hd, look_update_of_ne hs]
          exact congrFun hsame key

/-- A hash under `a`, with a deadline on its field. -/
def oneDeadline : Bytes → Slot (Stored Value) :=
  update (fun _ => .removed) [97] ⟨some ⟨.hot (.hash [([102], [49])]), none⟩, [([102], 1000)]⟩

/-- A `RENAME` of the hash leaves the deadline of its field behind. -/
theorem rename_drops_field_deadline : ∃ files : Records Value,
    ¬ Carried [97] [98] (renameIf files.promote 0 [97] [98] false oneDeadline).1 (files.look 0 oneDeadline)
      (files.look 0 (renameIf files.promote 0 [97] [98] false oneDeadline).2) :=
  ⟨⟨fun _ _ => .str [], fun _ _ => .str []⟩, fun h => absurd (h.1 rfl).1 (by decide)⟩

end Records

end Kevy.Fields
