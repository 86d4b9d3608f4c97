import Kevy.Persist.Record
import Kevy.Lib.Lines

/-!
# The reshard journal

`reshard.journal` is the commit record of a re-shard: five lines of text. `parse_journal` reads it back at
boot. A crash can cut the file anywhere while it is written. What is left then reads as the whole record or
not at all, so the file is its own commit mark.
-/

namespace Kevy.Persist

open Kevy.Lib Kevy.Resp List Option

/-! ## Layouts -/

inductive Routing
  | kevyHash
  | slots
  deriving DecidableEq, Repr

/-- `Routing::tag`: `kevyhash` or `slots`. -/
def Routing.tag : Routing → Bytes
  | .kevyHash => [107, 101, 118, 121, 104, 97, 115, 104]
  | .slots => [115, 108, 111, 116, 115]

structure ShardsMeta where
  n : Nat
  routing : Routing
  deriving DecidableEq, Repr

/-- What `ShardsMeta::write` writes. -/
def ShardsMeta.body (m : ShardsMeta) : Bytes := unlines [decimal m.n, m.routing.tag]

/-! ## Writing -/

def journalHeader : Bytes :=
  [107, 101, 118, 121, 45, 114, 101, 115, 104, 97, 114, 100, 45, 106, 111, 117, 114, 110, 97, 108, 32, 118, 49]

abbrev equals : UInt8 := 61

abbrev stampKey : Bytes := [115, 116, 97, 109, 112]
/-- `prev_n`. -/
abbrev prevNKey : Bytes := [112, 114, 101, 118, 95, 110]
abbrev nKey : Bytes := [110]
abbrev routingKey : Bytes := [114, 111, 117, 116, 105, 110, 103]

def journalField (key value : Bytes) : Bytes := key ++ equals :: value

/-- The text `write_journal` writes. -/
def journalBody (prevN : Nat) (target : ShardsMeta) (stamp : Nat) : Bytes :=
  unlines [journalHeader, journalField stampKey (decimal stamp), journalField prevNKey (decimal prevN),
    journalField nKey (decimal target.n), journalField routingKey target.routing.tag]

/-! ## Reading -/

def pushUnsigned (max acc : Nat) (b : UInt8) : Option Nat :=
  if isAsciiDigit b ∧ acc * 10 + (b.toNat - 48) ≤ max then some (acc * 10 + (b.toNat - 48)) else none

/-- `str::parse` for the unsigned type whose largest value is `max`: digits, perhaps behind one `+`. -/
def parseUnsigned (max : Nat) (text : Bytes) : Option Nat :=
  let digits := if text.head? = some plus then text.tail else text
  if digits = [] then none else digits.foldlM (pushUnsigned max) 0

def Routing.ofTag (v : Bytes) : Option Routing :=
  if v = Routing.kevyHash.tag then some .kevyHash
  else if v = Routing.slots.tag then some .slots
  else none

/-- What `parse_journal` has read so far. -/
structure JournalFields where
  stamp : Option Nat := none
  prevN : Option Nat := none
  n : Option Nat := none
  routing : Option Routing := none
  deriving DecidableEq, Repr

/-- The `match k` of `parse_journal`; an unknown key refuses the journal. -/
def setField (f : JournalFields) (k v : Bytes) : Option JournalFields :=
  if k = stampKey then some { f with stamp := parseUnsigned (2 ^ 128 - 1) v }
  else if k = prevNKey then some { f with prevN := parseUnsigned (2 ^ 64 - 1) v }
  else if k = nKey then some { f with n := parseUnsigned (2 ^ 64 - 1) v }
  else if k = routingKey then some { f with routing := Routing.ofTag v }
  else none

/-- One line of `parse_journal`'s loop. -/
def readField (f : JournalFields) (line : Bytes) : Option JournalFields :=
  (splitOnce equals line).bind fun kv => setField f kv.1 kv.2

def JournalFields.record (f : JournalFields) : Option (Nat × ShardsMeta × Nat) := do
  some (← f.prevN, ⟨← f.n, ← f.routing⟩, ← f.stamp)

/-- `parse_journal`: the old shard count, the target layout and the stamp. -/
def parseJournal (body : Bytes) : Option (Nat × ShardsMeta × Nat) :=
  if (lines body).head? = some journalHeader then
    ((lines body).tail.foldlM readField {}).bind JournalFields.record
  else none

/-! ## Numbers read back -/

theorem pushUnsigned_digit {max acc d : Nat} (hd : d < 10) (hmax : acc * 10 + d ≤ max) :
    pushUnsigned max acc (UInt8.ofNat d.digitChar.toNat) = some (acc * 10 + d) := by
  obtain ⟨hdigit, hval⟩ := isAsciiDigit_digitChar hd
  have hsub : 48 + d - 48 = d := by omega
  rw [pushUnsigned, hval, hsub, if_pos ⟨hdigit, hmax⟩]

theorem foldlM_pushUnsigned_decimal {max : Nat} (n : Nat) (h : n ≤ max) :
    (decimal n).foldlM (pushUnsigned max) 0 = some n := by
  induction n using Nat.strongRecOn with
  | ind n ih =>
    unfold decimal at ih ⊢
    by_cases hn : n < 10
    · rw [Nat.toDigits_of_lt_base hn, map_singleton, foldlM_cons, pushUnsigned_digit hn (by omega)]
      simp
    · have hmod : n % 10 < 10 := Nat.mod_lt n (by decide)
      rw [Nat.toDigits_of_base_le (by decide) (by omega), map_append, foldlM_append,
        ih (n / 10) (by omega) (by omega), map_singleton, bind_eq_bind, bind_some,
        foldlM_cons, pushUnsigned_digit hmod (by omega)]
      simp only [foldlM_nil, bind_eq_bind, bind_some, Option.pure_def]
      congr 1
      omega

theorem parseUnsigned_decimal {max n : Nat} (h : n ≤ max) : parseUnsigned max (decimal n) = some n := by
  have hplus : (decimal n).head? ≠ some plus := by
    intro hhead
    have hdigit := isAsciiDigit_decimal n plus (mem_of_mem_head? (by rw [hhead]; rfl))
    exact absurd hdigit (by decide)
  unfold parseUnsigned
  rw [if_neg hplus, if_neg (decimal_ne_nil n)]
  exact foldlM_pushUnsigned_decimal n h

theorem Routing.ofTag_tag (g : Routing) : Routing.ofTag g.tag = some g := by
  cases g <;> decide

theorem Routing.ofTag_prefix {g : Routing} {w : Bytes} (h : w <+: g.tag) (hne : w ≠ g.tag) :
    Routing.ofTag w = none := by
  unfold Routing.ofTag
  have hother : ∀ g' : Routing, w = g'.tag → False := by
    intro g' heq
    subst heq
    cases g <;> cases g' <;> revert h hne <;> decide
  rw [if_neg (hother _), if_neg (hother _)]

/-! ## The lines of a journal -/

theorem plainLine_of_digits {l : Bytes} (k : Bytes) (hk : newline ∉ k ∧ k.getLast? ≠ some 13)
    (hl : ∀ b ∈ l, isAsciiDigit b = true) : PlainLine (k ++ l) where
  noNewline := by
    intro hmem
    rcases mem_append.mp hmem with hin | hin
    · exact hk.1 hin
    · exact absurd (hl _ hin) (by decide)
  noCr := by
    intro hlast
    rcases eq_nil_or_concat l with rfl | ⟨front, b, rfl⟩
    · rw [append_nil] at hlast
      exact hk.2 hlast
    · rw [concat_eq_append, ← append_assoc, getLast?_concat, some.injEq] at hlast
      exact absurd (hl b (by simp)) (by rw [hlast]; decide)

theorem plainLine_number (n : Nat) {key : Bytes}
    (hk : newline ∉ key ++ [equals] ∧ (key ++ [equals]).getLast? ≠ some 13) :
    PlainLine (journalField key (decimal n)) := by
  have h := plainLine_of_digits (key ++ [equals]) hk (isAsciiDigit_decimal n)
  rwa [append_assoc] at h

theorem plainLine_routing (g : Routing) : PlainLine (journalField routingKey g.tag) := by
  cases g <;> exact ⟨by decide, by decide⟩

def journalNumbers (prevN n stamp : Nat) : List Bytes :=
  [journalField stampKey (decimal stamp), journalField prevNKey (decimal prevN),
    journalField nKey (decimal n)]

theorem journalBody_eq (prevN : Nat) (target : ShardsMeta) (stamp : Nat) : journalBody prevN target stamp =
      unlines (journalHeader :: (journalNumbers prevN target.n stamp ++
        [journalField routingKey target.routing.tag])) := rfl

theorem plainLine_journal (prevN : Nat) (target : ShardsMeta) (stamp : Nat) :
    ∀ l ∈ journalHeader :: (journalNumbers prevN target.n stamp ++
      [journalField routingKey target.routing.tag]), PlainLine l := by
  intro l hl
  simp only [journalNumbers, cons_append, nil_append, mem_cons, not_mem_nil, or_false] at hl
  rcases hl with rfl | rfl | rfl | rfl | rfl
  · exact ⟨by decide, by decide⟩
  · exact plainLine_number stamp (by decide)
  · exact plainLine_number prevN (by decide)
  · exact plainLine_number target.n (by decide)
  · exact plainLine_routing target.routing

/-! ## Cut journals -/

def NoRouting (line : Bytes) : Prop :=
  ∀ f g, readField f line = some g → f.routing = none → g.routing = none

theorem readField_field {key : Bytes} (hsep : equals ∉ key) (value : Bytes) (f : JournalFields) :
    readField f (journalField key value) = setField f key value := by
  unfold readField journalField
  rw [splitOnce_append hsep, bind_some]

variable {ls : List Bytes}

theorem foldlM_noRouting (hls : ∀ l ∈ ls, NoRouting l) {f g : JournalFields}
    (h : ls.foldlM readField f = some g) (hf : f.routing = none) : g.routing = none := by
  induction ls generalizing f with
  | nil =>
    obtain rfl : f = g := by simpa using h
    exact hf
  | cons l ls ih =>
    rw [foldlM_cons, bind_eq_bind, bind_eq_some_iff] at h
    obtain ⟨f', hstep, hrest⟩ := h
    have hf' := hls l mem_cons_self f f' hstep hf
    exact ih (forall_mem_cons.mp hls).2 hrest hf'

theorem record_noRouting {g : JournalFields} (h : g.routing = none) : g.record = none := by
  unfold JournalFields.record
  rw [h]
  cases g.prevN <;> cases g.n <;> rfl

theorem bind_record_noRouting (hls : ∀ l ∈ ls, NoRouting l) :
    (ls.foldlM readField {}).bind JournalFields.record = none := by
  cases hfold : ls.foldlM readField {} with
  | none => rfl
  | some g => exact record_noRouting (foldlM_noRouting hls hfold rfl)

theorem noRouting_number {prevN n stamp : Nat} {l p : Bytes} (hl : l ∈ journalNumbers prevN n stamp)
    (hp : p <+: l) : NoRouting p := by
  have hkey : ∃ key value, l = journalField key value ∧ equals ∉ key ∧ key ≠ routingKey := by
    simp only [journalNumbers, mem_cons, not_mem_nil, or_false] at hl
    rcases hl with rfl | rfl | rfl
    · exact ⟨stampKey, _, rfl, by decide, by decide⟩
    · exact ⟨prevNKey, _, rfl, by decide, by decide⟩
    · exact ⟨nKey, _, rfl, by decide, by decide⟩
  obtain ⟨key, value, rfl, hsep, hne⟩ := hkey
  intro f g hread hf
  unfold readField at hread
  rcases splitOnce_prefix hsep hp with hnone | ⟨w, _, _, hsome⟩
  · rw [hnone] at hread
    exact absurd hread (by simp)
  · rw [hsome, bind_some, setField, if_neg hne] at hread
    split_ifs at hread <;> (cases hread; exact hf)

theorem noRouting_cut {r : Routing} {p : Bytes} (hp : p <+: journalField routingKey r.tag)
    (hne : p ≠ journalField routingKey r.tag) : NoRouting p := by
  intro f g hread hf
  rcases splitOnce_prefix (by decide) hp with hnone | ⟨w, hw, rfl, _⟩
  · rw [readField, hnone] at hread
    exact absurd hread (by simp)
  · have htag : Routing.ofTag w = none := Routing.ofTag_prefix hw fun heq => hne (by rw [heq]; rfl)
    have hset : readField f (routingKey ++ equals :: w) = some { f with routing := Routing.ofTag w } :=
      readField_field (by decide) w f
    rw [hset, htag] at hread
    cases hread
    rfl

/-! ## The journal decides -/

theorem parseJournal_header {part : Bytes} (hls : ∀ l ∈ journalHeader :: ls, PlainLine l) (hpart : newline ∉ part) :
    parseJournal (unlines (journalHeader :: ls) ++ part) =
      ((ls ++ if part = [] then [] else [part]).foldlM readField {}).bind JournalFields.record := by
  unfold parseJournal
  rw [lines_unlines hls hpart, cons_append, head?_cons, if_pos rfl, tail_cons]

variable {prevN stamp : Nat} {target : ShardsMeta}

section Bounded

variable (hprev : prevN < 2 ^ 64) (hn : target.n < 2 ^ 64) (hstamp : stamp < 2 ^ 128)
include hprev hn hstamp

theorem foldlM_journal : ((journalNumbers prevN target.n stamp ++ [journalField routingKey target.routing.tag]).foldlM
      readField {}).bind JournalFields.record = some (prevN, target, stamp) := by
  have hsp := parseUnsigned_decimal (Nat.le_sub_one_of_lt hstamp)
  have hpp := parseUnsigned_decimal (Nat.le_sub_one_of_lt hprev)
  have hnp := parseUnsigned_decimal (Nat.le_sub_one_of_lt hn)
  have hset1 : ∀ f, readField f (journalField stampKey (decimal stamp)) = some { f with stamp := some stamp } := by
    intro f
    rw [readField_field (by decide), setField, if_pos rfl, hsp]
  have hset2 : ∀ f, readField f (journalField prevNKey (decimal prevN)) = some { f with prevN := some prevN } := by
    intro f
    rw [readField_field (by decide), setField, if_neg (by decide), if_pos rfl, hpp]
  have hset3 : ∀ f, readField f (journalField nKey (decimal target.n)) = some { f with n := some target.n } := by
    intro f
    rw [readField_field (by decide), setField, if_neg (by decide), if_neg (by decide), if_pos rfl, hnp]
  have hset4 : ∀ f, readField f (journalField routingKey target.routing.tag) =
      some { f with routing := some target.routing } := by
    intro f
    rw [readField_field (by decide), setField, if_neg (by decide), if_neg (by decide), if_neg (by decide),
      if_pos rfl, Routing.ofTag_tag]
  simp only [journalNumbers, cons_append, nil_append, foldlM_cons, foldlM_nil, hset1,
    hset2, hset3, hset4, bind_eq_bind, bind_some, Option.pure_def]
  rfl

theorem parseJournal_body : parseJournal (journalBody prevN target stamp) = some (prevN, target, stamp) := by
  have h := @parseJournal_header _ [] (plainLine_journal prevN target stamp) (by simp)
  rw [append_nil, if_pos rfl, append_nil, foldlM_journal hprev hn hstamp] at h
  exact h

theorem parseJournal_prefix {p : Bytes} (hp : p <+: journalBody prevN target stamp) :
    parseJournal p = none ∨ parseJournal p = some (prevN, target, stamp) := by
  have hplain := plainLine_journal prevN target stamp
  rw [journalBody_eq] at hp
  rcases prefix_unlines hp with rfl | ⟨done, l, rest, part, hcut, hpart, rfl⟩
  · exact .inr (parseJournal_body hprev hn hstamp)
  rw [hcut] at hplain
  have hnl : newline ∉ part := fun hmem => (hplain l (by simp)).noNewline (hpart.subset hmem)
  have hdone : ∀ m ∈ done, PlainLine m := fun m hm => hplain m (by simp [hm])
  cases done with
  | nil =>
    -- cut in the header: it is not there, or nothing else is
    left
    unfold parseJournal
    rw [lines_unlines hdone hnl, nil_append]
    by_cases hempty : part = []
    · rw [if_pos hempty, head?_nil, if_neg (by simp)]
    · rw [if_neg hempty, tail_cons]
      split_ifs
      · rfl
      · rfl
  | cons header ds =>
    rw [cons_append, List.cons.injEq] at hcut
    obtain ⟨rfl, hfields⟩ := hcut
    rw [parseJournal_header hdone hnl]
    rcases eq_nil_or_concat rest with rfl | ⟨rest, r, rfl⟩
    · -- cut in the last line
      obtain ⟨rfl, hl⟩ := append_inj' hfields rfl
      obtain rfl : journalField routingKey target.routing.tag = l := by simpa using hl
      by_cases hwhole : part = journalField routingKey target.routing.tag
      · right
        rw [if_neg (by rw [hwhole]; simp [journalField]), hwhole]
        exact foldlM_journal hprev hn hstamp
      · left
        apply bind_record_noRouting
        intro m hm
        rcases mem_append.mp hm with hin | hin
        · exact noRouting_number hin (prefix_refl m)
        · obtain ⟨_, rfl⟩ : part ≠ [] ∧ m = part := by simpa using hin
          exact noRouting_cut hpart hwhole
    · -- cut before the last line
      left
      rw [concat_eq_append, ← cons_append, ← append_assoc] at hfields
      obtain ⟨hnumbers, -⟩ := append_inj' hfields rfl
      apply bind_record_noRouting
      intro m hm
      rcases mem_append.mp hm with hin | hin
      · exact noRouting_number (by rw [hnumbers]; simp [hin]) (prefix_refl m)
      · obtain ⟨_, rfl⟩ : part ≠ [] ∧ m = part := by simpa using hin
        exact noRouting_number (l := l) (by rw [hnumbers]; simp) hpart

end Bounded

end Kevy.Persist
