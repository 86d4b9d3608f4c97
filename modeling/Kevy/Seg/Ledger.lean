import Kevy.Seg.Recover
import Mathlib.Data.String.Basic

/-!
# Histories of the manifest

The live set is a map from names to entries that `add` and `drop_seg` change. Through compactions, reopenings and
crashes that leave a front of the last append, the ledger keeps a file of whole records that make its live set.
-/

namespace Kevy.Seg

open Kevy.Lib Kevy.Persist Kevy.Resp List

variable {Name : Type} [LinearOrder Name] {names : NameCodec Name} {live : List (Entry Name)} {e : Entry Name}

/-! ## The live set in name order -/

def InOrder (live : List (Entry Name)) : Prop := live.Pairwise fun a b => a.file < b.file

theorem contains_iff {file : Name} : contains live file = true ↔ ∃ x ∈ live, x.file = file := by
  unfold contains
  rw [List.any_eq_true]
  simp

theorem InOrder.without (h : InOrder live) (file : Name) : InOrder (without live file) :=
  Pairwise.sublist filter_sublist h

theorem InOrder.orderedInsert (h : InOrder live) (hnew : ∀ x ∈ live, x.file ≠ e.file) :
    InOrder (live.orderedInsert (fun a b => a.file ≤ b.file) e) := by
  induction live with
  | nil => exact pairwise_singleton _ _
  | cons a live ih =>
    obtain ⟨hhead, htail⟩ := pairwise_cons.mp h
    show InOrder (if e.file ≤ a.file then _ else _)
    split_ifs with hle
    · have hlt : e.file < a.file := lt_of_le_of_ne hle (Ne.symm (hnew a mem_cons_self))
      refine pairwise_cons.mpr ⟨fun x hx => ?_, h⟩
      rcases mem_cons.mp hx with rfl | hx
      · exact hlt
      · exact hlt.trans (hhead x hx)
    · refine pairwise_cons.mpr ⟨fun x hx => ?_, ih htail (forall_mem_cons.mp hnew).2⟩
      rcases mem_cons.mp ((perm_orderedInsert _ e live).mem_iff.mp hx) with rfl | hx
      · exact not_le.mp hle
      · exact hhead x hx

theorem InOrder.insertEntry (h : InOrder live) (e : Entry Name) : InOrder (insertEntry live e) := by
  refine (h.without e.file).orderedInsert fun x hx => ?_
  simpa using (mem_filter.mp hx).2

theorem mem_insertEntry {x : Entry Name} (hx : x ∈ insertEntry live e) : x = e ∨ x ∈ live := by
  rcases mem_cons.mp ((perm_orderedInsert _ e _).mem_iff.mp hx) with rfl | hx
  · exact .inl rfl
  · exact .inr (mem_filter.mp hx).1

theorem insertEntry_last (h : ∀ x ∈ live, x.file < e.file) : insertEntry live e = live ++ [e] := by
  have hsame : without live e.file = live := filter_eq_self.mpr fun x hx => by simp [(h x hx).ne]
  unfold insertEntry
  rw [hsame]
  clear hsame
  induction live with
  | nil => rfl
  | cons a live ih =>
    show (if e.file ≤ a.file then _ else _) = _
    rw [if_neg (not_le.mpr (h a mem_cons_self)), ih (forall_mem_cons.mp h).2]
    rfl

/-! ## Records of calls -/

theorem apply_addBody (hsize : (Manifest.addBody names e).length ≤ maxRecordBytes) (hnew : contains live e.file = false) :
    apply names live (Manifest.addBody names e) = .ok (insertEntry live e) := by
  have hlen : (encodeEntry names e).length < 2 ^ 32 := by
    have hle : (encodeEntry names e).length + 1 ≤ maxRecordBytes := hsize
    exact lt_of_lt_of_le hle (by decide)
  unfold apply Manifest.addBody
  dsimp only
  rw [if_pos rfl, decodeEntry_encodeEntry hlen]
  dsimp only
  rw [hnew]
  rfl

theorem apply_dropBody {file : Name} (hlive : contains live file = true) :
    apply names live (Manifest.dropBody names file) = .ok (without live file) := by
  show (if contains live (names.fromUtf8Lossy (names.bytes file)) then
    Except.ok (without live (names.fromUtf8Lossy (names.bytes file))) else _) = _
  rw [names.fromUtf8Lossy_bytes, if_pos hlive]

theorem applyAll_live (rest : List (Entry Name)) (hsorted : InOrder (live ++ rest))
    (hsize : ∀ e ∈ rest, (Manifest.addBody names e).length ≤ maxRecordBytes) :
    applyAll names live (rest.map (Manifest.addBody names)) = .ok (live ++ rest) := by
  induction rest generalizing live with
  | nil =>
    rw [append_nil]
    rfl
  | cons e rest ih =>
    have hbelow : ∀ x ∈ live, x.file < e.file := fun x hx =>
      (pairwise_append.mp hsorted).2.2 x hx e mem_cons_self
    have hnew : contains live e.file = false := by
      refine Bool.eq_false_iff.mpr fun hcontains => ?_
      obtain ⟨x, hx, hfile⟩ := contains_iff.mp hcontains
      exact (hbelow x hx).ne hfile
    have hassoc : live ++ e :: rest = (live ++ [e]) ++ rest := by simp
    rw [hassoc] at hsorted ⊢
    rw [map_cons, applyAll_cons (apply_addBody (hsize e mem_cons_self) hnew), insertEntry_last hbelow]
    exact ih hsorted (forall_mem_cons.mp hsize).2

/-! ## Steps -/

namespace Manifest

variable {m : Manifest Name}

theorem Recorded.append (hm : m.Recorded names) {body : Bytes} (hsize : body.length ≤ maxRecordBytes)
    (happly : apply names m.live body = .ok live) (hsorted : InOrder live)
    (hbounded : ∀ e ∈ live, (addBody names e).length ≤ maxRecordBytes) :
    Recorded names ⟨m.file ++ envelope body, live⟩ := by
  obtain ⟨bodies, hfile, hsizes, hall⟩ := hm.records
  refine ⟨⟨bodies ++ [body], ?_, fun b hb => ?_, ?_⟩, hsorted, hbounded⟩
  · rw [flatMap_append, flatMap_singleton, ← hfile]
  · rcases mem_append.mp hb with hb | hb
    · exact hsizes b hb
    · exact mem_singleton.mp hb ▸ hsize
  · rw [applyAll_append hall, applyAll_cons happly]
    rfl

theorem add_spec (hm : m.Recorded names) (e : Entry Name) :
    (∃ err, m.add names e = .error err ∧ (contains m.live e.file = true ∨ maxRecordBytes < (addBody names e).length)) ∨
      (m.add names e = .ok ⟨m.file ++ envelope (addBody names e), insertEntry m.live e⟩ ∧
        contains m.live e.file = false ∧ (addBody names e).length ≤ maxRecordBytes ∧
        Recorded names ⟨m.file ++ envelope (addBody names e), insertEntry m.live e⟩) := by
  unfold add Manifest.append
  cases hlive : contains m.live e.file with
  | true => exact .inl ⟨_, rfl, .inl rfl⟩
  | false =>
    rw [if_neg Bool.false_ne_true]
    split_ifs with hsize
    · exact .inl ⟨_, rfl, .inr hsize⟩
    · refine .inr ⟨rfl, rfl, Nat.le_of_not_lt hsize, hm.append (Nat.le_of_not_lt hsize)
        (apply_addBody (Nat.le_of_not_lt hsize) hlive) (InOrder.insertEntry hm.sorted e) fun x hx => ?_⟩
      rcases mem_insertEntry hx with rfl | hx
      · exact Nat.le_of_not_lt hsize
      · exact hm.bounded x hx

theorem dropSeg_spec (hm : m.Recorded names) (file : Name) : (∃ err, m.dropSeg names file = .error err ∧
      (contains m.live file = false ∨ maxRecordBytes < (dropBody names file).length)) ∨
      (m.dropSeg names file = .ok ⟨m.file ++ envelope (dropBody names file), without m.live file⟩ ∧
        contains m.live file = true ∧ (dropBody names file).length ≤ maxRecordBytes ∧
        Recorded names ⟨m.file ++ envelope (dropBody names file), without m.live file⟩) := by
  unfold dropSeg Manifest.append
  cases hlive : contains m.live file with
  | false => exact .inl ⟨_, rfl, .inl rfl⟩
  | true =>
    rw [if_neg (by decide)]
    split_ifs with hsize
    · exact .inl ⟨_, rfl, .inr hsize⟩
    · exact .inr ⟨rfl, rfl, Nat.le_of_not_lt hsize, hm.append (Nat.le_of_not_lt hsize) (apply_dropBody hlive)
        (InOrder.without hm.sorted file) fun x hx => hm.bounded x (mem_filter.mp hx).1⟩

theorem Recorded.compact (hm : m.Recorded names) : (m.compact names).Recorded names := by
  refine ⟨⟨m.live.map (addBody names), ?_, fun b hb => ?_, ?_⟩, hm.sorted, hm.bounded⟩
  · show (m.live.flatMap fun e => envelope (addBody names e)) = _
    rw [flatMap_map]
  · obtain ⟨e, he, rfl⟩ := List.mem_map.mp hb
    exact hm.bounded e he
  · exact applyAll_live m.live hm.sorted hm.bounded

/-! ## Histories -/

/-- The live set after a step: a call that is not refused changes it, nothing else does. -/
def liveAfter (names : NameCodec Name) (live : List (Entry Name)) : Step Name → List (Entry Name)
  | .add e =>
    if contains live e.file ∨ maxRecordBytes < (addBody names e).length then live else insertEntry live e
  | .dropSeg file =>
    if contains live file = false ∨ maxRecordBytes < (dropBody names file).length then live else without live file
  | _ => live

/-- The first `cut` bytes of a record are a strict front of it, and nothing in them reads as a record of its own. -/
def CleanCut (body : Bytes) (cut : Nat) : Prop :=
  cut < (envelope body).length ∧ validRecordFollows ((envelope body).take cut) = false

def CleanStep (names : NameCodec Name) : Step Name → Prop
  | .crashAdd e cut => CleanCut (addBody names e) cut
  | .crashDrop file cut => CleanCut (dropBody names file) cut
  | _ => True

theorem openFile_cut (hm : m.Recorded names) {body : Bytes} {cut : Nat} (hsize : body.length ≤ maxRecordBytes)
    (hcut : cut < (envelope body).length) : openFile names (m.file ++ (envelope body).take cut) =
      if validRecordFollows ((envelope body).take cut) then .error ⟨"manifest length field"⟩ else .ok m := by
  refine openFile_torn hm hsize ( take_prefix _ _) fun heq => ?_
  have hlen := congrArg List.length heq
  rw [length_take] at hlen
  omega

theorem openFile_cleanCut (hm : m.Recorded names) {body : Bytes} {cut : Nat} (hsize : body.length ≤ maxRecordBytes)
    (hcut : CleanCut body cut) : openFile names (m.file ++ (envelope body).take cut) = .ok m := by
  rw [openFile_cut hm hsize hcut.1, hcut.2]
  rfl

theorem step_spec (hm : m.Recorded names) {s : Step Name} (hs : CleanStep names s) :
    ∃ m', m.step names s = .ok m' ∧ m'.Recorded names ∧ m'.live = liveAfter names m.live s := by
  cases s with
  | add e =>
    rcases add_spec hm e with ⟨err, hadd, hwhy⟩ | ⟨hadd, hnew, hsize, hrec⟩
    · exact ⟨m, by rw [step, hadd]; rfl, hm, (if_pos hwhy).symm⟩
    · refine ⟨_, by rw [step, hadd]; rfl, hrec, (if_neg ?_).symm⟩
      rw [hnew]
      exact fun h => h.elim Bool.false_ne_true (Nat.not_lt_of_le hsize)
  | dropSeg file =>
    rcases dropSeg_spec hm file with ⟨err, hdrop, hwhy⟩ | ⟨hdrop, hold, hsize, hrec⟩
    · exact ⟨m, by rw [step, hdrop]; rfl, hm, (if_pos hwhy).symm⟩
    · refine ⟨_, by rw [step, hdrop]; rfl, hrec, (if_neg ?_).symm⟩
      rw [hold]
      exact fun h => h.elim (fun h => Bool.false_ne_true h.symm) (Nat.not_lt_of_le hsize)
  | compact => exact ⟨_, rfl, hm.compact, rfl⟩
  | reopen => exact ⟨m, openFile_file hm, hm, rfl⟩
  | crashAdd e cut =>
    refine ⟨m, ?_, hm, rfl⟩
    rcases add_spec hm e with ⟨err, hadd, -⟩ | ⟨hadd, -, hsize, -⟩
    · rw [step, hadd]
      exact openFile_file hm
    · rw [step, hadd]
      exact openFile_cleanCut hm hsize hs
  | crashDrop file cut =>
    refine ⟨m, ?_, hm, rfl⟩
    rcases dropSeg_spec hm file with ⟨err, hdrop, -⟩ | ⟨hdrop, -, hsize, -⟩
    · rw [step, hdrop]
      exact openFile_file hm
    · rw [step, hdrop]
      exact openFile_cleanCut hm hsize hs

theorem run_spec (steps : List (Step Name)) (hm : m.Recorded names) (hsteps : ∀ s ∈ steps, CleanStep names s) :
    ∃ m', m.run names steps = .ok m' ∧ m'.Recorded names ∧ m'.live = steps.foldl (liveAfter names) m.live := by
  induction steps generalizing m with
  | nil => exact ⟨m, rfl, hm, rfl⟩
  | cons s steps ih =>
    obtain ⟨m1, hstep, hm1, hlive1⟩ := step_spec hm (hsteps s mem_cons_self)
    obtain ⟨m', hrun, hm', hlive⟩ := ih hm1 (forall_mem_cons.mp hsteps).2
    refine ⟨m', ?_, hm', ?_⟩
    · rw [run, hstep]
      exact hrun
    · rw [hlive, hlive1, foldl_cons]

theorem Recorded.empty : Recorded names (⟨[], []⟩ : Manifest Name) :=
  ⟨⟨[], rfl, fun _ hb => absurd hb not_mem_nil, rfl⟩, List.Pairwise.nil, fun _ he => absurd he not_mem_nil⟩

/-- **Recovery.** A history of calls, compactions, reopenings and crashes that leave clean cuts goes through: the live
set is the one of the completed calls, the file is whole records, and opening it gives the ledger back. -/
theorem recovers_through_clean_crashes (names : NameCodec Name) (steps : List (Step Name))
    (hclean : ∀ s ∈ steps, CleanStep names s) :
    ∃ m, (⟨[], []⟩ : Manifest Name).run names steps = .ok m ∧ m.live = steps.foldl (liveAfter names) [] ∧
      (∃ bodies, m.file = bodies.flatMap envelope ∧ applyAll names [] bodies = .ok m.live) ∧
      openFile names m.file = .ok m := by
  obtain ⟨m, hrun, hm, hlive⟩ := run_spec steps Recorded.empty hclean
  obtain ⟨bodies, hfile, -, happly⟩ := hm.records
  exact ⟨m, hrun, hlive, ⟨bodies, hfile, happly⟩, openFile_file hm⟩

/-- A segment without keys, in a ledger of `String` names. -/
def bareEntry : Entry String := ⟨"s1.seg", [], [], [], 1⟩

/-- An entry, a crash in the length field of a drop, the drop, a compaction and a reopening. -/
theorem recovers_through_clean_crashes_bare :
    ∃ m, (⟨[], []⟩ : Manifest String).run stringNames
        [.add bareEntry, .crashDrop "s1.seg" 3, .crashAdd bareEntry 27, .dropSeg "s1.seg", .compact, .reopen] = .ok m ∧
      m.live = [.add bareEntry, .crashDrop "s1.seg" 3, .crashAdd bareEntry 27, .dropSeg "s1.seg", .compact,
        .reopen].foldl (liveAfter stringNames) [] ∧
      (∃ bodies, m.file = bodies.flatMap envelope ∧ applyAll stringNames [] bodies = .ok m.live) ∧
      openFile stringNames m.file = .ok m :=
  recovers_through_clean_crashes stringNames _ (by
    simp only [forall_mem_cons, CleanStep, CleanCut]
    refine ⟨trivial, ?_, ?_, trivial, trivial, trivial, fun _ h => absurd h not_mem_nil⟩
    · decide +kernel
    · decide +kernel)

/-- A crash 28 bytes into the first `add`: the two empty keys are eight zero bytes, which are the record of an empty
body, so `open` takes the torn append for damage and refuses the ledger. -/
theorem torn_add_of_empty_keys_refused :
    (⟨[], []⟩ : Manifest String).step stringNames (.crashAdd bareEntry 28) = .error ⟨"manifest length field"⟩ ∧
      (28 : Nat) < (envelope (addBody stringNames bareEntry)).length := by
  have hsize : (addBody stringNames bareEntry).length ≤ maxRecordBytes := by decide +kernel
  have hcut : (28 : Nat) < (envelope (addBody stringNames bareEntry)).length := by decide +kernel
  have hrecord : validRecordFollows ((envelope (addBody stringNames bareEntry)).take 28) = true := by decide +kernel
  have hempty : Recorded stringNames (⟨[], []⟩ : Manifest String) := Recorded.empty
  have hopen := openFile_cut hempty hsize hcut
  rw [if_pos hrecord] at hopen
  refine ⟨?_, hcut⟩
  rcases add_spec hempty bareEntry with ⟨err, -, hwhy⟩ | ⟨hadd, -⟩
  · exact absurd hwhy (by decide +kernel)
  · rw [step, hadd]
    exact hopen

end Manifest

end Kevy.Seg
