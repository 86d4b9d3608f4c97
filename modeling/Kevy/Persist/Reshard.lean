import Kevy.Persist.ReshardJournal
import Kevy.Lib.Crash

/-!
# Committing a re-shard

`commit_reshard` stages the new snapshots beside the old files, writes the journal, and then moves the files:
every old source to its backup name, every staged snapshot into its place. A crash can stop it between any two
file-system steps and can cut a file that is being written. `recover_journal` runs at every boot before a shard
is loaded, and it can be stopped in the same way. However often that happens, a recovery that runs to its end
leaves the old files as they were or the complete new layout.
-/

namespace Kevy.Persist

open Kevy.Lib Kevy.Resp List Option Function

/-! ## The data directory -/

/-- The files of one shard: `dump-{i}.rdb` and `aof-{i}.aof`. Both layouts of the source give a shard these names
whatever the shard count. -/
inductive ShardFile
  | snapshot (i : Nat)
  | aof (i : Nat)
  deriving DecidableEq, Repr

def ShardFile.index : ShardFile → Nat
  | .snapshot i => i
  | .aof i => i

inductive FileName
  | shard (f : ShardFile)
  /-- `<f>.premigration.<stamp>` -/
  | premigration (f : ShardFile) (stamp : Nat)
  /-- `dump-{i}.rdb.reshard` -/
  | reshard (i : Nat)
  /-- `dump-{i}.rdb.reshard.tmp`, where `save_snapshot` writes -/
  | saving (i : Nat)
  | shardsMeta
  | journal
  deriving DecidableEq, Repr

/-- A data directory: the contents of the files that exist. -/
abbrev Dir := FileName → Option Bytes

inductive FsStep
  | remove (f : FileName)
  | write (f : FileName) (body : Bytes)
  /-- a rename, where its source exists -/
  | rename (src dst : FileName)
  /-- the rename of old snapshot `i` to its backup, where it is a source -/
  | backupSnapshot (n stamp i : Nat)
  deriving DecidableEq, Repr

def Dir.rename (d : Dir) (src dst : FileName) : Dir :=
  if d src = none then d else Function.update (Function.update d dst (d src)) src none

/-- `is_source`: the new layout has not finished this index. -/
def Dir.isSource (d : Dir) (n i : Nat) : Bool := n ≤ i || (d (.reshard i)).isSome

def Dir.backupSnapshot (d : Dir) (n stamp i : Nat) : Dir :=
  if d.isSource n i then d.rename (.shard (.snapshot i)) (.premigration (.snapshot i) stamp) else d

def FsStep.run : FsStep → Dir → Dir
  | .remove f, d => Function.update d f none
  | .write f body, d => Function.update d f (some body)
  | .rename src dst, d => d.rename src dst
  | .backupSnapshot n stamp i, d => d.backupSnapshot n stamp i

/-- What a step leaves when it is cut: a file being written holds its first `k` bytes; the rest are atomic. -/
def FsStep.torn : FsStep → Nat → Dir → Dir
  | .write f body, k, d => Function.update d f (some (body.take k))
  | _, _, d => d

/-! ## The source's functions -/

/-- `finish_reshard`, first loop: the old sources go to their backup names. -/
def backupSteps (prevN n stamp : Nat) : List FsStep :=
  (List.range prevN).flatMap fun i =>
    [.backupSnapshot n stamp i, .rename (.shard (.aof i)) (.premigration (.aof i) stamp)]

/-- `finish_reshard`, second loop: the staged snapshots go into place. -/
def placeSteps (n : Nat) : List FsStep :=
  (List.range n).flatMap fun i => [.rename (.reshard i) (.shard (.snapshot i))]

def finishReshard (prevN : Nat) (target : ShardsMeta) (stamp : Nat) : List FsStep :=
  backupSteps prevN target.n stamp ++ (placeSteps target.n ++
    ([.write .shardsMeta target.body] ++ [.remove .journal]))

/-- `recover_journal`: finish a re-shard whose journal is complete, drop any other journal. -/
def recoverJournal (d : Dir) : List FsStep :=
  match d .journal with
  | none => []
  | some body =>
    match parseJournal body with
    | some (prevN, target, stamp) => finishReshard prevN target stamp
    | none => [.remove .journal]

/-- A call of `commit_reshard`: its arguments, the bytes its stores are saved as and the clock. The counts are
`usize`, the stamp is a `u128`, and the callers pass one store for each shard of the target. -/
structure Reshard where
  prevN : Nat
  target : ShardsMeta
  stamp : Nat
  stores : List Bytes
  prevN_lt : prevN < 2 ^ 64
  n_lt : target.n < 2 ^ 64
  stamp_lt : stamp < 2 ^ 128
  stores_length : stores.length = target.n

namespace Reshard

/-- The part of `commit_reshard` before the journal: drop stale temps, save the new snapshots as temps. -/
def stageSteps (r : Reshard) : List FsStep :=
  ((List.range r.target.n).flatMap fun i => [.remove (.reshard i)]) ++
    (List.range r.stores.length).flatMap fun i =>
      [.write (.saving i) (r.stores.getD i []), .rename (.saving i) (.reshard i)]

def commitReshard (r : Reshard) : List FsStep :=
  r.stageSteps ++ ([.write .journal (journalBody r.prevN r.target r.stamp)] ++
    finishReshard r.prevN r.target r.stamp)

/-! ## The two layouts -/

/-- The directory is as it was, except for temps of the new snapshots, which nothing loads. -/
def Untouched (r : Reshard) (d₀ d : Dir) : Prop :=
  ∀ f, (∀ i < r.target.n, f ≠ .reshard i ∧ f ≠ .saving i) → d f = d₀ f

/-- The complete new layout: the new snapshots under their names, no old log, the target in `shards.meta`, and
every old source under its backup name. A name that neither layout uses keeps its file. -/
def newLayout (r : Reshard) (d₀ : Dir) : Dir
  | .shard (.snapshot i) =>
    if i < r.target.n then r.stores[i]? else if i < r.prevN then none else d₀ (.shard (.snapshot i))
  | .shard (.aof i) => if i < r.prevN then none else d₀ (.shard (.aof i))
  | .premigration f stamp =>
    if f.index < r.prevN ∧ stamp = r.stamp then (d₀ (.shard f)).or (d₀ (.premigration f stamp))
    else d₀ (.premigration f stamp)
  | .reshard i => if i < r.target.n then none else d₀ (.reshard i)
  | .saving i => if i < r.target.n then none else d₀ (.saving i)
  | .shardsMeta => some r.target.body
  | .journal => none

end Reshard

/-! ## Renames -/

theorem Dir.rename_src (d : Dir) (src dst : FileName) : d.rename src dst src = none := by
  unfold Dir.rename
  split_ifs with h
  · exact h
  · rw [update_self]

theorem Dir.rename_dst (d : Dir) {src dst : FileName} (h : dst ≠ src) : d.rename src dst dst = (d src).or (d dst) := by
  unfold Dir.rename
  split_ifs with hsrc
  · rw [hsrc, none_or]
  · obtain ⟨body, hbody⟩ := ne_none_iff_exists'.mp hsrc
    rw [update_of_ne h, update_self, hbody, some_or]

variable {f : FileName}

theorem Dir.rename_other (d : Dir) {src dst : FileName} (hsrc : f ≠ src) (hdst : f ≠ dst) :
    d.rename src dst f = d f := by
  unfold Dir.rename
  split_ifs
  · rfl
  · rw [update_of_ne hsrc, update_of_ne hdst]

variable {d : Dir}

theorem Dir.rename_missing {src : FileName} (h : d src = none) (dst : FileName) : d.rename src dst = d := by
  unfold Dir.rename
  rw [if_pos h]

theorem Dir.backupSnapshot_other (d : Dir) {n stamp i : Nat} (hsrc : f ≠ .shard (.snapshot i))
    (hdst : f ≠ .premigration (.snapshot i) stamp) : d.backupSnapshot n stamp i f = d f := by
  unfold Dir.backupSnapshot
  split_ifs
  · exact d.rename_other hsrc hdst
  · rfl

theorem Dir.backupSnapshot_missing {i : Nat} (h : d (.shard (.snapshot i)) = none) (n stamp : Nat) :
    d.backupSnapshot n stamp i = d := by
  unfold Dir.backupSnapshot
  rw [Dir.rename_missing h, ite_self]

namespace Reshard

variable {r : Reshard} {d₀ d : Dir}

/-! ## What a shard's files can be on the way -/

def snapshotFiles (r : Reshard) (d : Dir) (i : Nat) : Option Bytes × Option Bytes × Option Bytes :=
  (d (.shard (.snapshot i)), d (.premigration (.snapshot i) r.stamp), d (.reshard i))

def logFiles (r : Reshard) (d : Dir) (i : Nat) : Option Bytes × Option Bytes :=
  (d (.shard (.aof i)), d (.premigration (.aof i) r.stamp))

def temp (r : Reshard) (d₀ : Dir) (i : Nat) : Option Bytes :=
  if i < r.target.n then r.stores[i]? else d₀ (.reshard i)

def staged (r : Reshard) (d₀ : Dir) (i : Nat) : Option Bytes × Option Bytes × Option Bytes :=
  (d₀ (.shard (.snapshot i)), d₀ (.premigration (.snapshot i) r.stamp), r.temp d₀ i)

/-- The old snapshot has gone to its backup name. -/
def backed (r : Reshard) (d₀ : Dir) (i : Nat) : Option Bytes × Option Bytes × Option Bytes :=
  (if i < r.prevN then none else d₀ (.shard (.snapshot i)),
    r.newLayout d₀ (.premigration (.snapshot i) r.stamp), r.temp d₀ i)

def placed (r : Reshard) (d₀ : Dir) (i : Nat) : Option Bytes × Option Bytes × Option Bytes :=
  r.snapshotFiles (r.newLayout d₀) i

theorem newLayout_backup {f : ShardFile} (h : f.index < r.prevN) :
    r.newLayout d₀ (.premigration f r.stamp) = (d₀ (.shard f)).or (d₀ (.premigration f r.stamp)) := by
  rw [newLayout, if_pos ⟨h, rfl⟩]

theorem newLayout_no_backup {f : ShardFile} {stamp : Nat} (h : f.index < r.prevN → stamp ≠ r.stamp) :
    r.newLayout d₀ (.premigration f stamp) = d₀ (.premigration f stamp) := by
  rw [newLayout, if_neg fun hin => h hin.1 hin.2]

variable {i : Nat}

theorem backed_eq_staged (h : r.prevN ≤ i) : r.backed d₀ i = r.staged d₀ i := by
  have hi : ¬ i < r.prevN := Nat.not_lt.mpr h
  unfold backed staged
  rw [if_neg hi, newLayout_no_backup (f := .snapshot i) fun hlt => absurd hlt hi]

theorem placed_eq_backed (h : r.target.n ≤ i) : r.placed d₀ i = r.backed d₀ i := by
  unfold placed backed snapshotFiles temp
  simp only [newLayout, if_neg (Nat.not_lt.mpr h)]

theorem temp_isSome (h : i < r.target.n) : ∃ body, r.temp d₀ i = some body := by
  unfold temp
  rw [if_pos h, getElem?_eq_getElem (by rw [r.stores_length]; exact h)]
  exact ⟨_, rfl⟩

/-- A directory between the commit point and the end of the re-shard. -/
structure Moving (r : Reshard) (d₀ d : Dir) : Prop where
  snapshot : ∀ i, r.snapshotFiles d i = r.staged d₀ i ∨ r.snapshotFiles d i = r.backed d₀ i ∨
    r.snapshotFiles d i = r.placed d₀ i
  log : ∀ i, r.logFiles d i = r.logFiles d₀ i ∨ r.logFiles d i = r.logFiles (r.newLayout d₀) i
  saving : ∀ i, d (.saving i) = r.newLayout d₀ (.saving i)
  older : ∀ f stamp, stamp ≠ r.stamp → d (.premigration f stamp) = d₀ (.premigration f stamp)
  journal : (d .journal).bind parseJournal = some (r.prevN, r.target, r.stamp)

/-- A step moves snapshots and logs on, and touches nothing else but `shards.meta`. -/
theorem Moving.next (h : Moving r d₀ d) {d' : Dir}
    (hsnapshot : ∀ i, r.snapshotFiles d' i = r.snapshotFiles d i ∨ r.snapshotFiles d' i = r.backed d₀ i ∨
      r.snapshotFiles d' i = r.placed d₀ i)
    (hlog : ∀ i, r.logFiles d' i = r.logFiles d i ∨ r.logFiles d' i = r.logFiles (r.newLayout d₀) i)
    (hrest : ∀ f, (∃ i, f = .saving i) ∨ (∃ g stamp, stamp ≠ r.stamp ∧ f = .premigration g stamp) ∨ f = .journal →
      d' f = d f) : Moving r d₀ d' where
  snapshot i := (hsnapshot i).elim (fun hsame => hsame ▸ h.snapshot i) .inr
  log i := (hlog i).elim (fun hsame => hsame ▸ h.log i) .inr
  saving i := (hrest _ (.inl ⟨i, rfl⟩)).trans (h.saving i)
  older f stamp hs := (hrest _ (.inr (.inl ⟨f, stamp, hs, rfl⟩))).trans (h.older f stamp hs)
  journal := by rw [hrest _ (.inr (.inr rfl)), h.journal]

/-- Every snapshot is where `finish_reshard`'s first loop brings it. -/
structure AllBacked (r : Reshard) (d₀ d : Dir) : Prop extends Moving r d₀ d where
  backed : ∀ i, r.snapshotFiles d i = r.backed d₀ i ∨ r.snapshotFiles d i = r.placed d₀ i
  logs : ∀ i, r.logFiles d i = r.logFiles (r.newLayout d₀) i

/-! ## The first loop -/

theorem snapshotFiles_backupSnapshot {n i j : Nat} (h : j ≠ i) :
    r.snapshotFiles (d.backupSnapshot n r.stamp i) j = r.snapshotFiles d j := by
  unfold snapshotFiles
  rw [Dir.backupSnapshot_other, Dir.backupSnapshot_other, Dir.backupSnapshot_other] <;> simp [h]

theorem backupSnapshot_staged (hi : i < r.prevN) (h : r.snapshotFiles d i = r.staged d₀ i) :
    r.snapshotFiles (d.backupSnapshot r.target.n r.stamp i) i = r.backed d₀ i := by
  obtain ⟨hlive, hbackup, htemp⟩ : d (.shard (.snapshot i)) = d₀ (.shard (.snapshot i)) ∧
      d (.premigration (.snapshot i) r.stamp) = d₀ (.premigration (.snapshot i) r.stamp) ∧
      d (.reshard i) = r.temp d₀ i := by
    simpa [snapshotFiles, staged] using h
  have hsource : d.isSource r.target.n i = true := by
    unfold Dir.isSource
    by_cases hn : i < r.target.n
    · obtain ⟨body, hbody⟩ := @temp_isSome r d₀ i hn
      rw [htemp, hbody, isSome_some, Bool.or_true]
    · rw [decide_eq_true (Nat.not_lt.mp hn), Bool.true_or]
  unfold snapshotFiles backed Dir.backupSnapshot
  rw [if_pos hsource, if_pos hi, Dir.rename_src, Dir.rename_dst d (by simp), Dir.rename_other d (by simp) (by simp),
    newLayout_backup (f := .snapshot i) hi, hlive, hbackup, htemp]

theorem backupSnapshot_backed (hi : i < r.prevN) (h : r.snapshotFiles d i = r.backed d₀ i) :
    d.backupSnapshot r.target.n r.stamp i = d := by
  have hlive : d (.shard (.snapshot i)) = if i < r.prevN then none else d₀ (.shard (.snapshot i)) :=
    congrArg Prod.fst h
  rw [if_pos hi] at hlive
  exact Dir.backupSnapshot_missing hlive _ _

theorem backupSnapshot_placed (hi : i < r.prevN) (h : r.snapshotFiles d i = r.placed d₀ i) :
    d.backupSnapshot r.target.n r.stamp i = d := by
  by_cases hn : i < r.target.n
  · have htemp : d (.reshard i) = r.newLayout d₀ (.reshard i) := congrArg (fun p => p.2.2) h
    rw [newLayout, if_pos hn] at htemp
    unfold Dir.backupSnapshot Dir.isSource
    rw [htemp, decide_eq_false (Nat.not_le.mpr hn)]
    rfl
  · rw [placed_eq_backed (Nat.not_lt.mp hn)] at h
    exact backupSnapshot_backed hi h

theorem backupSnapshot_index (hi : i < r.prevN)
    (h : r.snapshotFiles d i = r.staged d₀ i ∨ r.snapshotFiles d i = r.backed d₀ i ∨
      r.snapshotFiles d i = r.placed d₀ i) : r.snapshotFiles (d.backupSnapshot r.target.n r.stamp i) i = r.backed d₀ i ∨
      r.snapshotFiles (d.backupSnapshot r.target.n r.stamp i) i = r.placed d₀ i := by
  rcases h with hstaged | hbacked | hplaced
  · exact .inl (backupSnapshot_staged hi hstaged)
  · exact .inl (by rw [backupSnapshot_backed hi hbacked]; exact hbacked)
  · exact .inr (by rw [backupSnapshot_placed hi hplaced]; exact hplaced)

theorem logFiles_backupSnapshot (n i j : Nat) : r.logFiles (d.backupSnapshot n r.stamp i) j = r.logFiles d j := by
  unfold logFiles
  rw [Dir.backupSnapshot_other, Dir.backupSnapshot_other] <;> simp

theorem Moving.backupSnapshot (h : Moving r d₀ d) (hi : i < r.prevN) :
    Moving r d₀ (d.backupSnapshot r.target.n r.stamp i) := by
  refine h.next (fun j => ?_) (fun j => .inl (logFiles_backupSnapshot _ i j)) ?_
  · by_cases hj : j = i
    · subst hj
      exact .inr (backupSnapshot_index hi (h.snapshot j))
    · exact .inl (snapshotFiles_backupSnapshot hj)
  · rintro f (⟨j, rfl⟩ | ⟨g, stamp, hs, rfl⟩ | rfl) <;> apply Dir.backupSnapshot_other <;> simp_all

/-- `finish_reshard`'s rename of log `i`. -/
def backupLog (r : Reshard) (d : Dir) (i : Nat) : Dir :=
  d.rename (.shard (.aof i)) (.premigration (.aof i) r.stamp)

theorem snapshotFiles_backupLog (i j : Nat) : r.snapshotFiles (r.backupLog d i) j = r.snapshotFiles d j := by
  unfold snapshotFiles backupLog
  rw [Dir.rename_other, Dir.rename_other, Dir.rename_other] <;> simp

theorem logFiles_backupLog {i j : Nat} (h : j ≠ i) : r.logFiles (r.backupLog d i) j = r.logFiles d j := by
  unfold logFiles backupLog
  rw [Dir.rename_other, Dir.rename_other] <;> simp [h]

theorem backupLog_index (hi : i < r.prevN)
    (h : r.logFiles d i = r.logFiles d₀ i ∨ r.logFiles d i = r.logFiles (r.newLayout d₀) i) :
    r.logFiles (r.backupLog d i) i = r.logFiles (r.newLayout d₀) i := by
  rcases h with hold | hmoved
  · obtain ⟨hlive, hbackup⟩ : d (.shard (.aof i)) = d₀ (.shard (.aof i)) ∧
        d (.premigration (.aof i) r.stamp) = d₀ (.premigration (.aof i) r.stamp) := by
      simpa [logFiles] using hold
    unfold logFiles backupLog
    rw [Dir.rename_src, Dir.rename_dst d (by simp), newLayout_backup (f := .aof i) hi, newLayout, if_pos hi,
      hlive, hbackup]
  · have hlive : d (.shard (.aof i)) = r.newLayout d₀ (.shard (.aof i)) := congrArg Prod.fst hmoved
    rw [newLayout, if_pos hi] at hlive
    unfold backupLog
    rw [Dir.rename_missing hlive]
    exact hmoved

theorem Moving.backupLog (h : Moving r d₀ d) (hi : i < r.prevN) : Moving r d₀ (r.backupLog d i) := by
  refine h.next (fun j => .inl (snapshotFiles_backupLog i j)) (fun j => ?_) ?_
  · by_cases hj : j = i
    · subst hj
      exact .inr (backupLog_index hi (h.log j))
    · exact .inl (logFiles_backupLog hj)
  · rintro f (⟨j, rfl⟩ | ⟨g, stamp, hs, rfl⟩ | rfl) <;> apply Dir.rename_other <;> simp_all

theorem keeps_backupSteps :
    ∀ op ∈ backupSteps r.prevN r.target.n r.stamp, Keeps FsStep.run FsStep.torn (Moving r d₀) op := by
  intro op hop d h
  obtain ⟨i, hi, hop⟩ := mem_flatMap.mp hop
  have hi := List.mem_range.mp hi
  rcases mem_cons.mp hop with rfl | hop
  · exact ⟨h.backupSnapshot hi, fun _ => h⟩
  · obtain rfl := mem_singleton.mp hop
    exact ⟨h.backupLog hi, fun _ => h⟩

theorem Moving.allBacked (h : Moving r d₀ d) :
    AllBacked r d₀ (runAll FsStep.run (backupSteps r.prevN r.target.n r.stamp) d) := by
  have hround : ∀ i d, runAll FsStep.run [.backupSnapshot r.target.n r.stamp i,
      .rename (.shard (.aof i)) (.premigration (.aof i) r.stamp)] d =
      r.backupLog (d.backupSnapshot r.target.n r.stamp i) i := fun _ _ => rfl
  obtain ⟨hmoving, hdone⟩ := runAll_range (P := Moving r d₀) (n := r.prevN)
    (Q := fun i d => (r.snapshotFiles d i = r.backed d₀ i ∨ r.snapshotFiles d i = r.placed d₀ i) ∧
      r.logFiles d i = r.logFiles (r.newLayout d₀) i)
    (fun i hi d h => by
      rw [hround]
      exact (h.backupSnapshot hi).backupLog hi)
    (fun i hi d h => by
      rw [hround, snapshotFiles_backupLog]
      exact ⟨backupSnapshot_index hi (h.snapshot i), backupLog_index hi ((h.backupSnapshot hi).log i)⟩)
    (fun i hi j d h hQ => by
      rw [hround, snapshotFiles_backupLog]
      by_cases hj : j = i
      · subst hj
        exact ⟨backupSnapshot_index hi (.inr hQ.1), backupLog_index hi ((h.backupSnapshot hi).log j)⟩
      · rw [snapshotFiles_backupSnapshot hj, logFiles_backupLog hj, logFiles_backupSnapshot]
        exact hQ) h
  refine ⟨hmoving, fun i => ?_, fun i => ?_⟩
  · by_cases hi : i < r.prevN
    · exact (hdone i hi).1
    · rcases hmoving.snapshot i with hstaged | hrest
      · rw [backed_eq_staged (Nat.not_lt.mp hi)]
        exact .inl hstaged
      · exact hrest
  · by_cases hi : i < r.prevN
    · exact (hdone i hi).2
    · rcases hmoving.log i with hold | hmoved
      · have hsame : r.logFiles (r.newLayout d₀) i = r.logFiles d₀ i := by
          unfold logFiles
          rw [newLayout, if_neg hi, newLayout_no_backup (f := .aof i) fun hlt => absurd hlt hi]
        rw [hsame]
        exact hold
      · exact hmoved

/-! ## The second loop -/

/-- `finish_reshard`'s rename of staged snapshot `i`. -/
def place (d : Dir) (i : Nat) : Dir := d.rename (.reshard i) (.shard (.snapshot i))

theorem snapshotFiles_place {i j : Nat} (h : j ≠ i) : r.snapshotFiles (place d i) j = r.snapshotFiles d j := by
  unfold snapshotFiles place
  rw [Dir.rename_other, Dir.rename_other, Dir.rename_other] <;> simp [h]

theorem place_index (hi : i < r.target.n)
    (h : r.snapshotFiles d i = r.backed d₀ i ∨ r.snapshotFiles d i = r.placed d₀ i) :
    r.snapshotFiles (place d i) i = r.placed d₀ i := by
  rcases h with hbacked | hplaced
  · obtain ⟨_, hbackup, htemp⟩ : d (.shard (.snapshot i)) = (r.backed d₀ i).1 ∧
        d (.premigration (.snapshot i) r.stamp) = r.newLayout d₀ (.premigration (.snapshot i) r.stamp) ∧
        d (.reshard i) = r.temp d₀ i := by
      simpa [snapshotFiles, backed] using hbacked
    obtain ⟨body, hbody⟩ := @temp_isSome r d₀ i hi
    have hnew : r.newLayout d₀ (.shard (.snapshot i)) = some body := by
      rw [newLayout, if_pos hi, ← hbody, temp, if_pos hi]
    have hgone : r.newLayout d₀ (.reshard i) = none := by rw [newLayout, if_pos hi]
    unfold placed snapshotFiles place
    rw [Dir.rename_dst d (by simp), Dir.rename_other d (by simp) (by simp), Dir.rename_src, htemp, hbody,
      some_or, hbackup, hnew, hgone]
  · have htemp : d (.reshard i) = r.newLayout d₀ (.reshard i) := congrArg (fun p => p.2.2) hplaced
    rw [newLayout, if_pos hi] at htemp
    unfold place
    rw [Dir.rename_missing htemp]
    exact hplaced

theorem AllBacked.place (h : AllBacked r d₀ d) (hi : i < r.target.n) : AllBacked r d₀ (Reshard.place d i) := by
  have hlog : ∀ j, r.logFiles (Reshard.place d i) j = r.logFiles d j := by
    intro j
    unfold logFiles Reshard.place
    rw [Dir.rename_other, Dir.rename_other] <;> simp
  have hbacked : ∀ j, r.snapshotFiles (Reshard.place d i) j = r.backed d₀ j ∨
      r.snapshotFiles (Reshard.place d i) j = r.placed d₀ j := by
    intro j
    by_cases hj : j = i
    · subst hj
      exact .inr (place_index hi (h.backed j))
    · rw [snapshotFiles_place hj]
      exact h.backed j
  refine ⟨h.next (fun j => .inr (hbacked j)) (fun j => .inl (hlog j)) ?_, hbacked, fun j => (hlog j).trans (h.logs j)⟩
  rintro f (⟨j, rfl⟩ | ⟨g, stamp, hs, rfl⟩ | rfl) <;> apply Dir.rename_other <;> simp

theorem keeps_placeSteps : ∀ op ∈ placeSteps r.target.n, Keeps FsStep.run FsStep.torn (AllBacked r d₀) op := by
  intro op hop d h
  obtain ⟨i, hi, hop⟩ := mem_flatMap.mp hop
  obtain rfl := mem_singleton.mp hop
  exact ⟨h.place (List.mem_range.mp hi), fun _ => h⟩

theorem AllBacked.allPlaced (h : AllBacked r d₀ d) : AllBacked r d₀ (runAll FsStep.run (placeSteps r.target.n) d) ∧
      ∀ i, r.snapshotFiles (runAll FsStep.run (placeSteps r.target.n) d) i = r.placed d₀ i := by
  have hround : ∀ i d, runAll FsStep.run [.rename (.reshard i) (.shard (.snapshot i))] d =
      Reshard.place d i := fun _ _ => rfl
  obtain ⟨hbacked, hdone⟩ := runAll_range (P := AllBacked r d₀) (n := r.target.n)
    (Q := fun i d => r.snapshotFiles d i = r.placed d₀ i)
    (fun i hi d h => by
      rw [hround]
      exact h.place hi)
    (fun i hi d h => by
      rw [hround]
      exact place_index hi (h.backed i))
    (fun i hi j d h hQ => by
      rw [hround]
      by_cases hj : j = i
      · subst hj
        exact place_index hi (.inr hQ)
      · rw [snapshotFiles_place hj]
        exact hQ) h
  refine ⟨hbacked, fun i => ?_⟩
  by_cases hi : i < r.target.n
  · exact hdone i hi
  · rcases hbacked.backed i with hb | hp
    · rw [placed_eq_backed (Nat.not_lt.mp hi)]
      exact hb
    · exact hp

/-! ## The end -/

theorem Moving.writeMeta (h : Moving r d₀ d) (body : Option Bytes) :
    Moving r d₀ (Function.update d .shardsMeta body) := by
  refine h.next (fun i => .inl ?_) (fun i => .inl ?_) ?_
  · simp [snapshotFiles]
  · simp [logFiles]
  · rintro f (⟨j, rfl⟩ | ⟨g, stamp, hs, rfl⟩ | rfl) <;> simp

theorem AllBacked.finish (h : AllBacked r d₀ d) (hplaced : ∀ i, r.snapshotFiles d i = r.placed d₀ i) :
    Function.update (Function.update d .shardsMeta (some r.target.body)) .journal none = r.newLayout d₀ := by
  have hsnapshot : ∀ i, d (.shard (.snapshot i)) = r.newLayout d₀ (.shard (.snapshot i)) ∧
      d (.premigration (.snapshot i) r.stamp) = r.newLayout d₀ (.premigration (.snapshot i) r.stamp) ∧
      d (.reshard i) = r.newLayout d₀ (.reshard i) := by
    intro i
    simpa [snapshotFiles, placed] using hplaced i
  have hlog : ∀ i, d (.shard (.aof i)) = r.newLayout d₀ (.shard (.aof i)) ∧
      d (.premigration (.aof i) r.stamp) = r.newLayout d₀ (.premigration (.aof i) r.stamp) := by
    intro i
    simpa [logFiles] using h.logs i
  funext f
  by_cases hjournal : f = .journal
  · subst hjournal
    rw [update_self, newLayout]
  rw [update_of_ne hjournal]
  by_cases hmeta : f = .shardsMeta
  · subst hmeta
    rw [update_self, newLayout]
  rw [update_of_ne hmeta]
  cases f with
  | shard f =>
    cases f with
    | snapshot i => exact (hsnapshot i).1
    | aof i => exact (hlog i).1
  | premigration f stamp =>
    by_cases hs : stamp = r.stamp
    · subst hs
      cases f with
      | snapshot i => exact (hsnapshot i).2.1
      | aof i => exact (hlog i).2
    · rw [h.older f stamp hs, newLayout_no_backup fun _ => hs]
  | reshard i => exact (hsnapshot i).2.2
  | saving i => exact h.saving i
  | shardsMeta => exact absurd rfl hmeta
  | journal => exact absurd rfl hjournal

theorem Moving.runAll_finishReshard (h : Moving r d₀ d) :
    runAll FsStep.run (finishReshard r.prevN r.target r.stamp) d = r.newLayout d₀ := by
  obtain ⟨hbacked, hplaced⟩ := h.allBacked.allPlaced
  unfold finishReshard
  rw [runAll_append, runAll_append, runAll_append]
  exact hbacked.finish hplaced

theorem Moving.crashes_finishReshard (h : Moving r d₀ d) {d' : Dir}
    (hcrash : Crashes FsStep.run FsStep.torn (finishReshard r.prevN r.target r.stamp) d d') :
    Moving r d₀ d' ∨ d' = r.newLayout d₀ := by
  unfold finishReshard at hcrash
  obtain ⟨hbacked, hplaced⟩ := h.allBacked.allPlaced
  rcases hcrash.append with hfirst | hcrash
  · exact .inl (hfirst.keeps keeps_backupSteps h)
  rcases hcrash.append with hsecond | hcrash
  · exact .inl (hsecond.keeps keeps_placeSteps h.allBacked).toMoving
  rcases hcrash.append with hmeta | hlast
  · rcases hmeta.singleton with rfl | ⟨k, rfl⟩ | rfl
    · exact .inl hbacked.toMoving
    · exact .inl (hbacked.toMoving.writeMeta _)
    · exact .inl (hbacked.toMoving.writeMeta _)
  · have hwritten := hbacked.toMoving.writeMeta (some r.target.body)
    rcases hlast.singleton with rfl | ⟨_, rfl⟩ | rfl
    · exact .inl hwritten
    · exact .inl hwritten
    · exact .inr (hbacked.finish hplaced)

/-! ## Before the commit point -/

theorem Untouched.update (h : Untouched r d₀ d) (hi : i < r.target.n)
    (hf : f = .reshard i ∨ f = .saving i) (body : Option Bytes) : Untouched r d₀ (Function.update d f body) := by
  intro g hg
  have hne : g ≠ f := by
    rcases hf with rfl | rfl
    · exact (hg i hi).1
    · exact (hg i hi).2
  rw [update_of_ne hne]
  exact h g hg

theorem Untouched.rename (h : Untouched r d₀ d) (hi : i < r.target.n) :
    Untouched r d₀ (d.rename (.saving i) (.reshard i)) := by
  intro g hg
  rw [Dir.rename_other d (hg i hi).2 (hg i hi).1]
  exact h g hg

theorem keeps_stageSteps : ∀ op ∈ r.stageSteps, Keeps FsStep.run FsStep.torn (Untouched r d₀) op := by
  intro op hop d h
  rcases mem_append.mp hop with hop | hop
  · obtain ⟨i, hi, hop⟩ := mem_flatMap.mp hop
    obtain rfl := mem_singleton.mp hop
    exact ⟨h.update (List.mem_range.mp hi) (.inl rfl) _, fun _ => h⟩
  · obtain ⟨i, hi, hop⟩ := mem_flatMap.mp hop
    have hi : i < r.target.n := r.stores_length ▸ List.mem_range.mp hi
    rcases mem_cons.mp hop with rfl | hop
    · exact ⟨h.update hi (.inr rfl) _, fun _ => h.update hi (.inr rfl) _⟩
    · obtain rfl := mem_singleton.mp hop
      exact ⟨h.rename hi, fun _ => h⟩

/-- One round of the loop that saves the new snapshots. -/
def save (r : Reshard) (d : Dir) (i : Nat) : Dir :=
  Dir.rename (Function.update d (.saving i) (some (r.stores.getD i []))) (.saving i) (.reshard i)

theorem save_reshard (hi : i < r.target.n) :
    r.save d i (.reshard i) = r.stores[i]? ∧ r.save d i (.saving i) = none := by
  have hlen : i < r.stores.length := r.stores_length.symm ▸ hi
  have hget : r.stores[i]? = some (r.stores.getD i []) := by
    rw [getD_eq_getElem?_getD, getElem?_eq_getElem hlen, getD_some]
  unfold save
  rw [Dir.rename_src, Dir.rename_dst _ (by simp), update_self, some_or, hget]
  exact ⟨rfl, rfl⟩

theorem save_other (h : f ≠ .reshard i ∧ f ≠ .saving i) : r.save d i f = d f := by
  unfold save
  rw [Dir.rename_other _ h.2 h.1, update_of_ne h.2]

theorem runAll_stageSteps (r : Reshard) (d₀ : Dir) : Untouched r d₀ (runAll FsStep.run r.stageSteps d₀) ∧
      ∀ i < r.target.n, runAll FsStep.run r.stageSteps d₀ (.reshard i) = r.stores[i]? ∧
        runAll FsStep.run r.stageSteps d₀ (.saving i) = none := by
  refine ⟨runAll_keeps keeps_stageSteps fun _ _ => rfl, ?_⟩
  unfold stageSteps
  rw [runAll_append, ← r.stores_length]
  have hround : ∀ i d, runAll FsStep.run [.write (.saving i) (r.stores.getD i []),
      .rename (.saving i) (.reshard i)] d = r.save d i := fun _ _ => rfl
  refine (runAll_range (P := fun _ => True)
    (Q := fun i (d : Dir) => d (.reshard i) = r.stores[i]? ∧ d (.saving i) = none)
    (fun _ _ _ _ => trivial) (fun i hi d _ => ?_) (fun i hi j d _ hQ => ?_) trivial).2
  · rw [hround]
    exact save_reshard (r.stores_length ▸ hi)
  · rw [hround]
    by_cases hj : j = i
    · subst hj
      exact save_reshard (r.stores_length ▸ hi)
    · rw [save_other (by simp [hj]), save_other (by simp [hj])]
      exact hQ

/-! ## The commit point -/

def Torn (r : Reshard) (d₀ d : Dir) : Prop :=
  (∃ body, d .journal = some body ∧ parseJournal body = none) ∧
    Untouched r d₀ (Function.update d .journal none)

def Before (r : Reshard) (d₀ d : Dir) : Prop := Untouched r d₀ d ∨ Torn r d₀ d

/-- The commit point has been passed: `finish_reshard` is due, or done. -/
def After (r : Reshard) (d₀ d : Dir) : Prop := Moving r d₀ d ∨ d = r.newLayout d₀

theorem Untouched.journal_none (h : Untouched r d₀ d) (hclean : d₀ .journal = none) : d .journal = none := by
  rw [h .journal fun i _ => ⟨by simp, by simp⟩, hclean]

theorem moving_of_staged {body : Bytes} (hbody : parseJournal body = some (r.prevN, r.target, r.stamp)) :
    Moving r d₀ (Function.update (runAll FsStep.run r.stageSteps d₀) .journal (some body)) := by
  obtain ⟨hsame, htemps⟩ := runAll_stageSteps r d₀
  generalize runAll FsStep.run r.stageSteps d₀ = d at hsame htemps
  have hd : ∀ f, f ≠ .journal → Function.update d .journal (some body) f = d f :=
    fun f hf => update_of_ne hf _ _
  refine ⟨fun i => .inl ?_, fun i => .inl ?_, fun i => ?_, fun f stamp _ => ?_, ?_⟩
  · have htemp : d (.reshard i) = r.temp d₀ i := by
      unfold temp
      split_ifs with hi
      · exact (htemps i hi).1
      · exact hsame _ fun j hj => ⟨by simp; omega, by simp⟩
    unfold snapshotFiles staged
    rw [hd _ (by simp), hd _ (by simp), hd _ (by simp), hsame _ (by simp), hsame _ (by simp), htemp]
  · unfold logFiles
    rw [hd _ (by simp), hd _ (by simp), hsame _ (by simp), hsame _ (by simp)]
  · rw [hd _ (by simp), newLayout]
    split_ifs with hi
    · exact (htemps i hi).2
    · exact hsame _ fun j hj => ⟨by simp, by simp; omega⟩
  · rw [hd _ (by simp), hsame _ (by simp)]
  · rw [update_self, bind_some, hbody]

theorem before_or_after_journal (hclean : d₀ .journal = none) {body : Bytes}
    (hbody : body <+: journalBody r.prevN r.target r.stamp) :
    Before r d₀ (Function.update (runAll FsStep.run r.stageSteps d₀) .journal (some body)) ∨
      After r d₀ (Function.update (runAll FsStep.run r.stageSteps d₀) .journal (some body)) := by
  rcases parseJournal_prefix r.prevN_lt r.n_lt r.stamp_lt hbody with hnone | hsome
  · have hsame := (runAll_stageSteps r d₀).1
    refine .inl (.inr ⟨⟨body, update_self _ _ _, hnone⟩, ?_⟩)
    rw [update_idem, ← hsame.journal_none hclean, update_eq_self]
    exact hsame
  · exact .inr (.inl (moving_of_staged hsome))

theorem before_or_after_commit (hclean : d₀ .journal = none)
    (hcrash : Crashes FsStep.run FsStep.torn r.commitReshard d₀ d) : Before r d₀ d ∨ After r d₀ d := by
  unfold commitReshard at hcrash
  rcases hcrash.append with hstage | hcrash
  · exact .inl (.inl (hstage.keeps keeps_stageSteps fun _ _ => rfl))
  rcases hcrash.append with hjournal | hfinish
  · rcases hjournal.singleton with rfl | ⟨k, rfl⟩ | rfl
    · exact .inl (.inl (runAll_stageSteps r d₀).1)
    · exact before_or_after_journal hclean ( take_prefix _ _)
    · exact before_or_after_journal hclean (prefix_refl _)
  · have hwhole := parseJournal_body r.prevN_lt r.n_lt r.stamp_lt
    exact .inr ((moving_of_staged hwhole).crashes_finishReshard hfinish)

end Reshard

/-! ## Recovery -/

theorem recoverJournal_none (h : d .journal = none) : recoverJournal d = [] := by
  unfold recoverJournal
  rw [h]

theorem recoverJournal_torn {body : Bytes} (h : d .journal = some body)
    (hbody : parseJournal body = none) : recoverJournal d = [.remove .journal] := by
  unfold recoverJournal
  rw [h]
  simp only [hbody]

theorem recoverJournal_complete {prevN stamp : Nat} {target : ShardsMeta}
    (h : (d .journal).bind parseJournal = some (prevN, target, stamp)) :
    recoverJournal d = finishReshard prevN target stamp := by
  obtain ⟨body, hbody, hparse⟩ := bind_eq_some_iff.mp h
  unfold recoverJournal
  rw [hbody]
  simp only [hparse]

/-- Boots in a row: each runs `recover_journal`, and may be stopped anywhere in it. -/
inductive Boots : Dir → Dir → Prop
  | none (d : Dir) : Boots d d
  | boot {d d' d'' : Dir} : Boots d d' → Crashes FsStep.run FsStep.torn (recoverJournal d') d' d'' → Boots d d''

theorem Boots.keeps {P : Dir → Prop} {d d' : Dir}
    (hP : ∀ d d', P d → Crashes FsStep.run FsStep.torn (recoverJournal d) d d' → P d')
    (h : Boots d d') (hd : P d) : P d' := by
  induction h with
  | none => exact hd
  | boot _ hcrash ih => exact hP _ _ ih hcrash

namespace Reshard

variable {r : Reshard} {d₀ d d' : Dir}

theorem Before.not_committed (hclean : d₀ .journal = none) (h : Before r d₀ d) :
    (d .journal).bind parseJournal = none := by
  rcases h with hsame | ⟨⟨body, hbody, hparse⟩, -⟩
  · rw [hsame.journal_none hclean, bind_none]
  · rw [hbody, bind_some, hparse]

theorem Before.crashes (hclean : d₀ .journal = none) (h : Before r d₀ d)
    (hcrash : Crashes FsStep.run FsStep.torn (recoverJournal d) d d') : Before r d₀ d' := by
  rcases h with hsame | ⟨⟨body, hbody, hparse⟩, hsame⟩
  · rw [recoverJournal_none (hsame.journal_none hclean)] at hcrash
    cases hcrash
    exact .inl hsame
  · rw [recoverJournal_torn hbody hparse] at hcrash
    rcases hcrash.singleton with rfl | ⟨_, rfl⟩ | rfl
    · exact .inr ⟨⟨body, hbody, hparse⟩, hsame⟩
    · exact .inr ⟨⟨body, hbody, hparse⟩, hsame⟩
    · exact .inl hsame

theorem After.crashes (h : After r d₀ d)
    (hcrash : Crashes FsStep.run FsStep.torn (recoverJournal d) d d') : After r d₀ d' := by
  rcases h with hmoving | rfl
  · rw [recoverJournal_complete hmoving.journal] at hcrash
    exact hmoving.crashes_finishReshard hcrash
  · rw [recoverJournal_none rfl] at hcrash
    cases hcrash
    exact .inr rfl

theorem Before.recovered (hclean : d₀ .journal = none) (h : Before r d₀ d) :
    Untouched r d₀ (runAll FsStep.run (recoverJournal d) d) := by
  rcases h with hsame | ⟨⟨body, hbody, hparse⟩, hsame⟩
  · rw [recoverJournal_none (hsame.journal_none hclean)]
    exact hsame
  · rw [recoverJournal_torn hbody hparse]
    exact hsame

theorem After.recovered (h : After r d₀ d) : runAll FsStep.run (recoverJournal d) d = r.newLayout d₀ := by
  rcases h with hmoving | rfl
  · rw [recoverJournal_complete hmoving.journal]
    exact hmoving.runAll_finishReshard
  · rw [recoverJournal_none rfl, runAll_nil]

/-- The re-shard committed: its journal reads, or it is finished. -/
def Committed (r : Reshard) (d₀ d : Dir) : Prop :=
  (d .journal).bind parseJournal = some (r.prevN, r.target, r.stamp) ∨ d = r.newLayout d₀

/-- **A re-shard that crashes is undone or done.** `commit_reshard` crashes at any point, with any file it was
writing cut at any byte, and any number of boots crash in the recovery. The next recovery that runs to its end
leaves the complete new layout when the journal had become complete, and the untouched old one when not. -/
theorem recovered_old_or_new (r : Reshard) (d₀ d d' : Dir) (hclean : d₀ .journal = none)
    (hcrash : Crashes FsStep.run FsStep.torn r.commitReshard d₀ d) (hboots : Boots d d') :
    (¬ r.Committed d₀ d ∧ r.Untouched d₀ (runAll FsStep.run (recoverJournal d') d')) ∨
      (r.Committed d₀ d ∧ runAll FsStep.run (recoverJournal d') d' = r.newLayout d₀) := by
  by_cases hcommitted : r.Committed d₀ d
  · have hafter : After r d₀ d := by
      rcases hcommitted with hjournal | hdone
      · rcases before_or_after_commit hclean hcrash with hbefore | hafter
        · exact absurd hjournal (by rw [hbefore.not_committed hclean]; simp)
        · exact hafter
      · exact .inr hdone
    have hlate : After r d₀ d' := hboots.keeps (fun _ _ => After.crashes) hafter
    exact .inr ⟨hcommitted, hlate.recovered⟩
  · have hbefore : Before r d₀ d := by
      rcases before_or_after_commit hclean hcrash with hbefore | hmoving | hdone
      · exact hbefore
      · exact absurd (.inl hmoving.journal) hcommitted
      · exact absurd (.inr hdone) hcommitted
    have hearly : Before r d₀ d' := hboots.keeps (fun _ _ => Before.crashes hclean) hbefore
    exact .inl ⟨hcommitted, hearly.recovered hclean⟩

/-- Two shards with three source files become one shard. -/
def twoToOne : Reshard where
  prevN := 2
  target := ⟨1, .kevyHash⟩
  stamp := 7
  stores := [[1]]
  prevN_lt := by decide
  n_lt := by decide
  stamp_lt := by decide
  stores_length := rfl

def twoShards : Dir := fun f =>
  if f = .shard (.snapshot 0) then some [10]
  else if f = .shard (.snapshot 1) then some [11]
  else if f = .shard (.aof 1) then some [12]
  else none

/-- A crash right behind the journal. -/
theorem twoToOne_recovered : runAll FsStep.run (recoverJournal (runAll FsStep.run (twoToOne.stageSteps ++
        [.write .journal (journalBody 2 ⟨1, .kevyHash⟩ 7)]) twoShards))
      (runAll FsStep.run (twoToOne.stageSteps ++ [.write .journal (journalBody 2 ⟨1, .kevyHash⟩ 7)]) twoShards) =
      twoToOne.newLayout twoShards := by
  have hcommit : twoToOne.commitReshard = (twoToOne.stageSteps ++
      [.write .journal (journalBody 2 ⟨1, .kevyHash⟩ 7)]) ++ finishReshard 2 ⟨1, .kevyHash⟩ 7 := by
    rw [append_assoc]
    rfl
  have hjournal : twoToOne.Committed twoShards (runAll FsStep.run (twoToOne.stageSteps ++
      [.write .journal (journalBody 2 ⟨1, .kevyHash⟩ 7)]) twoShards) := by
    refine .inl ?_
    rw [runAll_append, runAll_cons, runAll_nil, FsStep.run, update_self, bind_some]
    exact parseJournal_body (by decide) (by decide) (by decide)
  have h := recovered_old_or_new twoToOne twoShards _ _ (by decide)
    (by rw [hcommit]; exact Crashes.behind) (Boots.none _)
  rcases h with ⟨hnot, -⟩ | ⟨-, hnew⟩
  · exact absurd hjournal hnot
  · exact hnew

end Reshard

end Kevy.Persist
