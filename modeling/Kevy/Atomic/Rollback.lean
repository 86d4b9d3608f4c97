import Kevy.Atomic.Seen

/-!
# A rejected transaction

Along a closure, the records undo what its calls have done: a writing method records its key before it writes, and looks
are not seen. Two things get past the records. `zadd_flags` writes without one, and a record does not hold the deadlines
of hash fields.
-/

namespace Kevy.Atomic

open Kevy.Lib Kevy.Resp Kevy.Store List

def Op.recorded : Op → List Bytes
  | .set key _ | .incr key | .incrBy key _ | .hset key _ | .hincrby key _ _ | .hdel key _ | .sadd key _ | .srem key _
  | .lpush key _ | .rpush key _ | .zadd key _ | .zincrby key _ _ | .zrem key _ => [key]
  | .del keys => keys
  | .zaddFlags _ _ _ | .read _ _ | .existsKeys _ => []

def Op.keys : Op → List Bytes
  | .zaddFlags key _ _ | .read _ key => [key]
  | .existsKeys keys => keys
  | op => op.recorded

namespace Ctx

variable {clock : Clock} {scope : Scope} {scores : Scores} {ctx : Ctx} {prior : Stores}

/-- What the records keep of a key when the context records it now. -/
def Keeps (scope : Scope) (ctx : Ctx) (key : Bytes) : Prop :=
  key ∈ ctx.touched ∨ (ctx.stores (scope.addr key)).fields = []

/-- A call that the records can undo: a key that is recorded now has no field deadlines, and a flagged `ZADD` is on a
recorded key or leaves no trace. -/
def Safe (clock : Clock) (scope : Scope) (scores : Scores) (ctx : Ctx) (op : Op) : Prop :=
  (∀ key ∈ op.recorded, ctx.Keeps scope key) ∧
  ∀ key pairs flags, op = .zaddFlags key pairs flags → key ∈ ctx.touched ∨
    (Cell.zaddFlags clock scores flags pairs {} (ctx.stores (scope.addr key))).2.seen clock =
      (ctx.stores (scope.addr key)).seen clock

/-- A closure all of whose calls are safe where they are made. -/
def SafeRun (clock : Clock) (scope : Scope) (scores : Scores) (ctx : Ctx) : List Op → Prop
  | [] => True
  | op :: ops => ctx.Safe clock scope scores op ∧ (ctx.exec clock scope scores op).SafeRun clock scope scores ops

/-- The records undo what was done to the shards as they were. -/
structure Good (clock : Clock) (scope : Scope) (prior : Stores) (ctx : Ctx) : Prop where
  undoes : Undoes (restore clock) (Cell.seen clock) prior ctx.undo ctx.stores
  touched : ∀ key, key ∈ ctx.touched ↔ scope.addr key ∈ ctx.undo.map Prod.fst

theorem good_start (clock : Clock) (scope : Scope) (stores : Stores) : Good clock scope stores ⟨stores, [], [], []⟩ where
  undoes := .nil _ _ _
  touched _ := ⟨fun h => absurd h not_mem_nil, fun h => absurd h not_mem_nil⟩

theorem addr_injective : Function.Injective scope.addr := fun _ _ h => (Prod.mk.inj h).2

theorem Good.update (h : ctx.Good clock scope prior) (key : Bytes) (c : Cell) (log : List (Nat × Frame))
    (hc : key ∈ ctx.touched ∨ c.seen clock = (ctx.stores (scope.addr key)).seen clock) :
    ({ ctx with stores := Function.update ctx.stores (scope.addr key) c, log } : Ctx).Good clock scope prior where
  undoes := h.undoes.update _ c (hc.imp (h.touched key).mp id)
  touched := h.touched

variable {key : Bytes}

theorem Good.snap (h : ctx.Good clock scope prior) (hkeeps : ctx.Keeps scope key) :
    (ctx.snap clock scope key).Good clock scope prior := by
  unfold Ctx.snap
  split_ifs with htouched
  · exact h
  have hnew : key ∉ ctx.touched := by simpa using htouched
  have hfields : (ctx.stores (scope.addr key)).fields = [] := hkeeps.resolve_left hnew
  have hrecord := h.undoes.record (mt (h.touched key).mpr hnew) (Cell.seen_restore hfields)
  refine ⟨hrecord.update _ _ (.inr (Cell.seen_reap _)), fun key' => ?_⟩
  rw [map_append, mem_append, mem_append, h.touched]
  simp [addr_injective.eq_iff]

theorem mem_touched_snap {key key' : Bytes} :
    key' ∈ (ctx.snap clock scope key).touched ↔ key' ∈ ctx.touched ∨ key' = key := by
  unfold Ctx.snap
  split_ifs with htouched
  · have hmem : key ∈ ctx.touched := by simpa using htouched
    exact ⟨.inl, fun h => h.elim id fun heq => heq ▸ hmem⟩
  · simp

theorem Keeps.snap {key' : Bytes} (h : ctx.Keeps scope key') (key : Bytes) :
    (ctx.snap clock scope key).Keeps scope key' := by
  by_cases heq : key' = key
  · exact .inl (mem_touched_snap.mpr (.inr heq))
  rcases h with h | h
  · exact .inl (mem_touched_snap.mpr (.inl h))
  · right
    unfold Ctx.snap
    split_ifs
    · exact h
    · dsimp only
      rw [Function.update_of_ne fun hne => heq (addr_injective hne)]
      exact h

/-! ## Calls -/

theorem apply_log {α : Type} (scope : Scope) (key : Bytes) (f : Cell → Except Error α × Cell) (frame : α → Option Frame) (ctx : Ctx) :
    ∃ log, (ctx.apply scope key f frame).2 =
      { ctx with stores := Function.update ctx.stores (scope.addr key) (f (ctx.stores (scope.addr key))).2, log } := by
  unfold Ctx.apply
  dsimp only
  cases (f (ctx.stores (scope.addr key))).1 with
  | error e => exact ⟨_, rfl⟩
  | ok a => cases hframe : frame a <;> exact ⟨_, by simp [hframe, logArg]; rfl⟩

section Calls

variable (h : ctx.Good clock scope prior)
include h

theorem Good.write (hkeeps : ctx.Keeps scope key) (f : Cell → Except Error Nat × Cell) (frame : Nat → Option Frame) :
    (ctx.write clock scope key f frame).2.Good clock scope prior := by
  obtain ⟨log, hlog⟩ := apply_log scope key f frame (ctx.snap clock scope key)
  rw [Ctx.write, hlog]
  exact (h.snap hkeeps).update key _ log (.inl (mem_touched_snap.mpr (.inr rfl)))

theorem Good.look (ofHash : Bool) (key : Bytes) : (ctx.look clock scope ofHash key).Good clock scope prior := by
  refine h.update key _ ctx.log (.inr ?_)
  cases ofHash <;> simp

theorem Good.looks (keys : List Bytes) :
    (keys.foldl (fun ctx key => ctx.look clock scope false key) ctx).Good clock scope prior := by
  induction keys generalizing ctx with
  | nil => exact h
  | cons key keys ih => exact ih (h.look false key)

variable {keys : List Bytes}

theorem Good.snaps (hkeeps : ∀ key ∈ keys, ctx.Keeps scope key) :
    (keys.foldl (fun ctx key => ctx.snap clock scope key) ctx).Good clock scope prior ∧
      ∀ key, key ∈ keys ∨ key ∈ ctx.touched →
        key ∈ (keys.foldl (fun ctx key => ctx.snap clock scope key) ctx).touched := by
  induction keys generalizing ctx with
  | nil => exact ⟨h, fun key hkey => hkey.resolve_left not_mem_nil⟩
  | cons key keys ih =>
    obtain ⟨hgood, htouched⟩ := ih (h.snap (hkeeps key mem_cons_self)) fun key' hmem =>
      (hkeeps key' (mem_cons_of_mem _ hmem)).snap key
    refine ⟨hgood, fun key' hkey => htouched key' ?_⟩
    rw [mem_cons, or_assoc, or_comm, or_assoc] at hkey
    rcases hkey with hkey | hkey | rfl
    · exact .inl hkey
    · exact .inr (mem_touched_snap.mpr (.inl hkey))
    · exact .inr (mem_touched_snap.mpr (.inr rfl))

theorem Good.delOne (hkey : key ∈ ctx.touched) (n : Nat) : (ctx.delOne clock scope key n).2.Good clock scope prior ∧
      (ctx.delOne clock scope key n).2.touched = ctx.touched := by
  unfold Ctx.delOne
  dsimp only
  split
  · exact ⟨h.update key _ ctx.log (.inl hkey), rfl⟩
  · exact ⟨h.update key _ ctx.log (.inl hkey), rfl⟩
  · exact ⟨h.update key _ _ (.inl hkey), rfl⟩

theorem Good.delEach (hkeys : ∀ key ∈ keys, key ∈ ctx.touched)
    (n : Nat) : (Ctx.delEach clock scope keys n ctx).2.Good clock scope prior := by
  induction keys generalizing ctx n with
  | nil => exact h
  | cons key keys ih =>
    obtain ⟨hgood, htouched⟩ := h.delOne (hkeys key mem_cons_self) n
    refine ih hgood (fun key' hmem => ?_) _
    rw [htouched]
    exact hkeys key' (mem_cons_of_mem _ hmem)

theorem Good.logArg (idx : Nat) (frame : Frame) : (ctx.logArg idx frame).Good clock scope prior := ⟨h.undoes, h.touched⟩

theorem Good.del (hkeeps : ∀ key ∈ keys, ctx.Keeps scope key) :
    (ctx.del clock scope keys).2.Good clock scope prior := by
  obtain ⟨hgood, htouched⟩ := h.snaps hkeeps
  have hdel := hgood.delEach (fun key hmem => htouched key (.inl hmem)) 0
  unfold Ctx.del
  dsimp only
  cases scope with
  | shard =>
    dsimp only
    split_ifs
    · exact hdel.logArg _ _
    · exact hdel
  | allShards idx => exact hdel

theorem Good.exec {op : Op} (hsafe : ctx.Safe clock scope scores op) :
    (ctx.exec clock scope scores op).Good clock scope prior := by
  have hkeeps := hsafe.1
  cases op with
  | del keys => exact h.del hkeeps
  | read cmd key => exact h.look cmd.ofHash key
  | existsKeys keys => exact h.looks keys
  | zaddFlags key pairs flags =>
    obtain ⟨log, hlog⟩ := apply_log scope key (Cell.zaddFlags clock scores flags pairs {})
      (fun rep => if rep.applied.isEmpty then none else some (zaddFrame scores key rep.applied)) ctx
    rw [Ctx.exec, Ctx.zaddFlags, hlog]
    exact h.update key _ log (hsafe.2 key pairs flags rfl)
  | _ => exact h.write (hkeeps _ mem_cons_self) _ _

theorem Good.run {ops : List Op} (hsafe : ctx.SafeRun clock scope scores ops) :
    (ops.foldl (Ctx.exec clock scope scores) ctx).Good clock scope prior := by
  induction ops generalizing ctx with
  | nil => exact h
  | cons op ops ih => exact ih (h.exec hsafe.1) hsafe.2

end Calls

/-! ## Keys that no call names -/

variable {ctx' ctx'' : Ctx} {keys keys' : List Bytes}

/-- Between two contexts, only some keys were changed or recorded. -/
structure Within (keys : List Bytes) (ctx ctx' : Ctx) : Prop where
  stores : ∀ addr, addr.2 ∉ keys → ctx'.stores addr = ctx.stores addr
  undo : ∀ addr ∈ ctx'.undo.map Prod.fst, addr ∈ ctx.undo.map Prod.fst ∨ addr.2 ∈ keys

theorem Within.refl (keys : List Bytes) (ctx : Ctx) : Within keys ctx ctx := ⟨fun _ _ => rfl, fun _ => .inl⟩

theorem Within.trans (h : Within keys ctx ctx') (h' : Within keys ctx' ctx'') : Within keys ctx ctx'' where
  stores addr haddr := (h'.stores addr haddr).trans (h.stores addr haddr)
  undo addr hmem := (h'.undo addr hmem).elim (h.undo addr) .inr

theorem Within.mono (h : Within keys ctx ctx') (hsub : ∀ key ∈ keys, key ∈ keys') : Within keys' ctx ctx' where
  stores addr haddr := h.stores addr fun hmem => haddr (hsub _ hmem)
  undo addr hmem := (h.undo addr hmem).imp_right (hsub _)

theorem within_update (hkey : key ∈ keys) (c : Cell) (log : List (Nat × Frame)) :
    Within keys ctx { ctx with stores := Function.update ctx.stores (scope.addr key) c, log } where
  stores addr haddr := by
    refine Function.update_of_ne (fun heq => haddr ?_) _ _
    rw [heq]
    exact hkey
  undo _ := .inl

theorem within_snap (hkey : key ∈ keys) : Within keys ctx (ctx.snap clock scope key) := by
  unfold Ctx.snap
  split_ifs
  · exact .refl keys ctx
  · refine ⟨(within_update hkey _ ctx.log).stores, fun addr hmem => ?_⟩
    rw [map_append, mem_append] at hmem
    refine hmem.imp_right fun heq => ?_
    rw [map_singleton, mem_singleton] at heq
    rw [heq]
    exact hkey

theorem within_foldl {step : Ctx → Bytes → Ctx} (hstep : ∀ ctx, ∀ key ∈ keys, Within keys ctx (step ctx key))
    {some : List Bytes} (hsub : ∀ key ∈ some, key ∈ keys) (ctx : Ctx) : Within keys ctx (some.foldl step ctx) := by
  induction some generalizing ctx with
  | nil => exact .refl keys ctx
  | cons key rest ih =>
    exact (hstep ctx key (hsub key mem_cons_self)).trans (ih (forall_mem_cons.mp hsub).2 _)

theorem within_apply {α : Type} (hkey : key ∈ keys) (f : Cell → Except Error α × Cell)
    (frame : α → Option Frame) : Within keys ctx (ctx.apply scope key f frame).2 := by
  obtain ⟨log, hlog⟩ := apply_log scope key f frame ctx
  rw [hlog]
  exact within_update hkey _ log

theorem within_delOne (hkey : key ∈ keys) (n : Nat) : Within keys ctx (ctx.delOne clock scope key n).2 := by
  unfold Ctx.delOne
  dsimp only
  split
  · exact within_update hkey _ ctx.log
  · exact within_update hkey _ ctx.log
  · exact within_update hkey _ _

theorem within_delEach {some : List Bytes} (hsub : ∀ key ∈ some, key ∈ keys) (n : Nat) :
    Within keys ctx (Ctx.delEach clock scope some n ctx).2 := by
  induction some generalizing ctx n with
  | nil => exact .refl keys ctx
  | cons key rest ih =>
    exact (within_delOne (hsub key mem_cons_self) n).trans (ih (forall_mem_cons.mp hsub).2 _)

theorem within_del (ctx : Ctx) (keys : List Bytes) : Within keys ctx (ctx.del clock scope keys).2 := by
  have hsnaps : Within keys ctx (keys.foldl (fun ctx key => ctx.snap clock scope key) ctx) :=
    within_foldl (fun _ _ hkey => within_snap hkey) (fun _ hmem => hmem) ctx
  have hdel : Within keys ctx
      (Ctx.delEach clock scope keys 0 (keys.foldl (fun ctx key => ctx.snap clock scope key) ctx)).2 :=
    hsnaps.trans (within_delEach (fun _ hmem => hmem) 0)
  unfold Ctx.del
  dsimp only
  cases scope with
  | shard =>
    dsimp only
    split_ifs
    · exact ⟨hdel.stores, hdel.undo⟩
    · exact hdel
  | allShards idx => exact hdel

theorem within_exec (ctx : Ctx) (op : Op) : Within op.keys ctx (ctx.exec clock scope scores op) := by
  cases op with
  | del keys => exact within_del ctx keys
  | read cmd key => exact within_update mem_cons_self _ ctx.log
  | existsKeys keys =>
    exact within_foldl (fun ctx key hkey => within_update hkey _ ctx.log) (fun _ hmem => hmem) ctx
  | zaddFlags key pairs flags => exact within_apply mem_cons_self _ _
  | _ => exact (within_snap mem_cons_self).trans (within_apply mem_cons_self _ _)

theorem within_run (clock : Clock) (scope : Scope) (scores : Scores) (ctx : Ctx) (ops : List Op) :
    Within (ops.flatMap Op.keys) ctx (ops.foldl (Ctx.exec clock scope scores) ctx) := by
  induction ops generalizing ctx with
  | nil => exact .refl _ ctx
  | cons op ops ih =>
    refine ((within_exec ctx op).mono fun key hmem => ?_).trans ((ih _).mono fun key hmem => ?_)
    · exact mem_append_left _ hmem
    · exact mem_append_right _ hmem

end Ctx

/-- **A rejected transaction leaves no trace**, when its calls are safe: the logs are as before, every key is seen as
before, and the cells of keys no call names are as before. -/
theorem rejected_transaction_leaves_no_trace {E R : Type} (clock : Clock) (scope : Scope) (scores : Scores) (db : Db)
    (ops : List Op) (e : E) (hsafe : Ctx.SafeRun clock scope scores ⟨db.stores, [], [], []⟩ ops) :
    let after := (db.atomic clock scope scores ops (.error e : Except E R)).2
    after.aofs = db.aofs ∧ (∀ addr, (after.stores addr).seen clock = (db.stores addr).seen clock) ∧
      ∀ addr, addr.2 ∉ ops.flatMap Op.keys → after.stores addr = db.stores addr := by
  have hgood := (Ctx.good_start clock scope db.stores).run hsafe
  have hwithin := Ctx.within_run clock scope scores ⟨db.stores, [], [], []⟩ ops
  refine ⟨rfl, hgood.undoes.seen_undoAll, fun addr haddr => ?_⟩
  have hundo : addr ∉ (ops.foldl (Ctx.exec clock scope scores) ⟨db.stores, [], [], []⟩).undo.map Prod.fst :=
    fun hmem => (hwithin.undo addr hmem).elim (absurd · not_mem_nil) haddr
  exact (undoAll_of_notMem hundo).trans (hwithin.stores addr haddr)

def bitScores : Scores := ⟨(· + ·), fun _ => false, fun a b => decide (a ≤ b), fun a b => decide (a = b), fun _ => []⟩

/-- A sorted set is made and changed, a key with a deadline is written over and another is deleted; all is undone. -/
theorem rejected_transaction_leaves_no_trace_mixed :
    let db : Db := ⟨fun addr =>
      if addr.2 = [107] then ⟨some ⟨.str [118], some 5000000⟩, []⟩
      else if addr.2 = [108] then ⟨some ⟨.list [[97], [98]], none⟩, []⟩ else ⟨none, []⟩, fun _ => []⟩
    let ops : List Op := [.zadd [122] [(1, [109])], .zaddFlags [122] [(2, [109])] ⟨.always, .greater⟩,
      .set [107] [119], .read .get [107], .del [[108], [107]]]
    let after := (db.atomic ⟨0, 0⟩ .shard bitScores ops (.error () : Except Unit Unit)).2
    (after.stores (0, [107])).seen ⟨0, 0⟩ = some (.str [118], some 5, []) ∧
      (after.stores (0, [108])).seen ⟨0, 0⟩ = some (.list [[97], [98]], none, []) ∧
      (after.stores (0, [122])).seen ⟨0, 0⟩ = none := by
  intro db ops after
  obtain ⟨-, hseen, -⟩ := rejected_transaction_leaves_no_trace (E := Unit) (R := Unit) ⟨0, 0⟩ .shard bitScores db ops ()
    (by
      refine ⟨⟨fun key hkey => ?_, by simp⟩, ⟨by simp [Op.recorded], fun key pairs flags heq => ?_⟩,
        ⟨fun key hkey => ?_, by simp⟩, ⟨by simp [Op.recorded], by simp⟩, ⟨fun key hkey => ?_, by simp⟩, trivial⟩
      · cases mem_singleton.mp hkey
        exact .inr rfl
      · cases heq
        exact .inl (by decide)
      · cases mem_singleton.mp hkey
        exact .inr rfl
      · rcases mem_cons.mp hkey with rfl | hkey
        · exact .inr rfl
        · cases mem_singleton.mp hkey
          exact .inl (by decide))
  exact ⟨hseen (0, [107]), hseen (0, [108]), hseen (0, [122])⟩

/-- A flagged `ZADD` of a rejected transaction stays, and a hash that one has written to comes back without the deadline
of its field. -/
theorem rejected_transaction_keeps_flagged_zadd_and_loses_field_deadlines :
    (((⟨fun _ => ⟨none, []⟩, fun _ => []⟩ : Db).atomic ⟨0, 0⟩ .shard bitScores
        [.zaddFlags [122] [(1, [109])] ⟨.always, .any⟩] (.error () : Except Unit Unit)).2.stores (0, [122])).seen
        ⟨0, 0⟩ = some (.zset [([109], 1)], none, []) ∧
    (⟨some ⟨.hash [([102], [118])], none⟩, [([102], 100)]⟩ : Cell).seen ⟨0, 0⟩ =
      some (.hash [([102], [118])], none, [([102], 100)]) ∧
    (((⟨fun _ => ⟨some ⟨.hash [([102], [118])], none⟩, [([102], 100)]⟩, fun _ => []⟩ : Db).atomic ⟨0, 0⟩ .shard
        bitScores [.hset [104] [([103], [119])]] (.error () : Except Unit Unit)).2.stores (0, [104])).seen ⟨0, 0⟩ =
      some (.hash [([102], [118])], none, []) :=
  ⟨rfl, rfl, rfl⟩

end Kevy.Atomic
