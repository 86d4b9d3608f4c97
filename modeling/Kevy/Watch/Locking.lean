import Kevy.Watch.Versions

/-!
# Optimistic locking

A transaction that runs found every version it had collected unmoved when the owners checked it. Between the check and
the commands other clients may come in, unless every watched key belongs to the connection's own shard: then the check
and the commands are one step.
-/

namespace Kevy.Watch

open Kevy.Lib Kevy.Resp List

variable {owner : Bytes → Nat} {home : Nat → Nat} {nshards : Nat}

/-! ## What is carried along -/

def ValidIn (owner : Bytes → Nat) (shards : Nat → Shard) (w : Watched) : Prop := (shards (owner w.key)).Valid w

def CheckedIn (owner : Bytes → Nat) (shards : Nat → Shard) (g : Guard) : Prop := (shards (owner g.watch.key)).Checked g

/-- What a connection has collected is right, and its clean checks are. -/
structure ConnOk (shards : Nat → Shard) (conn : Conn owner) : Prop where
  watched : ∀ w ∈ conn.watched, ValidIn owner shards w
  collect : ∀ pairs n, conn.waiting = some (.collect pairs n) → ∀ w ∈ pairs, ValidIn owner shards w
  prep : ∀ queued gs n, conn.waiting = some (.prep false queued gs n) → ∀ g ∈ gs, CheckedIn owner shards g

/-- What a message carries is right, and it is under way where it belongs. -/
def MsgOk (owner : Bytes → Nat) (home : Nat → Nat) (shards : Nat → Shard) (i j : Nat) : Msg → Prop
  | .collect _ keys => ∀ k ∈ keys, owner k = j
  | .versions _ pairs => ∀ w ∈ pairs, ValidIn owner shards w
  | .check c pairs => i = home c ∧ i ≠ j ∧ pairs ≠ [] ∧ ∀ w ∈ pairs, owner w.key = j ∧ ValidIn owner shards w
  | .checked c dirty gs => j = home c ∧ i ≠ j ∧ gs ≠ [] ∧ (∀ g ∈ gs, owner g.watch.key = i) ∧
      (dirty = false → ∀ g ∈ gs, CheckedIn owner shards g)
  | .run c _ gs => i = home c ∧ i ≠ j ∧ ∀ g ∈ gs, CheckedIn owner shards g
  | .ran _ => True

/-- A transaction that only its own shard had to check ran behind its check without a break. -/
def Unbroken (owner : Bytes → Nat) (home : Nat → Nat) (s : Nat) (log : List Ran) : Prop :=
  ∀ (i : Nat) (r : Ran), log[i]? = some r → home r.conn = s → (∀ g ∈ r.guards, owner g.watch.key = s) →
    ∀ g ∈ r.guards, ∀ (j : Nat) (r' : Ran), g.upto ≤ j → j < i → log[j]? = some r' → r'.conn = r.conn

/-- What was run had its checks before it, and they were right. -/
def Guarded (owner : Bytes → Nat) (shards : Nat → Shard) (s : Nat) (log : List Ran) : Prop :=
  ∀ (i : Nat) (r : Ran), log[i]? = some r → ∀ g ∈ r.guards, CheckedIn owner shards g ∧ (owner g.watch.key = s → g.upto ≤ i)

structure Inv (home : Nat → Nat) (S : System owner) : Prop where
  conns : ∀ c, ConnOk S.shards (S.conns c)
  mesh : S.mesh.All (MsgOk owner home S.shards)
  guarded : ∀ s, Guarded owner S.shards s (S.shards s).log
  unbroken : ∀ s, Unbroken owner home s (S.shards s).log

/-! ## Later states -/

variable {j : Nat} {m : Msg} {log : List Ran}

section

variable {shards shards' : Nat → Shard} (hlater : ∀ s, (shards s).Later (shards' s))

include hlater

theorem ValidIn.later {w : Watched} (h : ValidIn owner shards w) : ValidIn owner shards' w := Shard.Valid.later h (hlater _)

theorem CheckedIn.later {g : Guard} (h : CheckedIn owner shards g) : CheckedIn owner shards' g :=
  Shard.Checked.later h (hlater _)

theorem ConnOk.later {conn : Conn owner} (h : ConnOk shards conn) : ConnOk shards' conn where
  watched w hw := (h.watched w hw).later hlater
  collect pairs n hwait w hw := (h.collect pairs n hwait w hw).later hlater
  prep queued gs n hwait g hg := (h.prep queued gs n hwait g hg).later hlater

theorem MsgOk.later {i : Nat} (h : MsgOk owner home shards i j m) : MsgOk owner home shards' i j m := by
  cases m with
  | collect c keys => exact h
  | versions c pairs => exact fun w hw => (h w hw).later hlater
  | check c pairs => exact ⟨h.1, h.2.1, h.2.2.1, fun w hw => ⟨(h.2.2.2 w hw).1, (h.2.2.2 w hw).2.later hlater⟩⟩
  | checked c dirty gs =>
    exact ⟨h.1, h.2.1, h.2.2.1, h.2.2.2.1, fun hd g hg => (h.2.2.2.2 hd g hg).later hlater⟩
  | run c op gs => exact ⟨h.1, h.2.1, fun g hg => (h.2.2 g hg).later hlater⟩
  | ran c => trivial

theorem Guarded.later {s : Nat} (h : Guarded owner shards s log) : Guarded owner shards' s log :=
  fun i r hi g hg => ⟨(h i r hi g hg).1.later hlater, (h i r hi g hg).2⟩

end

theorem later_update (S : System owner) (s : Nat) {shard : Shard} (h : (S.shards s).Later shard) (t : Nat) :
    (S.shards t).Later ((S.setShard s shard).shards t) := by
  by_cases hts : t = s
  · subst hts
    simpa [System.setShard] using h
  · simpa [System.setShard, hts] using Shard.Later.refl (S.shards t)

/-! ## Parts of a step -/

namespace Inv

variable {S : System owner} {c s : Nat}

theorem setConn (h : Inv home S) {conn : Conn owner} (hconn : ConnOk S.shards conn) : Inv home (S.setConn c conn) where
  conns := by
    intro c'
    by_cases hc : c' = c
    · subst hc
      simpa [System.setConn] using hconn
    · simpa [System.setConn, hc] using h.conns c'
  mesh := h.mesh
  guarded := h.guarded
  unbroken := h.unbroken

theorem send (h : Inv home S) {src dst : Nat} (hm : MsgOk owner home S.shards src dst m) :
    Inv home (S.send src dst m) := ⟨h.conns, h.mesh.send hm, h.guarded, h.unbroken⟩

theorem pop (h : Inv home S) (src dst : Nat) : Inv home { S with mesh := S.mesh.pop src dst } :=
  ⟨h.conns, h.mesh.pop, h.guarded, h.unbroken⟩

theorem log_recordWatch (s : Shard) (key : Bytes) : (s.recordWatch key).1.log = s.log := by
  rw [Shard.recordWatch]
  split <;> rfl

theorem log_collect (s : Shard) (keys : List Bytes) : (s.collect keys).1.log = s.log := by
  induction keys generalizing s with
  | nil => rfl
  | cons key keys ih => exact (ih _).trans (log_recordWatch s key)

theorem collectAt (h : Inv home S) (s : Nat) (keys : List Bytes) :
    Inv home (S.setShard s ((S.shards s).collect keys).1) := by
  have hlater := later_update S s ((S.shards s).later_collect keys)
  have hlog (t : Nat) : ((S.setShard s ((S.shards s).collect keys).1).shards t).log = (S.shards t).log := by
    by_cases hts : t = s
    · subst hts
      simpa [System.setShard] using log_collect (S.shards t) keys
    · simp [System.setShard, hts]
  refine ⟨fun c => (h.conns c).later hlater, h.mesh.imp fun i j m hm => hm.later hlater, fun t => ?_, fun t => ?_⟩
  · rw [hlog]
    exact (h.guarded t).later hlater
  · rw [hlog]
    exact h.unbroken t

theorem runAt (h : Inv home S) (op : Op) {gs : List Guard} (hgs : ∀ g ∈ gs, CheckedIn owner S.shards g)
    (hown : home c = s → (∀ g ∈ gs, owner g.watch.key = s) →
      ∀ g ∈ gs, ∀ (j : Nat) (r' : Ran), g.upto ≤ j → (S.shards s).log[j]? = some r' → r'.conn = c) :
    Inv home (S.runAt s op c gs) := by
  have hlater := later_update S s ((S.shards s).later_run op c gs)
  have hlog : ((S.runAt s op c gs).shards s).log = (S.shards s).log ++ [⟨op, c, gs⟩] := by
    simp [System.runAt, System.setShard, Shard.run]
  have hother (t : Nat) (hts : t ≠ s) : ((S.runAt s op c gs).shards t).log = (S.shards t).log := by
    simp [System.runAt, System.setShard, hts]
  -- an index of the longer log is an old one, or the last
  have hindex {i : Nat} {r : Ran} (hi : ((S.shards s).log ++ [⟨op, c, gs⟩])[i]? = some r) :
      (S.shards s).log[i]? = some r ∨ i = (S.shards s).log.length ∧ r = ⟨op, c, gs⟩ := by
    rw [getElem?_append] at hi
    split at hi
    · exact .inl hi
    · rename_i hge
      obtain ⟨hlt, hr⟩ := List.getElem?_eq_some_iff.mp hi
      rw [length_singleton] at hlt
      exact .inr ⟨by omega, by simpa using hr.symm⟩
  refine ⟨fun c => (h.conns c).later hlater, h.mesh.imp fun i j m hm => hm.later hlater, fun t => ?_, fun t => ?_⟩
  · by_cases hts : t = s
    · subst hts
      rw [hlog]
      intro i r hi g hg
      rcases hindex hi with hi | ⟨rfl, rfl⟩
      · exact (h.guarded t).later hlater i r hi g hg
      · refine ⟨(hgs g hg).later hlater, fun howner => ?_⟩
        have hupto := (hgs g hg).2.2.1
        rwa [howner] at hupto
    · rw [hother t hts]
      exact (h.guarded t).later hlater
  · by_cases hts : t = s
    · subst hts
      rw [hlog]
      intro i r hi hhome hall g hg j r' hj hji hr'
      rcases hindex hr' with hr' | ⟨rfl, -⟩
      · rcases hindex hi with hi | ⟨rfl, rfl⟩
        · exact h.unbroken t i r hi hhome hall g hg j r' hj hji hr'
        · exact hown hhome hall g hg j r' hj hr'
      · -- nothing stands behind the last one
        rcases hindex hi with hi | ⟨rfl, -⟩
        · have := (List.getElem?_eq_some_iff.mp hi).1
          omega
        · omega
    · rw [hother t hts]
      exact h.unbroken t

end Inv

/-! ## A transaction -/

/-- The checks of a transaction are right; if its own shard was the only one to check, only it has run there since. -/
structure Armed (home : Nat → Nat) (c : Nat) (gs : List Guard) (S : System owner) : Prop where
  checked : ∀ g ∈ gs, CheckedIn owner S.shards g
  alone : (∀ g ∈ gs, owner g.watch.key = home c) →
    ∀ g ∈ gs, ∀ (j : Nat) (r' : Ran), g.upto ≤ j → (S.shards (home c)).log[j]? = some r' → r'.conn = c

variable {S : System owner} {c : Nat} {gs : List Guard}

theorem armed_nil (home : Nat → Nat) (c : Nat) (S : System owner) : Armed home c [] S where
  checked g hg := by cases hg
  alone _ g hg := by cases hg

theorem Armed.runAt (h : Armed home c gs S) (op : Op) : Armed home c gs (S.runAt (home c) op c gs) where
  checked g hg := (h.checked g hg).later (later_update S (home c) ((S.shards (home c)).later_run op c gs))
  alone hall g hg j r' hj hr' := by
    have hlog : ((S.runAt (home c) op c gs).shards (home c)).log = (S.shards (home c)).log ++ [⟨op, c, gs⟩] := by
      simp [System.runAt, System.setShard, Shard.run]
    rw [hlog, getElem?_append] at hr'
    split at hr'
    · exact h.alone hall g hg j r' hj hr'
    · rw [mem_singleton.mp (mem_of_getElem? hr')]

theorem startTarget_keeps (h : Inv home S) (ha : Armed home c gs S) (t : Nat × Op) :
    Inv home (System.startTarget home c gs S t) ∧ Armed home c gs (System.startTarget home c gs S t) := by
  rw [System.startTarget]
  split
  · rename_i hlocal
    rw [hlocal]
    exact ⟨h.runAt t.2 ha.checked fun _ hall => ha.alone hall, ha.runAt t.2⟩
  · rename_i hremote
    have hmsg : MsgOk owner home S.shards (home c) t.1 (.run c t.2 gs) := ⟨rfl, Ne.symm hremote, ha.checked⟩
    have hsent := h.send hmsg
    dsimp only
    split
    · exact ⟨hsent, ha.checked, ha.alone⟩
    · refine ⟨hsent.setConn ?_, ha.checked, ha.alone⟩
      exact ⟨(h.conns c).watched, (h.conns c).collect, (h.conns c).prep⟩

theorem foldl_keeps {β : Type} {P : System owner → Prop} {f : System owner → β → System owner}
    (hf : ∀ S x, P S → P (f S x)) (xs : List β) {S : System owner} (hS : P S) : P (xs.foldl f S) := by
  induction xs generalizing S with
  | nil => exact hS
  | cons x xs ih => exact ih (hf S x hS)

theorem start_keeps (h : Inv home S) (ha : Armed home c gs S) (verb : Verb owner) :
    Inv home (System.start home nshards c gs S verb) ∧ Armed home c gs (System.start home nshards c gs S verb) :=
  foldl_keeps (P := fun S => Inv home S ∧ Armed home c gs S) (fun _ t hS => startTarget_keeps hS.1 hS.2 t) _ ⟨h, ha⟩

theorem Inv.finalizeExecPrep (h : Inv home S) {dirty : Bool} (ha : dirty = false → Armed home c gs S)
    (queued : List (Verb owner)) : Inv home (S.finalizeExecPrep home nshards c dirty queued gs) := by
  rw [System.finalizeExecPrep]
  cases dirty with
  | true => exact h
  | false =>
    exact (foldl_keeps (P := fun S => Inv home S ∧ Armed home c gs S) (fun _ v hS => start_keeps hS.1 hS.2 v) queued
      ⟨h, ha rfl⟩).1

theorem foldl_send_shards {msg : Nat → Msg} (src : Nat) (targets : List Nat) (S : System owner) :
    (targets.foldl (fun S s => S.send src s (msg s)) S).shards = S.shards := by
  induction targets generalizing S with
  | nil => rfl
  | cons t targets ih => exact ih (S.send src t (msg t))

theorem foldl_send_conns {msg : Nat → Msg} (src : Nat) (targets : List Nat) (S : System owner) :
    (targets.foldl (fun S s => S.send src s (msg s)) S).conns = S.conns := by
  induction targets generalizing S with
  | nil => rfl
  | cons t targets ih => exact ih (S.send src t (msg t))

theorem Inv.sends (h : Inv home S) (msg : Nat → Msg) (src : Nat) (targets : List Nat)
    (hmsg : ∀ t ∈ targets, MsgOk owner home S.shards src t (msg t)) :
    Inv home (targets.foldl (fun S s => S.send src s (msg s)) S) := by
  induction targets generalizing S with
  | nil => exact h
  | cons t targets ih =>
    exact ih (h.send (hmsg t mem_cons_self)) (forall_mem_cons.mp hmsg).2

theorem mem_remote {l : List Nat} {here t : Nat} : t ∈ l.dedup.filter (fun s => s != here) ↔ t ∈ l ∧ t ≠ here := by
  simp [mem_filter, mem_dedup]

section Inv

variable (h : Inv home S)
include h

theorem Inv.execTransactionWatched {watched : List Watched}
    (hvalid : ∀ w ∈ watched, ValidIn owner S.shards w) (queued : List (Verb owner)) :
    Inv home (S.execTransactionWatched home nshards c queued watched) := by
  have hhere : ∀ w ∈ System.pairsOf owner (home c) watched, owner w.key = home c ∧ (S.shards (home c)).Valid w := by
    intro w hw
    obtain ⟨hmem, hown⟩ := mem_filter.mp hw
    have howner : owner w.key = home c := by simpa using hown
    exact ⟨howner, howner ▸ hvalid w hmem⟩
  have hchecked (hclean : (S.shards (home c)).check (System.pairsOf owner (home c) watched) = false) :
      ∀ g ∈ (S.shards (home c)).guards (System.pairsOf owner (home c) watched), CheckedIn owner S.shards g := by
    intro g hg
    have hg' := Shard.checked_guards (fun w hw => (hhere w hw).2) hclean g hg
    obtain ⟨w, hw, rfl⟩ := List.mem_map.mp hg
    rw [CheckedIn, (hhere w hw).1]
    exact hg'
  rw [System.execTransactionWatched]
  dsimp only
  split
  · refine h.finalizeExecPrep (fun hclean => ⟨hchecked hclean, fun _ g hg j r' hj hr' => ?_⟩) queued
    -- the check is the last thing the shard did
    obtain ⟨w, -, rfl⟩ := List.mem_map.mp hg
    exact absurd (List.getElem?_eq_some_iff.mp hr').1 (Nat.not_lt.mpr hj)
  · have hsent := h.sends (fun s => .check c (System.pairsOf owner s watched)) (home c)
      ((watched.map fun w => owner w.key).dedup.filter fun s => s != home c) ?_
    · refine hsent.setConn ?_
      rw [foldl_send_shards, foldl_send_conns]
      refine ⟨(h.conns c).watched, fun pairs n hwait => ?_, fun q gs n hwait => ?_⟩
      · cases hwait
      · injection hwait with hwait
        injection hwait with hclean _ hgs
        rw [← hgs]
        exact hchecked hclean
    · intro t ht
      obtain ⟨hmem, hne⟩ := mem_remote.mp ht
      obtain ⟨w, hw, rfl⟩ := List.mem_map.mp hmem
      refine ⟨rfl, hne.symm, ?_, fun w' hw' => ?_⟩
      · exact ne_nil_of_mem (mem_filter.mpr ⟨hw, by simp⟩)
      · obtain ⟨hmem', hown⟩ := mem_filter.mp hw'
        exact ⟨by simpa using hown, hvalid w' hmem'⟩

theorem Inv.execTransaction (queued : List (Verb owner)) : Inv home (S.execTransaction home nshards c queued) := by
  have hclear : Inv home (S.setConn c { S.conns c with multi := none, multiDirty := false, watched := [] }) :=
    h.setConn ⟨fun w hw => (by cases hw), (h.conns c).collect, (h.conns c).prep⟩
  rw [System.execTransaction]
  split
  · exact hclear
  · split
    · exact (foldl_keeps (P := fun S => Inv home S ∧ Armed home c [] S) (fun _ v hS => start_keeps hS.1 hS.2 v) queued
        ⟨hclear, armed_nil home c _⟩).1
    · exact hclear.execTransactionWatched (h.conns c).watched queued

theorem Inv.doWatch (keys : List Bytes) : Inv home (S.doWatch home c keys) := by
  have hlocal := h.collectAt (home c) (keys.filter fun k => owner k == home c)
  have hvalid : ∀ w ∈ ((S.shards (home c)).collect (keys.filter fun k => owner k == home c)).2,
      ValidIn owner (S.setShard (home c)
        ((S.shards (home c)).collect (keys.filter fun k => owner k == home c)).1).shards w := by
    intro w hw
    obtain ⟨hmem, hok⟩ := Shard.valid_collect _ _ w hw
    have howner : owner w.key = home c := by simpa using (mem_filter.mp hmem).2
    rw [ValidIn, howner]
    simpa [System.setShard] using hok
  rw [System.doWatch]
  dsimp only
  split
  · refine hlocal.setConn ⟨fun w hw => ?_, (hlocal.conns c).collect, (hlocal.conns c).prep⟩
    rcases mem_append.mp hw with hw | hw
    · exact (hlocal.conns c).watched w hw
    · exact hvalid w hw
  · have hsent := hlocal.sends (fun s => .collect c (keys.filter fun k => owner k == s)) (home c)
      ((keys.map owner).dedup.filter fun s => s != home c) ?_
    · refine hsent.setConn ?_
      rw [foldl_send_shards, foldl_send_conns]
      refine ⟨(hlocal.conns c).watched, fun pairs n hwait => ?_, fun q gs n hwait => ?_⟩
      · injection hwait with hwait
        injection hwait with hpairs
        rw [← hpairs]
        exact hvalid
      · cases hwait
    · intro t _ k hk
      simpa using (mem_filter.mp hk).2

theorem Inv.command (c : Nat) (cmd : Command owner) : Inv home (S.command home nshards c cmd) := by
  have hconn := h.conns c
  unfold System.command
  dsimp only
  split
  · exact h
  · split
    · exact h.doWatch _
    · exact h.setConn ⟨fun w hw => (by cases hw), hconn.collect, hconn.prep⟩
    · exact h.setConn ⟨hconn.watched, hconn.collect, hconn.prep⟩
    · exact (start_keeps h (armed_nil home c S) _).1
    · exact h
    · exact h.setConn ⟨fun w hw => (by cases hw), hconn.collect, hconn.prep⟩
    · exact h.execTransaction _
    · exact h.setConn ⟨hconn.watched, hconn.collect, hconn.prep⟩
    · exact h.setConn ⟨hconn.watched, hconn.collect, hconn.prep⟩
    · exact h

/-! ## Messages -/

theorem Inv.collected {pairs : List Watched} (hpairs : ∀ w ∈ pairs, ValidIn owner S.shards w) :
    Inv home (S.collected c pairs) := by
  have hconn := h.conns c
  rw [System.collected]
  split
  · rename_i sofar remaining hwait
    have hboth : ∀ w ∈ sofar ++ pairs, ValidIn owner S.shards w := fun w hw =>
      (mem_append.mp hw).elim (hconn.collect sofar remaining hwait w) (hpairs w)
    split
    · refine h.setConn ⟨fun w hw => (mem_append.mp hw).elim (hconn.watched w) (hboth w), ?_, ?_⟩
      · intro pairs n hnone
        cases hnone
      · intro q gs n hnone
        cases hnone
    · refine h.setConn ⟨hconn.watched, ?_, ?_⟩
      · intro pairs' n hsome
        injection hsome with hsome
        injection hsome with hpairs'
        rw [← hpairs']
        exact hboth
      · intro q gs n hsome
        cases hsome
  · exact h

theorem Inv.checkedBack {src : Nat} {dirty : Bool} {gs : List Guard}
    (hmsg : MsgOk owner home S.shards src (home c) (.checked c dirty gs)) :
    Inv home (S.checkedBack home nshards c dirty gs) := by
  obtain ⟨-, hne, hsome, howner, hclean⟩ := hmsg
  have hconn := h.conns c
  rw [System.checkedBack]
  split
  · rename_i sofar queued checked remaining hwait
    have hboth (hor : (sofar || dirty) = false) : ∀ g ∈ checked ++ gs, CheckedIn owner S.shards g := by
      obtain ⟨rfl, rfl⟩ := Bool.or_eq_false_iff.mp hor
      exact fun g hg => (mem_append.mp hg).elim (hconn.prep queued checked remaining hwait g) (hclean rfl g)
    split
    · have hidle : Inv home (S.setConn c { S.conns c with waiting := none }) := by
        refine h.setConn ⟨hconn.watched, ?_, ?_⟩
        · intro pairs n hnone
          cases hnone
        · intro q gs n hnone
          cases hnone
      refine hidle.finalizeExecPrep (fun hor => ⟨hboth hor, fun hall => ?_⟩) queued
      obtain ⟨g, hg⟩ := exists_mem_of_ne_nil gs hsome
      exact absurd ((howner g hg).symm.trans (hall g (mem_append_right _ hg))) hne
    · refine h.setConn ⟨hconn.watched, ?_, ?_⟩
      · intro pairs n hsome
        cases hsome
      · intro q gs' n hsome
        injection hsome with hsome
        injection hsome with hor _ hgs'
        rw [← hgs']
        exact hboth hor
  · exact h

theorem Inv.handle {src dst : Nat} (hm : MsgOk owner home S.shards src dst m) :
    Inv home (S.handle home nshards src dst m) := by
  cases m with
  | collect c keys =>
    have hgot := h.collectAt dst keys
    refine hgot.send fun w hw => ?_
    obtain ⟨hmem, hok⟩ := Shard.valid_collect _ _ w hw
    rw [ValidIn, hm w.key hmem]
    simpa [System.setShard] using hok
  | versions c pairs => exact h.collected hm
  | check c pairs =>
    obtain ⟨hhome, hne, hsome, hpairs⟩ := hm
    refine h.send ⟨hhome, hne.symm, ?_, fun g hg => ?_, fun hclean g hg => ?_⟩
    · exact fun hnil => hsome (map_eq_nil_iff.mp hnil)
    · obtain ⟨w, hw, rfl⟩ := List.mem_map.mp hg
      exact (hpairs w hw).1
    · have hvalid : ∀ w ∈ pairs, (S.shards dst).Valid w := fun w hw => (hpairs w hw).1 ▸ (hpairs w hw).2
      have hg' := Shard.checked_guards hvalid hclean g hg
      obtain ⟨w, hw, rfl⟩ := List.mem_map.mp hg
      rw [CheckedIn, (hpairs w hw).1]
      exact hg'
  | checked c dirty gs =>
    obtain rfl := hm.1
    exact h.checkedBack hm
  | run c op gs =>
    have hran := h.runAt op hm.2.2 fun hhome => absurd (hm.1.trans hhome) hm.2.1
    rw [System.handle]
    split
    · exact hran
    · exact hran.send trivial
  | ran c => exact h.setConn ⟨(h.conns c).watched, (h.conns c).collect, (h.conns c).prep⟩

theorem Inv.step (x : Step owner) : Inv home (S.step home nshards x) := by
  cases x with
  | command c cmd => exact h.command c cmd
  | deliver src dst =>
    rw [System.step]
    split
    · exact h
    · rename_i m rest hm
      exact (h.pop src dst).handle (h.mesh.head hm)

end Inv

theorem inv_new (owner : Bytes → Nat) (home : Nat → Nat) : Inv home (System.new owner) where
  conns c := by
    refine ⟨fun w hw => (by cases hw), ?_, ?_⟩
    · intro pairs n hnone
      cases hnone
    · intro q gs n hnone
      cases hnone
  mesh := Mesh.all_empty
  guarded s i r hi := by cases hi
  unbroken s i r hi := by cases hi

theorem Inv.exec (h : Inv home S) (steps : List (Step owner)) : Inv home (S.exec home nshards steps) :=
  foldl_keeps (P := Inv home) (fun _ x hS => hS.step x) steps h

/-! ## Strict at home -/

/-- A change of a key by a command that is dispatched under another key, and announces only that one. -/
def Op.Silent (op : Op) (key : Bytes) : Prop := ∃ first others, op = .dispatch first others ∧ key ∈ others ∧ key ≠ first

theorem Op.silent_of_changes {op : Op} {key : Bytes} (hchanges : op.changes key = true) (hbumps : op.bumps key = 0) :
    op.Silent key := by
  cases op with
  | dispatch first others =>
    have hne : key ≠ first := fun heq => by simp [Op.bumps, heq] at hbumps
    have hmem : key ∈ others := by simpa [Op.changes, hne] using hchanges
    exact ⟨first, others, rfl, hmem, hne⟩
  | keys ks =>
    have hmem : key ∈ ks := by simpa [Op.changes] using hchanges
    exact absurd hbumps (Nat.ne_of_gt (count_pos_iff.mpr hmem))
  | flush => cases hbumps

theorem mem_slice {a b : Nat} {r : Ran} (ha : a ≤ j) (hb : j < b) (hr : log[j]? = some r) :
    r ∈ (log.take b).drop a := by
  refine mem_of_getElem? (i := j - a) ?_
  rw [getElem?_drop, getElem?_take, Nat.add_sub_cancel' ha, if_pos hb, hr]

theorem bumps_zero {key : Bytes} {part : List Ran} (hsub : part.Sublist log) (hturn : bumpsOf key log < 2 ^ 64)
    (hzero : UInt64.ofNat (bumpsOf key part) = 0) : ∀ r ∈ part, r.op.bumps key = 0 := by
  have hlt : bumpsOf key part < 2 ^ 64 := Nat.lt_of_le_of_lt (bumpsOf_sublist hsub) hturn
  have hnone : bumpsOf key part = 0 := by
    have := congrArg UInt64.toNat hzero
    rwa [UInt64.toNat_ofNat_of_lt' hlt] at this
  exact fun r hr => Nat.le_zero.mp (hnone ▸ bumps_le_of_mem hr)

theorem quiet_until_check {s : Shard} {g : Guard} (h : s.Checked g) (hturn : bumpsOf g.watch.key s.log < 2 ^ 64)
    {r : Ran} (hsince : g.watch.since ≤ j) (hupto : j < g.upto) (hr : s.log[j]? = some r) :
    r.op.bumps g.watch.key = 0 :=
  bumps_zero ((drop_sublist _ _).trans (take_sublist _ _)) hturn h.2.2.2 r (mem_slice hsince hupto hr)

theorem quiet_between {s : Shard} {w w' : Watched} (h : s.Valid w) (h' : s.Valid w') (hkey : w.key = w'.key)
    (hversion : w.version = w'.version) (hle : w.since ≤ w'.since) (hturn : bumpsOf w.key s.log < 2 ^ 64) {r : Ran}
    (hsince : w.since ≤ j) (hlt : j < w'.since) (hr : s.log[j]? = some r) : r.op.bumps w.key = 0 := by
  have hsplit : s.log.drop w.since = (s.log.take w'.since).drop w.since ++ s.log.drop w'.since := by
    conv_lhs => rw [← take_append_drop w'.since s.log]
    rw [drop_append_of_le_length]
    rw [length_take, Nat.min_eq_left h'.1]
    exact hle
  have hsame := h.2.symm.trans (hkey ▸ h'.2)
  rw [hsplit, bumpsOf_append, hversion, UInt64.ofNat_add] at hsame
  have hzero : UInt64.ofNat (bumpsOf w.key ((s.log.take w'.since).drop w.since)) = 0 := by
    have hcancel := Option.some.inj hsame
    rw [hkey] at hcancel ⊢
    simpa using hcancel
  exact bumps_zero ((drop_sublist _ _).trans (take_sublist _ _)) hturn hzero r (mem_slice hsince hlt hr)

/-- **Watched keys are locked up to the check, and up to the commands where the connection is at home.** In every
history in which no key of the shard is announced `2 ^ 64` times: when a transaction runs an operation on a shard, no
operation has changed a key it watched there between the version it collected and the check, but by a command that is
dispatched under another key; if all its watched keys belong to the connection's own shard, no other connection has
until the operation itself, and of two such transactions that collected the same version of a key and belong to
different connections not both run and change it. -/
theorem watch_is_strict_at_home (owner : Bytes → Nat) (home : Nat → Nat) (nshards : Nat) (steps : List (Step owner))
    (s : Nat) (log : List Ran) (hlog : (((System.new owner).exec home nshards steps).shards s).log = log)
    (hturn : ∀ key, bumpsOf key log < 2 ^ 64) (i : Nat) (r : Ran) (hr : log[i]? = some r) (g : Guard) (hg : g ∈ r.guards)
    (hown : owner g.watch.key = s) : (∀ (j : Nat) (r' : Ran), g.watch.since ≤ j → j < g.upto → log[j]? = some r' →
      r'.op.changes g.watch.key = true → r'.op.Silent g.watch.key) ∧
    ((∀ g' ∈ r.guards, owner g'.watch.key = home r.conn) →
      (∀ (j : Nat) (r' : Ran), g.watch.since ≤ j → j < i → log[j]? = some r' → r'.conn ≠ r.conn →
        r'.op.changes g.watch.key = true → r'.op.Silent g.watch.key) ∧
      ∀ (j : Nat) (r' : Ran) (g' : Guard), j < i → log[j]? = some r' → r'.conn ≠ r.conn → g' ∈ r'.guards →
        g'.watch.key = g.watch.key → g'.watch.version = g.watch.version → r'.op.changes g.watch.key = true →
        r'.op.Silent g.watch.key) := by
  have hinv : Inv home ((System.new owner).exec home nshards steps) := (inv_new owner home).exec steps
  have hshard (g : Guard) (hg : CheckedIn owner ((System.new owner).exec home nshards steps).shards g)
      (hown : owner g.watch.key = s) : (((System.new owner).exec home nshards steps).shards s).Checked g := hown ▸ hg
  have hguarded := hinv.guarded s
  have hunbroken := hinv.unbroken s
  rw [hlog] at hguarded hunbroken
  obtain ⟨hchecked, hupto⟩ := hguarded i r hr g hg
  have hcheck := hshard g hchecked hown
  have hbefore : ∀ (j : Nat) (r' : Ran), g.watch.since ≤ j → j < g.upto → log[j]? = some r' →
      r'.op.bumps g.watch.key = 0 := fun j r' hsince hlt hr' =>
    quiet_until_check hcheck (by rw [hlog]; exact hturn _) hsince hlt (by rw [hlog]; exact hr')
  refine ⟨fun j r' hsince hlt hr' hchanges => Op.silent_of_changes hchanges (hbefore j r' hsince hlt hr'), fun hall => ?_⟩
  have hhome : home r.conn = s := (hall g hg).symm.trans hown
  have hsilent : ∀ (j : Nat) (r' : Ran), g.watch.since ≤ j → j < i → log[j]? = some r' → r'.conn ≠ r.conn →
      r'.op.changes g.watch.key = true → r'.op.Silent g.watch.key := by
    intro j r' hsince hlt hr' hother hchanges
    rcases Nat.lt_or_ge j g.upto with hj | hj
    · exact Op.silent_of_changes hchanges (hbefore j r' hsince hj hr')
    · exact absurd (hunbroken i r hr hhome (fun g' hg' => (hall g' hg').trans hhome) g hg j r' hj hlt hr') hother
  refine ⟨hsilent, fun j r' g' hlt hr' hother hg' hkey hversion hchanges => ?_⟩
  rcases Nat.lt_or_ge j g.watch.since with hj | hj
  · -- the version of the second was collected behind the first, and would have moved
    obtain ⟨hchecked', hupto'⟩ := hguarded j r' hr' g' hg'
    have hcheck' := hshard g' hchecked' (hkey ▸ hown)
    have hfirst : g'.watch.since ≤ j := hcheck'.2.1.trans (hupto' (hkey ▸ hown))
    refine Op.silent_of_changes hchanges (hkey ▸ ?_)
    exact quiet_between hcheck'.1 hcheck.1 hkey hversion (hfirst.trans hj.le) (by rw [hlog]; exact hturn _) hfirst hj
      (by rw [hlog]; exact hr')
  · exact hsilent j r' hj hlt hr' hother hchanges

def firstByte (key : Bytes) : Nat := (key.headD 0).toNat

/-- One client writes a key before another watches and writes it, all on one shard. -/
def watchAfterWrite : List (Step firstByte) :=
  [.command 1 (.write (.single [0])), .command 0 (.watch [[0]]), .command 0 .multi, .command 0 (.write (.single [0])),
    .command 0 .exec]

theorem watch_is_strict_at_home_single : (((System.new firstByte).exec (fun _ => 0) 1 watchAfterWrite).shards 0).log =
        [⟨.dispatch [0] [], 1, []⟩, ⟨.dispatch [0] [], 0, [⟨⟨[0], 0, 1⟩, 1⟩]⟩] ∧
      ∀ (j : Nat) (r' : Ran), 1 ≤ j → j < 1 →
        [⟨.dispatch [0] [], 1, []⟩, ⟨.dispatch [0] [], 0, [⟨⟨[0], 0, 1⟩, 1⟩]⟩][j]? = some r' → r'.conn ≠ 0 →
        r'.op.changes [0] = true → r'.op.Silent [0] := by
  have hlog : (((System.new firstByte).exec (fun _ => 0) 1 watchAfterWrite).shards 0).log =
      [⟨.dispatch [0] [], 1, []⟩, ⟨.dispatch [0] [], 0, [⟨⟨[0], 0, 1⟩, 1⟩]⟩] := by decide +kernel
  refine ⟨hlog, ?_⟩
  have h := watch_is_strict_at_home firstByte (fun _ => 0) 1 watchAfterWrite 0 _ hlog
    (fun key => by
      simp only [bumpsOf, Op.bumps, map_cons, map_nil, sum_cons, sum_nil]
      split <;> decide)
    1 _ rfl ⟨⟨[0], 0, 1⟩, 1⟩ (by decide) (by decide)
  exact (h.2 (by decide)).1

/-- Two clients on other shards than the key's: both watch it, both check, and then both commands go out. -/
def twoCheck : List (Step firstByte) :=
  [.command 0 (.watch [[1]]), .deliver 0 1, .deliver 1 0, .command 1 (.watch [[1]]), .deliver 2 1, .deliver 1 2,
    .command 0 .multi, .command 0 (.write (.single [1])), .command 0 .exec,
    .command 1 .multi, .command 1 (.write (.single [1])), .command 1 .exec,
    .deliver 0 1, .deliver 2 1, .deliver 1 0, .deliver 1 2, .deliver 0 1, .deliver 2 1]

/-- **Across shards both transactions run**, though they watched the same version. -/
theorem both_transactions_run : (((System.new firstByte).exec (fun c => 2 * c) 3 twoCheck).shards 1).log =
      [⟨.dispatch [1] [], 0, [⟨⟨[1], 0, 0⟩, 0⟩]⟩, ⟨.dispatch [1] [], 1, [⟨⟨[1], 0, 0⟩, 0⟩]⟩] := by
  decide +kernel

end Kevy.Watch
