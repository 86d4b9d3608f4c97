import Mathlib.Data.List.Induction

/-!
# Incremental parsers

An incremental parser looks at the front of a buffer and reports an item with the number of symbols it
took, asks for more, or fails. It is *stable* when an item or a failure, once reported, is reported
again however the buffer grows. A stable parser can be driven over a stream in pieces: the items and
the outcome do not depend on where the pieces were cut (`feedAll_eq`).

`skipEmpty` is the loop that swallows empty items; it keeps stability (`Stable.skip`).
-/

namespace Kevy.Lib

open List

variable {β ε α : Type}

/-- `ok (some (item, used))`, `ok none` for "need more", or a failure. -/
abbrev IncParser (β ε α : Type) := List β → Except ε (Option (α × Nat))

/-- An item always takes symbols that are there, and no symbols give no item. -/
structure Consumes (p : IncParser β ε α) : Prop where
  nil : p [] = .ok none
  used : ∀ {buf a n}, p buf = .ok (some (a, n)) → 0 < n ∧ n ≤ buf.length

/-- Reported items and failures survive any extension of the buffer. -/
structure Stable (p : IncParser β ε α) : Prop extends Consumes p where
  item : ∀ {buf a n}, p buf = .ok (some (a, n)) → ∀ ext, p (buf ++ ext) = .ok (some (a, n))
  fail : ∀ {buf e}, p buf = .error e → ∀ ext, p (buf ++ ext) = .error e

/-! ## Driving a parser over a stream -/

/-- Everything a buffer yields: the items, then the failure or the symbols left waiting. -/
def drain (p : IncParser β ε α) : (fuel : Nat) → List β → List α × Except ε (List β)
  | 0, buf => ([], .ok buf)
  | fuel + 1, buf =>
    match p buf with
    | .error e => ([], .error e)
    | .ok none => ([], .ok buf)
    | .ok (some (a, n)) =>
      let r := drain p fuel (buf.drop n)
      (a :: r.1, r.2)

def parseAll (p : IncParser β ε α) (buf : List β) : List α × Except ε (List β) :=
  drain p buf.length buf

/-- One chunk arrives behind the symbols left waiting; after a failure nothing is read any more. -/
def feed (p : IncParser β ε α) (s : List α × Except ε (List β)) (chunk : List β) :
    List α × Except ε (List β) :=
  match s.2 with
  | .error _ => s
  | .ok waiting =>
    let r := parseAll p (waiting ++ chunk)
    (s.1 ++ r.1, r.2)

def feedAll (p : IncParser β ε α) (chunks : List (List β)) : List α × Except ε (List β) :=
  chunks.foldl (feed p) ([], .ok [])

variable {buf : List β} {a : α} {n : Nat}

section Drain

variable {p : IncParser β ε α}

theorem drain_fuel (hp : Consumes p) {f g : Nat} {buf : List β} (hf : buf.length ≤ f) (hg : buf.length ≤ g) :
    drain p f buf = drain p g buf := by
  induction f generalizing g buf with
  | zero =>
    rw [length_eq_zero_iff.mp (Nat.le_zero.mp hf)]
    cases g <;> simp [drain, hp.nil]
  | succ f ih =>
    cases g with
    | zero =>
      rw [length_eq_zero_iff.mp (Nat.le_zero.mp hg)]
      simp [drain, hp.nil]
    | succ g =>
      rw [drain, drain]
      split
      · rfl
      · rfl
      · rename_i a n hpn
        have hn := hp.used hpn
        have hlen := length_drop (i := n) (l := buf)
        rw [ih (g := g) (by omega) (by omega)]

theorem parseAll_none (h : p buf = .ok none) : parseAll p buf = ([], .ok buf) := by
  rw [parseAll]
  cases buf.length <;> simp [drain, h]

theorem parseAll_error (hp : Consumes p) {e : ε} (h : p buf = .error e) : parseAll p buf = ([], .error e) := by
  cases buf with
  | nil => rw [hp.nil] at h; cases h
  | cons b bs => simp [parseAll, drain, h]

theorem parseAll_some (hp : Consumes p) (h : p buf = .ok (some (a, n))) :
    parseAll p buf = (a :: (parseAll p (buf.drop n)).1, (parseAll p (buf.drop n)).2) := by
  have hn := hp.used h
  obtain ⟨k, hk⟩ : ∃ k, buf.length = k + 1 := ⟨buf.length - 1, by omega⟩
  have hlen := length_drop (i := n) (l := buf)
  rw [parseAll, hk, drain, h]
  simp only [parseAll]
  rw [drain_fuel hp (f := k) (g := (buf.drop n).length) (by omega) (Nat.le_refl _)]

theorem parseAll_append (hp : Stable p) (ext : List β) : ∀ (buf : List β),
    parseAll p (buf ++ ext) = feed p (parseAll p buf) ext := by
  intro buf
  induction hlen : buf.length using Nat.strongRecOn generalizing buf with
  | ind len ih =>
  cases hpb : p buf with
  | error e =>
    rw [parseAll_error hp.toConsumes hpb, parseAll_error hp.toConsumes (hp.fail hpb ext)]
    rfl
  | ok r =>
    rcases r with _ | ⟨a, n⟩
    · rw [parseAll_none hpb]
      simp [feed]
    · have hn := hp.used hpb
      rw [parseAll_some hp.toConsumes hpb, parseAll_some hp.toConsumes (hp.item hpb ext), drop_append_of_le_length hn.2,
        ih (buf.length - n) (by omega) (buf.drop n) (by simp)]
      simp only [feed]
      cases h2 : (parseAll p (buf.drop n)).2 <;> simp [h2]

theorem feedAll_eq (hp : Stable p) (chunks : List (List β)) : feedAll p chunks = parseAll p chunks.flatten := by
  induction chunks using List.reverseRecOn with
  | nil => rfl
  | append_singleton chunks chunk ih =>
    rw [feedAll, foldl_append, foldl_cons, foldl_nil, ← feedAll, ih,
      ← parseAll_append hp, flatten_append, flatten_singleton]

theorem Stable.waits (hp : Stable p) {front missing : List β} (hmissing : missing ≠ [])
    (h : p (front ++ missing) = .ok (some (a, (front ++ missing).length))) : p front = .ok none := by
  rcases hfront : p front with e | _ | ⟨b, n⟩
  · rw [hp.fail hfront] at h
    cases h
  · rfl
  · have hn := (hp.used hfront).2
    have hpos := length_pos_iff.mpr hmissing
    rw [hp.item hfront] at h
    simp at h
    omega

end Drain

/-! ## Swallowing empty items -/

/-- Shift a result by the symbols skipped before it. -/
def shift (k : Nat) (r : Except ε (Option (α × Nat))) : Except ε (Option (α × Nat)) :=
  r.map (Option.map fun x => (x.1, k + x.2))

/-- Parse at `base`; an empty item is consumed and parsing goes on behind it. Every item takes at
least one symbol, so `buf.length` rounds are enough. -/
def skipEmpty (p : IncParser β ε α) (isEmpty : α → Bool) (buf : List β) :
    (fuel base : Nat) → Except ε (Option (α × Nat))
  | 0, _ => .ok none
  | fuel + 1, base =>
    let rest := buf.drop base
    if rest.isEmpty then .ok none
    else
      match p rest with
      | .error e => .error e
      | .ok none => .ok none
      | .ok (some (a, used)) =>
        if isEmpty a then skipEmpty p isEmpty buf fuel (base + used)
        else .ok (some (a, base + used))

def skip (p : IncParser β ε α) (isEmpty : α → Bool) (buf : List β) : Except ε (Option (α × Nat)) :=
  skipEmpty p isEmpty buf buf.length 0

section Skip

variable {p : IncParser β ε α} {isEmpty : α → Bool}

theorem shift_zero (r : Except ε (Option (α × Nat))) : shift 0 r = r := by
  rcases r with e | _ | ⟨a, n⟩ <;> simp [shift, Except.map]

theorem shift_shift (j k : Nat) (r : Except ε (Option (α × Nat))) : shift j (shift k r) = shift (j + k) r := by
  rcases r with e | _ | ⟨a, n⟩ <;> simp [shift, Except.map, Nat.add_assoc]

@[simp] theorem shift_error (k : Nat) (e : ε) : shift k (.error e : Except ε (Option (α × Nat))) = .error e := rfl

@[simp] theorem shift_none (k : Nat) : shift k (.ok none : Except ε (Option (α × Nat))) = .ok none := rfl

@[simp] theorem shift_some (k : Nat) (a : α) (n : Nat) :
    shift k (.ok (some (a, n)) : Except ε (Option (α × Nat))) = .ok (some (a, k + n)) := rfl

theorem skipEmpty_add (hp : Consumes p) (buf : List β) (base : Nat) {f g d : Nat}
    (hf : (buf.drop (base + d)).length ≤ f) (hg : (buf.drop (base + d)).length ≤ g) :
    skipEmpty p isEmpty buf f (base + d) = shift base (skipEmpty p isEmpty (buf.drop base) g d) := by
  induction f generalizing g d with
  | zero =>
    have hnil : buf.drop (base + d) = [] := length_eq_zero_iff.mp (Nat.le_zero.mp hf)
    cases g <;> simp [skipEmpty, hnil]
  | succ f ih =>
    cases g with
    | zero =>
      have hnil : buf.drop (base + d) = [] := length_eq_zero_iff.mp (Nat.le_zero.mp hg)
      simp [skipEmpty, hnil]
    | succ g =>
      rw [skipEmpty, skipEmpty, drop_drop]
      by_cases hnil : (buf.drop (base + d)).isEmpty
      · simp [hnil]
      simp only [if_neg hnil]
      cases hpb : p (buf.drop (base + d)) with
      | error e => rfl
      | ok r =>
        rcases r with _ | ⟨a, n⟩
        · rfl
        have hn := hp.used hpb
        by_cases ha : isEmpty a
        · have hlen := length_drop (i := n) (l := buf.drop (base + d))
          rw [drop_drop, Nat.add_assoc] at hlen
          simp only [if_pos ha, Nat.add_assoc]
          exact ih (by omega) (by omega)
        · simp [if_neg ha, Nat.add_assoc]

theorem skip_error {e : ε} (hp : Consumes p) (h : p buf = .error e) : skip p isEmpty buf = .error e := by
  cases buf with
  | nil => rw [hp.nil] at h; cases h
  | cons b bs => simp [skip, skipEmpty, h]

theorem skip_none (h : p buf = .ok none) : skip p isEmpty buf = .ok none := by
  cases buf with
  | nil => rfl
  | cons b bs => simp [skip, skipEmpty, h]

theorem skip_item (hp : Consumes p)
    (h : p buf = .ok (some (a, n))) (ha : isEmpty a = false) : skip p isEmpty buf = .ok (some (a, n)) := by
  cases buf with
  | nil => rw [hp.nil] at h; cases h
  | cons b bs => simp [skip, skipEmpty, h, ha]

theorem skip_empty (hp : Consumes p) (h : p buf = .ok (some (a, n))) (ha : isEmpty a = true) :
    skip p isEmpty buf = shift n (skip p isEmpty (buf.drop n)) := by
  have hn := hp.used h
  obtain ⟨k, hk⟩ : ∃ k, buf.length = k + 1 := ⟨buf.length - 1, by omega⟩
  have hlen := length_drop (i := n) (l := buf)
  have hne : buf.isEmpty = false := by
    cases buf with
    | nil => simp at hk
    | cons b bs => rfl
  rw [skip, hk, skipEmpty]
  simp only [drop_zero, hne, h, ha, Nat.zero_add, if_true, Bool.false_eq_true, if_false]
  exact skipEmpty_add hp buf n (d := 0) (by rw [Nat.add_zero]; omega) (Nat.le_refl _)

/-- The first `k` symbols of the buffer are empty items. -/
inductive Skips (p : IncParser β ε α) (isEmpty : α → Bool) : List β → Nat → Prop
  | done (buf : List β) : Skips p isEmpty buf 0
  | step {buf : List β} {a : α} {n k : Nat} : p buf = .ok (some (a, n)) → isEmpty a = true →
      Skips p isEmpty (buf.drop n) k → Skips p isEmpty buf (n + k)

theorem Skips.skip_eq (hp : Consumes p) {k : Nat} (h : Skips p isEmpty buf k) :
    skip p isEmpty buf = shift k (skip p isEmpty (buf.drop k)) := by
  induction h with
  | done buf => rw [shift_zero]; rfl
  | step hpb ha _ ih => rw [skip_empty hp hpb ha, ih, shift_shift, drop_drop]

theorem Skips.le_length (hp : Consumes p) {k : Nat} (h : Skips p isEmpty buf k) : k ≤ buf.length := by
  induction h with
  | done buf => exact Nat.zero_le _
  | step hpb _ _ ih =>
    have hn := hp.used hpb
    rw [length_drop] at ih
    omega

theorem Skips.append (hp : Stable p) {k : Nat} (h : Skips p isEmpty buf k)
    (ext : List β) : Skips p isEmpty (buf ++ ext) k := by
  induction h with
  | done buf => exact Skips.done _
  | step hpb ha _ ih =>
    refine Skips.step (hp.item hpb ext) ha ?_
    rwa [drop_append_of_le_length (hp.used hpb).2]

theorem exists_skips (isEmpty : α → Bool) (hp : Consumes p) : ∀ (buf : List β), ∃ k, Skips p isEmpty buf k ∧
    ∀ a n, p (buf.drop k) = .ok (some (a, n)) → isEmpty a = false := by
  intro buf
  induction hlen : buf.length using Nat.strongRecOn generalizing buf with
  | ind len ih =>
  by_cases h : ∃ a n, p buf = .ok (some (a, n)) ∧ isEmpty a = true
  · obtain ⟨a, n, hpb, ha⟩ := h
    have hn := hp.used hpb
    obtain ⟨k, hk, hlast⟩ := ih (buf.length - n) (by omega) (buf.drop n) (by simp)
    refine ⟨n + k, Skips.step hpb ha hk, ?_⟩
    rwa [drop_drop] at hlast
  · refine ⟨0, Skips.done buf, fun a n hpb => ?_⟩
    by_contra hne
    exact h ⟨a, n, hpb, by simpa using hne⟩

theorem skip_eq_of_nonempty (hp : Consumes p)
    (h : ∀ a n, p buf = .ok (some (a, n)) → isEmpty a = false) : skip p isEmpty buf = p buf := by
  cases hpb : p buf with
  | error e => exact skip_error hp hpb
  | ok r =>
    rcases r with _ | ⟨a, n⟩
    · exact skip_none hpb
    · exact skip_item hp hpb (h a n hpb)

theorem skip_flatten (hp : Consumes p) {fs : List (List β)} (rest : List β)
    (h : ∀ f ∈ fs, ∀ rest, ∃ a, p (f ++ rest) = .ok (some (a, f.length)) ∧ isEmpty a = true) :
    skip p isEmpty (fs.flatten ++ rest) = shift fs.flatten.length (skip p isEmpty rest) := by
  induction fs with
  | nil => exact (shift_zero _).symm
  | cons f fs ih =>
    obtain ⟨a, hf, ha⟩ := h f mem_cons_self (fs.flatten ++ rest)
    rw [flatten_cons, append_assoc, skip_empty hp hf ha, drop_left, ih (forall_mem_cons.mp h).2,
      shift_shift, length_append]

/-- Behind the empty items the loop is one parse, also when the buffer grows. -/
theorem Stable.skip_eq (hp : Stable p) (isEmpty : α → Bool) (buf : List β) : ∃ k, k ≤ buf.length ∧
    Lib.skip p isEmpty buf = shift k (p (buf.drop k)) ∧
    (∀ ext, Lib.skip p isEmpty (buf ++ ext) = shift k (Lib.skip p isEmpty (buf.drop k ++ ext))) ∧
    ∀ a n, p (buf.drop k) = .ok (some (a, n)) → isEmpty a = false := by
  obtain ⟨k, hk, hlast⟩ := exists_skips isEmpty hp.toConsumes buf
  have hle := hk.le_length hp.toConsumes
  refine ⟨k, hle, ?_, fun ext => ?_, hlast⟩
  · rw [hk.skip_eq hp.toConsumes, skip_eq_of_nonempty hp.toConsumes hlast]
  · rw [(hk.append hp ext).skip_eq hp.toConsumes, drop_append_of_le_length hle]

theorem Stable.skip (hp : Stable p) : Stable (skip p isEmpty) where
  nil := rfl
  used := by
    intro buf a n h
    obtain ⟨k, hle, hskip, -, -⟩ := hp.skip_eq isEmpty buf
    rw [hskip] at h
    rcases hpb : p (buf.drop k) with e | _ | ⟨a', n'⟩ <;> rw [hpb] at h <;> simp at h
    have hn := hp.used hpb
    rw [length_drop] at hn
    omega
  item := by
    intro buf a n h ext
    obtain ⟨k, -, hskip, hext, hlast⟩ := hp.skip_eq isEmpty buf
    rw [hskip] at h
    rcases hpb : p (buf.drop k) with e | _ | ⟨a', n'⟩ <;> rw [hpb] at h <;> simp at h
    rw [hext, skip_item hp.toConsumes (hp.item hpb ext) (hlast a' n' hpb)]
    simp [h]
  fail := by
    intro buf e h ext
    obtain ⟨k, -, hskip, hext, -⟩ := hp.skip_eq isEmpty buf
    rw [hskip] at h
    rcases hpb : p (buf.drop k) with e' | _ | ⟨a', n'⟩ <;> rw [hpb] at h <;> simp at h
    rw [hext, skip_error hp.toConsumes (hp.fail hpb ext), h]
    rfl

end Skip

end Kevy.Lib
