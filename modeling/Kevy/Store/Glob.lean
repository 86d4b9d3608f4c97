import Kevy.Resp.Basic

/-!
# Glob patterns

`glob` walks a pattern and a string side by side and goes back to the last star alone. A pattern is a list of
tokens, and `Admits` says how they split a string. Going back further would never help: between the last star
and the rest of the pattern each token takes one byte, so what an earlier choice leaves for the rest lies within
what is left now (`Anchor.Retries.of_taken`), where a star takes it in and the end of the string has no room.
-/

namespace Kevy.Store

open Kevy.Resp List Option

/-! ## The matcher -/

/-- The loop of `match_class` from an item on: whether one took `ch`, and the pattern behind the class. -/
def classLoop (ch : UInt8) : (p : Bytes) → (matched : Bool) → Bool × Bytes
  | [], matched => (matched, [])
  | 93 :: p, matched => (matched, p)
  | 92 :: c :: p, matched => classLoop ch p (matched || c == ch)
  | c :: 45 :: 93 :: p, matched => classLoop ch (45 :: 93 :: p) (matched || c == ch)
  | c :: 45 :: d :: p, matched =>
    let (lo, hi) := if c ≤ d then (c, d) else (d, c)
    classLoop ch p (matched || (decide (lo ≤ ch) && decide (ch ≤ hi)))
  | c :: p, matched => classLoop ch p (matched || c == ch)

def matchClass (ch : UInt8) (p : Bytes) : Bool × Bytes :=
  let negate := p.head? == some 94
  let r := classLoop ch (if negate then p.tail else p) false
  (r.1 ^^ negate, r.2)

/-- `match_token`: the width of the token at the front of the pattern, where it takes `ch`. -/
def matchToken (p : Bytes) (ch : UInt8) : Option Nat :=
  match p with
  | [] => none
  | c :: q =>
    if c = 63 then some 1
    else if c = 91 then
      if (matchClass ch q).1 then some (p.length - (matchClass ch q).2.length) else none
    else if c = 92 ∧ 2 ≤ p.length then if q.head? = some ch then some 2 else none
    else if c = ch then some 1 else none

/-- The last star: the pattern behind it, and the string from where that was tried last. -/
structure Anchor (s : Bytes) where
  pattern : Bytes
  string : Bytes
  le : s.length ≤ string.length

theorem length_dropStars {p : Bytes} (h : p.head? = some star) : (p.dropWhile (· == star)).length < p.length := by
  obtain ⟨p, rfl⟩ := head?_eq_some_iff.mp h
  rw [dropWhile_cons_of_pos (by simp), length_cons]
  exact Nat.lt_succ_of_le (dropWhile_suffix _).length_le

/-- The loop of `glob`, at the rest of the pattern and of the string. -/
def glob : (p s : Bytes) → (last : Option (Anchor s)) → Bool
  | p, [], _ => (p.dropWhile (· == star)).isEmpty
  | p, ch :: s, last =>
    if p.head? = some star then
      let q := p.dropWhile (· == star)
      glob q (ch :: s) (some ⟨q, ch :: s, le_rfl⟩)
    else
      match matchToken p ch with
      | some width => glob (p.drop width) s (last.map fun a => ⟨a.pattern, a.string, Nat.le_of_succ_le a.le⟩)
      | none =>
        match last with
        | none => false
        | some a => glob a.pattern a.string.tail (some ⟨a.pattern, a.string.tail, le_rfl⟩)
termination_by p s last => (last.elim (s.length + 1) fun a => a.string.length, s.length, p.length)
decreasing_by
  · have hp := length_dropStars ‹p.head? = some star›
    cases last with
    | none => exact Prod.Lex.left _ _ (Nat.lt_succ_self _)
    | some a => exact Prod.Lex.right' _ a.le (Prod.Lex.right _ hp)
  · cases last with
    | none => exact Prod.Lex.left _ _ (Nat.lt_succ_self _)
    | some a => exact Prod.Lex.right _ (Prod.Lex.left _ _ (Nat.lt_succ_self _))
  · refine Prod.Lex.left _ _ ?_
    have := a.le
    simp only [length_cons] at this
    simp only [elim_some, length_tail]
    omega

def globMatch (pat s : Bytes) : Bool := glob pat s none

/-! ## Patterns as tokens -/

inductive Token
  | star
  | any
  | oneOf (negate : Bool) (ranges : List (UInt8 × UInt8))
  | byte (c : UInt8)

/-- Between the two ends, whichever is the lower. -/
def between (ch : UInt8) (r : UInt8 × UInt8) : Bool :=
  decide (r.1 ≤ ch ∧ ch ≤ r.2 ∨ r.2 ≤ ch ∧ ch ≤ r.1)

def Token.accepts : Token → UInt8 → Bool
  | .star, _ => false
  | .any, _ => true
  | .oneOf negate ranges, ch => ranges.any (between ch) ^^ negate
  | .byte c, ch => c == ch

/-- The items of a class up to its bracket, or to the end of the pattern, and the pattern behind it. -/
def ranges : (p : Bytes) → List (UInt8 × UInt8) × Bytes
  | [] => ([], [])
  | 93 :: p => ([], p)
  | 92 :: c :: p => ((c, c) :: (ranges p).1, (ranges p).2)
  | c :: 45 :: 93 :: p => ((c, c) :: (ranges (45 :: 93 :: p)).1, (ranges (45 :: 93 :: p)).2)
  | c :: 45 :: d :: p => ((c, d) :: (ranges p).1, (ranges p).2)
  | c :: p => ((c, c) :: (ranges p).1, (ranges p).2)

/-- The token that `c` starts, and the pattern behind it. -/
def token (c : UInt8) (p : Bytes) : Token × Bytes :=
  if c = star then (.star, p)
  else if c = 63 then (.any, p)
  else if c = 91 then
    let negate := p.head? == some 94
    let q := if negate then p.tail else p
    (.oneOf negate (ranges q).1, (ranges q).2)
  else if c = 92 ∧ p ≠ [] then (.byte (p.headD 0), p.tail)
  else (.byte c, p)

theorem ranges_suffix (p : Bytes) : (ranges p).2 <:+ p := by
  fun_induction ranges p with
  | case1 => exact suffix_rfl
  | case2 p => exact suffix_cons _ p
  | case3 c p ih => exact ih.trans ((suffix_cons c p).trans (suffix_cons _ _))
  | case4 c p _ _ ih => exact ih.trans (suffix_cons c _)
  | case5 c d p _ _ _ ih =>
    exact ih.trans ((suffix_cons d p).trans ((suffix_cons _ _).trans (suffix_cons c _)))
  | case6 c p _ _ _ _ ih => exact ih.trans (suffix_cons c p)

theorem token_suffix (c : UInt8) (p : Bytes) : (token c p).2 <:+ p := by
  unfold token
  split_ifs with hstar hany hclass hescape
  · exact suffix_rfl
  · exact suffix_rfl
  · dsimp only
    split_ifs
    · exact (ranges_suffix _).trans (tail_suffix p)
    · exact ranges_suffix _
  · exact tail_suffix p
  · exact suffix_rfl

def tokens : (p : Bytes) → List Token
  | [] => []
  | c :: p => (token c p).1 :: tokens (token c p).2
termination_by p => p.length
decreasing_by exact Nat.lt_succ_of_le (token_suffix c p).length_le

/-- The tokens split the string: a star takes any run of bytes, another token one byte that it accepts. -/
inductive Admits : List Token → Bytes → Prop
  | nil : Admits [] []
  | star {ts : List Token} {s : Bytes} (run : Bytes) : Admits ts s → Admits (.star :: ts) (run ++ s)
  | one {t : Token} {ts : List Token} {ch : UInt8} {s : Bytes} : t.accepts ch = true → Admits ts s →
      Admits (t :: ts) (ch :: s)

variable {p s : Bytes} {c ch : UInt8}

theorem between_self (ch c : UInt8) : between ch (c, c) = (c == ch) := by
  rw [between, Bool.eq_iff_iff, decide_eq_true_iff, beq_iff_eq]
  constructor
  · rintro (h | h) <;> exact UInt8.le_antisymm h.1 h.2
  · rintro rfl
    exact .inl ⟨UInt8.le_refl c, UInt8.le_refl c⟩

theorem between_ends {lo hi d : UInt8} (h : (if c ≤ d then (c, d) else (d, c)) = (lo, hi)) :
    (decide (lo ≤ ch) && decide (ch ≤ hi)) = between ch (c, d) := by
  rw [between, ← Bool.decide_and, decide_eq_decide]
  split_ifs at h with hle <;> cases h
  · refine ⟨.inl, Or.rec id fun h => ?_⟩
    exact ⟨UInt8.le_trans hle h.1, UInt8.le_trans h.2 hle⟩
  · refine ⟨.inr, Or.rec (fun h => ?_) id⟩
    exact absurd (UInt8.le_trans h.1 h.2) hle

theorem classLoop_eq (ch : UInt8) (p : Bytes) (matched : Bool) :
    classLoop ch p matched = (matched || (ranges p).1.any (between ch), (ranges p).2) := by
  fun_induction classLoop ch p matched with
  | case1 | case2 => simp [ranges]
  | case3 c p matched ih => rw [ih, ranges, any_cons, between_self, Bool.or_assoc]
  | case4 p c matched h1 h2 ih =>
    rw [ih, ranges, any_cons, between_self, Bool.or_assoc]
    all_goals assumption
  | case5 c d p matched h1 h2 h3 lo hi horder ih =>
    rw [ih, ranges, any_cons, Bool.or_assoc, between_ends horder]
    all_goals assumption
  | case6 p c matched h1 h2 h3 h4 ih =>
    rw [ih, ranges, any_cons, between_self, Bool.or_assoc]
    all_goals assumption

theorem matchToken_eq (c : UInt8) (p : Bytes) (hc : c ≠ star) (ch : UInt8) : matchToken (c :: p) ch =
    if (token c p).1.accepts ch then some ((c :: p).length - (token c p).2.length) else none := by
  rw [matchToken, token, if_neg hc]
  by_cases hany : c = 63
  · simp [hany, Token.accepts]
  by_cases hclass : c = 91
  · simp [hclass, Token.accepts, matchClass, classLoop_eq]
  by_cases hescape : c = 92 ∧ p ≠ []
  · obtain ⟨rfl, hp⟩ := hescape
    obtain ⟨d, q, rfl⟩ := exists_cons_of_ne_nil hp
    have hwidth : q.length + 1 + 1 - q.length = 2 := by omega
    simp [Token.accepts, hwidth]
  · have hshort : ¬ (c = 92 ∧ 2 ≤ (c :: p).length) := by
      rw [length_cons]
      exact fun h => hescape ⟨h.1, ne_nil_of_length_pos (by omega)⟩
    rw [if_neg hany, if_neg hclass, if_neg hshort, if_neg hany, if_neg hclass, if_neg hescape]
    simp [Token.accepts]

/-! ## What is admitted -/

section Admits

variable {ts : List Token}

theorem admits_star_iff : Admits (.star :: ts) s ↔ ∃ v, v <:+ s ∧ Admits ts v := by
  constructor
  · intro h
    cases h with
    | star run h => exact ⟨_, suffix_append run _, h⟩
    | one ht => cases ht
  · rintro ⟨v, ⟨run, rfl⟩, h⟩
    exact .star run h

theorem admits_one_iff {t : Token} (ht : t ≠ .star) :
    Admits (t :: ts) s ↔ ∃ ch v, s = ch :: v ∧ t.accepts ch = true ∧ Admits ts v := by
  constructor
  · intro h
    cases h with
    | star => exact absurd rfl ht
    | one hch h => exact ⟨_, _, rfl, hch, h⟩
  · rintro ⟨ch, v, rfl, hch, h⟩
    exact .one hch h

theorem exists_suffix_iff {P : Bytes → Prop} : (∃ v, v <:+ s ∧ P v) ↔ P s ∨ ∃ v, v <:+ s.tail ∧ P v := by
  constructor
  · rintro ⟨v, hv, h⟩
    cases s with
    | nil =>
      rw [suffix_nil.mp hv] at h
      exact .inl h
    | cons ch s =>
      rcases suffix_cons_iff.mp hv with rfl | hv
      · exact .inl h
      · exact .inr ⟨v, hv, h⟩
  · rintro (h | ⟨v, hv, h⟩)
    · exact ⟨s, suffix_rfl, h⟩
    · exact ⟨v, hv.trans (tail_suffix s), h⟩

end Admits

@[simp] theorem tokens_star (p : Bytes) : tokens (star :: p) = .star :: tokens p := by
  simp [tokens, token]

theorem token_ne_star (hc : c ≠ star) (p : Bytes) : (token c p).1 ≠ .star := by
  unfold token
  rw [if_neg hc]
  split_ifs <;> exact nofun

theorem admits_dropStars : (∃ v, v <:+ s ∧ Admits (tokens (p.dropWhile (· == star))) v) ↔
    ∃ v, v <:+ s ∧ Admits (tokens p) v := by
  induction p with
  | nil => rfl
  | cons c p ih =>
    by_cases hc : c = star
    · subst hc
      rw [dropWhile_cons_of_pos (by simp), ih, tokens_star]
      constructor
      · rintro ⟨v, hv, h⟩
        exact ⟨v, hv, .star [] h⟩
      · rintro ⟨v, hv, h⟩
        obtain ⟨w, hw, h⟩ := admits_star_iff.mp h
        exact ⟨w, hw.trans hv, h⟩
    · rw [dropWhile_cons_of_neg (by simpa using hc)]

theorem admits_nil_iff : Admits (tokens p) [] ↔ (p.dropWhile (· == star)).isEmpty = true := by
  induction p with
  | nil => exact ⟨fun _ => rfl, fun _ => by rw [tokens]; exact .nil⟩
  | cons c p ih =>
    by_cases hc : c = star
    · subst hc
      rw [tokens_star, admits_star_iff, dropWhile_cons_of_pos (by simp), ← ih]
      simp
    · rw [tokens, admits_one_iff (token_ne_star hc p), dropWhile_cons_of_neg (by simpa using hc)]
      simp

theorem Admits.of_suffix {v : Bytes} (h : Admits (tokens p) v) (hp : p.head? = some Resp.star) (hv : v <:+ s) :
    Admits (tokens p) s := by
  obtain ⟨p, rfl⟩ := head?_eq_some_iff.mp hp
  rw [tokens_star, admits_star_iff] at h ⊢
  obtain ⟨w, hw, h⟩ := h
  exact ⟨w, hw.trans hv, h⟩

theorem tokens_of_match {width : Nat} (hp : p.head? ≠ some star) (h : matchToken p ch = some width) :
    ∃ t, t ≠ .star ∧ t.accepts ch = true ∧ tokens p = t :: tokens (p.drop width) := by
  cases p with
  | nil => cases h
  | cons c p =>
    have hc : c ≠ star := fun hc => hp (congrArg some hc)
    rw [matchToken_eq c p hc] at h
    split_ifs at h with hch
    cases h
    refine ⟨_, token_ne_star hc p, hch, ?_⟩
    rw [tokens, ← suffix_iff_eq_drop.mp ((token_suffix c p).trans (suffix_cons c p))]

theorem not_admits_of_mismatch (hp : p.head? ≠ some star) (h : matchToken p ch = none) : ¬ Admits (tokens p) (ch :: s) := by
  cases p with
  | nil =>
    rw [tokens]
    exact nofun
  | cons c p =>
    have hc : c ≠ star := fun hc => hp (congrArg some hc)
    rw [matchToken_eq c p hc] at h
    rw [tokens, admits_one_iff (token_ne_star hc p)]
    rintro ⟨_, _, ⟨⟩, hch, -⟩
    rw [if_pos hch] at h
    cases h

/-! ## The loop -/

/-- Between the last star and the rest of the pattern every token takes one byte: as many as there are between
the star's string and the rest of the string. -/
def Anchor.Taken (a : Anchor s) (p : Bytes) : Prop :=
  s <:+ a.string ∧ ∀ v, Admits (tokens a.pattern) v →
    ∃ w, w <:+ v ∧ w.length + a.string.length = v.length + s.length ∧ Admits (tokens p) w

/-- Some retry of the last star succeeds. -/
def Anchor.Retries (a : Anchor s) : Prop := ∃ v, v <:+ a.string.tail ∧ Admits (tokens a.pattern) v

/-- What a retry leaves over for the rest of the pattern is within the rest of the string. -/
theorem Anchor.Retries.of_taken {a : Anchor s} (h : a.Retries) (ha : a.Taken p) :
    ∃ w, w <:+ s ∧ Admits (tokens p) w := by
  obtain ⟨v, hv, h⟩ := h
  obtain ⟨w, hw, hlen, h⟩ := ha.2 v h
  have hv := hv.trans (tail_suffix _)
  have hle := hv.length_le
  exact ⟨w, suffix_of_suffix_length_le (hw.trans hv) ha.1 (by omega), h⟩

theorem tries_from (q s : Bytes) :
    (Admits (tokens q) s ∨ ∃ a ∈ some (⟨q, s, le_rfl⟩ : Anchor s), a.Retries) ↔ ∃ v, v <:+ s ∧ Admits (tokens q) v := by
  rw [exists_suffix_iff]
  simp [Anchor.Retries]

theorem taken_from (q s : Bytes) : ∀ a ∈ some (⟨q, s, le_rfl⟩ : Anchor s), a.Taken q := by
  rintro _ ⟨⟩
  exact ⟨suffix_rfl, fun v h => ⟨v, suffix_rfl, rfl, h⟩⟩

/-- **What the loop answers**: the rest of the pattern admits the rest of the string, or a retry succeeds. -/
theorem glob_spec (p s : Bytes) (last : Option (Anchor s)) (hlast : ∀ a ∈ last, a.Taken p) :
    glob p s last = true ↔ Admits (tokens p) s ∨ ∃ a ∈ last, a.Retries := by
  fun_induction glob p s last with
  | case1 p last =>
    rw [← admits_nil_iff]
    refine ⟨.inl, ?_⟩
    rintro (h | ⟨a, ha, hretry⟩)
    · exact h
    · obtain ⟨w, hw, h⟩ := hretry.of_taken (hlast a ha)
      rwa [suffix_nil.mp hw] at h
  | case2 p ch s hstar q last ih =>
    rw [ih (taken_from q _), tries_from, admits_dropStars]
    constructor
    · rintro ⟨v, hv, h⟩
      exact .inl (h.of_suffix hstar hv)
    · rintro (h | ⟨a, ha, hretry⟩)
      · exact ⟨_, suffix_rfl, h⟩
      · exact hretry.of_taken (hlast a ha)
  | case3 p ch s hstar width hwidth last ih =>
    obtain ⟨t, ht, hch, htokens⟩ := tokens_of_match hstar hwidth
    rw [ih ?_, htokens, admits_one_iff ht]
    · simp [hch, Anchor.Retries]
    · intro a' ha'
      obtain ⟨a, ha, rfl⟩ := Option.mem_map.mp ha'
      obtain ⟨hsuffix, htaken⟩ := hlast a ha
      refine ⟨(suffix_cons ch s).trans hsuffix, fun v h => ?_⟩
      obtain ⟨w, hw, hlen, h⟩ := htaken v h
      rw [htokens, admits_one_iff ht] at h
      obtain ⟨d, w, rfl, -, h⟩ := h
      exact ⟨w, (suffix_cons d w).trans hw, by simp only [length_cons] at hlen ⊢; omega, h⟩
  | case4 p ch s hstar hnone =>
    simp [not_admits_of_mismatch hstar hnone]
  | case5 p ch s hstar hnone a ih =>
    rw [ih (taken_from _ _), tries_from]
    simp [not_admits_of_mismatch hstar hnone, Anchor.Retries]

/-- **Glob matching is exact.** -/
theorem globMatch_exact (pat s : Bytes) : globMatch pat s = true ↔ Admits (tokens pat) s := by
  rw [globMatch, glob_spec pat s none (by simp)]
  simp

end Kevy.Store
