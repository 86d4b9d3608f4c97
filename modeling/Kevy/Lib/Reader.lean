import Kevy.Lib.LittleEndian

/-!
# Readers of a byte stream

A reader takes bytes from the front of a stream and fails when they run out. `Reads eof r bs a` says that `bs` is
exactly one thing for `r`: in front of anything else it is read as `a` and nothing more is taken, and cut anywhere
short it is the end of the stream. Both halves go through sequencing, counted repetition and loops.
-/

namespace Kevy.Lib

open List

abbrev Reader (ε α : Type) := StateT (List UInt8) (Except ε) α

variable {ε α β σ : Type} (eof : ε)

/-! ## What readers are made of -/

def readByte : Reader ε UInt8 := fun bs => match bs with
  | [] => .error eof
  | b :: rest => .ok (b, rest)

/-- The next `n` bytes, or the end of the stream. -/
def readExact (n : Nat) : Reader ε (List UInt8) := fun bs =>
  if n ≤ bs.length then .ok (bs.take n, bs.drop n) else .error eof

def readMany (item : Reader ε α) : Nat → Reader ε (List α)
  | 0 => pure []
  | n + 1 => do
    let a ← item
    let more ← readMany item n
    pure (a :: more)

/-- Steps on a state until one of them ends it. A step takes at least a byte, so the length of the stream bounds
their number. -/
def readLoop (step : σ → Reader ε (σ ⊕ β)) : (fuel : Nat) → σ → Reader ε β
  | 0, _ => fun _ => .error eof
  | fuel + 1, s => do
    let next ← step s
    match next with
    | .inl s' => readLoop step fuel s'
    | .inr b => pure b

/-- The loop with enough fuel for the stream at hand. -/
def readUntil (step : σ → Reader ε (σ ⊕ β)) (s : σ) : Reader ε β := fun bs => readLoop eof step (bs.length + 1) s bs

/-! ## Running a sequence -/

theorem bind_of_ok {r : Reader ε α} {f : α → Reader ε β} {bs rest : List UInt8} {a : α} (h : r bs = .ok (a, rest)) :
    (r >>= f) bs = f a rest := by
  show (r bs >>= fun p => f p.1 p.2) = _
  rw [h]
  rfl

theorem bind_of_error {r : Reader ε α} {f : α → Reader ε β} {bs : List UInt8} {e : ε} (h : r bs = .error e) :
    (r >>= f) bs = .error e := by
  show (r bs >>= fun p => f p.1 p.2) = _
  rw [h]
  rfl

/-! ## Exactly one thing -/

/-- `bs` is exactly one thing for the reader. -/
structure Reads (r : Reader ε α) (bs : List UInt8) (a : α) : Prop where
  whole : ∀ rest, r (bs ++ rest) = .ok (a, rest)
  short : ∀ p, p <+: bs → p ≠ bs → r p = .error eof

variable {eof} {r : Reader ε α} {f : α → Reader ε β} {bs cs : List UInt8} {a : α} {b : β}

theorem front_append {p : List UInt8} (h : p <+: bs ++ cs) (hne : p ≠ bs ++ cs) :
    (p <+: bs ∧ p ≠ bs) ∨ ∃ q, p = bs ++ q ∧ q <+: cs ∧ q ≠ cs := by
  by_cases hp : p <+: bs ∧ p ≠ bs
  · exact .inl hp
  · have hbs : bs <+: p := by
      rcases prefix_or_prefix_of_prefix h (prefix_append bs cs) with hpb | hbp
      · by_contra hnot
        exact hp ⟨hpb, fun heq => hnot (heq ▸ prefix_refl bs)⟩
      · exact hbp
    obtain ⟨q, rfl⟩ := hbs
    exact .inr ⟨q, rfl, (prefix_append_right_inj bs).mp h, fun heq => hne (by rw [heq])⟩

theorem Reads.pure (a : α) : Reads eof (pure a : Reader ε α) [] a where
  whole _ := rfl
  short _ hp hne := absurd (prefix_nil.mp hp) hne

theorem Reads.bind (h : Reads eof r bs a) (hf : Reads eof (f a) cs b) : Reads eof (r >>= f) (bs ++ cs) b where
  whole rest := by
    rw [append_assoc, bind_of_ok (h.whole _), hf.whole]
  short p hp hne := by
    rcases front_append hp hne with ⟨hp, hne⟩ | ⟨q, rfl, hq, hne⟩
    · exact bind_of_error (h.short p hp hne)
    · rw [bind_of_ok (h.whole q), hf.short q hq hne]

theorem Reads.map {g : α → β} (h : Reads eof r bs a) : Reads eof (r >>= fun x => Pure.pure (g x)) bs (g a) := by
  have hbind := h.bind (f := fun x => Pure.pure (g x)) (Reads.pure (g a))
  rwa [append_nil] at hbind

theorem Reads.readByte (b : UInt8) : Reads eof (readByte eof) [b] b where
  whole _ := rfl
  short p hp hne := by
    rcases prefix_cons_iff.mp hp with rfl | ⟨t, rfl, ht⟩
    · rfl
    · rw [prefix_nil.mp ht] at hne
      exact absurd rfl hne

theorem Reads.readExact {n : Nat} (h : bs.length = n) : Reads eof (readExact eof n) bs bs where
  whole rest := by
    subst h
    simp [Lib.readExact]
  short p hp hne := by
    have hlt : p.length < n := by
      rcases Nat.lt_or_ge p.length bs.length with hlt | hge
      · exact h ▸ hlt
      · exact absurd (hp.eq_of_length_le hge) hne
    exact if_neg (by omega)

theorem Reads.readMany {γ : Type} {enc : γ → List UInt8} {g : γ → α} (items : List γ)
    (h : ∀ c ∈ items, Reads eof r (enc c) (g c)) :
    Reads eof (readMany r items.length) (items.flatMap enc) (items.map g) := by
  induction items with
  | nil => exact Reads.pure []
  | cons c items ih =>
    have hmore := ih (forall_mem_cons.mp h).2
    exact (h c mem_cons_self).bind hmore.map

/-! ## Loops -/

section Loop

variable {step : σ → Reader ε (σ ⊕ β)} {s s' : σ}

/-- `Reads` for the loop with any fuel that is more than there are bytes. -/
structure LoopReads (step : σ → Reader ε (σ ⊕ β)) (s : σ) (bs : List UInt8) (b : β) : Prop where
  whole : ∀ fuel rest, bs.length < fuel → readLoop eof step fuel s (bs ++ rest) = .ok (b, rest)
  short : ∀ fuel p, p <+: bs → p ≠ bs → p.length < fuel → readLoop eof step fuel s p = .error eof

theorem LoopReads.last (h : Reads eof (step s) bs (.inr b)) : @LoopReads ε β σ eof step s bs b where
  whole fuel rest hfuel := by
    obtain ⟨fuel, rfl⟩ := Nat.exists_eq_succ_of_ne_zero (Nat.ne_zero_of_lt hfuel)
    exact bind_of_ok (h.whole rest)
  short fuel p hp hne hfuel := by
    obtain ⟨fuel, rfl⟩ := Nat.exists_eq_succ_of_ne_zero (Nat.ne_zero_of_lt hfuel)
    exact bind_of_error (h.short p hp hne)

theorem LoopReads.more (h : Reads eof (step s) bs (.inl s')) (hbs : bs ≠ [])
    (hloop : @LoopReads ε β σ eof step s' cs b) : @LoopReads ε β σ eof step s (bs ++ cs) b where
  whole fuel rest hfuel := by
    have hpos := length_pos_iff.mpr hbs
    rw [length_append] at hfuel
    obtain ⟨fuel, rfl⟩ := Nat.exists_eq_succ_of_ne_zero (Nat.ne_zero_of_lt hfuel)
    rw [append_assoc]
    exact (bind_of_ok (h.whole _)).trans (hloop.whole fuel rest (by omega))
  short fuel p hp hne hfuel := by
    have hpos := length_pos_iff.mpr hbs
    obtain ⟨fuel, rfl⟩ := Nat.exists_eq_succ_of_ne_zero (Nat.ne_zero_of_lt hfuel)
    rcases front_append hp hne with ⟨hp, hne⟩ | ⟨q, rfl, hq, hne⟩
    · exact bind_of_error (h.short p hp hne)
    · rw [length_append] at hfuel
      exact (bind_of_ok (h.whole q)).trans (hloop.short fuel q hq hne (by omega))

theorem LoopReads.reads (h : @LoopReads ε β σ eof step s bs b) : Reads eof (readUntil eof step s) bs b where
  whole rest := h.whole _ rest (by rw [length_append]; omega)
  short p hp hne := h.short _ p hp hne (Nat.lt_succ_self _)

end Loop

end Kevy.Lib
