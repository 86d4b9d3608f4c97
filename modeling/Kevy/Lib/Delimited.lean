import Kevy.Lib.Incremental

/-!
# Self-delimiting items

`Delimits p f a` says that `f` is exactly one item for the incremental parser `p`: in front of anything
else it is read as `a` and nothing more is taken, and cut anywhere short the parser asks for more. Both
halves go through sequencing and counted repetition, together with a failure that nothing behind it mends
(`Settles`).
-/

namespace Kevy.Lib

open List

variable {β ε α γ : Type}

/-! ## Building parsers -/

def succeed (a : α) : IncParser β ε α := fun _ => .ok (some (a, 0))

def failWith (e : ε) : IncParser β ε α := fun _ => .error e

def andThen (p : IncParser β ε α) (q : α → IncParser β ε γ) : IncParser β ε γ := fun buf =>
  match p buf with
  | .error e => .error e
  | .ok none => .ok none
  | .ok (some (a, n)) => shift n (q a (buf.drop n))

def mapItem (f : α → γ) (p : IncParser β ε α) : IncParser β ε γ := fun buf =>
  (p buf).map (Option.map fun x => (f x.1, x.2))

def many (p : IncParser β ε α) : Nat → IncParser β ε (List α)
  | 0 => succeed []
  | n + 1 => andThen p fun a => mapItem (a :: ·) (many p n)

section
variable {p p' : IncParser β ε α} {q q' : α → IncParser β ε γ} {buf : List β}

theorem andThen_of_item {a : α} {n : Nat} (h : p buf = .ok (some (a, n))) :
    andThen p q buf = shift n (q a (buf.drop n)) := by
  rw [andThen, h]

theorem andThen_of_none (h : p buf = .ok none) : andThen p q buf = .ok none := by
  rw [andThen, h]

theorem andThen_of_error {e : ε} (h : p buf = .error e) : andThen p q buf = .error e := by
  rw [andThen, h]

theorem mapItem_of_item {f : α → γ} {a : α} {n : Nat} (h : p buf = .ok (some (a, n))) :
    mapItem f p buf = .ok (some (f a, n)) := by
  rw [mapItem, h]
  rfl

theorem mapItem_of_none {f : α → γ} (h : p buf = .ok none) : mapItem f p buf = .ok none := by
  rw [mapItem, h]
  rfl

theorem mapItem_of_error {f : α → γ} {e : ε} (h : p buf = .error e) : mapItem f p buf = .error e := by
  rw [mapItem, h]
  rfl

theorem andThen_eq_item {c : γ} {n : Nat} (h : andThen p q buf = .ok (some (c, n))) :
    ∃ a k m, p buf = .ok (some (a, k)) ∧ q a (buf.drop k) = .ok (some (c, m)) ∧ n = k + m := by
  rcases hp : p buf with e | _ | ⟨a, k⟩
  · rw [andThen_of_error hp] at h; cases h
  · rw [andThen_of_none hp] at h; cases h
  rw [andThen_of_item hp] at h
  rcases hq : q a (buf.drop k) with e | _ | ⟨c', m⟩
  · rw [hq] at h; cases h
  · rw [hq] at h; cases h
  · rw [hq, shift_some] at h
    cases h
    exact ⟨a, k, m, rfl, hq, rfl⟩

/-! ## Parsers that agree -/

theorem mapItem_congr {f : α → γ} (h : p buf = p' buf) : mapItem f p buf = mapItem f p' buf := by
  rw [mapItem, mapItem, h]

theorem andThen_congr (hp : p buf = p' buf)
    (hq : ∀ a n, p buf = .ok (some (a, n)) → q a (buf.drop n) = q' a (buf.drop n)) :
    andThen p q buf = andThen p' q' buf := by
  rw [andThen, andThen, ← hp]
  rcases h : p buf with e | _ | ⟨a, n⟩
  · rfl
  · rfl
  · simp only [hq a n h]

theorem many_congr (n : Nat) {buf : List β} (h : ∀ b, b.length ≤ buf.length → p b = p' b) :
    many p n buf = many p' n buf := by
  induction n generalizing buf with
  | zero => rfl
  | succ n ih =>
    refine andThen_congr (h buf (Nat.le_refl _)) fun a k _ => mapItem_congr (ih fun b hb => h b ?_)
    rw [length_drop] at hb
    omega

end

/-! ## Self-delimiting items -/

/-- `f` is exactly one item for `p`. -/
structure Delimits (p : IncParser β ε α) (f : List β) (a : α) : Prop where
  reads : ∀ rest, p (f ++ rest) = .ok (some (a, f.length))
  waits : ∀ {q r}, q ++ r = f → r ≠ [] → p q = .ok none

def Fails (p : IncParser β ε α) (f : List β) (e : ε) : Prop := ∀ rest, p (f ++ rest) = .error e

variable {p : IncParser β ε α} {f : List β}

theorem Stable.delimits (hp : Stable p) {a : α} (h : p f = .ok (some (a, f.length))) : Delimits p f a where
  reads := hp.item h
  waits {q r} hcut hr := by
    subst hcut
    have hpos := length_pos_iff.mpr hr
    rcases hq : p q with e | _ | ⟨b, n⟩
    · rw [hp.fail hq r] at h
      cases h
    · rfl
    · have hn := (hp.used hq).2
      rw [hp.item hq r] at h
      have hlen : n = (q ++ r).length := (Prod.mk.inj (Option.some.inj (Except.ok.inj h))).2
      rw [length_append] at hlen
      omega

theorem delimits_succeed (a : α) : Delimits (succeed a : IncParser β ε α) [] a where
  reads _ := rfl
  waits h hr := absurd (append_eq_nil_iff.mp h).2 hr

theorem Delimits.mapItem {a : α} (h : Delimits p f a) (g : α → γ) : Delimits (mapItem g p) f (g a) where
  reads rest := mapItem_of_item (h.reads rest)
  waits hf hr := mapItem_of_none (h.waits hf hr)

theorem cut_append {f g q r : List β} (h : q ++ r = f ++ g) :
    (∃ r', q ++ r' = f ∧ r' ≠ []) ∨ ∃ q', q = f ++ q' ∧ q' ++ r = g := by
  rcases append_eq_append_iff.mp h with ⟨a', hf, hr'⟩ | ⟨c', hq, hg⟩
  · by_cases ha : a' = []
    · right
      subst ha
      exact ⟨[], by simpa using hf.symm, by simpa using hr'⟩
    · exact .inl ⟨a', hf.symm, ha⟩
  · exact .inr ⟨c', hq, hg.symm⟩

theorem Delimits.andThen {q : α → IncParser β ε γ} {f g : List β} {a : α} {c : γ}
    (hp : Delimits p f a) (hq : Delimits (q a) g c) : Delimits (andThen p q) (f ++ g) c where
  reads rest := by
    have h := hp.reads (g ++ rest)
    rw [append_assoc, andThen_of_item h, drop_left, hq.reads, shift_some, length_append]
  waits hcut hr := by
    rcases cut_append hcut with ⟨r', hf, hr'⟩ | ⟨q', rfl, hg⟩
    · exact andThen_of_none (hp.waits hf hr')
    · rw [andThen_of_item (hp.reads q'), drop_left, hq.waits hg hr, shift_none]

theorem Delimits.andThen_succeed {q : α → IncParser β ε γ} {a : α} {c : γ} (hp : Delimits p f a)
    (hq : q a = succeed c) : Delimits (Lib.andThen p q) f c := by
  have h := hp.andThen (hq ▸ delimits_succeed c : Delimits (q a) [] c)
  rwa [append_nil] at h

/-! ## Failures -/

variable {e : ε}

theorem Fails.append (h : Fails p f e) (g : List β) : Fails p (f ++ g) e := by
  intro rest
  rw [append_assoc]
  exact h _

theorem Fails.mapItem (h : Fails p f e) (g : α → γ) : Fails (mapItem g p) f e := fun rest => mapItem_of_error (h rest)

theorem Fails.andThen (h : Fails p f e)
    (q : α → IncParser β ε γ) : Fails (andThen p q) f e := fun rest => andThen_of_error (h rest)

theorem andThen_fails {q : α → IncParser β ε γ} {f g : List β} {a : α}
    (hp : Delimits p f a) (hq : Fails (q a) g e) : Fails (andThen p q) (f ++ g) e := by
  intro rest
  rw [append_assoc, andThen_of_item (hp.reads (g ++ rest)), drop_left, hq rest, shift_error]

/-! ## Items that fail if they are bad -/

def Settles (p : IncParser β ε α) (e : ε) (bad : Prop) (f : List β) (a : α) : Prop :=
  ¬ bad ∧ Delimits p f a ∨ bad ∧ Fails p f e

section
variable {q : α → IncParser β ε γ} {g : List β} {a : α} {c : γ} {bad bad' : Prop}

theorem Delimits.settles (h : Delimits p f a) : Settles p e False f a := .inl ⟨not_false, h⟩

theorem Settles.delimits (h : Settles p e bad f a) (hbad : ¬ bad) : Delimits p f a :=
  (h.resolve_right fun hfail => hbad hfail.1).2

theorem Settles.mapItem (h : Settles p e bad f a) (m : α → γ) : Settles (mapItem m p) e bad f (m a) :=
  h.imp (And.imp_right fun h => h.mapItem m) (And.imp_right fun h => h.mapItem m)

theorem Delimits.andThen_settles (hp : Delimits p f a) (hq : Settles (q a) e bad g c) :
    Settles (Lib.andThen p q) e bad (f ++ g) c :=
  hq.imp (And.imp_right hp.andThen) (And.imp_right (andThen_fails hp))

theorem Settles.andThen (hp : Settles p e bad f a) (hq : Settles (q a) e bad' g c) :
    Settles (andThen p q) e (bad ∨ bad') (f ++ g) c := by
  rcases hp with ⟨hno, hp⟩ | ⟨hbad, hp⟩
  · rcases hp.andThen_settles hq with ⟨hno', h⟩ | ⟨hbad', h⟩
    · exact .inl ⟨not_or.mpr ⟨hno, hno'⟩, h⟩
    · exact .inr ⟨.inr hbad', h⟩
  · exact .inr ⟨.inl hbad, (hp.andThen q).append g⟩

end

theorem Settles.many {ι : Type} {xs : List ι} {bad : ι → Prop} {f : ι → List β} {a : ι → α}
    (h : ∀ x ∈ xs, Settles p e (bad x) (f x) (a x)) :
    Settles (many p xs.length) e (∃ x ∈ xs, bad x) (xs.flatMap f) (xs.map a) := by
  induction xs with
  | nil => exact .inl ⟨by simp, delimits_succeed []⟩
  | cons x xs ih =>
    have hrest := (ih (forall_mem_cons.mp h).2).mapItem (a x :: ·)
    simp only [mem_cons, exists_eq_or_imp, flatMap_cons]
    exact (h x mem_cons_self).andThen hrest

end Kevy.Lib
