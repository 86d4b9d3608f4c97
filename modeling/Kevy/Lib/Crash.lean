import Mathlib.Data.List.Induction

/-!
# Programs that a crash can stop

A program is a list of steps over a state. A crash leaves the state behind some of the steps, or inside one of
them where a step is not atomic: `torn op k` is the state with `k` units of `op` done. An invariant that every
step keeps, also when torn, holds behind every crash.
-/

namespace Kevy.Lib

open List

section

variable {α σ : Type} (step : α → σ → σ) (torn : α → Nat → σ → σ)

def runAll (ops : List α) (s : σ) : σ := ops.foldl (fun s op => step op s) s

inductive Crashes : List α → σ → σ → Prop
  | here (ops : List α) (s : σ) : Crashes ops s s
  | during (op : α) (ops : List α) (s : σ) (k : Nat) : Crashes (op :: ops) s (torn op k s)
  | later {op : α} {ops : List α} {s t : σ} : Crashes ops (step op s) t → Crashes (op :: ops) s t

def Keeps (P : σ → Prop) (op : α) : Prop := ∀ s, P s → P (step op s) ∧ ∀ k, P (torn op k s)

end

section

variable {α σ : Type} {step : α → σ → σ} {torn : α → Nat → σ → σ} {P : σ → Prop} {xs ys : List α} {s t : σ}

@[simp] theorem runAll_nil : runAll step [] s = s := rfl

@[simp] theorem runAll_cons (op : α) : runAll step (op :: xs) s = runAll step xs (step op s) := rfl

@[simp] theorem runAll_append : runAll step (xs ++ ys) s = runAll step ys (runAll step xs s) := by
  simp [runAll]

theorem Crashes.behind : Crashes step torn (xs ++ ys) s (runAll step xs s) := by
  induction xs generalizing s with
  | nil => exact .here _ _
  | cons op xs ih => exact .later ih

theorem Crashes.all (xs : List α) (s : σ) : Crashes step torn xs s (runAll step xs s) := by
  have := @Crashes.behind α σ step torn xs [] s
  rwa [append_nil] at this

theorem Crashes.append (h : Crashes step torn (xs ++ ys) s t) :
    Crashes step torn xs s t ∨ Crashes step torn ys (runAll step xs s) t := by
  induction xs generalizing s with
  | nil => exact .inr h
  | cons op xs ih =>
    cases h with
    | here => exact .inl (.here _ _)
    | during k => exact .inl (.during _ _ _ _)
    | later h => exact (ih h).imp Crashes.later id

theorem Crashes.singleton {op : α} (h : Crashes step torn [op] s t) :
    t = s ∨ (∃ k, t = torn op k s) ∨ t = step op s := by
  cases h with
  | here => exact .inl rfl
  | during k => exact .inr (.inl ⟨_, rfl⟩)
  | later h =>
    cases h with
    | here => exact .inr (.inr rfl)

theorem runAll_keeps (hop : ∀ op ∈ xs, Keeps step torn P op) (hs : P s) : P (runAll step xs s) := by
  induction xs generalizing s with
  | nil => exact hs
  | cons op xs ih =>
    have hkeep := hop op mem_cons_self s hs
    exact ih (forall_mem_cons.mp hop).2 hkeep.1

theorem Crashes.keeps (hop : ∀ op ∈ xs, Keeps step torn P op) (h : Crashes step torn xs s t) (hs : P s) : P t := by
  induction h with
  | here => exact hs
  | during op ops s k => exact (hop op mem_cons_self s hs).2 k
  | @later op ops s t _ ih =>
    exact ih (forall_mem_cons.mp hop).2 (hop op mem_cons_self s hs).1

theorem runAll_range {n : Nat} {body : Nat → List α} {Q : Nat → σ → Prop}
    (hkeep : ∀ i < n, ∀ s, P s → P (runAll step (body i) s)) (hest : ∀ i < n, ∀ s, P s → Q i (runAll step (body i) s))
    (hstay : ∀ i < n, ∀ j, ∀ s, P s → Q j s → Q j (runAll step (body i) s)) (hs : P s) :
    P (runAll step ((List.range n).flatMap body) s) ∧
      ∀ i < n, Q i (runAll step ((List.range n).flatMap body) s) := by
  induction n with
  | zero => exact ⟨hs, fun i hi => absurd hi (Nat.not_lt_zero i)⟩
  | succ n ih =>
    obtain ⟨hP, hQ⟩ := ih (fun i hi => hkeep i (by omega)) (fun i hi => hest i (by omega))
      (fun i hi => hstay i (by omega))
    rw [range_succ, flatMap_append, runAll_append, flatMap_singleton]
    refine ⟨hkeep n (by omega) _ hP, fun i hi => ?_⟩
    rcases Nat.lt_succ_iff_lt_or_eq.mp hi with hlt | rfl
    · exact hstay n (by omega) i _ hP (hQ i hlt)
    · exact hest i (by omega) _ hP

end

end Kevy.Lib
