/-
Cheritest/Lib/Transition.lean

Transition systems, what holds in every reachable state, and what carries
over from one system to another that simulates it.
-/
import Mathlib.Logic.Relation

/-- A transition system: where it may start and how it moves. -/
structure System (σ : Type*) where
  init : σ → Prop
  step : σ → σ → Prop

namespace System

variable {σ τ : Type*}

/-- Runs of a system, of any length. -/
def Run (S : System σ) : σ → σ → Prop := Relation.ReflTransGen S.step

/-- States that some run from an initial state comes to. -/
def Reachable (S : System σ) (s : σ) : Prop := ∃ s₀, S.init s₀ ∧ S.Run s₀ s

section invariants
variable {S : System σ} {s s' : σ} {I : σ → Prop}

theorem Reachable.init (h : S.init s) : S.Reachable s := ⟨s, h, .refl⟩

theorem Reachable.run (h : S.Reachable s) (hr : S.Run s s') : S.Reachable s' := by
  obtain ⟨s₀, h₀, hr₀⟩ := h
  exact ⟨s₀, h₀, hr₀.trans hr⟩

theorem Reachable.step (h : S.Reachable s) (hs : S.step s s') : S.Reachable s' :=
  h.run (.single hs)

/-- What a step preserves, a run preserves. -/
theorem Run.invariant (hstep : ∀ {s s'}, I s → S.step s s' → I s') (hr : S.Run s s') (h : I s) :
    I s' := by
  induction hr with
  | refl => exact h
  | tail _ hs ih => exact hstep ih hs

/-- What holds initially and is preserved by every step holds in every
reachable state. -/
theorem Reachable.invariant (hinit : ∀ {s}, S.init s → I s)
    (hstep : ∀ {s s'}, I s → S.step s s' → I s') (h : S.Reachable s) : I s := by
  obtain ⟨s₀, h₀, hr⟩ := h
  exact hr.invariant hstep (hinit h₀)

end invariants

/-! ### Simulation -/

/-- Every step of `C` from a state related to one of `A` is matched by a run
of `A` to a related state. -/
structure Simulates (C : System σ) (A : System τ) (R : σ → τ → Prop) : Prop where
  init : ∀ {c}, C.init c → ∃ a, A.init a ∧ R c a
  step : ∀ {c c' a}, R c a → C.step c c' → ∃ a', A.Run a a' ∧ R c' a'

namespace Simulates

variable {C : System σ} {A : System τ} {R : σ → τ → Prop} {c c' : σ} {a : τ}

theorem run (h : Simulates C A R) (hR : R c a) (hr : C.Run c c') : ∃ a', A.Run a a' ∧ R c' a' := by
  induction hr with
  | refl => exact ⟨a, .refl, hR⟩
  | tail _ hs ih =>
    obtain ⟨a₁, hr₁, hR₁⟩ := ih
    obtain ⟨a₂, hr₂, hR₂⟩ := h.step hR₁ hs
    exact ⟨a₂, hr₁.trans hr₂, hR₂⟩

theorem reachable (h : Simulates C A R) (hc : C.Reachable c) : ∃ a, A.Reachable a ∧ R c a := by
  obtain ⟨c₀, hc₀, hr⟩ := hc
  obtain ⟨a₀, ha₀, hR₀⟩ := h.init hc₀
  obtain ⟨a, ha, hR⟩ := h.run hR₀ hr
  exact ⟨a, ⟨a₀, ha₀, ha⟩, hR⟩

end Simulates

end System

/-! ### Steps that may fail -/

/-- What every step keeps, a fold keeps. -/
theorem foldlM_keeps {α β ε : Type} {f : β → α → Except ε β} {P : β → Prop} {l : List α}
    (hstep : ∀ a ∈ l, ∀ {b b'}, P b → f b a = .ok b' → P b') {b b' : β} (hb : P b)
    (h : l.foldlM f b = .ok b') : P b' := by
  induction l generalizing b with
  | nil =>
    cases h
    exact hb
  | cons a l ih =>
    rw [List.foldlM_cons] at h
    rcases hfirst : f b a with e | c
    · rw [hfirst] at h
      cases h
    · rw [hfirst] at h
      exact ih (fun x hx => hstep x (List.mem_cons_of_mem a hx)) (hstep a List.mem_cons_self hb hfirst) h
