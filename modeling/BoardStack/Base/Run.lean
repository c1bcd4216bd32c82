/-
Loops of a condition and a body, finite runs of a component, contracts for it, and
the one induction every run-level result of this development goes through.

`loop cond body n s` goes round at most `n` times. With a measure that every
round makes smaller, and `n` no less than the measure, it is the loop itself:
it ends because the condition fails, and more rounds change nothing. Two loops
that keep a relation between their states under which they go on together are
related at their ends, whatever bounds they were given.

A component is a function `step : σ → ι → Option (ο × σ)`: an input either
yields an output and a next state, or faults (`none`) — a wild pointer, a
`BUG()`, a loop that does not end. A `Contract` says over abstract states
what callers promise of an input, what the output must be, and how the
abstract state moves. `run_refines` turns a step-wise refinement into a
run-wise one: on every input list callers may send, the component does not
fault, its outputs are the contract's, and its end state represents the
contract's end state. Every prefix of a run is a run, so what holds of end
states holds of every state reached. `run_invariant` is the form for
components whose callers look at the state itself, and whose results are
about what was sent before.
-/
import Mathlib.Order.Basic
import Mathlib.Tactic.Common

namespace BoardStack.Base

universe u v w x

variable {σ : Type u} {τ : Type v} {ι : Type w} {ο : Type x}

-- == loops

/-- At most `n` rounds. -/
def loop (cond : σ → Bool) (body : σ → σ) : Nat → σ → σ
  | 0, s => s
  | n + 1, s => if cond s then loop cond body n (body s) else s

section

variable {cond : σ → Bool} {body : σ → σ} {n n' : Nat} {s : σ}

lemma loop_of_false (h : cond s = false) : loop cond body n s = s := by
  cases n with
  | zero => rfl
  | succ n =>
    unfold loop
    rw [h]
    rfl

lemma loop_succ (h : cond s = true) : loop cond body (n + 1) s = loop cond body n (body s) := by
  rw [loop, if_pos h]

lemma loop_invariant (I : σ → Prop) (hstep : ∀ s, I s → cond s = true → I (body s)) (h : I s) :
    I (loop cond body n s) := by
  induction n generalizing s with
  | zero => exact h
  | succ n ih =>
    cases hc : cond s with
    | false =>
      rw [loop_of_false hc]
      exact h
    | true =>
      rw [loop_succ hc]
      exact ih (hstep s h hc)

variable (μ : σ → Nat) (hμ : ∀ s, cond s = true → μ (body s) < μ s)
include hμ

lemma loop_done (hn : μ s ≤ n) : cond (loop cond body n s) = false := by
  induction n generalizing s with
  | zero =>
    cases hc : cond s with
    | false => exact hc
    | true =>
      have hlt := hμ s hc
      omega
  | succ n ih =>
    cases hc : cond s with
    | false =>
      rw [loop_of_false hc]
      exact hc
    | true =>
      have hlt := hμ s hc
      rw [loop_succ hc]
      exact ih (by omega)

end

/-- Two loops side by side. -/
theorem loop_rel {cond : σ → Bool} {body : σ → σ} {cond' : τ → Bool} {body' : τ → τ} (μ : σ → Nat)
    (μ' : τ → Nat) {R : σ → τ → Prop} (hμ : ∀ s, cond s = true → μ (body s) < μ s)
    (hμ' : ∀ t, cond' t = true → μ' (body' t) < μ' t) (hcond : ∀ s t, R s t → cond' t = cond s)
    (hbody : ∀ s t, R s t → cond s = true → R (body s) (body' t)) {n n' : Nat} {s : σ} {t : τ}
    (hn : μ s ≤ n) (hn' : μ' t ≤ n') (h : R s t) :
    R (loop cond body n s) (loop cond' body' n' t) := by
  induction n generalizing n' s t with
  | zero =>
    have hc : cond s = false := loop_done (n := 0) μ hμ hn
    rw [loop_of_false hc, loop_of_false ((hcond s t h).trans hc)]
    exact h
  | succ n ih =>
    cases hc : cond s with
    | false =>
      rw [loop_of_false hc, loop_of_false ((hcond s t h).trans hc)]
      exact h
    | true =>
      have hc' := (hcond s t h).trans hc
      have hlt := hμ s hc
      have hlt' := hμ' t hc'
      obtain ⟨k, rfl⟩ : ∃ k, n' = k + 1 := ⟨n' - 1, by omega⟩
      rw [loop_succ hc, loop_succ hc']
      exact ih (by omega) (by omega) (hbody s t h hc)

open List

-- == runs

/-- Feed a list of inputs to a step function, collecting the outputs. -/
def run (step : σ → ι → Option (ο × σ)) : σ → List ι → Option (List ο × σ)
  | s, [] => some ([], s)
  | s, i :: is =>
    match step s i with
    | none => none
    | some (o, s') =>
      match run step s' is with
      | none => none
      | some (os, s'') => some (o :: os, s'')

-- == contracts

/-- What callers promise, what they are promised, and how the abstract
state moves. -/
structure Contract (τ : Type v) (ι : Type w) (ο : Type x) where
  pre : τ → ι → Prop
  out : τ → ι → ο → Prop
  next : τ → ι → τ

/-- Every input of the list meets its precondition when it is sent. -/
def Contract.Allowed (c : Contract τ ι ο) : τ → List ι → Prop
  | _, [] => True
  | t, i :: is => c.pre t i ∧ c.Allowed (c.next t i) is

/-- The outputs are, one by one, the ones the contract allows. -/
def Contract.Outputs (c : Contract τ ι ο) : τ → List ι → List ο → Prop
  | _, [], [] => True
  | t, i :: is, o :: os => c.out t i o ∧ c.Outputs (c.next t i) is os
  | _, _, _ => False

/-- The abstract state a list of inputs leads to. -/
def Contract.final (c : Contract τ ι ο) (t : τ) (is : List ι) : τ := is.foldl c.next t

variable {c : Contract τ ι ο}

/-- What callers promise of every input, whatever the state. -/
lemma Contract.allowed_of_forall {is : List ι}
    (h : ∀ i ∈ is, ∀ t, c.pre t i) (t : τ) : c.Allowed t is := by
  induction is generalizing t with
  | nil => trivial
  | cons i is ih =>
    exact ⟨h i mem_cons_self t, ih (fun j hj => h j (mem_cons_of_mem i hj)) (c.next t i)⟩

variable {step : σ → ι → Option (ο × σ)}

lemma run_refines {R : σ → τ → Prop} (hstep : ∀ s t i, R s t → c.pre t i →
      ∃ o s', step s i = some (o, s') ∧ c.out t i o ∧ R s' (c.next t i)) :
    ∀ (is : List ι) (s : σ) (t : τ), R s t → c.Allowed t is →
      ∃ os s', run step s is = some (os, s') ∧ c.Outputs t is os ∧ R s' (c.final t is) := by
  intro is
  induction is with
  | nil =>
    intro s t hR _
    exact ⟨[], s, rfl, trivial, hR⟩
  | cons i is ih =>
    intro s t hR hok
    obtain ⟨o, s1, hs, ho, hR1⟩ := hstep s t i hR hok.1
    obtain ⟨os, s', hr, hos, hR'⟩ := ih s1 (c.next t i) hR1 hok.2
    refine ⟨o :: os, s', ?_, ⟨ho, hos⟩, hR'⟩
    simp only [run, hs, hr]

-- == histories

/-- Every input meets its precondition in the state it is sent in, given
what was sent before, newest first. -/
def Permitted (step : σ → ι → Option (ο × σ))
    (pre : List ι → σ → ι → Prop) : List ι → σ → List ι → Prop
  | _, _, [] => True
  | past, s, i :: is =>
    pre past s i ∧ ∀ o s', step s i = some (o, s') → Permitted step pre (i :: past) s' is

/-- An invariant of state and history that every step keeps is kept by every
run, and no run faults. -/
lemma run_invariant {pre : List ι → σ → ι → Prop} {out : ι → ο → Prop} {Inv : List ι → σ → Prop}
    (hstep : ∀ past s i, Inv past s → pre past s i →
      ∃ o s', step s i = some (o, s') ∧ out i o ∧ Inv (i :: past) s') :
    ∀ (is past : List ι) (s : σ), Inv past s → Permitted step pre past s is →
      ∃ os s', run step s is = some (os, s') ∧ List.Forall₂ out is os ∧
        Inv (is.reverse ++ past) s' := by
  intro is
  induction is with
  | nil =>
    intro past s hinv _
    exact ⟨[], s, rfl, .nil, hinv⟩
  | cons i is ih =>
    intro past s hinv hok
    obtain ⟨o, s1, hs, ho, hinv1⟩ := hstep past s i hinv hok.1
    obtain ⟨os, s', hr, hos, hinv'⟩ := ih (i :: past) s1 hinv1 (hok.2 o s1 hs)
    refine ⟨o :: os, s', ?_, .cons ho hos, ?_⟩
    · simp only [run, hs, hr]
    · rw [reverse_cons, append_assoc, singleton_append]
      exact hinv'

variable {I : List ι → σ → Prop}

/-- For a component that never faults: what every step keeps, of the inputs so
far (newest first) and the state. -/
lemma foldl_invariant {step : σ → ι → σ}
    (hstep : ∀ past s i, I past s → I (i :: past) (step s i)) :
    ∀ (is past : List ι) (s : σ), I past s → I (is.reverse ++ past) (is.foldl step s) := by
  intro is
  induction is with
  | nil =>
    intro past s hinv
    exact hinv
  | cons i is ih =>
    intro past s hinv
    rw [foldl_cons, reverse_cons, append_assoc]
    exact ih (i :: past) (step s i) (hstep past s i hinv)

-- == traces

/-- For a component whose steps are labelled, and only defined where they are
enabled: what every enabled step keeps, of the labels so far (newest first)
and the state, holds after every trace. -/
lemma trace_invariant {step : σ → ι → Option σ}
    (hstep : ∀ past s i s', I past s → step s i = some s' → I (i :: past) s') :
    ∀ (is past : List ι) (s s' : σ), I past s →
      is.foldlM step s = some s' → I (is.reverse ++ past) s' := by
  intro is
  induction is with
  | nil =>
    intro past s s' hinv hrun
    obtain rfl : s = s' := Option.some.inj hrun
    exact hinv
  | cons i is ih =>
    intro past s s' hinv hrun
    obtain ⟨s1, hs, hrest⟩ := Option.bind_eq_some_iff.mp hrun
    rw [reverse_cons, append_assoc]
    exact ih (i :: past) s1 s' (hstep past s i s1 hinv hs) hrest

end BoardStack.Base
