import Mathlib.Logic.Function.Basic
import SDownload.Lib.Run

/-!
# SDownload.Lib.Interleaving

Components that take turns on something they share: each has a state of its own,
with a view of the shared part in it, and one of them moves at a time.

`reaches_parts` is the rule of rely and guarantee. What every component keeps in its
own steps, and what no step of another component can break, holds of all of them in
every state that any interleaving reaches.
-/

variable {ι σ φ ε ο : Type*} [DecidableEq ι]

/-- The shared part, and the state of each component; the view in it is out of date. -/
structure Together (ι σ φ : Type*) where
  shared : φ
  part : ι → σ

namespace Together

/-- The state of a component, with what is shared put in. -/
def view (put : φ → σ → σ) (s : Together ι σ φ) (i : ι) : σ := put s.shared (s.part i)

/-- A component takes a step. -/
def step (get : σ → φ) (put : φ → σ → σ) (stepOf : ι → σ → ε → Option (σ × List ο))
    (s : Together ι σ φ) (e : ι × ε) : Option (Together ι σ φ × List (ι × ο)) :=
  (stepOf e.1 (s.view put e.1) e.2).map fun result =>
    (⟨get result.1, Function.update s.part e.1 result.1⟩, result.2.map fun out => (e.1, out))

/-- What a component may do, by what it would be allowed alone. -/
def guard (put : φ → σ → σ) (allowed : ι → σ → ε → Prop) (s : Together ι σ φ) (e : ι × ε) : Prop :=
  allowed e.1 (s.view put e.1) e.2

instance (put : φ → σ → σ) (allowed : ι → σ → ε → Prop) [∀ i x e, Decidable (allowed i x e)]
    (s : Together ι σ φ) (e : ι × ε) : Decidable (s.guard put allowed e) :=
  inferInstanceAs (Decidable (allowed _ _ _))

variable {get : σ → φ} {put : φ → σ → σ} {stepOf : ι → σ → ε → Option (σ × List ο)}
  {s s' : Together ι σ φ} {i : ι} {e : ε} {outs : List (ι × ο)}

theorem step_eq (h : step get put stepOf s (i, e) = some (s', outs)) :
    ∃ next out, stepOf i (s.view put i) e = some (next, out) ∧
      s' = ⟨get next, Function.update s.part i next⟩ ∧ outs = out.map fun o => (i, o) := by
  obtain ⟨⟨next, out⟩, hnext, heq⟩ := Option.map_eq_some_iff.mp h
  obtain ⟨rfl, rfl⟩ := Prod.mk.inj heq
  exact ⟨next, out, hnext, rfl, rfl⟩

/-- What is shared is a field of every component. -/
structure Lens (get : σ → φ) (put : φ → σ → σ) : Prop where
  put_get : ∀ x, put (get x) x = x
  get_put : ∀ a x, get (put a x) = a
  put_put : ∀ a b x, put a (put b x) = put a x

variable {allowed : ι → σ → ε → Prop} {inv : ι → σ → Prop} {guarantee : ι → φ → φ → Prop}

/-- One step of one component. -/
theorem step_parts (lens : Lens get put)
    (hkeeps : ∀ i x e x' out, inv i x → allowed i x e → stepOf i x e = some (x', out) →
      inv i x' ∧ guarantee i (get x) (get x'))
    (hrely : ∀ i j x a, j ≠ i → inv i x → guarantee j (get x) a → inv i (put a x))
    (hinv : ∀ i, inv i (s.view put i)) (hallowed : allowed i (s.view put i) e)
    (h : step get put stepOf s (i, e) = some (s', outs)) : ∀ j, inv j (s'.view put j) := by
  obtain ⟨next, out, hnext, rfl, -⟩ := step_eq h
  obtain ⟨hself, hguarantee⟩ := hkeeps i _ e next out (hinv i) hallowed hnext
  have hshared : ∀ j, get (s.view put j) = s.shared := fun j => lens.get_put _ _
  intro j
  by_cases hj : j = i
  · subst hj
    show inv j (put (get next) (Function.update s.part j next j))
    rw [Function.update_self, lens.put_get]
    exact hself
  · show inv j (put (get next) (Function.update s.part i next j))
    rw [Function.update_of_ne hj, ← lens.put_put (get next) s.shared]
    refine hrely j i _ _ (Ne.symm hj) (hinv j) ?_
    show guarantee i (get (s.view put j)) (get next)
    rw [hshared j, ← hshared i]
    exact hguarantee

/-- **Rely and guarantee.** -/
theorem reaches_parts (guarantee : ι → φ → φ → Prop) {start : Together ι σ φ} (lens : Lens get put)
    (hkeeps : ∀ i x e x' out, inv i x → allowed i x e → stepOf i x e = some (x', out) →
      inv i x' ∧ guarantee i (get x) (get x'))
    (hrely : ∀ i j x a, j ≠ i → inv i x → guarantee j (get x) a → inv i (put a x))
    (hstart : ∀ i, inv i (start.view put i))
    (h : Reaches (step get put stepOf) (guard put allowed) start s) :
    ∀ i, inv i (s.view put i) :=
  h.invariant hstart fun hinv hallowed hmove => step_parts lens hkeeps hrely hinv hallowed hmove

end Together
