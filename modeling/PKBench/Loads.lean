import Mathlib.Data.List.Basic
import Mathlib.Data.Option.Basic

/-!
# Programs that read a changing state

A reader that takes no lock reads the state one load at a time, and between two
loads others may change it. Such a program is a function of what its loads find:
`load n` is the state as the `n`-th load of the run finds it, and the program
counts its loads. When nobody interferes all loads find the same state, and
`Returns m s a` says that the program then ends with `a`; there is one rule for
each way of putting programs together. Under interference `load` is the state at
times that only go forward, and a run is read off `bind_apply` load by load.
-/

namespace Loads

variable {S α β : Type}

/-- **A program of loads**: from what each load finds and the number of loads made
so far, the result and the number of loads made then. It may not end. -/
def Prog (S α : Type) : Type := (ℕ → S) → ℕ → Option (α × ℕ)

instance : Monad (Prog S) where
  pure a := fun _ n => some (a, n)
  bind m k := fun load n => (m load n).bind (fun r => k r.1 load r.2)

/-- One load of a part of the state. -/
def look (f : S → α) : Prog S α := fun load n => some (f (load n), n + 1)

/-- The program that does not end. -/
def stuck : Prog S α := fun _ _ => none

@[simp] theorem pure_apply (a : α) (load : ℕ → S) (n : ℕ) :
    (pure a : Prog S α) load n = some (a, n) := rfl

@[simp] theorem bind_apply (m : Prog S α) (k : α → Prog S β) (load : ℕ → S) (n : ℕ) :
    (m >>= k) load n = (m load n).bind (fun r => k r.1 load r.2) := rfl

@[simp] theorem look_apply (f : S → α) (load : ℕ → S) (n : ℕ) :
    look f load n = some (f (load n), n + 1) := rfl

/-! ## Nobody interferes -/

/-- The result of a program when all loads find the same state. -/
def atomically (m : Prog S α) (s : S) : Option α := (m (fun _ => s) 0).map Prod.fst

/-- The program ends with this result when all loads find this state. -/
def Returns (m : Prog S α) (s : S) (a : α) : Prop :=
  ∀ n, ∃ n', m (fun _ => s) n = some (a, n')

theorem Returns.pure (s : S) (a : α) : Returns (Pure.pure a) s a := fun n => ⟨n, rfl⟩

theorem Returns.look (f : S → α) (s : S) : Returns (look f) s (f s) := fun n => ⟨n + 1, rfl⟩

theorem Returns.bind {m : Prog S α} {k : α → Prog S β} {s : S} {a : α} {b : β}
    (hm : Returns m s a) (hk : Returns (k a) s b) : Returns (m >>= k) s b := by
  intro n
  obtain ⟨n₁, h₁⟩ := hm n
  obtain ⟨n₂, h₂⟩ := hk n₁
  refine ⟨n₂, ?_⟩
  rw [bind_apply, h₁]
  exact h₂

/-- A load followed by the rest. -/
theorem Returns.look_bind {f : S → α} {k : α → Prog S β} {s : S} {b : β}
    (hk : Returns (k (f s)) s b) : Returns (Loads.look f >>= k) s b :=
  Returns.bind (Returns.look f s) hk

theorem Returns.atomically {m : Prog S α} {s : S} {a : α} (h : Returns m s a) :
    Loads.atomically m s = some a := by
  obtain ⟨n', h⟩ := h 0
  unfold Loads.atomically
  rw [h]
  rfl

end Loads
