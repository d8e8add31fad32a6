import Mathlib.Logic.Basic
import Mathlib.Data.List.Basic

/-!
# Machines that may get stuck

A step function `S → E → Option S` takes a state and an event to the next
state, or to none if the event cannot happen there or does not come back. `run`
folds it over a list of events. There are three rules: an invariant of the past
and the state that every step keeps holds after every run (`run_inv`, and
`run_preserves` for the state alone), one that only some steps keep holds after a
run made of such steps (`run_inv_of_allSteps`),
and a promise about the future that every step redeems lets the run go to its
end (`run_exists`). That some run leads from one state to another is `Reaches`, and
that a run passed a state, with only certain events after it, is `Since`.
-/

namespace Machine

variable {S E : Type} (step : S → E → Option S)

/-- The state after a list of events. -/
def run : S → List E → Option S
  | s, [] => some s
  | s, e :: es => (step s e).bind (fun s => run s es)

/-- The first event leads to a state from which the others happen. -/
theorem run_cons_eq_some {s s' : S} {e : E} {es : List E} :
    run step s (e :: es) = some s' ↔ ∃ s₁, step s e = some s₁ ∧ run step s₁ es = some s' :=
  Option.bind_eq_some_iff

/-- **The rule of invariants.** -/
theorem run_inv {P : List E → S → Prop}
    (hstep : ∀ past s e s', P past s → step s e = some s' → P (past ++ [e]) s')
    {past es : List E} {s s' : S} (h : P past s) (hrun : run step s es = some s') :
    P (past ++ es) s' := by
  induction es generalizing past s with
  | nil =>
    obtain rfl := Option.some.inj hrun
    rw [List.append_nil]
    exact h
  | cons e es ih =>
    obtain ⟨s₁, h₁, hrun⟩ := (run_cons_eq_some step).mp hrun
    rw [List.append_cons]
    exact ih (hstep past s e s₁ h h₁) hrun

/-- The rule for an invariant of the state alone. -/
theorem run_preserves {P : S → Prop} (hstep : ∀ s e s', P s → step s e = some s' → P s')
    {es : List E} {s s' : S} (h : P s) (hrun : run step s es = some s') : P s' :=
  @run_inv S E step (fun _ s => P s) (fun _ s e s' => hstep s e s') [] es s s' h hrun

/-- Two runs one after the other. -/
theorem run_append {s : S} {es₁ es₂ : List E} :
    run step s (es₁ ++ es₂) = (run step s es₁).bind (fun s => run step s es₂) := by
  induction es₁ generalizing s with
  | nil => rfl
  | cons e es₁ ih =>
    show (step s e).bind _ = ((step s e).bind _).bind _
    rw [Option.bind_assoc]
    exact congrArg _ (funext fun s₁ => ih)

/-- Some run leads from one state to the other. -/
def Reaches (s s' : S) : Prop := ∃ es, run step s es = some s'

variable {step} in
theorem Reaches.refl (s : S) : Reaches step s s := ⟨[], rfl⟩

variable {step} in
theorem Reaches.single {s s' : S} (e : E) (h : step s e = some s') : Reaches step s s' :=
  ⟨[e], (run_cons_eq_some step).mpr ⟨s', h, rfl⟩⟩

variable {step} in
theorem Reaches.trans {s s₁ s' : S} (h₁ : Reaches step s s₁) (h₂ : Reaches step s₁ s') :
    Reaches step s s' := by
  obtain ⟨es₁, h₁⟩ := h₁
  obtain ⟨es₂, h₂⟩ := h₂
  exact ⟨es₁ ++ es₂, by rw [run_append, h₁]; exact h₂⟩

/-- Every step of a run is taken in a state that allows it. -/
def AllSteps (G : S → E → Prop) : S → List E → Prop
  | _, [] => True
  | s, e :: es => G s e ∧ ∀ s' ∈ step s e, AllSteps G s' es

instance decidableAllSteps {G : S → E → Prop} [∀ s e, Decidable (G s e)] :
    ∀ s es, Decidable (AllSteps step G s es)
  | _, [] => isTrue trivial
  | s, e :: es =>
    have : DecidablePred (fun s' => AllSteps step G s' es) := fun s' => decidableAllSteps s' es
    inferInstanceAs (Decidable (G s e ∧ ∀ s' ∈ step s e, AllSteps step G s' es))

variable {step} in
/-- A condition on the events alone. -/
theorem allSteps_of_forall {G : E → Prop} {s : S} {es : List E} (h : ∀ e ∈ es, G e) :
    AllSteps step (fun _ e => G e) s es := by
  induction es generalizing s with
  | nil => trivial
  | cons e es ih =>
    refine ⟨h e (List.mem_cons_self), fun s' _ => ih (fun e' he' => ?_)⟩
    exact h e' (List.mem_cons_of_mem e he')

/-- **The rule of invariants for the steps a condition allows.** -/
theorem run_inv_of_allSteps {G : S → E → Prop} {P : S → Prop}
    (hstep : ∀ s e s', P s → G s e → step s e = some s' → P s')
    {es : List E} {s s' : S} (h : P s) (hG : AllSteps step G s es)
    (hrun : run step s es = some s') : P s' := by
  induction es generalizing s with
  | nil =>
    obtain rfl := Option.some.inj hrun
    exact h
  | cons e es ih =>
    obtain ⟨s₁, h₁, hrun⟩ := (run_cons_eq_some step).mp hrun
    exact ih (hstep s e s₁ h hG.1 h₁) (hG.2 s₁ h₁) hrun

/-- **The rule of invariants of the past and the state** for the steps a condition
allows. -/
theorem run_past_of_allSteps {G : S → E → Prop} {P : List E → S → Prop}
    (hstep : ∀ past s e s', P past s → G s e → step s e = some s' → P (past ++ [e]) s')
    {past es : List E} {s s' : S} (h : P past s) (hG : AllSteps step G s es)
    (hrun : run step s es = some s') : P (past ++ es) s' := by
  induction es generalizing past s with
  | nil =>
    obtain rfl := Option.some.inj hrun
    rw [List.append_nil]
    exact h
  | cons e es ih =>
    obtain ⟨s₁, h₁, hrun⟩ := (run_cons_eq_some step).mp hrun
    rw [List.append_cons]
    exact ih (hstep past s e s₁ h hG.1 h₁) (hG.2 s₁ h₁) hrun

/-- **A moment of a run**: it passed a state with `P`, and only events with `Q` have
happened since. -/
def Since (P : S → Prop) (Q : E → Prop) (s₀ : S) (es : List E) : Prop :=
  ∃ es₁ es₂ s, es = es₁ ++ es₂ ∧ run step s₀ es₁ = some s ∧ P s ∧ ∀ e ∈ es₂, Q e

section Since

variable {step} {P P' : S → Prop} {Q : E → Prop} {s₀ : S} {es : List E}

/-- The last moment. -/
theorem Since.now {s : S} (hrun : run step s₀ es = some s) (h : P s) :
    Since step P Q s₀ es :=
  ⟨es, [], s, (List.append_nil es).symm, hrun, h, fun _ he => absurd he List.not_mem_nil⟩

/-- One event later. -/
theorem Since.later (h : Since step P Q s₀ es) {e : E} (he : Q e) :
    Since step P Q s₀ (es ++ [e]) := by
  obtain ⟨es₁, es₂, s, rfl, hrun, hs, hes⟩ := h
  refine ⟨es₁, es₂ ++ [e], s, List.append_assoc es₁ es₂ [e], hrun, hs, fun e' he' => ?_⟩
  rcases List.mem_append.mp he' with he' | he'
  · exact hes e' he'
  · exact (List.mem_singleton.mp he') ▸ he

theorem Since.imp (h : Since step P Q s₀ es) (himp : ∀ s, P s → P' s) :
    Since step P' Q s₀ es := by
  obtain ⟨es₁, es₂, s, heq, hrun, hs, hes⟩ := h
  exact ⟨es₁, es₂, s, heq, hrun, himp s hs, hes⟩

end Since

/-- **The rule of progress.** -/
theorem run_exists {Q : List E → S → Prop}
    (hstep : ∀ e es s, Q (e :: es) s → ∃ s', step s e = some s' ∧ Q es s')
    {es : List E} {s : S} (h : Q es s) : ∃ s', run step s es = some s' := by
  induction es generalizing s with
  | nil => exact ⟨s, rfl⟩
  | cons e es ih =>
    obtain ⟨s₁, h₁, hQ⟩ := hstep e es s h
    obtain ⟨s', hs'⟩ := ih hQ
    exact ⟨s', (run_cons_eq_some step).mpr ⟨s₁, h₁, hs'⟩⟩

end Machine
