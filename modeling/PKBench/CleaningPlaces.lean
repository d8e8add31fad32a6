import PKBench.CleaningLog
import Mathlib.Data.List.Nodup
import Mathlib.Algebra.Order.Group.Nat

/-!
# Where the segments are

A segment is free, or some worker's, or a cleaner's to append to, to keep in
reserve or to go through, or it is closed and waits to be picked – one of
these at a time, and its status in the pool says which kind of place it is in
(`Places`). A step moves at most one segment, or two one after the other, so
each step is brought under one of two rules: nothing moves (`Places.stay`), or
one segment does (`Places.move`).
-/

namespace CleaningLog

variable {σ σ' : Sys}

/-- The places of a segment. -/
inductive Place where
  | free
  | head (w : ℕ)
  | closed (j : ℕ)
  | reserved (j : ℕ)
  | backup (j : ℕ)
  | victim (j : ℕ)
  deriving DecidableEq

/-- The status of a segment in a place. -/
def Place.status : Place → SegmentStatus
  | .free => .available
  | .head _ => .inUse
  | .closed _ => .closed
  | .reserved _ => .inUse
  | .backup _ => .available
  | .victim _ => .closed

/-- A segment is in a place. -/
def Sys.At (σ : Sys) : Place → ℕ → Prop
  | .free, s => s ∈ σ.log.freeSegments
  | .head w, s => σ.head w = some s
  | .closed j, s => s ∈ σ.log.closedSegments j
  | .reserved j, s => σ.log.reserved j = some s
  | .backup j, s => σ.log.backup j = some s
  | .victim j, s => (σ.phase j).victim = some s

/-- **Every segment is in at most one place, which tells its status.** -/
structure Places (σ : Sys) : Prop where
  cleaners : 0 < σ.log.numCleaners
  unique : ∀ p q s, σ.At p s → σ.At q s → p = q
  status : ∀ p s, σ.At p s → (σ.log.segments s).status = p.status
  bound : ∀ p s, σ.At p s → s < σ.log.numSegments
  freeNodup : σ.log.freeSegments.Nodup
  closedNodup : ∀ j, (σ.log.closedSegments j).Nodup

/-- Nothing moves. -/
theorem Places.stay (h : Places σ)
    (hat : ∀ p s, σ'.At p s → σ.At p s)
    (hstatus : ∀ s, (σ'.log.segments s).status = (σ.log.segments s).status)
    (hnum : σ'.log.numSegments = σ.log.numSegments ∧ σ'.log.numCleaners = σ.log.numCleaners)
    (hfree : σ'.log.freeSegments.Nodup) (hclosed : ∀ j, (σ'.log.closedSegments j).Nodup) :
    Places σ' where
  cleaners := by rw [hnum.2]; exact h.cleaners
  unique p q s hp hq := h.unique p q s (hat p s hp) (hat q s hq)
  status p s hp := by rw [hstatus]; exact h.status p s (hat p s hp)
  bound p s hp := by rw [hnum.1]; exact h.bound p s (hat p s hp)
  freeNodup := hfree
  closedNodup := hclosed

/-- **One segment moves** from a place to another, and gets the status that goes
with it. -/
theorem Places.move (h : Places σ) {t : ℕ} (src dest : Place) (hsrc : σ.At src t)
    (hat : ∀ p s, σ'.At p s → (p = dest ∧ s = t) ∨ (σ.At p s ∧ (p = src → s ≠ t)))
    (ht : (σ'.log.segments t).status = dest.status)
    (hstatus : ∀ s, s ≠ t → (σ'.log.segments s).status = (σ.log.segments s).status)
    (hnum : σ'.log.numSegments = σ.log.numSegments ∧ σ'.log.numCleaners = σ.log.numCleaners)
    (hfree : σ'.log.freeSegments.Nodup) (hclosed : ∀ j, (σ'.log.closedSegments j).Nodup) :
    Places σ' := by
  -- whatever stays where it was is another segment
  have hstay : ∀ p s, σ'.At p s → (p = dest ∧ s = t) ∨ (σ.At p s ∧ s ≠ t) := by
    intro p s hp
    rcases hat p s hp with hmoved | ⟨hp', hne⟩
    · exact Or.inl hmoved
    · refine Or.inr ⟨hp', fun he => ?_⟩
      exact hne (h.unique p src s hp' (he ▸ hsrc)) he
  refine ⟨by rw [hnum.2]; exact h.cleaners, fun p q s hp hq => ?_, fun p s hp => ?_,
    fun p s hp => ?_, hfree, hclosed⟩
  · rcases hstay p s hp with ⟨rfl, rfl⟩ | ⟨hp', hs⟩
    · rcases hstay q s hq with ⟨rfl, -⟩ | ⟨-, hs⟩
      · rfl
      · exact absurd rfl hs
    · rcases hstay q s hq with ⟨-, rfl⟩ | ⟨hq', -⟩
      · exact absurd rfl hs
      · exact h.unique p q s hp' hq'
  · rcases hstay p s hp with ⟨rfl, rfl⟩ | ⟨hp', hs⟩
    · exact ht
    · rw [hstatus s hs]
      exact h.status p s hp'
  · rw [hnum.1]
    rcases hstay p s hp with ⟨-, rfl⟩ | ⟨hp', -⟩
    · exact h.bound src _ hsrc
    · exact h.bound p s hp'

/-! ## The steps -/

theorem update_eq_some {ι β : Type} [DecidableEq ι] {f : ι → Option β} {i j : ι} {x : Option β}
    {y : β} (h : Function.update f i x j = some y) :
    (j = i ∧ x = some y) ∨ (j ≠ i ∧ f j = some y) := by
  by_cases hj : j = i
  · subst hj
    rw [Function.update_self] at h
    exact Or.inl ⟨rfl, h⟩
  · rw [Function.update_of_ne hj] at h
    exact Or.inr ⟨hj, h⟩

/-- A phase after one cleaner has got a new one. -/
theorem victim_update {phase : ℕ → Phase} {i j s : ℕ} {ph : Phase}
    (h : (Function.update phase i ph j).victim = some s) :
    (j = i ∧ ph.victim = some s) ∨ (j ≠ i ∧ (phase j).victim = some s) := by
  by_cases hj : j = i
  · subst hj
    rw [Function.update_self] at h
    exact Or.inl ⟨rfl, h⟩
  · rw [Function.update_of_ne hj] at h
    exact Or.inr ⟨hj, h⟩

theorem status_update_self (segments : ℕ → LogSegment LogItem) (t : ℕ)
    (seg : LogSegment LogItem) : (Function.update segments t seg t).status = seg.status := by
  rw [Function.update_self]

theorem status_update_of_ne (segments : ℕ → LogSegment LogItem) {s t : ℕ}
    (seg : LogSegment LogItem) (h : s ≠ t) :
    (Function.update segments t seg s).status = (segments s).status := by
  rw [Function.update_of_ne h]

theorem places_init {numSegments numCleaners : ℕ} (hc : 0 < numCleaners)
    (pool : ℕ → SegmentImage LogItem) : Places (Sys.init numSegments numCleaners pool) := by
  -- in a new store segments are free, or the first of a cleaner
  have hat : ∀ p s, (Sys.init numSegments numCleaners pool).At p s →
      (p = .free ∧ s < numSegments - numCleaners)
        ∨ ∃ j, p = .reserved j ∧ s = numSegments - numCleaners + j ∧ s < numSegments := by
    intro p s hp
    cases p with
    | free => exact Or.inl ⟨rfl, List.mem_range.mp hp⟩
    | head w => cases hp
    | closed j => cases hp
    | reserved j =>
      change (if numSegments - numCleaners + j < numSegments then
        some (numSegments - numCleaners + j) else none) = some s at hp
      by_cases hj : numSegments - numCleaners + j < numSegments
      · rw [if_pos hj] at hp
        obtain rfl := Option.some.inj hp
        exact Or.inr ⟨j, rfl, rfl, hj⟩
      · rw [if_neg hj] at hp
        cases hp
    | backup j => cases hp
    | victim j => cases hp
  refine ⟨hc, fun p q s hp hq => ?_, fun p s hp => ?_, fun p s hp => ?_, List.nodup_range,
    fun _ => List.nodup_nil⟩
  · rcases hat p s hp with ⟨rfl, hlt⟩ | ⟨i, rfl, rfl, -⟩
    · rcases hat q s hq with ⟨rfl, -⟩ | ⟨j, rfl, rfl, -⟩
      · rfl
      · omega
    · rcases hat q _ hq with ⟨rfl, hlt⟩ | ⟨j, rfl, he, -⟩
      · omega
      · rw [Nat.add_left_cancel he]
  · show (if _ then _ else _ : LogSegment LogItem).status = _
    rcases hat p s hp with ⟨rfl, hlt⟩ | ⟨j, rfl, rfl, hlt⟩
    · rw [if_neg (by omega)]
      rfl
    · rw [if_pos ⟨Nat.le_add_right _ _, hlt⟩]
      rfl
  · rcases hat p s hp with ⟨-, hlt⟩ | ⟨j, -, -, hlt⟩
    · exact Nat.lt_of_lt_of_le hlt (Nat.sub_le _ _)
    · exact hlt

theorem Places.take (h : Places σ) {w : ℕ} (hstep : take σ w = some σ') : Places σ' := by
  obtain ⟨-, s, rest, hfree, rfl⟩ := take_eq_some hstep
  have hnodup := h.freeNodup
  rw [hfree] at hnodup
  obtain ⟨hnot, hrest⟩ := List.nodup_cons.mp hnodup
  have hsrc : σ.At .free s := by
    show s ∈ σ.log.freeSegments
    rw [hfree]
    exact List.mem_cons_self
  refine h.move .free (.head w) hsrc (fun p t hp => ?_) (status_update_self _ _ _)
    (fun t ht => status_update_of_ne _ _ ht) ⟨rfl, rfl⟩ hrest h.closedNodup
  cases p with
  | free =>
    have ht : t ∈ rest := hp
    refine Or.inr ⟨?_, fun _ he => hnot (he ▸ ht)⟩
    show t ∈ σ.log.freeSegments
    rw [hfree]
    exact List.mem_cons_of_mem s ht
  | head u =>
    rcases update_eq_some hp with ⟨rfl, he⟩ | ⟨-, hu⟩
    · exact Or.inl ⟨rfl, (Option.some.inj he).symm⟩
    · exact Or.inr ⟨hu, Place.noConfusion⟩
  | closed j => exact Or.inr ⟨hp, Place.noConfusion⟩
  | reserved j => exact Or.inr ⟨hp, Place.noConfusion⟩
  | backup j => exact Or.inr ⟨hp, Place.noConfusion⟩
  | victim j => exact Or.inr ⟨hp, Place.noConfusion⟩

/-- An append changes no status. -/
theorem status_append {log log' : LogStructured LogItem} {s sz : ℕ} {item : LogItem} {a : Addr}
    (hb : log.Backed) (h : log.append s sz item = some (a, log')) (t : ℕ) :
    (log'.segments t).status = (log.segments t).status := by
  obtain ⟨seg, hseg, -, rfl⟩ := LogStructured.append_eq_some hb h
  obtain ⟨-, -, -, -, hstatus, -⟩ := LogSegment.append_eq_some (hb s) hseg
  by_cases ht : t = s
  · subst ht
    exact (status_update_self _ _ _).trans hstatus
  · exact status_update_of_ne _ _ ht

/-- Nothing moves when at most what is in the segments changes, and no status. -/
theorem Places.of_segments (h : Places σ) {segments : ℕ → LogSegment LogItem}
    (hlog : σ'.log = { σ.log with segments := segments })
    (hstatus : ∀ t, (segments t).status = (σ.log.segments t).status) (hhead : σ'.head = σ.head)
    (hphase : ∀ j, (σ'.phase j).victim = (σ.phase j).victim) : Places σ' := by
  refine h.stay (fun p t hp => ?_) (fun t => by rw [hlog]; exact hstatus t)
    (by rw [hlog]; exact ⟨rfl, rfl⟩) (by rw [hlog]; exact h.freeNodup)
    (by rw [hlog]; exact h.closedNodup)
  cases p with
  | free => rw [Sys.At, hlog] at hp; exact hp
  | head u => rw [Sys.At, hhead] at hp; exact hp
  | closed j => rw [Sys.At, hlog] at hp; exact hp
  | reserved j => rw [Sys.At, hlog] at hp; exact hp
  | backup j => rw [Sys.At, hlog] at hp; exact hp
  | victim j => rw [Sys.At, hphase] at hp; exact hp

/-- Nothing moves when an item is appended. -/
theorem Places.of_append (h : Places σ) {log : LogStructured LogItem} {s sz : ℕ} {item : LogItem}
    {a : Addr} (hb : σ.log.Backed) (happ : σ.log.append s sz item = some (a, log))
    (hlog : σ'.log = log) (hhead : σ'.head = σ.head)
    (hphase : ∀ j, (σ'.phase j).victim = (σ.phase j).victim) : Places σ' := by
  have hstatus := status_append hb happ
  obtain ⟨seg, -, -, rfl⟩ := LogStructured.append_eq_some hb happ
  exact h.of_segments hlog hstatus hhead hphase

/-- Nothing moves when the log, the workers' segments and the cleaners' victims
stay as they are. -/
theorem Places.of_eq (h : Places σ) (hlog : σ'.log = σ.log) (hhead : σ'.head = σ.head)
    (hphase : ∀ j, (σ'.phase j).victim = (σ.phase j).victim) : Places σ' :=
  h.of_segments hlog (fun _ => rfl) hhead hphase

/-- A cleaner that goes on in its segment keeps its victim. -/
theorem victim_update_eq {phase : ℕ → Phase} {i : ℕ} {ph : Phase}
    (h : ph.victim = (phase i).victim) (j : ℕ) :
    (Function.update phase i ph j).victim = (phase j).victim := by
  by_cases hj : j = i
  · subst hj
    rw [Function.update_self, h]
  · rw [Function.update_of_ne hj]

/-- A cleaner that comes to the next item is between no copy and its move. -/
theorem copied_of_update_scanning {phase : ℕ → Phase} {i j u p v pos : ℕ} {a : Addr}
    (hi : Function.update phase j (.scanning v pos) i = .copied u p a) :
    phase i = .copied u p a := by
  by_cases hij : i = j
  · subst hij
    rw [Function.update_self] at hi
    cases hi
  · rwa [Function.update_of_ne hij] at hi

/-- A segment that is closed by whoever appended to it joins the closed ones. -/
theorem Places.closing (h : Places σ) {t : ℕ} (src : Place) (hsrc : σ.At src t)
    (hne : ∀ j, src ≠ .closed j)
    (hsegments : σ'.log.segments = Function.update σ.log.segments t (σ.log.segments t).close)
    (hclosed : σ'.log.closedSegments = Function.update σ.log.closedSegments
      (t % σ.log.numCleaners) (σ.log.closedSegments (t % σ.log.numCleaners) ++ [t]))
    (hnum : σ'.log.numSegments = σ.log.numSegments ∧ σ'.log.numCleaners = σ.log.numCleaners)
    (hfree : σ'.log.freeSegments = σ.log.freeSegments)
    (hother : ∀ p s, (∀ j, p ≠ .closed j) → σ'.At p s → σ.At p s ∧ (p = src → s ≠ t)) :
    Places σ' := by
  have hnot : ∀ j, t ∉ σ.log.closedSegments j :=
    fun j ht => hne j (h.unique src (.closed j) t hsrc ht)
  refine h.move src (.closed (t % σ.log.numCleaners)) hsrc (fun p s hp => ?_)
    (by rw [hsegments]; exact status_update_self _ _ _)
    (fun s hs => by rw [hsegments]; exact status_update_of_ne _ _ hs) hnum
    (by rw [hfree]; exact h.freeNodup) (fun j => ?_)
  · by_cases hp' : ∃ j, p = .closed j
    · obtain ⟨j, rfl⟩ := hp'
      rw [Sys.At, hclosed] at hp
      by_cases hj : j = t % σ.log.numCleaners
      · subst hj
        rw [Function.update_self, List.mem_append] at hp
        rcases hp with hp | hp
        · exact Or.inr ⟨hp, fun he => absurd he.symm (hne _)⟩
        · exact Or.inl ⟨rfl, List.mem_singleton.mp hp⟩
      · rw [Function.update_of_ne hj] at hp
        exact Or.inr ⟨hp, fun he => absurd he.symm (hne _)⟩
    · exact Or.inr (hother p s (fun j he => hp' ⟨j, he⟩) hp)
  · rw [hclosed]
    by_cases hj : j = t % σ.log.numCleaners
    · subst hj
      rw [Function.update_self]
      exact List.nodup_append.mpr ⟨h.closedNodup _, List.nodup_singleton t,
        fun s hs u hu he => hnot _ (List.mem_singleton.mp hu ▸ he ▸ hs)⟩
    · rw [Function.update_of_ne hj]
      exact h.closedNodup j

theorem Places.freeze (h : Places σ) {w : ℕ} (hstep : freeze σ w = some σ') : Places σ' := by
  obtain ⟨s, -, hhead, rfl⟩ := freeze_eq_some hstep
  rw [LogStructured.freezeSegment_some h.cleaners]
  refine h.closing (.head w) hhead (fun j => Place.noConfusion) rfl rfl ⟨rfl, rfl⟩ rfl ?_
  intro p t hp hat
  cases p with
  | free => exact ⟨hat, Place.noConfusion⟩
  | head u =>
    rcases update_eq_some hat with ⟨-, he⟩ | ⟨hne, hu⟩
    · cases he
    · exact ⟨hu, fun he => absurd (Place.head.inj he) hne⟩
  | closed j => exact absurd rfl (hp j)
  | reserved j => exact ⟨hat, Place.noConfusion⟩
  | backup j => exact ⟨hat, Place.noConfusion⟩
  | victim j => exact ⟨hat, Place.noConfusion⟩

/-- A cleaner closes its segment. -/
theorem Places.releaseReserved (h : Places σ) (j : ℕ) :
    Places { σ with log := σ.log.releaseReserved j } := by
  cases hr : σ.log.reserved j with
  | none =>
    rw [LogStructured.releaseReserved_of_none hr]
    exact h
  | some s =>
    rw [LogStructured.releaseReserved_of_some h.cleaners hr]
    refine h.closing (.reserved j) hr (fun i => Place.noConfusion) rfl rfl ⟨rfl, rfl⟩ rfl ?_
    intro p t hp hat
    cases p with
    | free => exact ⟨hat, Place.noConfusion⟩
    | head u => exact ⟨hat, Place.noConfusion⟩
    | closed i => exact absurd rfl (hp i)
    | reserved i =>
      rcases update_eq_some hat with ⟨-, he⟩ | ⟨hne, hu⟩
      · cases he
      · exact ⟨hu, fun he => absurd (Place.reserved.inj he) hne⟩
    | backup i => exact ⟨hat, Place.noConfusion⟩
    | victim i => exact ⟨hat, Place.noConfusion⟩

theorem Places.pick (h : Places σ) {j v : ℕ} (hstep : pick σ j v = some σ') : Places σ' := by
  obtain ⟨hidle, hmem, rfl⟩ := pick_eq_some hstep
  refine h.move (.closed j) (.victim j) hmem (fun p t hp => ?_)
    (h.status (.closed j) v hmem) (fun _ _ => rfl) ⟨rfl, rfl⟩ h.freeNodup (fun i => ?_)
  · cases p with
    | free => exact Or.inr ⟨hp, Place.noConfusion⟩
    | head u => exact Or.inr ⟨hp, Place.noConfusion⟩
    | closed i =>
      have hp' : t ∈ Function.update σ.log.closedSegments j
        ((σ.log.closedSegments j).erase v) i := hp
      by_cases hi : i = j
      · subst hi
        rw [Function.update_self] at hp'
        obtain ⟨hne, ht⟩ := (h.closedNodup i).mem_erase_iff.mp hp'
        exact Or.inr ⟨ht, fun _ => hne⟩
      · rw [Function.update_of_ne hi] at hp'
        exact Or.inr ⟨hp', fun he => absurd (Place.closed.inj he) hi⟩
    | reserved i => exact Or.inr ⟨hp, Place.noConfusion⟩
    | backup i => exact Or.inr ⟨hp, Place.noConfusion⟩
    | victim i =>
      rcases victim_update hp with ⟨rfl, he⟩ | ⟨-, hi⟩
      · exact Or.inl ⟨rfl, (Option.some.inj he).symm⟩
      · exact Or.inr ⟨hi, Place.noConfusion⟩
  · show (Function.update σ.log.closedSegments j _ i).Nodup
    by_cases hi : i = j
    · subst hi
      rw [Function.update_self]
      exact (h.closedNodup i).erase v
    · rw [Function.update_of_ne hi]
      exact h.closedNodup i

theorem Places.refill (h : Places σ) {j : ℕ} (hstep : refill σ j = some σ') : Places σ' := by
  obtain ⟨v, pos, b, -, hb, rfl⟩ := refill_eq_some hstep
  have h₁ := h.releaseReserved j
  have hb₁ : (σ.log.releaseReserved j).backup j = some b := by
    show (σ.log.freezeSegment (σ.log.reserved j)).backup j = some b
    rw [LogStructured.backup_freezeSegment]
    exact hb
  refine h₁.move (.backup j) (.reserved j) hb₁ (fun p t hp => ?_)
    (status_update_self _ _ _) (fun t ht => status_update_of_ne _ _ ht) ⟨rfl, rfl⟩
    h₁.freeNodup h₁.closedNodup
  cases p with
  | free => exact Or.inr ⟨hp, Place.noConfusion⟩
  | head u => exact Or.inr ⟨hp, Place.noConfusion⟩
  | closed i => exact Or.inr ⟨hp, Place.noConfusion⟩
  | reserved i =>
    rcases update_eq_some hp with ⟨rfl, he⟩ | ⟨-, hi⟩
    · exact Or.inl ⟨rfl, (Option.some.inj he).symm⟩
    · exact Or.inr ⟨hi, Place.noConfusion⟩
  | backup i =>
    rcases update_eq_some hp with ⟨-, he⟩ | ⟨hne, hi⟩
    · cases he
    · exact Or.inr ⟨hi, fun he => absurd (Place.backup.inj he) hne⟩
  | victim i => exact Or.inr ⟨hp, Place.noConfusion⟩

theorem Places.finish (h : Places σ) {j : ℕ} (hstep : finish σ j = some σ') : Places σ' := by
  obtain ⟨v, hphase, rfl⟩ := finish_eq_some hstep
  have hsrc : σ.At (.victim j) v := by
    show (σ.phase j).victim = some v
    rw [hphase]
    rfl
  have hvictim : ∀ i t, (Function.update σ.phase j .idle i).victim = some t →
      σ.At (.victim i) t ∧ (Place.victim i = .victim j → t ≠ v) := by
    intro i t hi
    rcases victim_update hi with ⟨-, he⟩ | ⟨hne, hi⟩
    · cases he
    · exact ⟨hi, fun he => absurd (Place.victim.inj he) hne⟩
  cases hb : σ.log.backup j with
  | none =>
    rw [LogStructured.retire_of_none hb]
    refine h.move (.victim j) (.backup j) hsrc (fun p t hp => ?_) (status_update_self _ _ _)
      (fun t ht => status_update_of_ne _ _ ht) ⟨rfl, rfl⟩ h.freeNodup h.closedNodup
    cases p with
    | free => exact Or.inr ⟨hp, Place.noConfusion⟩
    | head u => exact Or.inr ⟨hp, Place.noConfusion⟩
    | closed i => exact Or.inr ⟨hp, Place.noConfusion⟩
    | reserved i => exact Or.inr ⟨hp, Place.noConfusion⟩
    | backup i =>
      rcases update_eq_some hp with ⟨rfl, he⟩ | ⟨-, hi⟩
      · exact Or.inl ⟨rfl, (Option.some.inj he).symm⟩
      · exact Or.inr ⟨hi, Place.noConfusion⟩
    | victim i => exact Or.inr (hvictim i t hp)
  | some b =>
    have hnot : v ∉ σ.log.freeSegments := fun hv => Place.noConfusion (h.unique _ .free v hsrc hv)
    rw [LogStructured.retire_of_some hb]
    refine h.move (.victim j) .free hsrc (fun p t hp => ?_) (status_update_self _ _ _)
      (fun t ht => status_update_of_ne _ _ ht) ⟨rfl, rfl⟩ ?_ h.closedNodup
    · cases p with
      | free =>
        rcases List.mem_append.mp hp with hp | hp
        · exact Or.inr ⟨hp, Place.noConfusion⟩
        · exact Or.inl ⟨rfl, List.mem_singleton.mp hp⟩
      | head u => exact Or.inr ⟨hp, Place.noConfusion⟩
      | closed i => exact Or.inr ⟨hp, Place.noConfusion⟩
      | reserved i => exact Or.inr ⟨hp, Place.noConfusion⟩
      | backup i => exact Or.inr ⟨hp, Place.noConfusion⟩
      | victim i => exact Or.inr (hvictim i t hp)
    · exact List.nodup_append.mpr ⟨h.freeNodup, List.nodup_singleton v,
        fun s hs u hu he => hnot (List.mem_singleton.mp hu ▸ he ▸ hs)⟩

theorem Places.destroyCleaner (h : Places σ) {j : ℕ} (hstep : destroyCleaner σ j = some σ') :
    Places σ' := by
  obtain ⟨-, rfl⟩ := destroyCleaner_eq_some hstep
  have h₁ := h.releaseReserved j
  unfold LogStructured.destroyCleaner
  cases hb : (σ.log.releaseReserved j).backup j with
  | none =>
    have hupdate : Function.update (σ.log.releaseReserved j).backup j none
        = (σ.log.releaseReserved j).backup := hb ▸ Function.update_eq_self j _
    simp only [hupdate, hb, Option.toList_none, List.append_nil]
    exact h₁
  | some b =>
    have hnot : b ∉ (σ.log.releaseReserved j).freeSegments :=
      fun hv => Place.noConfusion (h₁.unique (.backup j) .free b hb hv)
    refine h₁.move (.backup j) .free hb (fun p t hp => ?_)
      (h₁.status (.backup j) b hb) (fun _ _ => rfl) ⟨rfl, rfl⟩ ?_ h₁.closedNodup
    · cases p with
      | free =>
        simp only [Sys.At, hb, Option.toList_some] at hp
        rcases List.mem_append.mp hp with hp | hp
        · exact Or.inr ⟨hp, Place.noConfusion⟩
        · exact Or.inl ⟨rfl, List.mem_singleton.mp hp⟩
      | head u => exact Or.inr ⟨hp, Place.noConfusion⟩
      | closed i => exact Or.inr ⟨hp, Place.noConfusion⟩
      | reserved i => exact Or.inr ⟨hp, Place.noConfusion⟩
      | backup i =>
        rcases update_eq_some hp with ⟨-, he⟩ | ⟨hne, hi⟩
        · cases he
        · exact Or.inr ⟨hi, fun he => absurd (Place.backup.inj he) hne⟩
      | victim i => exact Or.inr ⟨hp, Place.noConfusion⟩
    · simp only [hb, Option.toList_some]
      exact List.nodup_append.mpr ⟨h₁.freeNodup, List.nodup_singleton b,
        fun s hs u hu he => hnot (List.mem_singleton.mp hu ▸ he ▸ hs)⟩

end CleaningLog
