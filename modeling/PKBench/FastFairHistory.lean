import Mathlib.Algebra.Order.BigOperators.Group.Finset
import Mathlib.Data.Prod.Lex
import PKBench.FastFairThreads

/-!
# The calls of the threads, one after the other

What the threads on a FAST_FAIR tree do is told in two parts.

The calls can be put in one order (`threads_linearizable`). A put takes place with the
locked section on its leaf, a search with the search of the leaf that has the answer; both
are moments between the start of the call and its end. The exception is a leaf that is
split while a reader has its sibling pointer in hand.

And the calls come to an end (`threads_end`), in whatever order the threads make their
steps. A store gives others a longer way, and a new root gives them one more level, so
nothing decreases for each thread alone. What does decrease is, in this order, the number
of threads that may still store something, the levels they may do so at, and the steps to
the next store: a thread that makes a new root is done.
-/

namespace FastFair

variable {V : Type}

/-! ## Moments of a call -/

/-- Thread `i` starts a call. -/
def Event.Starts (i : ℕ) : Event V → Prop
  | .insert j _ => j = i
  | .search j _ => j = i
  | .move _ => False

/-- What the last call of a thread comes back with. -/
def Thread.ret? : Thread V → Option (Return V)
  | .linkStart _ ret => some ret
  | .linkDown _ ret _ => some ret
  | .linkStore _ ret _ => some ret
  | .inserted ret => some ret
  | _ => none

/-- Whether a thread has an answer of `linear_search` in hand, or has returned one. -/
def Thread.answers : Thread V → Bool
  | .searchCheck _ _ _ _ => true
  | .searched _ _ _ => true
  | _ => false

section Moments

variable [DecidableEq V]

/-- **A moment of the last call of a thread.** -/
def Moment (i : ℕ) (P : Sys V → Prop) (es : List (Event V)) : Prop :=
  Machine.Since step P (fun e => ¬ e.Starts i) Sys.init es

/-- The call of a thread is the next one of the history, and it is answered what the map
says. -/
structure Puts (i : ℕ) (ret : Return V) (history : List (Call V)) (S : Sys V) : Prop where
  call : (S.thread i).call? = some ret.call
  history : S.history ++ [ret.call] <+: history
  want : ret.want = (putMap S.map ret.call.key ret.call.new ret.call.old).2

/-- A thread reads a leaf: the value of the key, or the sibling pointer. -/
structure Reads (i key a : ℕ) (r : Ptr V) (want : Option V) (S : Sys V) : Prop where
  thread : S.thread i = .searchLeaf key a
  map : want = S.map key
  result : r = .ofOption want ∨ r = (S.tree.pages a).siblingPtr

/-- **The answer of a search** is what the map had at a moment of the call; or it is the
sibling pointer of a leaf, and the leaf had another one when the two were compared. -/
def Answered (i key : ℕ) (r : Ptr V) (es : List (Event V)) : Prop :=
  Moment i (fun S => (∃ a, S.thread i = .searchLeaf key a) ∧ r = .ofOption (S.map key)) es
  ∨ ∃ a b want, r = .page b
    ∧ Moment i (fun S => S.thread i = .searchLeaf key a
      ∧ (S.tree.pages a).siblingPtr = .page b) es
    ∧ Moment i (fun S => S.thread i = .searchCheck key a (.page b) want
      ∧ (S.tree.pages a).siblingPtr ≠ .page b) es

/-- **What is known of the past of a thread.** -/
structure Traced (i : ℕ) (es : List (Event V)) (S : Sys V) : Prop where
  insert : ∀ ret, (S.thread i).ret? = some ret → Moment i (Puts i ret S.history) es
  check : ∀ key a r want, S.thread i = .searchCheck key a r want →
    Moment i (Reads i key a r want) es
  search : ∀ key r want, S.thread i = .searched key r want → Answered i key r es

variable {t : Btree V} {m : ℕ → Option V} {th : Thread V}
  {r : Btree V × (ℕ → Option V) × Thread V}

omit [DecidableEq V] in
theorem ret?_afterStore (x : Stored V) (ret : Return V) : (afterStore x ret).ret? = some ret := by
  unfold afterStore
  split <;> rfl

omit [DecidableEq V] in
theorem call?_of_ret? {ret : Return V} (h : th.ret? = some ret) : th.call? = none := by
  cases th with
  | insertDown c a => exact absurd h.symm (Option.some_ne_none _)
  | insertStore c a => exact absurd h.symm (Option.some_ne_none _)
  | _ => rfl

/-- **What a step of a thread reveals**: nothing, the answer of a put, what is read of a
leaf, or the answer of a search. -/
inductive Reveals (t : Btree V) (m : ℕ → Option V) : Thread V → Thread V → Prop
  | quiet {th th' : Thread V} (hret : th'.ret? = th.ret?) (hanswers : th'.answers = false) :
      Reveals t m th th'
  | put {th th' : Thread V} {ret : Return V} (hcall : th.call? = some ret.call)
      (hret : th'.ret? = some ret)
      (hwant : ret.want = (putMap m ret.call.key ret.call.new ret.call.old).2) :
      Reveals t m th th'
  | read {key a : ℕ} {x : Ptr V} (hread : searchPage t a key = some x) :
      Reveals t m (.searchLeaf key a) (.searchCheck key a x (m key))
  | miss {key a : ℕ} {x : Ptr V} {want : Option V} (hsib : x = (t.pages a).siblingPtr)
      (hpage : ∀ b, x ≠ .page b) :
      Reveals t m (.searchCheck key a x want) (.searched key .null want)
  | hit {key a : ℕ} {x : Ptr V} {want : Option V} (hsib : x ≠ (t.pages a).siblingPtr) :
      Reveals t m (.searchCheck key a x want) (.searched key x want)

theorem reveals_afterStore (x : Stored V) (ret : Return V) (hret : th.ret? = some ret) :
    Reveals t m th (afterStore x ret) := by
  refine .quiet ((ret?_afterStore x ret).trans hret.symm) ?_
  unfold afterStore
  split <;> rfl

theorem reveals_of_advance (h : advance t m th = some r) : Reveals t m th r.2.2 := by
  cases th with
  | idle => exact absurd h.symm (Option.some_ne_none _)
  | inserted ret => exact absurd h.symm (Option.some_ne_none _)
  | searched key x want => exact absurd h.symm (Option.some_ne_none _)
  | insertDown c a =>
    simp only [advance] at h
    split at h
    · obtain rfl := Option.some.inj h
      exact .quiet rfl rfl
    · split at h
      · obtain rfl := Option.some.inj h
        exact .quiet rfl rfl
      · exact absurd h.symm (Option.some_ne_none _)
  | insertStore c a =>
    simp only [advance] at h
    split at h
    · obtain rfl := Option.some.inj h
      exact .quiet rfl rfl
    · split at h
      · obtain rfl := Option.some.inj h
        exact .quiet rfl rfl
      · obtain ⟨x, -, rfl⟩ := Option.map_eq_some_iff.mp h
        exact .put rfl (ret?_afterStore _ _) rfl
  | linkStart l ret =>
    simp only [advance] at h
    split at h
    · obtain rfl := Option.some.inj h
      exact .quiet rfl rfl
    · obtain rfl := Option.some.inj h
      exact .quiet rfl rfl
  | linkDown l ret a =>
    simp only [advance] at h
    split at h
    · split at h
      · obtain rfl := Option.some.inj h
        exact .quiet rfl rfl
      · exact absurd h.symm (Option.some_ne_none _)
    · obtain rfl := Option.some.inj h
      exact .quiet rfl rfl
  | linkStore l ret a =>
    simp only [advance] at h
    split at h
    · obtain rfl := Option.some.inj h
      exact .quiet rfl rfl
    · split at h
      · obtain rfl := Option.some.inj h
        exact .quiet rfl rfl
      · obtain ⟨x, -, rfl⟩ := Option.map_eq_some_iff.mp h
        exact reveals_afterStore x ret rfl
  | searchDown key a =>
    simp only [advance] at h
    split at h
    · obtain rfl := Option.some.inj h
      exact .quiet rfl rfl
    · split at h
      · obtain rfl := Option.some.inj h
        exact .quiet rfl rfl
      · exact absurd h.symm (Option.some_ne_none _)
  | searchLeaf key a =>
    obtain ⟨x, hx, rfl⟩ := Option.map_eq_some_iff.mp h
    exact .read hx
  | searchCheck key a x want =>
    simp only [advance] at h
    split at h
    · split at h
      · obtain rfl := Option.some.inj h
        exact .quiet rfl rfl
      · obtain rfl := Option.some.inj h
        exact .miss ‹_› ‹_›
    · obtain rfl := Option.some.inj h
      exact .hit ‹_›

/-- The events of other threads, and the steps of a thread, are no start of a call. -/
theorem Moment.later {i : ℕ} {P : Sys V → Prop} {es : List (Event V)} (h : Moment i P es)
    {e : Event V} (he : ¬ e.Starts i) : Moment i P (es ++ [e]) :=
  Machine.Since.later h he

variable {S S' : Sys V} {es : List (Event V)} {i : ℕ}

theorem Answered.later {key : ℕ} {x : Ptr V} (h : Answered i key x es) {e : Event V}
    (he : ¬ e.Starts i) : Answered i key x (es ++ [e]) := by
  rcases h with h | ⟨a, b, want, hx, h₁, h₂⟩
  · exact .inl (h.later he)
  · exact .inr ⟨a, b, want, hx, h₁.later he, h₂.later he⟩

/-- The moment before the last event. -/
theorem moment_now {P : Sys V → Prop} (hrun : run Sys.init es = some S) (h : P S) :
    Moment i P (es ++ [.move i]) :=
  Machine.Since.later (Machine.Since.now hrun h) id

theorem Moment.puts_mono {ret : Return V} {history history' : List (Call V)}
    (h : Moment i (Puts i ret history) es) (hpre : history <+: history') :
    Moment i (Puts i ret history') es :=
  Machine.Since.imp h (fun _ hS => ⟨hS.call, hS.history.trans hpre, hS.want⟩)

/-- **The past of a thread** that makes no step. -/
theorem Traced.frame (h : Traced i es S) {e : Event V} (he : ¬ e.Starts i)
    (hthread : S'.thread i = S.thread i) (hhistory : S.history <+: S'.history) :
    Traced i (es ++ [e]) S' where
  insert ret hret := ((h.insert ret (hthread ▸ hret)).later he).puts_mono hhistory
  check key a x want hth := (h.check key a x want (hthread ▸ hth)).later he
  search key x want hth := (h.search key x want (hthread ▸ hth)).later he

/-- What a thread has read of a leaf. -/
theorem Sys.Ok.reads (hok : S.Ok) {key a : ℕ} {x : Ptr V} (hth : S.thread i = .searchLeaf key a)
    (hread : searchPage S.tree a key = some x) : Reads i key a x (S.map key) S := by
  have hat := hok.thread i
  rw [hth] at hat
  refine ⟨hth, rfl, ?_⟩
  rcases hok.inv.searchPage_leaf hok.represents hat.1.lt hat.2 hat.1.fence_le with
    hsearch | ⟨b, -, hsib, hsearch, -⟩
  · exact .inl (Option.some.inj (hread.symm.trans hsearch))
  · exact .inr ((Option.some.inj (hread.symm.trans hsearch)).trans hsib.symm)

omit [DecidableEq V] in
theorem page_ne_ofOption (b : ℕ) (o : Option V) : Ptr.page b ≠ .ofOption o := by
  cases o with
  | none => exact nofun
  | some v => exact nofun

/-- What the map has said is an answer. -/
theorem Moment.answered {key a : ℕ} {x x' : Ptr V} {want : Option V}
    (h : Moment i (Reads i key a x want) es) (hx : x' = .ofOption want) : Answered i key x' es :=
  .inl (Machine.Since.imp h (fun _ hS => ⟨⟨a, hS.thread⟩, hS.map ▸ hx⟩))

/-- **The past of a thread that makes a step.** -/
theorem Traced.move (h : Traced i es S) (hrun : run Sys.init es = some S) (hok : S.Ok)
    (hreveals : Reveals S.tree S.map (S.thread i) (S'.thread i))
    (hhistory : S'.history = S.history ++ (visible (S.thread i) (S'.thread i)).toList) :
    Traced i (es ++ [.move i]) S' := by
  have hpre : S.history <+: S'.history := hhistory ▸ List.prefix_append _ _
  have hthread := hok.thread i
  generalize hth : S.thread i = th at hreveals hhistory hthread
  generalize hth' : S'.thread i = th' at hreveals hhistory
  cases hreveals with
  | quiet hret hanswers =>
    refine ⟨fun ret hr => ?_, fun key a x want heq => ?_, fun key x want heq => ?_⟩
    · rw [hth', hret, ← hth] at hr
      exact (Moment.later (h.insert ret hr) id).puts_mono hpre
    · rw [← hth', heq] at hanswers
      exact absurd hanswers.symm Bool.false_ne_true
    · rw [← hth', heq] at hanswers
      exact absurd hanswers.symm Bool.false_ne_true
  | put hcall hret hwant =>
    refine ⟨fun ret hr => ?_, fun key a x want heq => ?_, fun key x want heq => ?_⟩
    · obtain rfl := Option.some.inj (hret.symm.trans (hth' ▸ hr))
      refine moment_now hrun ⟨hth ▸ hcall, ?_, hwant⟩
      rw [hhistory, visible, call?_of_ret? hret, hcall]
      exact List.prefix_rfl
    · exact nomatch hret.symm.trans (congrArg Thread.ret? (hth'.symm.trans heq))
    · exact nomatch hret.symm.trans (congrArg Thread.ret? (hth'.symm.trans heq))
  | read hread =>
    refine ⟨fun ret hr => ?_, fun key a x want heq => ?_, fun key x want heq => ?_⟩
    · exact nomatch (hth' ▸ hr)
    · obtain ⟨rfl, rfl, rfl, rfl⟩ := Thread.searchCheck.inj (hth'.symm.trans heq)
      exact moment_now hrun (hok.reads hth hread)
    · exact nomatch hth'.symm.trans heq
  | miss hsib hpage =>
    refine ⟨fun ret hr => ?_, fun key a x want heq => ?_, fun key x want heq => ?_⟩
    · exact nomatch (hth' ▸ hr)
    · exact nomatch hth'.symm.trans heq
    · obtain ⟨rfl, rfl, rfl⟩ := Thread.searched.inj (hth'.symm.trans heq)
      have hwant := hthread.2.resolve_right (fun ⟨b, hb, _⟩ => hpage b hb)
      obtain rfl := hok.inv.siblingPtr_eq hthread.1.1.lt (hwant.symm.trans hsib)
      exact (h.check _ _ _ _ hth).later id |>.answered rfl
  | hit hsib =>
    refine ⟨fun ret hr => ?_, fun key a x want heq => ?_, fun key x want heq => ?_⟩
    · exact nomatch (hth' ▸ hr)
    · exact nomatch hth'.symm.trans heq
    · obtain ⟨rfl, rfl, rfl⟩ := Thread.searched.inj (hth'.symm.trans heq)
      have hmoment := h.check _ _ _ _ hth
      rcases hthread.2 with hwant | ⟨b, rfl, -⟩
      · exact (hmoment.later id).answered hwant
      · refine .inr ⟨_, b, _, rfl, ?_, moment_now hrun ⟨hth, hsib.symm⟩⟩
        refine Machine.Since.imp (hmoment.later id) (fun S₁ hS₁ => ⟨hS₁.thread, ?_⟩)
        exact (hS₁.result.resolve_left (page_ne_ofOption b _)).symm

/-- A thread that has just started has no past. -/
theorem traced_start {th : Thread V} (hth : S.thread i = th) (hret : th.ret? = none)
    (hanswers : th.answers = false) : Traced i es S where
  insert ret hr := by
    rw [hth, hret] at hr
    exact absurd hr.symm (Option.some_ne_none ret)
  check key a x want heq := by
    rw [← hth, heq] at hanswers
    exact absurd hanswers.symm Bool.false_ne_true
  search key x want heq := by
    rw [← hth, heq] at hanswers
    exact absurd hanswers.symm Bool.false_ne_true

/-- **The past of every thread, one event later.** -/
theorem Traced.step (h : ∀ i, Traced i es S) (hrun : run Sys.init es = some S) (hok : S.Ok)
    {e : Event V} (hstep : step S e = some S') (j : ℕ) : Traced j (es ++ [e]) S' := by
  cases e with
  | insert i c =>
    simp only [FastFair.step] at hstep
    split at hstep
    · obtain rfl := Option.some.inj hstep
      by_cases hji : j = i
      · subst hji
        exact traced_start (Function.update_self j _ S.thread) rfl rfl
      · exact (h j).frame (Ne.symm hji) (Function.update_of_ne hji _ _) List.prefix_rfl
    · exact absurd hstep.symm (Option.some_ne_none _)
  | search i key =>
    simp only [FastFair.step] at hstep
    split at hstep
    · obtain rfl := Option.some.inj hstep
      by_cases hji : j = i
      · subst hji
        exact traced_start (Function.update_self j _ S.thread) rfl rfl
      · exact (h j).frame (Ne.symm hji) (Function.update_of_ne hji _ _) List.prefix_rfl
    · exact absurd hstep.symm (Option.some_ne_none _)
  | move i =>
    obtain ⟨r, hr, rfl⟩ := Option.map_eq_some_iff.mp hstep
    by_cases hji : j = i
    · subst hji
      refine (h j).move hrun hok ?_ ?_
      · show Reveals _ _ _ (Function.update S.thread j r.2.2 j)
        rw [Function.update_self]
        exact reveals_of_advance hr
      · show _ = _ ++ (visible _ (Function.update S.thread j r.2.2 j)).toList
        rw [Function.update_self]
    · exact (h j).frame id (Function.update_of_ne hji _ _) (List.prefix_append _ _)

/-- **The past of every thread of every run.** -/
theorem traced_of_run (hallowed : Machine.AllSteps step Sys.Allowed Sys.init es)
    (hrun : run Sys.init es = some S) : S.Ok ∧ ∀ i, Traced i es S := by
  have hinv : run Sys.init ([] ++ es) = some S ∧ S.Ok ∧ ∀ i, Traced i ([] ++ es) S := by
    refine Machine.run_past_of_allSteps (P := fun es S => run Sys.init es = some S ∧ S.Ok
      ∧ ∀ i, Traced i es S) step (fun past S₁ e S₂ h ha hs => ?_) ?_ hallowed hrun
    · refine ⟨?_, h.2.1.step ha hs, Traced.step h.2.2 h.1 h.2.1 hs⟩
      rw [run, Machine.run_append, ← run, h.1]
      exact (Machine.run_cons_eq_some step).mpr ⟨S₂, hs, rfl⟩
    · exact ⟨rfl, ok_init, fun i => traced_start rfl rfl rfl⟩
  exact hinv.2

/-- **Every call has taken place at one moment.** The map is the one of the calls in the
order of the history. A put is the next call of the history at a moment between its start
and its end, and it has been answered what the map says there. A search has been answered
what the map had at such a moment, unless a leaf it read was split before its sibling
pointer was compared. -/
theorem threads_linearizable (hallowed : Machine.AllSteps step Sys.Allowed Sys.init es)
    (hrun : run Sys.init es = some S) :
    S.map = (mapCalls S.history (fun _ => none)).1
    ∧ (∀ i ret, S.thread i = .inserted ret →
      (∃ le, ret.helper = some le ∧ le.oldVal = .ofOption ret.want)
      ∧ Moment i (Puts i ret S.history) es)
    ∧ ∀ i key r want, S.thread i = .searched key r want → Answered i key r es := by
  obtain ⟨hok, htraced⟩ := traced_of_run hallowed hrun
  refine ⟨hok.history, fun i ret hth => ⟨?_, ?_⟩, fun i => (htraced i).search⟩
  · have hthread := hok.thread i
    rw [hth] at hthread
    exact hthread
  · exact (htraced i).insert ret (congrArg Thread.ret? hth)

/-- A put and a search of the same key. -/
def putAndSearch : List (Event ℕ) :=
  [.insert 0 ⟨5, 50, none⟩, .search 1 5, .move 1, .move 0, .move 0, .move 1, .move 1]

theorem allowed_putAndSearch : Machine.AllSteps step Sys.Allowed Sys.init putAndSearch :=
  ⟨⟨nofun, nofun⟩, fun _ _ => ⟨trivial, fun _ _ => ⟨trivial, fun _ _ => ⟨trivial,
    fun _ _ => ⟨trivial, fun _ _ => ⟨trivial, fun _ _ => ⟨trivial, fun _ _ => trivial⟩⟩⟩⟩⟩⟩⟩

theorem threads_linearizable_putAndSearch :
    Machine.AllSteps step Sys.Allowed Sys.init putAndSearch
    ∧ ∃ S : Sys ℕ, run Sys.init putAndSearch = some S
      ∧ S.thread 1 = .searched 5 (.value 50) (some 50)
      ∧ Answered 1 5 (.value 50) putAndSearch :=
  ⟨allowed_putAndSearch, _, rfl, rfl,
    (threads_linearizable allowed_putAndSearch rfl).2.2 1 5 _ (some 50) rfl⟩

end Moments

/-! ## Every call comes to an end -/

section Ends

variable [DecidableEq V] {S S' : Sys V} {n : ℕ}

/-- Some thread makes a step. -/
def Continues (S' S : Sys V) : Prop := ∃ i, step S (.move i) = some S'

omit [DecidableEq V] in
/-- Only the first `n` threads have begun. -/
def Sys.Begun (n : ℕ) (S : Sys V) : Prop := ∀ i ≥ n, (S.thread i).resting = true

omit [DecidableEq V] in
/-- **What is left to do**: the threads that may store, the levels they may store at, and
the steps to the next store. A store may make the ways of others longer and, with a new
root, give them more levels. -/
def Sys.left (n : ℕ) (S : Sys V) : ℕ ×ₗ ℕ ×ₗ ℕ :=
  toLex (∑ i ∈ Finset.range n, (S.thread i).writes,
    toLex (∑ i ∈ Finset.range n, (S.thread i).levels (S.tree.level S.tree.root),
      ∑ i ∈ Finset.range n, (S.thread i).walk S.tree))

/-- A sum in which one term gets smaller. -/
theorem sum_range_lt {f g : ℕ → ℕ} {i : ℕ} (hi : i < n) (hother : ∀ j, j ≠ i → g j = f j)
    (h : g i < f i) : ∑ j ∈ Finset.range n, g j < ∑ j ∈ Finset.range n, f j := by
  refine Finset.sum_lt_sum (fun j _ => ?_) ⟨i, Finset.mem_range.mpr hi, h⟩
  by_cases hji : j = i
  · exact hji ▸ h.le
  · exact (hother j hji).le

theorem sum_range_congr {f g : ℕ → ℕ} {i : ℕ} (hother : ∀ j, j ≠ i → g j = f j)
    (h : g i = f i) : ∑ j ∈ Finset.range n, g j = ∑ j ∈ Finset.range n, f j := by
  refine Finset.sum_congr rfl (fun j _ => ?_)
  by_cases hji : j = i
  · exact hji ▸ h
  · exact hother j hji

omit [DecidableEq V] in
/-- **With every step there is less left to do.** -/
theorem Progress.left_lt {i : ℕ} (h : Progress S.tree S'.tree (S.thread i) (S'.thread i))
    (hi : i < n) (hother : ∀ j, j ≠ i → S'.thread j = S.thread j) : S'.left n < S.left n := by
  unfold Sys.left
  rw [Prod.Lex.toLex_lt_toLex, Prod.Lex.toLex_lt_toLex]
  generalize hth : S.thread i = th at h
  generalize hth' : S'.thread i = th' at h
  generalize htree : S'.tree = t' at h
  cases h with
  | done hwrites =>
    exact .inl (sum_range_lt hi (fun j hj => by rw [hother j hj]) (by rwa [hth, hth']))
  | up hwrites htop hlevels =>
    refine .inr ⟨sum_range_congr (fun j hj => by rw [hother j hj]) (by rw [hth, hth', hwrites]),
      .inl ?_⟩
    rw [htop]
    exact sum_range_lt hi (fun j hj => by rw [hother j hj]) (by rwa [hth, hth'])
  | walk hlink hcall hwalk =>
    refine .inr ⟨sum_range_congr (fun j hj => by rw [hother j hj]) ?_, .inr ⟨?_, ?_⟩⟩
    · rw [hth, hth', Thread.writes, hlink, hcall]
      rfl
    · refine sum_range_congr (fun j hj => by rw [hother j hj]) ?_
      rw [hth, hth', Thread.levels, hlink, hcall]
      rfl
    · exact sum_range_lt hi (fun j hj => by rw [hother j hj]) (by rwa [hth, hth'])

/-- What a step of a thread comes to. -/
theorem Sys.Ok.of_continues (h : S.Ok) (hbegun : S.Begun n) (hcont : Continues S' S) :
    S'.Ok ∧ S'.Begun n ∧ S'.left n < S.left n := by
  obtain ⟨i, hstep⟩ := hcont
  have hok := h.step (e := .move i) trivial hstep
  obtain ⟨r, hr, rfl⟩ := Option.map_eq_some_iff.mp hstep
  have hbusy : (S.thread i).resting = false := by
    rw [← Bool.not_eq_true]
    exact fun hrest => nomatch (advance_resting hrest).symm.trans hr
  have hi : i < n := by
    rw [← not_le]
    exact fun hle => Bool.false_ne_true (hbusy.symm.trans (hbegun i hle))
  obtain ⟨r', hr', -, hprogress⟩ := h.advances hbusy
  obtain rfl := Option.some.inj (hr'.symm.trans hr)
  have hother : ∀ j, j ≠ i → Function.update S.thread i r'.2.2 j = S.thread j :=
    fun j hj => Function.update_of_ne hj _ _
  refine ⟨hok, fun j hj => ?_, Progress.left_lt (i := i) ?_ hi hother⟩
  · show (Function.update S.thread i r'.2.2 j).resting = true
    rw [hother j (hi.trans_le hj).ne']
    exact hbegun j hj
  · show Progress _ _ _ (Function.update S.thread i r'.2.2 i)
    rw [Function.update_self]
    exact hprogress

/-- **Steps of the threads alone come to an end**, in whatever order. -/
theorem Sys.Ok.acc_continues (h : S.Ok) (hbegun : S.Begun n) : Acc Continues S := by
  induction hleft : S.left n using WellFoundedLT.induction generalizing S with
  | _ left ih =>
    refine ⟨S, fun S' hcont => ?_⟩
    obtain ⟨hok, hbegun', hlt⟩ := h.of_continues hbegun hcont
    exact ih _ (hleft ▸ hlt) hok hbegun' rfl

/-- A step is one of one thread. -/
theorem exists_thread_of_step {e : Event V} (hstep : step S e = some S') :
    ∃ i, ∀ j, j ≠ i → S'.thread j = S.thread j := by
  cases e with
  | insert i c =>
    simp only [step] at hstep
    split at hstep
    · obtain rfl := Option.some.inj hstep
      exact ⟨i, fun j hj => Function.update_of_ne hj _ _⟩
    · exact absurd hstep.symm (Option.some_ne_none _)
  | search i key =>
    simp only [step] at hstep
    split at hstep
    · obtain rfl := Option.some.inj hstep
      exact ⟨i, fun j hj => Function.update_of_ne hj _ _⟩
    · exact absurd hstep.symm (Option.some_ne_none _)
  | move i =>
    obtain ⟨r, -, rfl⟩ := Option.map_eq_some_iff.mp hstep
    exact ⟨i, fun j hj => Function.update_of_ne hj _ _⟩

/-- In every run only so many threads begin. -/
theorem begun_of_run {es : List (Event V)} (hrun : run Sys.init es = some S) :
    ∃ n, S.Begun n := by
  refine Machine.run_preserves step (P := fun S => ∃ n, S.Begun n) (fun S e S' h hstep => ?_)
    ⟨0, fun _ _ => rfl⟩ hrun
  obtain ⟨n, hn⟩ := h
  obtain ⟨i, hother⟩ := exists_thread_of_step hstep
  refine ⟨max n (i + 1), fun j hj => ?_⟩
  rw [hother j (Nat.lt_of_succ_le ((le_max_right _ _).trans hj)).ne']
  exact hn j ((le_max_left _ _).trans hj)

/-- **Every call comes to an end**, whatever the order of the steps: a thread that is not
done can make a step, and once no thread starts there are only so many steps. Meanwhile a
page is known to the level above or is about to be linked by a thread, and what is in the
map is found from the root. -/
theorem threads_end {es : List (Event V)}
    (hallowed : Machine.AllSteps step Sys.Allowed Sys.init es)
    (hrun : run Sys.init es = some S) :
    Acc Continues S
    ∧ (∀ i, (S.thread i).resting = false → ∃ S', step S (.move i) = some S')
    ∧ (∀ c < S.tree.fresh, c ≠ S.tree.root →
      (Linked S.tree c ↔ ∀ i l, (S.thread i).link? = some l → l.page ≠ c))
    ∧ ∀ key fuel, S.tree.steps key ≤ fuel →
      btreeSearch S.tree key fuel = some (.ofOption (S.map key)) := by
  have hok := ok_of_run hallowed hrun
  obtain ⟨n, hbegun⟩ := begun_of_run hrun
  refine ⟨hok.acc_continues hbegun, fun i hbusy => ?_, fun c hc hroot => ?_,
    fun key fuel hfuel => ?_⟩
  · obtain ⟨S', hS', -⟩ := hok.step_move hbusy
    exact ⟨S', hS'⟩
  · have hlinked : Linked S.tree c ↔ ¬ Lost S.tree c :=
      ⟨fun hl hlost => hlost.2.2 hl, fun hlost => by_contra (fun hl => hlost ⟨hc, hroot, hl⟩)⟩
    rw [hlinked, hok.lost]
    constructor
    · exact fun hno i l hl hpage => hno ⟨i, l, hl, hpage⟩
    · exact fun hno ⟨i, l, hl, hpage⟩ => hno i l hl hpage
  · exact hok.inv.btreeSearch hok.represents key hfuel

theorem threads_end_putAndSearch :
    Machine.AllSteps step Sys.Allowed Sys.init putAndSearch
    ∧ ∃ S : Sys ℕ, run Sys.init putAndSearch = some S ∧ Acc Continues S
      ∧ ∀ fuel, S.tree.steps 5 ≤ fuel → btreeSearch S.tree 5 fuel = some (.value 50) :=
  ⟨allowed_putAndSearch, _, rfl, (threads_end allowed_putAndSearch rfl).1,
    (threads_end allowed_putAndSearch rfl).2.2.2 5⟩

end Ends

end FastFair
