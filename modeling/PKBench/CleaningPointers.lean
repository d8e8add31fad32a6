import PKBench.CleaningPlaces

/-!
# What the index points to

Every entry of the index points to an item of its key, and the item is of the
last `Put` of the key to reach the index. That this stays so while the cleaners
clear segments needs two more facts: an item that a worker has appended and not
yet told the index about, or that a cleaner has copied and not yet moved, is in
a segment that is being appended to; and of the segment a cleaner goes through
no entry points to an item that the cleaner has passed (`Pointers`). When the
cleaner is at the end nothing points into the segment any more.

Where the items of a segment end is told by its status (`Sound`): an available
segment has none, and a closed one has nothing behind them.
-/

namespace CleaningLog

variable {σ σ' : Sys}

/-! ## Status and items -/

/-- **The status of a segment tells what is in it.** -/
structure SegmentSound (seg : LogSegment LogItem) : Prop where
  backed : seg.Backed
  available : seg.status = .available → seg.items = []
  closed : seg.status = .closed → seg.data = seg.items

/-- Every segment of the log is as its status says. -/
def Sound (log : LogStructured LogItem) : Prop := ∀ s, SegmentSound (log.segments s)

theorem Sound.backed {log : LogStructured LogItem} (h : Sound log) : log.Backed :=
  fun s => (h s).backed

theorem Sound.update {log log' : LogStructured LogItem} {s : ℕ} {seg : LogSegment LogItem}
    (h : Sound log) (hseg : SegmentSound seg)
    (hsegments : log'.segments = Function.update log.segments s seg) : Sound log' := by
  intro t
  rw [hsegments]
  by_cases ht : t = s
  · subst ht
    rw [Function.update_self]
    exact hseg
  · rw [Function.update_of_ne ht]
    exact h t

theorem SegmentSound.startUsing {seg : LogSegment LogItem} (h : SegmentSound seg)
    (hot sc : Bool) : SegmentSound (seg.startUsing hot sc) where
  backed := h.backed.startUsing hot sc
  available hs := SegmentStatus.noConfusion hs
  closed hs := SegmentStatus.noConfusion hs

theorem SegmentSound.close {seg : LogSegment LogItem} (h : SegmentSound seg) :
    SegmentSound seg.close where
  backed := h.backed.close
  available hs := SegmentStatus.noConfusion hs
  closed _ := by rw [LogSegment.data_close, LogSegment.items_close]

theorem SegmentSound.clear (seg : LogSegment LogItem) : SegmentSound seg.clear where
  backed := LogSegment.Backed.clear seg
  available _ := LogSegment.items_clear seg
  closed hs := SegmentStatus.noConfusion hs

/-- Items are appended to segments in use. -/
theorem Sound.append {log log' : LogStructured LogItem} {s sz : ℕ} {item : LogItem} {a : Addr}
    (h : Sound log) (hs : (log.segments s).status = .inUse)
    (happ : log.append s sz item = some (a, log')) : Sound log' := by
  obtain ⟨seg, hseg, -, rfl⟩ := LogStructured.append_eq_some h.backed happ
  obtain ⟨-, -, -, hb, hstatus, -⟩ := LogSegment.append_eq_some (h s).backed hseg
  rw [hs] at hstatus
  refine h.update (s := s) ⟨hb, fun hs' => ?_, fun hs' => ?_⟩ rfl
  · exact SegmentStatus.noConfusion (hstatus.symm.trans hs')
  · exact SegmentStatus.noConfusion (hstatus.symm.trans hs')

theorem Sound.freezeSegment {log : LogStructured LogItem} (h : Sound log) (old : Option ℕ) :
    Sound (log.freezeSegment old) := by
  rcases log.freezeSegment_cases old with hf | ⟨s, -, hf⟩
  · rw [hf]
    exact h
  · rw [hf]
    exact h.update (h s).close rfl

theorem Sound.releaseReserved {log : LogStructured LogItem} (h : Sound log) (j : ℕ) :
    Sound (log.releaseReserved j) := h.freezeSegment (log.reserved j)

theorem sound_create (numSegments numCleaners : ℕ) (pool : ℕ → SegmentImage LogItem) :
    Sound (LogStructured.create numSegments numCleaners pool) := by
  have hnew : ∀ s, SegmentSound (LogSegment.new (pool s)) := fun s =>
    ⟨LogSegment.backed_new _, fun _ => LogSegment.items_new _,
      fun hs => SegmentStatus.noConfusion hs⟩
  intro s
  show SegmentSound (if _ then _ else _)
  by_cases hs : numSegments - numCleaners ≤ s ∧ s < numSegments
  · rw [if_pos hs]
    exact (hnew s).startUsing false false
  · rw [if_neg hs]
    exact hnew s

/-- In a closed segment there is nothing to read but its items. -/
theorem Sound.itemAt_eq_read {log : LogStructured LogItem} (h : Sound log) {a : Addr}
    (hs : (log.segments a.segment).status = .closed) : log.itemAt a = log.read a := by
  rw [LogStructured.itemAt, LogStructured.read, (h a.segment).closed hs]

/-! ## Pointers -/

/-- **What the index, the workers and the cleaners point to.** -/
structure Pointers (σ : Sys) : Prop where
  /-- An entry of the index points to an item of the last `Put` of its key. -/
  index : ∀ k a, σ.index k = some a → a.segment < σ.log.numSegments
    ∧ ∃ item, σ.log.itemAt a = some item ∧ item.kv.key = k ∧ σ.latest k = some item.put
  /-- A key with a `Put` has an entry. -/
  latest : ∀ k p, σ.latest k = some p → ∃ a, σ.index k = some a
  /-- An item the index is not yet told about is in the worker's segment. -/
  pending : ∀ w a, σ.pending w = some a →
    σ.head w = some a.segment ∧ ∃ item, σ.log.itemAt a = some item
  /-- No entry points to an item that a cleaner has passed. -/
  scan : ∀ j k a, (σ.phase j).victim = some a.segment → σ.index k = some a →
    (σ.phase j).pos ≤ a.position
  /-- A copy is in the cleaner's segment, and is a copy. -/
  copy : ∀ j v pos a, σ.phase j = .copied v pos a → σ.log.reserved j = some a.segment
    ∧ ∃ item, σ.log.itemAt ⟨v, pos⟩ = some item ∧ σ.log.itemAt a = some item

/-- **The invariant of workers and cleaners.** -/
structure Inv (σ : Sys) : Prop where
  places : Places σ
  sound : Sound σ.log
  pointers : Pointers σ

/-! ## Other keys

None of this depends on the index having an entry for each key of an item: it may as
well be for something else that the cleaner reads off the item. -/

variable {key : LogItem → List UInt8}

/-- `Pointers` where the index has an entry for the `key` of an item. -/
structure PointersBy (key : LogItem → List UInt8) (σ : Sys) : Prop where
  index : ∀ k a, σ.index k = some a → a.segment < σ.log.numSegments
    ∧ ∃ item, σ.log.itemAt a = some item ∧ key item = k ∧ σ.latest k = some item.put
  latest : ∀ k p, σ.latest k = some p → ∃ a, σ.index k = some a
  pending : ∀ w a, σ.pending w = some a →
    σ.head w = some a.segment ∧ ∃ item, σ.log.itemAt a = some item
  scan : ∀ j k a, (σ.phase j).victim = some a.segment → σ.index k = some a →
    (σ.phase j).pos ≤ a.position
  copy : ∀ j v pos a, σ.phase j = .copied v pos a → σ.log.reserved j = some a.segment
    ∧ ∃ item, σ.log.itemAt ⟨v, pos⟩ = some item ∧ σ.log.itemAt a = some item

/-- `Inv` where the index has an entry for the `key` of an item. -/
structure InvBy (key : LogItem → List UInt8) (σ : Sys) : Prop where
  places : Places σ
  sound : Sound σ.log
  pointers : PointersBy key σ

theorem inv_iff_invBy : Inv σ ↔ InvBy (fun item => item.kv.key) σ :=
  ⟨fun h => ⟨h.places, h.sound, ⟨h.pointers.index, h.pointers.latest, h.pointers.pending,
      h.pointers.scan, h.pointers.copy⟩⟩,
    fun h => ⟨h.places, h.sound, ⟨h.pointers.index, h.pointers.latest, h.pointers.pending,
      h.pointers.scan, h.pointers.copy⟩⟩⟩

theorem invBy_init {numSegments numCleaners : ℕ} (hc : 0 < numCleaners)
    (pool : ℕ → SegmentImage LogItem) : InvBy key (Sys.init numSegments numCleaners pool) where
  places := places_init hc pool
  sound := sound_create numSegments numCleaners pool
  pointers := by
    refine ⟨fun k a h => ?_, fun k p h => ?_, fun w a h => ?_, fun j k a h => ?_,
      fun j v pos a h => ?_⟩ <;> cases h

/-- A step that changes no entry keeps the pointers if it loses no item, and if
what is new in the workers' and the cleaners' hands is as it should be. -/
theorem PointersBy.keep (h : PointersBy key σ) (hindex : σ'.index = σ.index)
    (hlatest : σ'.latest = σ.latest) (hnum : σ'.log.numSegments = σ.log.numSegments)
    (hitem : ∀ a item, σ.log.itemAt a = some item → σ'.log.itemAt a = some item)
    (hpending : ∀ w a, σ'.pending w = some a → (σ.pending w = some a ∧ σ'.head w = σ.head w)
      ∨ (σ'.head w = some a.segment ∧ ∃ item, σ'.log.itemAt a = some item))
    (hscan : ∀ j v, (σ'.phase j).victim = some v → (σ'.phase j).pos = 0
      ∨ ((σ.phase j).victim = some v ∧ (σ'.phase j).pos = (σ.phase j).pos))
    (hcopy : ∀ j v pos a, σ'.phase j = .copied v pos a →
      (σ.phase j = .copied v pos a ∧ σ'.log.reserved j = σ.log.reserved j)
        ∨ (σ'.log.reserved j = some a.segment
          ∧ ∃ item, σ'.log.itemAt ⟨v, pos⟩ = some item ∧ σ'.log.itemAt a = some item)) :
    PointersBy key σ' where
  index k a hk := by
    rw [hindex] at hk
    obtain ⟨hlt, item, ha, hkey, hput⟩ := h.index k a hk
    rw [hnum, hlatest]
    exact ⟨hlt, item, hitem a item ha, hkey, hput⟩
  latest k p hk := by
    rw [hlatest] at hk
    rw [hindex]
    exact h.latest k p hk
  pending w a hw := by
    rcases hpending w a hw with ⟨hw', hhead⟩ | hnew
    · obtain ⟨hseg, item, ha⟩ := h.pending w a hw'
      exact ⟨hhead.trans hseg, item, hitem a item ha⟩
    · exact hnew
  scan j k a hj hk := by
    rw [hindex] at hk
    rcases hscan j a.segment hj with hzero | ⟨hvictim, hpos⟩
    · rw [hzero]
      exact Nat.zero_le _
    · rw [hpos]
      exact h.scan j k a hvictim hk
  copy j v pos a hj := by
    rcases hcopy j v pos a hj with ⟨hj', hreserved⟩ | hnew
    · obtain ⟨hseg, item, hfrom, hto⟩ := h.copy j v pos a hj'
      exact ⟨hreserved.trans hseg, item, hitem _ item hfrom, hitem a item hto⟩
    · exact hnew

/-- The workers' and the cleaners' hands are as they were. -/
theorem PointersBy.keep_of_phase (h : PointersBy key σ) (hindex : σ'.index = σ.index)
    (hlatest : σ'.latest = σ.latest) (hnum : σ'.log.numSegments = σ.log.numSegments)
    (hitem : ∀ a, σ'.log.itemAt a = σ.log.itemAt a)
    (hpending : ∀ w a, σ'.pending w = some a → σ.pending w = some a ∧ σ'.head w = σ.head w)
    (hphase : σ'.phase = σ.phase)
    (hcopy : ∀ j v pos a, σ.phase j = .copied v pos a → σ'.log.reserved j = σ.log.reserved j) :
    PointersBy key σ' := by
  refine h.keep hindex hlatest hnum (fun a item ha => (hitem a).trans ha)
    (fun w a hw => Or.inl (hpending w a hw)) (fun j v hj => Or.inr ?_)
    (fun j v pos a hj => Or.inl ?_)
  · rw [hphase] at hj ⊢
    exact ⟨hj, rfl⟩
  · rw [hphase] at hj
    exact ⟨hj, hcopy j v pos a hj⟩

/-! ## Steps that change no entry -/

theorem InvBy.take (h : InvBy key σ) {w : ℕ} (hstep : take σ w = some σ') : InvBy key σ' := by
  refine ⟨h.places.take hstep, ?_, ?_⟩
  · obtain ⟨-, s, rest, -, rfl⟩ := take_eq_some hstep
    exact h.sound.update ((h.sound s).startUsing true true) rfl
  · obtain ⟨hhead, s, rest, -, rfl⟩ := take_eq_some hstep
    refine h.pointers.keep_of_phase rfl rfl rfl
      (LogStructured.itemAt_setSegment (LogSegment.items_startUsing _ _ _))
      (fun u a hu => ⟨hu, ?_⟩) rfl (fun _ _ _ _ _ => rfl)
    -- a worker without a segment has nothing pending
    have hne : u ≠ w := by
      rintro rfl
      rw [(h.pointers.pending u a hu).1] at hhead
      cases hhead
    exact Function.update_of_ne hne _ _

theorem InvBy.append (h : InvBy key σ) {w : ℕ} {kv : KVItem} (hstep : append σ w kv = some σ') :
    InvBy key σ' := by
  obtain ⟨s, a, log, hpending, hhead, happ, rfl⟩ := append_eq_some hstep
  obtain ⟨hb', ha, hkeep⟩ := LogStructured.itemAt_append h.sound.backed happ
  refine ⟨h.places.of_append h.sound.backed happ rfl rfl (fun _ => rfl),
    h.sound.append (h.places.status (.head w) s hhead) happ, ?_⟩
  obtain ⟨seg, -, rfl, rfl⟩ := LogStructured.append_eq_some h.sound.backed happ
  refine h.pointers.keep rfl rfl rfl hkeep (fun u b hu => ?_) (fun j v hj => Or.inr ⟨hj, rfl⟩)
    (fun j v pos b hj => Or.inl ⟨hj, rfl⟩)
  rcases update_eq_some hu with ⟨rfl, hb⟩ | ⟨-, hu⟩
  · obtain rfl := Option.some.inj hb
    exact Or.inr ⟨hhead, _, ha⟩
  · exact Or.inl ⟨hu, rfl⟩

theorem InvBy.freeze (h : InvBy key σ) {w : ℕ} (hstep : freeze σ w = some σ') : InvBy key σ' := by
  refine ⟨h.places.freeze hstep, ?_, ?_⟩
  · obtain ⟨s, -, -, rfl⟩ := freeze_eq_some hstep
    exact h.sound.freezeSegment (some s)
  · obtain ⟨s, hpending, -, rfl⟩ := freeze_eq_some hstep
    refine h.pointers.keep_of_phase rfl rfl (LogStructured.numSegments_freezeSegment _ _)
      (LogStructured.itemAt_freezeSegment _ _) (fun u a hu => ⟨hu, ?_⟩) rfl
      (fun j v pos a _ => ?_)
    · have hne : u ≠ w := by
        rintro rfl
        have hu' : σ.pending u = some a := hu
        rw [hpending] at hu'
        cases hu'
      exact Function.update_of_ne hne _ _
    · show (σ.log.freezeSegment (some s)).reserved j = σ.log.reserved j
      rw [LogStructured.freezeSegment_some h.places.cleaners]
      rfl

theorem InvBy.pick (h : InvBy key σ) {j v : ℕ} (hstep : pick σ j v = some σ') : InvBy key σ' := by
  refine ⟨h.places.pick hstep, ?_, ?_⟩
  · obtain ⟨-, -, rfl⟩ := pick_eq_some hstep
    exact h.sound
  · obtain ⟨-, -, rfl⟩ := pick_eq_some hstep
    refine h.pointers.keep rfl rfl rfl (fun _ _ ha => ha) (fun w a hw => Or.inl ⟨hw, rfl⟩)
      (fun i u hi => ?_) (fun i u pos a hi => Or.inl ⟨copied_of_update_scanning hi, rfl⟩)
    by_cases hij : i = j
    · subst hij
      exact Or.inl (by simp only [Function.update_self, Phase.pos])
    · simp only [Function.update_of_ne hij] at hi ⊢
      exact Or.inr ⟨hi, trivial⟩

/-- A cleaner that is not between a copy and its move may close its segment. -/
theorem PointersBy.releaseReserved (h : PointersBy key σ) {j : ℕ}
    (hphase : ∀ v pos a, σ.phase j ≠ .copied v pos a) :
    PointersBy key { σ with log := σ.log.releaseReserved j } := by
  refine h.keep_of_phase rfl rfl (LogStructured.numSegments_freezeSegment _ _)
    (LogStructured.itemAt_freezeSegment _ _) (fun w a hw => ⟨hw, rfl⟩) rfl
    (fun i v pos a hi => ?_)
  have hne : i ≠ j := by
    rintro rfl
    exact hphase v pos a hi
  exact Function.update_of_ne hne _ _

theorem InvBy.refill (h : InvBy key σ) {j : ℕ} (hstep : refill σ j = some σ') : InvBy key σ' := by
  refine ⟨h.places.refill hstep, ?_, ?_⟩
  · obtain ⟨v, pos, b, -, -, rfl⟩ := refill_eq_some hstep
    exact (h.sound.releaseReserved j).update ((h.sound.releaseReserved j b).startUsing false false)
      rfl
  · obtain ⟨v, pos, b, hphase, -, rfl⟩ := refill_eq_some hstep
    have hne : ∀ u p a, σ.phase j ≠ .copied u p a := by
      intro u p a he
      rw [hphase] at he
      cases he
    refine (h.pointers.releaseReserved hne).keep_of_phase rfl rfl rfl
      (LogStructured.itemAt_setSegment (LogSegment.items_startUsing _ _ _))
      (fun w a hw => ⟨hw, rfl⟩) rfl (fun i u p a hi => ?_)
    have hij : i ≠ j := by
      rintro rfl
      exact hne u p a hi
    exact Function.update_of_ne hij _ _

theorem InvBy.destroyCleaner (h : InvBy key σ) {j : ℕ} (hstep : destroyCleaner σ j = some σ') :
    InvBy key σ' := by
  refine ⟨h.places.destroyCleaner hstep, ?_, ?_⟩
  · obtain ⟨-, rfl⟩ := destroyCleaner_eq_some hstep
    exact h.sound.releaseReserved j
  · obtain ⟨hidle, rfl⟩ := destroyCleaner_eq_some hstep
    have hne : ∀ u p a, σ.phase j ≠ .copied u p a := by
      intro u p a he
      rw [hidle] at he
      cases he
    exact (h.pointers.releaseReserved hne).keep_of_phase rfl rfl rfl (fun _ => rfl)
      (fun w a hw => ⟨hw, rfl⟩) rfl (fun _ _ _ _ _ => rfl)

/-! ## Steps that change entries or pass items -/

/-- **A key gets a new entry**, which points to an item of the key in a segment
that no cleaner goes through. -/
theorem PointersBy.setEntry (h : PointersBy key σ) {a : Addr} {item : LogItem}
    (hlt : a.segment < σ.log.numSegments) (ha : σ.log.itemAt a = some item)
    (hvictim : ∀ j, (σ.phase j).victim ≠ some a.segment) :
    PointersBy key { σ with
      index := Function.update σ.index (key item) (some a)
      latest := Function.update σ.latest (key item) (some item.put) } := by
  refine ⟨fun k b hk => ?_, fun k p hk => ?_, h.pending, fun j k b hj hk => ?_, h.copy⟩
  · by_cases hkey : k = key item
    · subst hkey
      simp only [Function.update_self] at hk ⊢
      obtain rfl := Option.some.inj hk
      exact ⟨hlt, item, ha, rfl, rfl⟩
    · simp only [Function.update_of_ne hkey] at hk ⊢
      exact h.index k b hk
  · by_cases hkey : k = key item
    · subst hkey
      exact ⟨a, Function.update_self _ _ _⟩
    · simp only [Function.update_of_ne hkey] at hk ⊢
      exact h.latest k p hk
  · by_cases hkey : k = key item
    · subst hkey
      simp only [Function.update_self] at hk
      obtain rfl := Option.some.inj hk
      exact absurd hj (hvictim j)
    · simp only [Function.update_of_ne hkey] at hk
      exact h.scan j k b hj hk

/-- **A cleaner passes an item** to which no entry points. -/
theorem PointersBy.pass (h : PointersBy key σ) {j v pos : ℕ} (hv : (σ.phase j).victim = some v)
    (hpos : (σ.phase j).pos = pos) (hpast : ∀ k, σ.index k ≠ some ⟨v, pos⟩) :
    PointersBy key { σ with phase := Function.update σ.phase j (.scanning v (pos + 1)) } := by
  refine ⟨h.index, h.latest, h.pending, fun i k a hi hk => ?_,
    fun i u p a hi => h.copy i u p a (copied_of_update_scanning hi)⟩
  by_cases hij : i = j
  · subst hij
    simp only [Function.update_self] at hi ⊢
    obtain rfl : v = a.segment := Option.some.inj hi
    have hle := h.scan i k a hv hk
    rw [hpos] at hle
    rcases Nat.lt_or_eq_of_le hle with hlt | rfl
    · exact hlt
    · exact absurd hk (hpast k)
  · simp only [Function.update_of_ne hij] at hi ⊢
    exact h.scan i k a hi hk

/-- An entry that points to an item is the entry of the item's key. -/
theorem PointersBy.index_key (h : PointersBy key σ) {a : Addr} {item : LogItem} {k : List UInt8}
    (ha : σ.log.itemAt a = some item) (hk : σ.index k = some a) : k = key item := by
  obtain ⟨-, item', ha', rfl, -⟩ := h.index k a hk
  rw [Option.some.inj (ha.symm.trans ha')]

/-- What a cleaner reads in the segment it goes through is an item. -/
theorem InvBy.itemAt_victim (h : InvBy key σ) {j v pos : ℕ} {item : LogItem}
    (hj : (σ.phase j).victim = some v) (hread : σ.log.read ⟨v, pos⟩ = some item) :
    σ.log.itemAt ⟨v, pos⟩ = some item :=
  (h.sound.itemAt_eq_read (h.places.status (.victim j) v hj)).trans hread

/-- An item the index is not yet told about is in no segment that a cleaner goes
through. -/
theorem InvBy.pending_ne_victim (h : InvBy key σ) {w j v : ℕ} {a : Addr}
    (hw : σ.pending w = some a) (hj : (σ.phase j).victim = some v) : a.segment ≠ v := by
  rintro rfl
  have hhead := (h.pointers.pending w a hw).1
  exact Place.noConfusion (h.places.unique (.head w) (.victim j) _ hhead hj)

/-- Nor is a copy that the index is not yet moved to. -/
theorem InvBy.copy_ne_victim (h : InvBy key σ) {i j u p v : ℕ} {a : Addr}
    (hi : σ.phase i = .copied u p a) (hj : (σ.phase j).victim = some v) : a.segment ≠ v := by
  rintro rfl
  have hreserved := (h.pointers.copy i u p a hi).1
  exact Place.noConfusion (h.places.unique (.reserved i) (.victim j) _ hreserved hj)

/-- Two cleaners go through different segments. -/
theorem InvBy.victim_ne (h : InvBy key σ) {i j u v : ℕ} (hij : i ≠ j)
    (hi : (σ.phase i).victim = some u) (hj : (σ.phase j).victim = some v) : u ≠ v := by
  rintro rfl
  exact hij (Place.victim.inj (h.places.unique (.victim i) (.victim j) _ hi hj))

/-- **A worker tells the index where its item is.** -/
theorem InvBy.install (h : InvBy key σ) {w : ℕ} {a : Addr} {item : LogItem}
    (hw : σ.pending w = some a) (hread : σ.log.read a = some item) :
    InvBy key { σ with
      index := Function.update σ.index (key item) (some a)
      latest := Function.update σ.latest (key item) (some item.put)
      pending := Function.update σ.pending w none } := by
  obtain ⟨hhead, item', ha⟩ := h.pointers.pending w a hw
  obtain rfl : item' = item :=
    Option.some.inj ((LogStructured.read_of_itemAt ha).symm.trans hread)
  refine ⟨h.places.of_eq rfl rfl (fun _ => rfl), h.sound, ?_⟩
  have hset := h.pointers.setEntry (h.places.bound (.head w) _ hhead) ha
    (fun j hj => h.pending_ne_victim hw hj rfl)
  refine hset.keep_of_phase rfl rfl rfl (fun _ => rfl) (fun u b hu => ⟨?_, rfl⟩) rfl
    (fun _ _ _ _ _ => rfl)
  rcases update_eq_some hu with ⟨-, he⟩ | ⟨-, hu⟩
  · cases he
  · exact hu

/-- **A cleaner passes over garbage.** -/
theorem InvBy.skip (h : InvBy key σ) {j v pos : ℕ} {item : LogItem}
    (hphase : σ.phase j = .scanning v pos) (hread : σ.log.read ⟨v, pos⟩ = some item)
    (hgarbage : σ.index (key item) ≠ some ⟨v, pos⟩) :
    InvBy key { σ with phase := Function.update σ.phase j (.scanning v (pos + 1)) } := by
  have hvictim : (σ.phase j).victim = some v := by rw [hphase]; rfl
  refine ⟨h.places.of_eq rfl rfl (victim_update_eq hvictim.symm), h.sound,
    h.pointers.pass hvictim (by rw [hphase]; rfl) (fun k hk => ?_)⟩
  obtain rfl := h.pointers.index_key (h.itemAt_victim hvictim hread) hk
  exact hgarbage hk

/-- **A cleaner appends a copy.** -/
theorem InvBy.copyItem (h : InvBy key σ) {j v pos r : ℕ} {item : LogItem} {a : Addr}
    {log : LogStructured LogItem} (hphase : σ.phase j = .scanning v pos)
    (hread : σ.log.read ⟨v, pos⟩ = some item) (hr : σ.log.reserved j = some r)
    (happ : σ.log.append r item.kv.size item = some (a, log)) :
    InvBy key { σ with
      log := log
      phase := Function.update σ.phase j (.copied v pos a) } := by
  have hvictim : (σ.phase j).victim = some v := by rw [hphase]; rfl
  have hitem := h.itemAt_victim hvictim hread
  obtain ⟨-, ha, hkeep⟩ := LogStructured.itemAt_append h.sound.backed happ
  refine ⟨h.places.of_append h.sound.backed happ rfl rfl (victim_update_eq hvictim.symm),
    h.sound.append (h.places.status (.reserved j) r hr) happ, ?_⟩
  obtain ⟨seg, -, rfl, rfl⟩ := LogStructured.append_eq_some h.sound.backed happ
  refine h.pointers.keep rfl rfl rfl hkeep (fun w b hw => Or.inl ⟨hw, rfl⟩)
    (fun i u hi => Or.inr ?_) (fun i u p b hi => ?_)
  · by_cases hij : i = j
    · subst hij
      simp only [Function.update_self] at hi ⊢
      exact ⟨hvictim.trans hi, by rw [hphase]; rfl⟩
    · simp only [Function.update_of_ne hij] at hi ⊢
      exact ⟨hi, trivial⟩
  · by_cases hij : i = j
    · subst hij
      simp only [Function.update_self] at hi
      obtain ⟨rfl, rfl, rfl⟩ := Phase.copied.inj hi
      exact Or.inr ⟨hr, item, hkeep _ item hitem, ha⟩
    · simp only [Function.update_of_ne hij] at hi
      exact Or.inl ⟨hi, rfl⟩

/-- **A cleaner moves an entry to the copy**, or finds that it has changed. -/
theorem InvBy.move (h : InvBy key σ) {j v pos : ℕ} {copy : Addr} {item : LogItem}
    (hphase : σ.phase j = .copied v pos copy) (hread : σ.log.read ⟨v, pos⟩ = some item) :
    InvBy key { σ with
      index :=
        if σ.index (key item) = some ⟨v, pos⟩ then
          Function.update σ.index (key item) (some copy)
        else σ.index
      phase := Function.update σ.phase j (.scanning v (pos + 1)) } := by
  have hvictim : (σ.phase j).victim = some v := by rw [hphase]; rfl
  have hpos : (σ.phase j).pos = pos := by rw [hphase]; rfl
  have hitem := h.itemAt_victim hvictim hread
  refine ⟨h.places.of_eq rfl rfl (victim_update_eq hvictim.symm), h.sound, ?_⟩
  by_cases hindex : σ.index (key item) = some ⟨v, pos⟩
  · obtain ⟨hreserved, item', hfrom, hto⟩ := h.pointers.copy j v pos copy hphase
    obtain rfl : item' = item := Option.some.inj (hfrom.symm.trans hitem)
    obtain ⟨-, item, hold, -, hput⟩ := h.pointers.index _ _ hindex
    obtain rfl : item' = item := Option.some.inj (hitem.symm.trans hold)
    have hset := h.pointers.setEntry (h.places.bound (.reserved j) _ hreserved) hto
      (fun i hi => h.copy_ne_victim hphase hi rfl)
    rw [← hput, Function.update_eq_self] at hset
    rw [if_pos hindex]
    refine hset.pass hvictim hpos (fun k hk => ?_)
    obtain rfl := hset.index_key hitem hk
    simp only [Function.update_self] at hk
    obtain rfl := Option.some.inj hk
    exact h.copy_ne_victim hphase hvictim rfl
  · rw [if_neg hindex]
    refine h.pointers.pass hvictim hpos (fun k hk => ?_)
    obtain rfl := h.pointers.index_key hitem hk
    exact hindex hk

/-- Clearing a segment loses no item of another. -/
theorem itemAt_retire {log : LogStructured LogItem} {j v : ℕ} {a : Addr} (h : a.segment ≠ v) :
    (log.retire j v).itemAt a = log.itemAt a := by
  rw [LogStructured.itemAt, LogStructured.segments_retire, Function.update_of_ne h,
    LogStructured.itemAt]

/-- **A cleaner at the end of its segment has passed all items of it**, so no entry
points there. -/
theorem InvBy.segment_ne_of_end (h : InvBy key σ) {j v : ℕ}
    (hphase : σ.phase j = .scanning v (σ.log.segments v).data.length) {k : List UInt8} {a : Addr}
    (hk : σ.index k = some a) : a.segment ≠ v := by
  rintro rfl
  have hvictim : (σ.phase j).victim = some a.segment := by rw [hphase]; rfl
  obtain ⟨-, item, ha, -⟩ := h.pointers.index k a hk
  obtain ⟨hlt, -⟩ := List.getElem?_eq_some_iff.mp ha
  have hle := h.pointers.scan j k a hvictim hk
  rw [hphase] at hle
  rw [← (h.sound a.segment).closed (h.places.status (.victim j) _ hvictim)] at hlt
  exact absurd hle (Nat.not_le.mpr hlt)

theorem InvBy.finish (h : InvBy key σ) {j : ℕ} (hstep : finish σ j = some σ') : InvBy key σ' := by
  refine ⟨h.places.finish hstep, ?_, ?_⟩
  · obtain ⟨v, -, rfl⟩ := finish_eq_some hstep
    exact h.sound.update (SegmentSound.clear _) (LogStructured.segments_retire _ _ _)
  · obtain ⟨v, hphase, rfl⟩ := finish_eq_some hstep
    have hvictim : (σ.phase j).victim = some v := by rw [hphase]; rfl
    have hreserved : (σ.log.retire j v).reserved = σ.log.reserved := by
      unfold LogStructured.retire
      cases σ.log.backup j <;> rfl
    have hnum : (σ.log.retire j v).numSegments = σ.log.numSegments := by
      unfold LogStructured.retire
      cases σ.log.backup j <;> rfl
    have hother : ∀ i u p a, Function.update σ.phase j Phase.idle i = .copied u p a →
        i ≠ j ∧ σ.phase i = .copied u p a := by
      intro i u p a hi
      by_cases hij : i = j
      · subst hij
        rw [Function.update_self] at hi
        cases hi
      · rw [Function.update_of_ne hij] at hi
        exact ⟨hij, hi⟩
    refine ⟨fun k a hk => ?_, h.pointers.latest, fun w a hw => ?_, fun i k a hi hk => ?_,
      fun i u p a hi => ?_⟩
    · obtain ⟨hlt, hrest⟩ := h.pointers.index k a hk
      simp only [hnum, itemAt_retire (h.segment_ne_of_end hphase hk)]
      exact ⟨hlt, hrest⟩
    · simp only [itemAt_retire (h.pending_ne_victim hw hvictim)]
      exact h.pointers.pending w a hw
    · by_cases hij : i = j
      · subst hij
        simp only [Function.update_self] at hi
        cases hi
      · simp only [Function.update_of_ne hij] at hi ⊢
        exact h.pointers.scan i k a hi hk
    · obtain ⟨hij, hi⟩ := hother i u p a hi
      have hi' : (σ.phase i).victim = some u := by rw [hi]; rfl
      have hu : u ≠ v := h.victim_ne hij hi' hvictim
      have ha : a.segment ≠ v := h.copy_ne_victim hi hvictim
      simp only [hreserved, itemAt_retire (a := ⟨u, p⟩) hu, itemAt_retire ha]
      exact h.pointers.copy i u p a hi

/-! ## Runs -/

/-- **Every step keeps the invariant.** -/
theorem Inv.step (h : Inv σ) {e : Event} (hstep : step σ e = some σ') : Inv σ' := by
  rw [inv_iff_invBy] at h ⊢
  cases e with
  | take w => exact h.take hstep
  | append w kv => exact h.append hstep
  | install w =>
    obtain ⟨a, item, hw, hread, rfl⟩ := install_eq_some hstep
    exact h.install hw hread
  | freeze w => exact h.freeze hstep
  | pick j v => exact h.pick hstep
  | refill j => exact h.refill hstep
  | compactItem j =>
    obtain ⟨v, pos, item, hphase, hread, hcase⟩ := compactItem_eq_some hstep
    rcases hcase with ⟨hgarbage, rfl⟩ | ⟨r, a, log, hr, happ, rfl⟩
    · exact h.skip hphase hread hgarbage
    · exact h.copyItem hphase hread hr happ
  | gcMove j =>
    obtain ⟨v, pos, copy, item, hphase, hread, rfl⟩ := gcMove_eq_some hstep
    exact h.move hphase hread
  | finish j => exact h.finish hstep
  | destroyCleaner j => exact h.destroyCleaner hstep

/-- A new store has the invariant. -/
theorem inv_init {numSegments numCleaners : ℕ} (hc : 0 < numCleaners)
    (pool : ℕ → SegmentImage LogItem) : Inv (Sys.init numSegments numCleaners pool) :=
  inv_iff_invBy.mpr (invBy_init hc pool)

/-- **The invariant holds after any interleaving of workers and cleaners.** -/
theorem Inv.run (h : Inv σ) {events : List Event} (hrun : run σ events = some σ') : Inv σ' :=
  Machine.run_preserves CleaningLog.step (fun _ _ _ hi hs => hi.step hs) h hrun

end CleaningLog
