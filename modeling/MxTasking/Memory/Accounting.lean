import MxTasking.Memory.BlockTiling

/-!
# The free-space accounting of a block

`_available_size` is meant to be the sum of the free elements' sizes: `allocate` refuses
a request that is larger, and `free` adds what it gets back.  When `allocate` takes a whole
element it erases it and subtracts the size read through the erased iterator, which by then is
the size of the *next* element.

`Accounted` is what the number is for.  It survives a call of `allocate` exactly when the call
does not take a whole element that one of another size follows (`TakesBeforeOther`).

## Main results

* `Step.accounted_iff` — one step from an accounted state.
* `accounting_of_run` — every run that avoids the situation is accounted for throughout, and
  the first step that does not avoid it breaks the accounting.
-/

namespace MxTasking.Memory

open MxTasking.Verified
open MxTasking.Verified.Tiling

/-- The free space, counted. -/
def AllocationBlock.freeSize (b : AllocationBlock) : Nat := (b.freeElements.map Span.size).sum

/-- The number is the free space, and what follows for the next request: it
fails only where no free element has an aligned address with room for header and payload, and the
subtraction does not wrap. -/
structure State.Accounted (s : State) : Prop where
  available : s.block.availableSize = s.block.freeSize
  null : ∀ alignment size, Admissible alignment size →
    (s.block.allocate alignment size).2 = none → ∀ e ∈ s.block.freeElements,
      ¬ ∃ p, alignment ∣ p ∧ e.start + sizeofAllocatedHeader ≤ p ∧ p + size ≤ e.stop
  noWrap : ∀ alignment size, Admissible alignment size →
    (s.block.allocate alignment size).1.availableSize ≤ s.block.availableSize

/-- The element `find_block` chooses is taken as a whole, and the next one has another
size. -/
def AllocationBlock.takesBeforeOther (b : AllocationBlock) (alignment size : Nat) : Bool :=
  match b.findBlock alignment size with
  | none => false
  | some (index, e, taken) =>
      e.size - taken < 256 && b.freeElements[index + 1]?.any fun next => next.size ≠ e.size

/-- The steps that keep the accounting. -/
def KeepsAccount (s : State) : Event → Prop
  | .allocate alignment size => s.block.takesBeforeOther alignment size = false
  | .free _ => True
  | .write _ _ => True

instance (s : State) : DecidablePred (KeepsAccount s)
  | .allocate alignment size =>
      inferInstanceAs (Decidable (s.block.takesBeforeOther alignment size = false))
  | .free _ => isTrue trivial
  | .write _ _ => isTrue trivial

/-! ## Sums -/

/-- What is not free is in the regions of the live allocations. -/
theorem State.Inv.freeSize_add {base size : Nat} {s : State} (h : s.Inv base size) :
    s.block.freeSize + (s.regions.map Span.size).sum = size := by
  obtain ⟨rfl, rfl, ts, hTiled, hLive⟩ := h
  have hPerm := ((hTiled.spans_perm hLive).map Span.size).sum_eq
  have hSum := hTiled.tiles.sum_sizes
  rw [List.map_append, List.sum_append] at hPerm
  unfold AllocationBlock.freeSize
  omega

theorem State.Inv.freeSize_lt {base size : Nat} {s : State} (h : s.Inv base size) :
    s.block.freeSize < 2 ^ 64 := by
  have hSum := h.freeSize_add
  obtain ⟨rfl, rfl, ts, hTiled, -⟩ := h
  have := hTiled.inRange
  omega

/-- Freeing takes the region out of the list. -/
theorem State.regions_erase {s : State} {o : Allocation} {header : AllocatedHeader}
    (ho : o ∈ s.live) (hHeader : s.memory o.headerAddress = some header)
    (b : AllocationBlock) :
    (s.regions.map Span.size).sum
      = (AllocationBlock.regionOf o.headerAddress header).size
        + ((State.regions ⟨b, s.memory, s.live.erase o⟩).map Span.size).sum := by
  have hPerm := ((List.perm_cons_erase ho).filterMap fun o =>
    (s.memory o.headerAddress).map (AllocationBlock.regionOf o.headerAddress)).map Span.size
  rw [List.filterMap_cons_some (by rw [hHeader, Option.map_some])] at hPerm
  exact hPerm.sum_eq

namespace AllocationBlock

variable {b : AllocationBlock} {alignment size : Nat} {before after : List FreeHeader}
  {e : FreeHeader}

theorem freeSize_eq (hElements : b.freeElements = before ++ e :: after) :
    b.freeSize = (before.map Span.size).sum + e.size + (after.map Span.size).sum := by
  simp [freeSize, hElements, Nat.add_assoc]

theorem size_le_freeSize (he : e ∈ b.freeElements) : e.size ≤ b.freeSize := by
  obtain ⟨before, after, hElements⟩ := List.append_of_mem he
  rw [freeSize_eq hElements]
  omega

/-- What `allocate` reads through the erased iterator is a free element. -/
theorem headD_mem (hElements : b.freeElements = before ++ e :: after) :
    after.headD e ∈ b.freeElements := by
  rw [hElements]
  cases after with
  | nil => simp
  | cons x xs => simp

/-- A block that counts right refuses only what no element can hold. -/
theorem canHold_eq_false_of_null (hAdmissible : Admissible alignment size)
    (hStop : ∀ e ∈ b.freeElements, e.stop < 2 ^ 64) (hAvailable : b.availableSize = b.freeSize)
    (hReason : b.availableSize < size ∨ ∀ e ∈ b.freeElements, canHold alignment size e = false) :
    ∀ e ∈ b.freeElements, canHold alignment size e = false := by
  rcases hReason with hSmall | hNone
  · intro e he
    rw [Bool.eq_false_iff]
    intro hHold
    have hPlace := placement_of_canHold hAdmissible (hStop e he) hHold
    have := size_le_freeSize he
    have := hPlace.le
    have := hPlace.size_le
    omega
  · exact hNone

theorem takesBeforeOther_of_none
    (hNone : ∀ e ∈ b.freeElements, canHold alignment size e = false) :
    b.takesBeforeOther alignment size = false := by
  unfold takesBeforeOther findBlock
  rcases findBlockFrom_spec alignment size b.freeElements 0 with
    ⟨hEq, -⟩ | ⟨before, e, after, hElements, -, hHold, -⟩
  · rw [hEq]
  · rw [hNone e (by simp [hElements])] at hHold
    exact absurd hHold (by decide)

/-- The element behind the one that is taken. -/
theorem takesBeforeOther_eq_false_iff (hElements : b.freeElements = before ++ e :: after)
    (hFirst : ∀ x ∈ before, canHold alignment size x = false)
    (hHold : canHold alignment size e = true) :
    b.takesBeforeOther alignment size = false ↔
      (e.size - alignedSizeIncludingHeader alignment size e < 256 →
        (after.headD e).size = e.size) := by
  have hNext : b.freeElements[before.length + 1]? = after.head? := by
    cases after with
    | nil => simp [hElements]
    | cons x xs => simp [hElements]
  unfold takesBeforeOther
  rw [findBlock_eq hElements hFirst hHold]
  dsimp only
  rw [hNext]
  cases after with
  | nil => simp
  | cons x xs => simp

end AllocationBlock

/-! ## One step -/

/-- The number alone gives the rest. -/
theorem State.Inv.accounted {base size : Nat} {s : State} (h : s.Inv base size)
    (hAvailable : s.block.availableSize = s.block.freeSize) : s.Accounted := by
  have hLt := h.freeSize_lt
  obtain ⟨-, -, ts, hTiled, -⟩ := h
  have hStop := hTiled.freeElements_stop_lt
  refine ⟨hAvailable, fun alignment size hAdmissible hNull e he hRoom => ?_,
    fun alignment size hAdmissible => ?_⟩
  · have hHold := (AllocationBlock.canHold_iff hAdmissible (hStop e he)).mpr hRoom
    have hOutcome := s.block.allocate_outcome hAdmissible hStop
    generalize s.block.allocate alignment size = result at hOutcome hNull
    cases hOutcome with
    | null hReason =>
        rw [AllocationBlock.canHold_eq_false_of_null hAdmissible hStop hAvailable hReason e he]
          at hHold
        exact absurd hHold (by decide)
    | contracted => exact absurd hNull (by simp)
    | swallowed => exact absurd hNull (by simp)
  · have hOutcome := s.block.allocate_outcome hAdmissible hStop
    generalize s.block.allocate alignment size = result at hOutcome
    cases hOutcome with
    | null => exact le_refl _
    | contracted before after e taken hElements _ _ _ hPlace _ =>
        have := AllocationBlock.freeSize_eq hElements
        have := hPlace.le
        show sub64 s.block.availableSize taken ≤ s.block.availableSize
        rw [sub64_eq (by omega) (by omega)]
        omega
    | swallowed before after e taken hElements =>
        have := AllocationBlock.size_le_freeSize (AllocationBlock.headD_mem hElements)
        show sub64 s.block.availableSize (after.headD e).size ≤ s.block.availableSize
        rw [sub64_eq (by omega) (by omega)]
        omega

/-- A call of `allocate` from a state with the right number. -/
theorem State.Inv.allocate_available_iff {base size : Nat} {s : State} (h : s.Inv base size)
    (hAvailable : s.block.availableSize = s.block.freeSize) {alignment requested : Nat}
    (hAdmissible : Admissible alignment requested) :
    (s.block.allocate alignment requested).1.availableSize
        = (s.block.allocate alignment requested).1.freeSize ↔
      s.block.takesBeforeOther alignment requested = false := by
  have hLt := h.freeSize_lt
  obtain ⟨-, -, ts, hTiled, -⟩ := h
  have hStop := hTiled.freeElements_stop_lt
  have hOutcome := s.block.allocate_outcome hAdmissible hStop
  generalize s.block.allocate alignment requested = result at hOutcome
  cases hOutcome with
  | null hReason =>
      refine iff_of_true hAvailable (AllocationBlock.takesBeforeOther_of_none ?_)
      exact AllocationBlock.canHold_eq_false_of_null hAdmissible hStop hAvailable hReason
  | contracted before after e taken hElements hTaken hHold hFirst hPlace hRest =>
      rw [AllocationBlock.takesBeforeOther_eq_false_iff hElements hFirst hHold]
      have hOld := AllocationBlock.freeSize_eq hElements
      have hLe := hPlace.le
      refine iff_of_true ?_ (fun hSmall => absurd hSmall (by omega))
      rw [AllocationBlock.freeSize_eq rfl]
      show sub64 s.block.availableSize taken = _
      rw [sub64_eq (by omega) (by omega)]
      dsimp only
      omega
  | swallowed before after e taken hElements hTaken hHold hFirst hPlace hRest =>
      rw [AllocationBlock.takesBeforeOther_eq_false_iff hElements hFirst hHold]
      have hOld := AllocationBlock.freeSize_eq hElements
      have hNext := AllocationBlock.size_le_freeSize (AllocationBlock.headD_mem hElements)
      have hNew : AllocationBlock.freeSize { s.block with
          freeElements := before ++ after
          availableSize := sub64 s.block.availableSize (after.headD e).size }
          = (before.map Span.size).sum + (after.map Span.size).sum := by
        simp [AllocationBlock.freeSize]
      rw [hNew]
      show sub64 s.block.availableSize (after.headD e).size = _ ↔ _
      rw [sub64_eq (by omega) (by omega)]
      constructor
      · intro hEq _
        omega
      · intro hEq
        have := hEq (by omega)
        omega

/-- A step from a state with the right number. -/
theorem Step.available_iff {s s' : State} {ev : Event} {base size : Nat}
    (h : s.Inv base size) (hAvailable : s.block.availableSize = s.block.freeSize)
    (hStep : Step s ev s') :
    s'.block.availableSize = s'.block.freeSize ↔ KeepsAccount s ev := by
  have hInv' := Step.inv h hStep
  cases hStep with
  | null hAdmissible hCall =>
      have hIff := h.allocate_available_iff hAvailable hAdmissible
      rwa [hCall] at hIff
  | allocate hAdmissible hCall =>
      have hIff := h.allocate_available_iff hAvailable hAdmissible
      rwa [hCall] at hIff
  | @free o header ho hHeader =>
      refine iff_of_true ?_ trivial
      have hSum := h.freeSize_add
      have hSum' := hInv'.freeSize_add
      rw [State.regions_erase ho hHeader (s.block.free o.headerAddress header)] at hSum
      have hLt := hInv'.freeSize_lt
      dsimp only at hSum' hLt
      show add64 s.block.availableSize (AllocationBlock.regionOf o.headerAddress header).size = _
      rw [add64_eq (by omega)]
      dsimp only
      omega
  | write => exact iff_of_true hAvailable trivial

theorem Step.accounted_iff {s s' : State} {ev : Event} {base size : Nat}
    (h : s.Inv base size) (hAccounted : s.Accounted) (hStep : Step s ev s') :
    s'.Accounted ↔ KeepsAccount s ev := by
  rw [← Step.available_iff h hAccounted.available hStep]
  exact ⟨fun h' => h'.available, (Step.inv h hStep).accounted⟩

/-! ## Every run -/

/-- A run is accounted for as long as no step takes a whole free element that one of
another size follows; the first step that does leaves a state that is not. -/
theorem accounting_of_run {id : UInt32} {numaNodeId : UInt8} {size base : Nat}
    {m : HeaderMemory} {es : List Event} {s : State} (hRange : base + size < 2 ^ 64)
    (hRun : Run (Guarded Step KeepsAccount) (State.init id numaNodeId size base m) es s) :
    s.Accounted ∧ ∀ ev s', Step s ev s' → (s'.Accounted ↔ KeepsAccount s ev) := by
  have hInit := State.inv_init id numaNodeId hRange m
  have hBoth : s.Inv base size ∧ s.Accounted := by
    refine hRun.invariant (P := fun s => s.Inv base size ∧ s.Accounted)
      ⟨hInit, hInit.accounted (by simp [State.init, AllocationBlock.construct,
        AllocationBlock.freeSize])⟩ ?_
    rintro ev mid fin ⟨hInv, hAccounted⟩ ⟨hKeeps, hStep⟩
    exact ⟨Step.inv hInv hStep, (Step.accounted_iff hInv hAccounted hStep).mpr hKeeps⟩
  exact ⟨hBoth.2, fun ev s' hStep => Step.accounted_iff hBoth.1 hBoth.2 hStep⟩

/-- A block of 4096 bytes, with one allocation that is freed again. -/
theorem accounting_of_run_free : ∃ s,
    Run (Guarded Step KeepsAccount) (State.init 0 0 4096 65536 fun _ => none)
      [.allocate 64 100, .free ⟨69504, 64, 100⟩] s ∧ s.Accounted := by
  have hAdmissible : Admissible 64 100 := ⟨⟨6, rfl⟩, by decide⟩
  have hAllocate := Step.allocate (s := State.init 0 0 4096 65536 fun _ => none) hAdmissible
    (show _ = (⟨0, 0, 4096, 65536, [⟨65536, 3952⟩], 3952⟩,
      some (69488, ⟨128, 0, 0, 0⟩)) by decide)
  have hFirst : Guarded Step KeepsAccount _ _ _ := ⟨by decide, hAllocate⟩
  have hRun := (Run.single hFirst).snoc
    ⟨show KeepsAccount _ (.free ⟨69504, 64, 100⟩) from trivial,
      Step.free (by decide) (show _ = some ⟨128, 0, 0, 0⟩ by decide)⟩
  exact ⟨_, hRun, (accounting_of_run (by decide) hRun).1⟩

/-- 528 and 128 bytes are taken from a block of 1024, and the 528 bytes behind are given
back.  The next request takes the element in front as a whole, 368 bytes, and the block subtracts
528: it then refuses 400 bytes although there is room for them, and granting 300 wraps. -/
theorem allocate_miscounts : ∃ s,
    Run Step (State.init 0 0 1024 65536 fun _ => none)
      [.allocate 64 500, .allocate 64 100, .free ⟨66048, 64, 500⟩, .allocate 64 200] s ∧
    s.block.availableSize ≠ s.block.freeSize ∧
    (Admissible 64 400 ∧ (s.block.allocate 64 400).2 = none ∧ ∃ e ∈ s.block.freeElements,
      ∃ p, 64 ∣ p ∧ e.start + sizeofAllocatedHeader ≤ p ∧ p + 400 ≤ e.stop) ∧
    Admissible 64 300 ∧
      s.block.availableSize < (s.block.allocate 64 300).1.availableSize := by
  have hFirst := Step.allocate (s := State.init 0 0 1024 65536 fun _ => none)
    (show Admissible 64 500 from ⟨⟨6, rfl⟩, by decide⟩)
    (show _ = (⟨0, 0, 1024, 65536, [⟨65536, 496⟩], 496⟩,
      some (66032, ⟨512, 0, 0, 0⟩)) by decide)
  have hSecond := (Run.single hFirst).snoc (Step.allocate
    (show Admissible 64 100 from ⟨⟨6, rfl⟩, by decide⟩)
    (show _ = (⟨0, 0, 1024, 65536, [⟨65536, 368⟩], 368⟩,
      some (65904, ⟨112, 0, 0, 0⟩)) by decide))
  have hThird := hSecond.snoc (Step.free (o := ⟨66048, 64, 500⟩) (by decide)
    (show _ = some ⟨512, 0, 0, 0⟩ by decide))
  have hRun := hThird.snoc (Step.allocate (show Admissible 64 200 from ⟨⟨6, rfl⟩, by decide⟩)
    (show _ = (⟨0, 0, 1024, 65536, [⟨66032, 528⟩], 368⟩,
      some (65648, ⟨240, 112, 0, 0⟩)) by decide))
  exact ⟨_, hRun, by decide, ⟨⟨⟨6, rfl⟩, by decide⟩, by decide, ⟨66032, 528⟩, by decide, 66112,
    by decide, by decide, by decide⟩, ⟨⟨6, rfl⟩, by decide⟩, by decide⟩

end MxTasking.Memory
