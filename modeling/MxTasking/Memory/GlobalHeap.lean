import MxTasking.Verified.TransitionSystem
import Mathlib.Data.UInt

/-!
# Giving memory back to the heaps of the NUMA nodes

`GlobalHeap::local_free` of `global_heap.h`.  The caller names the node it believes the memory to
be from, and a heap that does not own the memory throws.  The loop then goes on with the next heap;
it is left when the counter of the tries is back at zero, whatever the last try has given.

The heaps of the operating system are outside the repository.  `RegionalHeap` is what the loop
relies on: `free` throws, without an effect, unless the memory is allocated from that heap.

Two things follow from the exit test.  Memory that the first heap does not own is given to
`std::free` in the end, also when one of the later heaps has taken it.  And from a node
that is neither the first nor the last, the tries go over that node and the nodes from zero on,
and leave before the last node.

## Main results

* `loop_of_at` — after a failed try the loop ends without success, with the nodes it has tried.
* `frees_once_iff` — the memory is freed once exactly when the named node owns it, or nobody does
  and the named node is the first or the last.
-/

namespace MxTasking.Memory.GlobalHeap

/-- `Genode::Regional_heap`, with `none` for `Invalid_dataspace`. -/
structure RegionalHeap (η : Type) where
  allocated : η → Nat → Bool
  free : η → Nat → Nat → Option η
  free_isSome : ∀ heap ptr size, (free heap ptr size).isSome = allocated heap ptr
  free_allocated : ∀ heap heap' ptr size,
    free heap ptr size = some heap' → allocated heap' ptr = false

/-- What is done with the pointer: a `free` of the heap of a node, which succeeds or
throws, or `std::free`. -/
inductive Call where
  | heapFree (nodeId : UInt8) (success : Bool)
  | stdFree
  deriving DecidableEq, Repr

/-- The heaps, the local variables of `local_free` and the calls so far. -/
structure LocalFree (η : Type) where
  heaps : UInt8 → η
  nodeId : UInt8
  nextTry : UInt8
  success : Bool
  calls : List Call

section Program

variable {η : Type} (H : RegionalHeap η) (maxNodeId : UInt8) (ptr size : Nat)

/-- `(next_try + 1) % (max_node_id() + 1)`, computed in `int`. -/
def successor (nextTry : UInt8) : UInt8 :=
  UInt8.ofNat ((nextTry.toNat + 1) % (maxNodeId.toNat + 1))

/-- The body of the loop. -/
def round (s : LocalFree η) : LocalFree η :=
  match H.free (s.heaps s.nodeId) ptr size with
  | some heap =>
      { s with
        heaps := Function.update s.heaps s.nodeId heap
        success := true
        calls := s.calls ++ [.heapFree s.nodeId true] }
  | none =>
      { s with
        success := false
        nodeId := if s.nodeId = s.nextTry then successor maxNodeId s.nextTry else s.nextTry
        nextTry := successor maxNodeId s.nextTry
        calls := s.calls ++ [.heapFree s.nodeId false] }

/-- `do … while (next_try != 0)`; `none` when the fuel is used up. -/
def loop : Nat → LocalFree η → Option (LocalFree η)
  | 0, _ => none
  | fuel + 1, s =>
      let s := round H maxNodeId ptr size s
      if s.nextTry ≠ 0 then loop fuel s else some s

/-- `local_free(ptr, size, node_id)`. -/
def localFree (fuel : Nat) (heaps : UInt8 → η) (nodeId : UInt8) : Option (LocalFree η) :=
  (loop H maxNodeId ptr size fuel ⟨heaps, nodeId, 0, false, []⟩).map fun s =>
    if s.success then s else { s with calls := s.calls ++ [.stdFree] }

end Program

/-! ## One round -/

section Round

variable {η : Type} {H : RegionalHeap η} {maxNodeId : UInt8} {ptr : Nat}

/-- The node of try number `t` when the caller names `start`. -/
def place (start t : Nat) : Nat :=
  if t = 0 then start else if start = 0 then t else t - 1

/-- The loop is in front of try number `t`. -/
structure At (maxNodeId : UInt8) (start t : Nat) (s : LocalFree η) : Prop where
  nodeId : s.nodeId.toNat = place start t
  nextTry : s.nextTry.toNat = t
  le : t ≤ maxNodeId.toNat

theorem successor_toNat (nextTry : UInt8) :
    (successor maxNodeId nextTry).toNat = (nextTry.toNat + 1) % (maxNodeId.toNat + 1) := by
  have hLess : (nextTry.toNat + 1) % (maxNodeId.toNat + 1) < maxNodeId.toNat + 1 :=
    Nat.mod_lt _ (Nat.succ_pos _)
  have hMax : maxNodeId.toNat < 256 := maxNodeId.toNat_lt
  rw [successor, UInt8.toNat_ofNat']
  exact Nat.mod_eq_of_lt (by omega)

theorem round_of_allocated (maxNodeId : UInt8) (size : Nat) {s : LocalFree η}
    (h : H.allocated (s.heaps s.nodeId) ptr = true) :
    ∃ heap, H.allocated heap ptr = false ∧ round H maxNodeId ptr size s =
      { s with
        heaps := Function.update s.heaps s.nodeId heap
        success := true
        calls := s.calls ++ [.heapFree s.nodeId true] } := by
  rw [← H.free_isSome _ _ size] at h
  obtain ⟨heap, hFree⟩ := Option.isSome_iff_exists.mp h
  exact ⟨heap, H.free_allocated _ _ _ _ hFree, by rw [round, hFree]⟩

theorem round_of_not_allocated (maxNodeId : UInt8) (size : Nat) {s : LocalFree η}
    (h : H.allocated (s.heaps s.nodeId) ptr = false) :
    round H maxNodeId ptr size s =
      { s with
        success := false
        nodeId := if s.nodeId = s.nextTry then successor maxNodeId s.nextTry else s.nextTry
        nextTry := successor maxNodeId s.nextTry
        calls := s.calls ++ [.heapFree s.nodeId false] } := by
  rw [← H.free_isSome _ _ size, Option.isSome_eq_false_iff, Option.isNone_iff_eq_none] at h
  rw [round, h]

/-- A failed try that is not the last one leads to the next try. -/
theorem At.next {start t : Nat} {s s' : LocalFree η} (h : At maxNodeId start t s)
    (hLess : t < maxNodeId.toNat)
    (hNode : s'.nodeId = if s.nodeId = s.nextTry then successor maxNodeId s.nextTry else s.nextTry)
    (hTry : s'.nextTry = successor maxNodeId s.nextTry) : At maxNodeId start (t + 1) s' := by
  have hSuccessor : (successor maxNodeId s.nextTry).toNat = t + 1 := by
    rw [successor_toNat, h.nextTry]
    exact Nat.mod_eq_of_lt (by omega)
  have hEq : s.nodeId = s.nextTry ↔ place start t = t := by
    rw [← UInt8.toNat_inj, h.nodeId, h.nextTry]
  refine ⟨?_, by rw [hTry, hSuccessor], hLess⟩
  rw [hNode]
  split
  next hSame =>
    rw [hEq] at hSame
    rw [hSuccessor]
    grind [place]
  next hOther =>
    rw [hEq] at hOther
    rw [h.nextTry]
    grind [place]

end Round

/-! ## The loop -/

/-- The heap of a node has been tried. -/
def Tried (calls : List Call) (i : UInt8) : Prop := ∃ success, Call.heapFree i success ∈ calls

theorem tried_append {calls : List Call} {i j : UInt8} {success : Bool} :
    Tried (calls ++ [.heapFree j success]) i ↔ Tried calls i ∨ i = j := by
  constructor
  · rintro ⟨success', hMem⟩
    rcases List.mem_append.mp hMem with hOld | hNew
    · exact Or.inl ⟨success', hOld⟩
    · rw [List.mem_singleton, Call.heapFree.injEq] at hNew
      exact Or.inr hNew.1
  · rintro (⟨success', hOld⟩ | rfl)
    · exact ⟨success', List.mem_append_left _ hOld⟩
    · exact ⟨success, by simp⟩

section Loop

variable {η : Type} {H : RegionalHeap η} {maxNodeId : UInt8} {ptr size : Nat}

/-- A loop that has ended ends in the same way with more fuel. -/
theorem loop_add {fuel : Nat} {s s' : LocalFree η}
    (h : loop H maxNodeId ptr size fuel s = some s') (more : Nat) :
    loop H maxNodeId ptr size (fuel + more) s = some s' := by
  induction fuel generalizing s with
  | zero => simp [loop] at h
  | succ fuel ih =>
      rw [Nat.add_right_comm, loop]
      rw [loop] at h
      split at h
      next hNext =>
        rw [if_pos hNext]
        exact ih h
      next hEnd =>
        rw [if_neg hEnd]
        exact h

/-- The loop started in `s` ends without success, and has tried the nodes from try `t` on. -/
def EndsWithout (H : RegionalHeap η) (maxNodeId : UInt8) (ptr size start t : Nat)
    (s : LocalFree η) : Prop :=
  ∃ fuel s', loop H maxNodeId ptr size fuel s = some s' ∧ s'.success = false ∧
    ∀ i, Tried s'.calls i ↔
      Tried s.calls i ∨ ∃ t', t ≤ t' ∧ t' ≤ maxNodeId.toNat ∧ i.toNat = place start t'

/-- A round after which the loop goes on, in front of the same try or of the next one. -/
theorem EndsWithout.step {start t t' : Nat} {success : Bool} {s : LocalFree η}
    (hAt : At maxNodeId start t s) (hT : t' = t ∨ t' = t + 1)
    (hNext : (round H maxNodeId ptr size s).nextTry ≠ 0)
    (hCalls : (round H maxNodeId ptr size s).calls = s.calls ++ [.heapFree s.nodeId success])
    (h : EndsWithout H maxNodeId ptr size start t' (round H maxNodeId ptr size s)) :
    EndsWithout H maxNodeId ptr size start t s := by
  obtain ⟨fuel, s', hLoop, hSuccess, hTried⟩ := h
  refine ⟨fuel + 1, s', by rw [loop, if_pos hNext, hLoop], hSuccess, fun i => ?_⟩
  rw [hTried, hCalls, tried_append, ← UInt8.toNat_inj, hAt.nodeId]
  have := hAt.le
  grind

/-- The last try fails. -/
theorem endsWithout_last {start : Nat} {s : LocalFree η}
    (hAt : At maxNodeId start maxNodeId.toNat s)
    (hFree : H.allocated (s.heaps s.nodeId) ptr = false) :
    EndsWithout H maxNodeId ptr size start maxNodeId.toNat s := by
  have hRound := round_of_not_allocated maxNodeId size hFree
  have hZero : (round H maxNodeId ptr size s).nextTry = 0 := by
    rw [hRound, ← UInt8.toNat_inj, successor_toNat, hAt.nextTry, Nat.mod_self]
    rfl
  refine ⟨1, _, by rw [loop, if_neg (not_not.mpr hZero)], by rw [hRound], fun i => ?_⟩
  rw [hRound, tried_append, ← UInt8.toNat_inj, hAt.nodeId]
  grind

/-- A try that fails, at one of the later heaps or at the first one. -/
theorem endsWithout_of_not_allocated {start t : Nat} {s : LocalFree η}
    (hAt : At maxNodeId start t s) (hFree : H.allocated (s.heaps s.nodeId) ptr = false)
    (hLater : ∀ s' : LocalFree η, t < maxNodeId.toNat → At maxNodeId start (t + 1) s' →
      EndsWithout H maxNodeId ptr size start (t + 1) s') :
    EndsWithout H maxNodeId ptr size start t s := by
  rcases Nat.lt_or_eq_of_le hAt.le with hLess | rfl
  · have hRound := round_of_not_allocated maxNodeId size hFree
    have hAt' : At maxNodeId start (t + 1) (round H maxNodeId ptr size s) :=
      hAt.next hLess (by rw [hRound]) (by rw [hRound])
    have hNext : (round H maxNodeId ptr size s).nextTry ≠ 0 := by
      intro hZero
      have := hAt'.nextTry
      rw [hZero] at this
      simp at this
    exact EndsWithout.step hAt (Or.inr rfl) hNext (by rw [hRound]) (hLater _ hLess hAt')
  · exact endsWithout_last hAt hFree

/-- A heap that takes the memory in a later try is asked once more, since the counter of the tries
is not zero, and throws then. -/
theorem endsWithout_of_allocated {start t : Nat} {s : LocalFree η}
    (hAt : At maxNodeId start t s) (hPos : 0 < t)
    (hFree : H.allocated (s.heaps s.nodeId) ptr = true)
    (hLater : ∀ s' : LocalFree η, t < maxNodeId.toNat → At maxNodeId start (t + 1) s' →
      EndsWithout H maxNodeId ptr size start (t + 1) s') :
    EndsWithout H maxNodeId ptr size start t s := by
  obtain ⟨heap, hTaken, hRound⟩ := round_of_allocated maxNodeId size hFree
  have hAt' : At maxNodeId start t (round H maxNodeId ptr size s) := by
    rw [hRound]
    exact ⟨hAt.nodeId, hAt.nextTry, hAt.le⟩
  have hNext : (round H maxNodeId ptr size s).nextTry ≠ 0 := by
    intro hZero
    have hTry := hAt'.nextTry
    rw [hZero] at hTry
    exact absurd hTry.symm (Nat.pos_iff_ne_zero.mp hPos)
  have hFree' : H.allocated ((round H maxNodeId ptr size s).heaps
      (round H maxNodeId ptr size s).nodeId) ptr = false := by
    rw [hRound]
    simpa using hTaken
  exact EndsWithout.step hAt (Or.inl rfl) hNext (by rw [hRound])
    (endsWithout_of_not_allocated hAt' hFree' hLater)

/-- After a failed try the loop ends without success. -/
theorem loop_of_at {start : Nat} (remaining : Nat) {t : Nat} {s : LocalFree η}
    (hAt : At maxNodeId start t s) (hRemaining : t + remaining = maxNodeId.toNat) (hPos : 0 < t) :
    EndsWithout H maxNodeId ptr size start t s := by
  induction remaining generalizing t s with
  | zero =>
      have hLater : ∀ s' : LocalFree η, t < maxNodeId.toNat → At maxNodeId start (t + 1) s' →
          EndsWithout H maxNodeId ptr size start (t + 1) s' :=
        fun _ hLess _ => absurd hLess (by omega)
      by_cases hFree : H.allocated (s.heaps s.nodeId) ptr = true
      · exact endsWithout_of_allocated hAt hPos hFree hLater
      · exact endsWithout_of_not_allocated hAt (by simpa using hFree) hLater
  | succ remaining ih =>
      have hLater : ∀ s' : LocalFree η, t < maxNodeId.toNat → At maxNodeId start (t + 1) s' →
          EndsWithout H maxNodeId ptr size start (t + 1) s' :=
        fun _ _ hAt' => ih hAt' (by omega) (Nat.succ_pos t)
      by_cases hFree : H.allocated (s.heaps s.nodeId) ptr = true
      · exact endsWithout_of_allocated hAt hPos hFree hLater
      · exact endsWithout_of_not_allocated hAt (by simpa using hFree) hLater

end Loop

/-! ## The call -/

section Call

variable {η : Type} {H : RegionalHeap η} {maxNodeId : UInt8} {ptr size : Nat} {heaps : UInt8 → η}
  {nodeId : UInt8}

/-- What `local_free` is for: it ends; memory that a heap owns is taken by one heap, after heaps
that have thrown, and nothing else is done with it; and `std::free` gets only memory that no heap
owns, after all of them have been tried. -/
def FreesOnce (H : RegionalHeap η) (maxNodeId : UInt8) (ptr size : Nat) (heaps : UInt8 → η)
    (nodeId : UInt8) : Prop :=
  ∃ fuel s, localFree H maxNodeId ptr size fuel heaps nodeId = some s ∧
    ((∃ i ≤ maxNodeId, H.allocated (heaps i) ptr = true) →
      ∃ (before : List UInt8) (i : UInt8),
        s.calls = before.map (Call.heapFree · false) ++ [.heapFree i true]) ∧
    (Call.stdFree ∈ s.calls → ∀ i ≤ maxNodeId,
      H.allocated (heaps i) ptr = false ∧ Tried s.calls i)

/-- More fuel changes nothing. -/
theorem localFree_unique {fuel fuel' : Nat} {s s' : LocalFree η}
    (h : localFree H maxNodeId ptr size fuel heaps nodeId = some s)
    (h' : localFree H maxNodeId ptr size fuel' heaps nodeId = some s') : s = s' := by
  obtain ⟨r, hLoop, rfl⟩ := Option.map_eq_some_iff.mp h
  obtain ⟨r', hLoop', rfl⟩ := Option.map_eq_some_iff.mp h'
  have hSame := loop_add hLoop fuel'
  rw [Nat.add_comm, loop_add hLoop' fuel, Option.some.injEq] at hSame
  rw [hSame]

/-- The named node owns the memory. -/
theorem localFree_of_allocated (maxNodeId : UInt8) (size : Nat)
    (h : H.allocated (heaps nodeId) ptr = true) :
    ∃ s, localFree H maxNodeId ptr size 1 heaps nodeId = some s ∧
      s.calls = [.heapFree nodeId true] := by
  obtain ⟨heap, -, hRound⟩ := round_of_allocated maxNodeId size
    (s := ⟨heaps, nodeId, 0, false, []⟩) h
  refine ⟨⟨Function.update heaps nodeId heap, nodeId, 0, true, [.heapFree nodeId true]⟩, ?_, rfl⟩
  rw [localFree, loop, hRound]
  rfl

/-- The named node does not own the memory. -/
theorem localFree_of_not_allocated (maxNodeId : UInt8) (size : Nat)
    (h : H.allocated (heaps nodeId) ptr = false) :
    ∃ fuel s, localFree H maxNodeId ptr size fuel heaps nodeId = some s ∧
      Call.stdFree ∈ s.calls ∧
      ∀ i, Tried s.calls i ↔ ∃ t ≤ maxNodeId.toNat, i.toNat = place nodeId.toNat t := by
  have hAt : At maxNodeId nodeId.toNat 0 (⟨heaps, nodeId, 0, false, []⟩ : LocalFree η) :=
    ⟨rfl, rfl, Nat.zero_le _⟩
  have hEnds : EndsWithout H maxNodeId ptr size nodeId.toNat 0 ⟨heaps, nodeId, 0, false, []⟩ :=
    endsWithout_of_not_allocated hAt h fun s' hLess hAt' =>
      loop_of_at (maxNodeId.toNat - 1) hAt' (by omega) Nat.one_pos
  obtain ⟨fuel, s, hLoop, hSuccess, hTried⟩ := hEnds
  refine ⟨fuel, _, by rw [localFree, hLoop]; rfl, ?_, fun i => ?_⟩
  · simp [hSuccess]
  · have hSame : Tried (s.calls ++ [.stdFree]) i ↔ Tried s.calls i := by simp [Tried]
    simp only [hSuccess, Bool.false_eq_true, if_false]
    rw [hSame, hTried]
    simp [Tried]

/-- The tries reach every node exactly when they start at the first or at the last one. -/
theorem place_covers {start last : Nat} (hStart : start ≤ last) :
    (∀ i ≤ last, ∃ t ≤ last, i = place start t) ↔ start = 0 ∨ start = last := by
  constructor
  · intro hCovers
    obtain ⟨t, hLe, hLast⟩ := hCovers last (Nat.le_refl last)
    grind [place]
  · rintro (rfl | rfl) i hi
    · exact ⟨i, hi, by grind [place]⟩
    · by_cases hEq : i = start
      · exact ⟨0, Nat.zero_le _, by grind [place]⟩
      · exact ⟨i + 1, by omega, by grind [place]⟩

theorem tried_all_iff {calls : List Call} (hNode : nodeId ≤ maxNodeId)
    (hTried : ∀ i, Tried calls i ↔ ∃ t ≤ maxNodeId.toNat, i.toNat = place nodeId.toNat t) :
    (∀ i ≤ maxNodeId, Tried calls i) ↔ nodeId = 0 ∨ nodeId = maxNodeId := by
  rw [← UInt8.toNat_inj, ← UInt8.toNat_inj (a := nodeId) (b := maxNodeId), UInt8.toNat_zero,
    ← place_covers (UInt8.le_iff_toNat_le.mp hNode)]
  constructor
  · intro hAll i hi
    have hLess : i < 256 := Nat.lt_of_le_of_lt hi maxNodeId.toNat_lt
    have hNat : (UInt8.ofNat i).toNat = i := by
      rw [UInt8.toNat_ofNat', Nat.mod_eq_of_lt hLess]
    have hMem := hAll (UInt8.ofNat i) (UInt8.le_iff_toNat_le.mpr (hNat.symm ▸ hi))
    rwa [hTried, hNat] at hMem
  · intro hCovers i hi
    exact (hTried i).mpr (hCovers i.toNat (UInt8.le_iff_toNat_le.mp hi))

/-- The memory is freed exactly once if and only if the named node owns it, or no heap owns it and
the tries, which start at the first or at the last node, reach all of them. -/
theorem frees_once_iff (hNode : nodeId ≤ maxNodeId) :
    FreesOnce H maxNodeId ptr size heaps nodeId ↔
      H.allocated (heaps nodeId) ptr = true ∨
        ((∀ i ≤ maxNodeId, H.allocated (heaps i) ptr = false) ∧
          (nodeId = 0 ∨ nodeId = maxNodeId)) := by
  by_cases hOwned : H.allocated (heaps nodeId) ptr = true
  · obtain ⟨s, hCall, hCalls⟩ := localFree_of_allocated maxNodeId size hOwned
    refine ⟨fun _ => Or.inl hOwned, fun _ => ⟨1, s, hCall, fun _ => ⟨[], nodeId, hCalls⟩, ?_⟩⟩
    rw [hCalls]
    simp
  · have hOwned : H.allocated (heaps nodeId) ptr = false := by simpa using hOwned
    obtain ⟨fuel, s, hCall, hStd, hTried⟩ := localFree_of_not_allocated maxNodeId size hOwned
    constructor
    · rintro ⟨fuel', s', hCall', -, hAfter⟩
      rw [← localFree_unique hCall hCall'] at hAfter
      refine Or.inr ⟨fun i hi => (hAfter hStd i hi).1, ?_⟩
      exact (tried_all_iff hNode hTried).mp fun i hi => (hAfter hStd i hi).2
    · rintro (hTrue | ⟨hNobody, hEdge⟩)
      · rw [hOwned] at hTrue
        contradiction
      · refine ⟨fuel, s, hCall, fun ⟨i, hi, hOwner⟩ => ?_, fun _ i hi => ⟨hNobody i hi, ?_⟩⟩
        · rw [hNobody i hi] at hOwner
          contradiction
        · exact (tried_all_iff hNode hTried).mpr hEdge i hi

end Call

/-! ## A heap that keeps its pointers in a list -/

/-- A heap as the list of the memory allocated from it. -/
def listHeap : RegionalHeap (List Nat) where
  allocated heap ptr := heap.contains ptr
  free heap ptr _ := if heap.contains ptr then some (heap.filter (· ≠ ptr)) else none
  free_isSome := by
    intro heap ptr _
    split <;> simp_all
  free_allocated := by
    intro heap heap' ptr _ hFree
    split at hFree
    · obtain rfl := Option.some.inj hFree
      simp
    · contradiction

/-- Two nodes, and the pointer 16 is from the second one. -/
def secondOwns : UInt8 → List Nat := fun i => if i = 1 then [16] else []

theorem frees_once_second :
    (1 : UInt8) ≤ 1 ∧ FreesOnce listHeap 1 16 64 secondOwns 1 :=
  ⟨by decide, (frees_once_iff (by decide)).mpr (Or.inl (by decide))⟩

/-- Named with the wrong node, the pointer is freed by its heap and given to `std::free`. -/
theorem second_freed_twice :
    (∃ s, localFree listHeap 1 16 64 4 secondOwns 0 = some s ∧
      s.calls = [.heapFree 0 false, .heapFree 1 true, .heapFree 1 false, .stdFree]) ∧
    ¬ FreesOnce listHeap 1 16 64 secondOwns 0 := by
  have hCall : ∃ s, localFree listHeap 1 16 64 4 secondOwns 0 = some s ∧
      s.calls = [.heapFree 0 false, .heapFree 1 true, .heapFree 1 false, .stdFree] :=
    ⟨_, rfl, by decide⟩
  refine ⟨hCall, ?_⟩
  rintro ⟨fuel, s, hCall', -, hAfter⟩
  obtain ⟨s', hCall, hCalls⟩ := hCall
  rw [← localFree_unique hCall hCall', hCalls] at hAfter
  exact absurd (hAfter (by decide) 1 (by decide)).1 (by decide)

end MxTasking.Memory.GlobalHeap
