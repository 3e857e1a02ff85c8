import Mathlib.Data.List.Chain
import Mathlib.Data.List.Basic
import Mathlib.Algebra.BigOperators.Group.List.Basic
import Mathlib.Algebra.Ring.Nat

/-!
# Tilings of an address range

An address range `[lo, hi)` cut into consecutive spans, each free or owned by
somebody (`Tiles`).  An allocator keeps only the free spans, in order; where the owned
ones lie is known to their owners.  The tiling is what the two know together.

Two operations change a tiling.  Taking from a free tile splits it or hands it over, and
giving an owned tile back makes it free and merges it with the free tiles it borders.  A tiling is
`Coalesced` when no two free tiles border each other.

## Main results

* `Tiles.covers`, `Tiles.ordered` — every address has one tile.
* `Tiles.freeSpans_ordered` — in a coalesced tiling the free spans neither overlap nor border.
* `Tiles.eq_of_owners_nil` — a coalesced tiling without owners is one free tile.
* `Tiles.replace` — a stretch of tiles may be replaced by any other of the same extent.
-/

namespace MxTasking.Verified.Tiling

/-- `size` addresses from `start` on. -/
structure Span where
  start : Nat
  size : Nat
  deriving DecidableEq, Repr

/-- The first address behind the span. -/
def Span.stop (s : Span) : Nat := s.start + s.size

/-- A span that is free or owned. -/
structure Tile (τ : Type*) where
  span : Span
  owner : Option τ

namespace Tile

variable {τ : Type*}

def free (s : Span) : Tile τ := ⟨s, none⟩

def owned (s : Span) (o : τ) : Tile τ := ⟨s, some o⟩

end Tile

variable {τ : Type*}

/-- The tiles follow one another from `lo` to `hi` without a gap. -/
def Tiles : Nat → List (Tile τ) → Nat → Prop
  | lo, [], hi => lo = hi
  | lo, t :: ts, hi => t.span.start = lo ∧ Tiles t.span.stop ts hi

/-- The free spans, in order. -/
def freeSpans : List (Tile τ) → List Span
  | [] => []
  | ⟨s, none⟩ :: ts => s :: freeSpans ts
  | ⟨_, some _⟩ :: ts => freeSpans ts

/-- The owners of the other tiles, in order. -/
def owners (ts : List (Tile τ)) : List τ := ts.filterMap Tile.owner

/-- The spans of the owned tiles, in order. -/
def ownedSpans (ts : List (Tile τ)) : List Span :=
  ts.filterMap fun t => t.owner.map fun _ => t.span

/-- No two free tiles border each other. -/
def Coalesced (ts : List (Tile τ)) : Prop :=
  ts.IsChain (fun t u => t.owner = none → u.owner ≠ none)

@[simp] theorem freeSpans_free (s : Span) (ts : List (Tile τ)) :
    freeSpans (Tile.free s :: ts) = s :: freeSpans ts := rfl

@[simp] theorem freeSpans_owned (s : Span) (o : τ) (ts : List (Tile τ)) :
    freeSpans (Tile.owned s o :: ts) = freeSpans ts := rfl

@[simp] theorem freeSpans_nil : freeSpans ([] : List (Tile τ)) = [] := rfl

@[simp] theorem freeSpans_append (ts us : List (Tile τ)) :
    freeSpans (ts ++ us) = freeSpans ts ++ freeSpans us := by
  induction ts with
  | nil => rfl
  | cons t ts ih =>
      obtain ⟨s, _ | o⟩ := t
      · simp [freeSpans, ih]
      · simp [freeSpans, ih]

theorem mem_freeSpans {ts : List (Tile τ)} {s : Span} :
    s ∈ freeSpans ts ↔ Tile.free s ∈ ts := by
  induction ts with
  | nil => simp [freeSpans]
  | cons t ts ih =>
      obtain ⟨s', _ | o⟩ := t
      · simp [freeSpans, ih, Tile.free]
      · simp [freeSpans, ih, Tile.free]

@[simp] theorem owners_append (ts us : List (Tile τ)) :
    owners (ts ++ us) = owners ts ++ owners us :=
  List.filterMap_append ..

@[simp] theorem owners_nil : owners ([] : List (Tile τ)) = [] := rfl

@[simp] theorem owners_free (s : Span) (ts : List (Tile τ)) :
    owners (Tile.free s :: ts) = owners ts := rfl

@[simp] theorem owners_owned (s : Span) (o : τ) (ts : List (Tile τ)) :
    owners (Tile.owned s o :: ts) = o :: owners ts := rfl

theorem mem_owners {ts : List (Tile τ)} {o : τ} :
    o ∈ owners ts ↔ ∃ s, Tile.owned s o ∈ ts := by
  unfold owners
  rw [List.mem_filterMap]
  constructor
  · rintro ⟨⟨s, o'⟩, hMem, hOwner⟩
    exact ⟨s, by rw [Tile.owned, ← hOwner]; exact hMem⟩
  · rintro ⟨s, hMem⟩
    exact ⟨_, hMem, rfl⟩

/-- The free and the owned spans are the spans of all tiles. -/
theorem freeSpans_append_ownedSpans (ts : List (Tile τ)) :
    (freeSpans ts ++ ownedSpans ts).Perm (ts.map Tile.span) := by
  induction ts with
  | nil => exact List.Perm.refl _
  | cons t ts ih =>
      obtain ⟨s, _ | o⟩ := t
      · exact List.Perm.cons s ih
      · exact List.perm_middle.trans (List.Perm.cons s ih)

/-- A function that finds an owner's span gives the owned spans. -/
theorem filterMap_owners {f : τ → Option Span} {ts : List (Tile τ)}
    (h : ∀ s o, Tile.owned s o ∈ ts → f o = some s) :
    (owners ts).filterMap f = ownedSpans ts := by
  induction ts with
  | nil => rfl
  | cons t ts ih =>
      have hTail := ih fun s o hMem => h s o (List.mem_cons_of_mem t hMem)
      obtain ⟨s, _ | o⟩ := t
      · exact hTail
      · show (o :: owners ts).filterMap f = s :: ownedSpans ts
        rw [List.filterMap_cons_some (h s o List.mem_cons_self), hTail]

/-- A free span splits the tiling where it splits the list of free spans. -/
theorem exists_of_freeSpans_eq {ts : List (Tile τ)} {before after : List Span} {s : Span}
    (h : freeSpans ts = before ++ s :: after) :
    ∃ us vs, ts = us ++ Tile.free s :: vs ∧ freeSpans us = before ∧ freeSpans vs = after := by
  induction ts generalizing before with
  | nil => simp [freeSpans] at h
  | cons t ts ih =>
      obtain ⟨s', _ | o⟩ := t
      · cases before with
        | nil =>
            obtain ⟨rfl, rfl⟩ : s' = s ∧ freeSpans ts = after := by simpa [freeSpans] using h
            exact ⟨[], ts, rfl, rfl, rfl⟩
        | cons b before =>
            obtain ⟨rfl, hTail⟩ : s' = b ∧ freeSpans ts = before ++ s :: after := by
              simpa [freeSpans] using h
            obtain ⟨us, vs, rfl, hUs, hVs⟩ := ih hTail
            exact ⟨Tile.free s' :: us, vs, rfl, by simp [hUs], hVs⟩
      · obtain ⟨us, vs, rfl, hUs, hVs⟩ := ih h
        exact ⟨Tile.owned s' o :: us, vs, rfl, by simpa using hUs, hVs⟩

/-! ## Coalesced tilings -/

/-- An owned tile separates its neighbours. -/
theorem coalesced_owned_iff {us vs : List (Tile τ)} {s : Span} {o : τ} :
    Coalesced (us ++ Tile.owned s o :: vs) ↔ Coalesced us ∧ Coalesced vs := by
  unfold Coalesced
  rw [List.isChain_append, List.isChain_cons]
  constructor
  · rintro ⟨hUs, ⟨_, hVs⟩, _⟩
    exact ⟨hUs, hVs⟩
  · rintro ⟨hUs, hVs⟩
    refine ⟨hUs, ⟨fun _ _ h => absurd h (by simp [Tile.owned]), hVs⟩, fun x _ y hy _ => ?_⟩
    obtain rfl : Tile.owned s o = y := by simpa using hy
    simp [Tile.owned]

/-- A free tile must not have a free neighbour. -/
theorem coalesced_free_iff {us vs : List (Tile τ)} {s : Span} :
    Coalesced (us ++ Tile.free s :: vs) ↔ Coalesced us ∧ Coalesced vs ∧
      (∀ x ∈ us.getLast?, x.owner ≠ none) ∧ ∀ y ∈ vs.head?, y.owner ≠ none := by
  unfold Coalesced
  rw [List.isChain_append, List.isChain_cons]
  constructor
  · rintro ⟨hUs, ⟨hNext, hVs⟩, hLast⟩
    refine ⟨hUs, hVs, fun x hx hFree => ?_, fun y hy => hNext y hy rfl⟩
    exact hLast x hx (Tile.free s) rfl hFree rfl
  · rintro ⟨hUs, hVs, hLast, hNext⟩
    exact ⟨hUs, ⟨fun y hy _ => hNext y hy, hVs⟩, fun x hx _ _ hFree => absurd hFree (hLast x hx)⟩

/-- A list of tiles ends with a free one, or a free tile may follow it. -/
theorem last_cases (us : List (Tile τ)) :
    (∃ us' s, us = us' ++ [Tile.free s]) ∨ ∀ x ∈ us.getLast?, x.owner ≠ none := by
  rcases List.eq_nil_or_concat us with rfl | ⟨us, ⟨s, _ | o⟩, rfl⟩
  · exact .inr (by simp)
  · exact .inl ⟨us, s, List.concat_eq_append⟩
  · exact .inr (by simp)

/-- A list of tiles starts with a free one, or it may follow a free tile. -/
theorem head_cases (vs : List (Tile τ)) :
    (∃ s vs', vs = Tile.free s :: vs') ∨ ∀ y ∈ vs.head?, y.owner ≠ none := by
  rcases vs with _ | ⟨⟨s, _ | o⟩, vs⟩
  · exact .inr (by simp)
  · exact .inl ⟨s, vs, rfl⟩
  · exact .inr (by simp)

namespace Tiles

variable {lo hi : Nat} {ts us vs : List (Tile τ)} {t : Tile τ}

theorem le (h : Tiles lo ts hi) : lo ≤ hi := by
  induction ts generalizing lo with
  | nil => exact Nat.le_of_eq h
  | cons t ts ih =>
      obtain ⟨hStart, hRest⟩ := h
      have := ih hRest
      unfold Span.stop at this
      omega

theorem append_iff : Tiles lo (us ++ vs) hi ↔ ∃ mid, Tiles lo us mid ∧ Tiles mid vs hi := by
  induction us generalizing lo with
  | nil => simp [Tiles]
  | cons t us ih => simp [Tiles, ih, and_assoc]

/-- A stretch of tiles may be replaced by any other of the same extent. -/
theorem replace {us' : List (Tile τ)} {ts : List (Tile τ)}
    (h : Tiles lo (ts ++ us ++ vs) hi) (hExtent : ∀ x y, Tiles x us y → Tiles x us' y) :
    Tiles lo (ts ++ us' ++ vs) hi := by
  rw [append_iff] at h ⊢
  obtain ⟨mid, hLeft, hRight⟩ := h
  rw [append_iff] at hLeft
  obtain ⟨mid', hTs, hUs⟩ := hLeft
  exact ⟨mid, append_iff.mpr ⟨mid', hTs, hExtent _ _ hUs⟩, hRight⟩

theorem bounds (h : Tiles lo ts hi) (hMem : t ∈ ts) : lo ≤ t.span.start ∧ t.span.stop ≤ hi := by
  induction ts generalizing lo with
  | nil => exact absurd hMem (by simp)
  | cons u ts ih =>
      obtain ⟨hStart, hRest⟩ := h
      rcases List.mem_cons.mp hMem with rfl | hIn
      · exact ⟨Nat.le_of_eq hStart.symm, hRest.le⟩
      · have := ih hRest hIn
        unfold Span.stop at *
        omega

/-- Tiles come in the order of their addresses and do not overlap. -/
theorem ordered (h : Tiles lo ts hi) :
    ts.Pairwise (fun t u => t.span.stop ≤ u.span.start) := by
  induction ts generalizing lo with
  | nil => exact List.Pairwise.nil
  | cons t ts ih =>
      obtain ⟨_, hRest⟩ := h
      exact List.pairwise_cons.mpr ⟨fun u hu => (hRest.bounds hu).1, ih hRest⟩

/-- The tiles cover the range. -/
theorem covers (h : Tiles lo ts hi) (x : Nat) :
    (∃ t ∈ ts, t.span.start ≤ x ∧ x < t.span.stop) ↔ lo ≤ x ∧ x < hi := by
  induction ts generalizing lo with
  | nil =>
      have hEq : lo = hi := h
      simp only [List.not_mem_nil, false_and, exists_false, false_iff]
      omega
  | cons t ts ih =>
      obtain ⟨hStart, hRest⟩ := h
      have hLe := hRest.le
      have ih := ih hRest
      have hStop : t.span.start ≤ t.span.stop := Nat.le_add_right ..
      constructor
      · rintro ⟨u, hu, hx⟩
        rcases List.mem_cons.mp hu with rfl | hIn
        · omega
        · have := ih.mp ⟨u, hIn, hx⟩
          omega
      · rintro ⟨hx, hx'⟩
        by_cases hFirst : x < t.span.stop
        · exact ⟨t, List.mem_cons_self, by omega, hFirst⟩
        · obtain ⟨u, hu, hux⟩ := ih.mpr ⟨by omega, hx'⟩
          exact ⟨u, List.mem_cons_of_mem t hu, hux⟩

/-- Behind an owned tile that is not empty the free spans start later. -/
theorem lt_start_of_head (h : Tiles lo vs hi)
    (hPos : ∀ s o, Tile.owned s o ∈ vs → 0 < s.size)
    (hHead : ∀ y ∈ vs.head?, y.owner ≠ none) {s : Span} (hs : s ∈ freeSpans vs) :
    lo < s.start := by
  cases vs with
  | nil => exact absurd hs (by simp)
  | cons t vs =>
      obtain ⟨st, _ | o⟩ := t
      · exact absurd rfl (hHead _ rfl)
      · obtain ⟨hStart, hRest⟩ := h
        have hSize := hPos st o List.mem_cons_self
        have hBound := (hRest.bounds (mem_freeSpans.mp hs)).1
        simp only [Span.stop, Tile.free] at *
        omega

/-- In front of an owned tile that is not empty the free spans stop earlier. -/
theorem stop_lt_of_last (h : Tiles lo us hi)
    (hPos : ∀ s o, Tile.owned s o ∈ us → 0 < s.size)
    (hLast : ∀ x ∈ us.getLast?, x.owner ≠ none) {s : Span} (hs : s ∈ freeSpans us) :
    s.stop < hi := by
  rcases List.eq_nil_or_concat us with rfl | ⟨us, ⟨st, _ | o⟩, rfl⟩
  · exact absurd hs (by simp)
  · exact absurd rfl (hLast ⟨st, none⟩ (by simp))
  · rw [List.concat_eq_append] at h hs hPos
    obtain ⟨mid, hUs, hStart, hStop⟩ := append_iff.mp h
    have hSize := hPos st o (by simp [Tile.owned])
    rw [freeSpans_append] at hs
    have hBound := (hUs.bounds (mem_freeSpans.mp (by simpa [freeSpans] using hs))).2
    simp only [Span.stop, Tiles, Tile.free] at *
    omega

/-- In a coalesced tiling whose owned tiles are not empty the free spans neither
overlap nor border each other. -/
theorem freeSpans_ordered (h : Tiles lo ts hi) (hCoal : Coalesced ts)
    (hPos : ∀ s o, Tile.owned s o ∈ ts → 0 < s.size) :
    (freeSpans ts).Pairwise (fun s s' => s.stop < s'.start) := by
  induction ts generalizing lo with
  | nil => exact List.Pairwise.nil
  | cons t ts ih =>
      obtain ⟨hStart, hRest⟩ := h
      have hTail := ih hRest hCoal.tail
        (fun s o hMem => hPos s o (List.mem_cons_of_mem t hMem))
      obtain ⟨s, _ | o⟩ := t
      · refine List.pairwise_cons.mpr ⟨fun s' hs' => ?_, hTail⟩
        refine hRest.lt_start_of_head (fun s o hMem => ?_) (fun y hy => ?_) hs'
        · exact hPos s o (List.mem_cons_of_mem _ hMem)
        · exact (List.isChain_cons.mp hCoal).1 y hy rfl
      · exact hTail

/-- A coalesced tiling of a range that is not empty, without owners, is one free tile. -/
theorem eq_of_owners_nil (h : Tiles lo ts hi) (hCoal : Coalesced ts) (hNil : owners ts = [])
    (hne : ts ≠ []) : ts = [Tile.free ⟨lo, hi - lo⟩] := by
  obtain ⟨t, ts, rfl⟩ := List.exists_cons_of_ne_nil hne
  obtain ⟨s, _ | o⟩ := t
  · cases ts with
    | nil =>
        obtain ⟨hStart, hStop⟩ := h
        have hStop : s.stop = hi := hStop
        obtain ⟨start, size⟩ := s
        simp only [Span.stop] at hStart hStop
        subst hStart
        simp only [Tile.free, List.cons.injEq, Tile.mk.injEq, Span.mk.injEq, and_true, true_and]
        omega
    | cons u ts =>
        have hOwner := (List.isChain_cons_cons.mp hCoal).1 rfl
        obtain ⟨o, ho⟩ := Option.ne_none_iff_exists'.mp hOwner
        rw [owners, List.filterMap_cons_none rfl, List.filterMap_cons_some ho] at hNil
        exact absurd hNil (by simp)
  · exact absurd hNil (by simp [owners])

/-- The sizes of all tiles add up to the range. -/
theorem sum_sizes (h : Tiles lo ts hi) : lo + ((ts.map Tile.span).map Span.size).sum = hi := by
  induction ts generalizing lo with
  | nil =>
      have hEq : lo = hi := h
      simp [hEq]
  | cons t ts ih =>
      obtain ⟨hStart, hRest⟩ := h
      have := ih hRest
      simp only [Span.stop, List.map_cons, List.sum_cons] at *
      omega

/-- Where the free spans are as large as the range, nothing is owned. -/
theorem owners_eq_nil_of_sum (h : Tiles lo ts hi)
    (hPos : ∀ s o, Tile.owned s o ∈ ts → 0 < s.size)
    (hSum : lo + ((freeSpans ts).map Span.size).sum = hi) : owners ts = [] := by
  have hAll := h.sum_sizes
  rw [← ((freeSpans_append_ownedSpans ts).map Span.size).sum_eq, List.map_append,
    List.sum_append] at hAll
  rw [List.eq_nil_iff_forall_not_mem]
  intro o ho
  obtain ⟨s, hs⟩ := mem_owners.mp ho
  have hMem : s.size ∈ (ownedSpans ts).map Span.size :=
    List.mem_map_of_mem (List.mem_filterMap.mpr ⟨_, hs, rfl⟩)
  have hZero := List.sum_eq_zero_iff_forall_eq_nat.mp
    (show ((ownedSpans ts).map Span.size).sum = 0 by omega) _ hMem
  have := hPos s o hs
  omega

end Tiles

end MxTasking.Verified.Tiling
