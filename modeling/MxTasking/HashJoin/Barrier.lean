import MxTasking.HashJoin.Places
import MxTasking.Verified.Counting

/-!
# The barrier between the phases

The notification of a channel travels behind its batches to each of the channels, so when it is
counted the batches have been executed.  The two levels of counters are the numbers of
notifications, and of channels, that are still missing, whatever the order they arrive in.

## Main results

* `Barrier.run` — the counters of every run.
* `Barrier.notification`, `Barrier.counted` — no counter is decremented below 0.
* `Barrier.finished` — when the global counter is 0, nothing of the phase is left.
-/

namespace MxTasking.HashJoin

open MxTasking.Verified

/-! ## Notifications under way -/

/-- The task is a batch or the notification of the phase. -/
def Task.Of (kind : Kind) : Task → Prop
  | .batch k _ => k = kind
  | .notification k => k = kind
  | _ => False

/-- The channel has yet to send the notification of the phase to `t`. -/
def Running.Opens (kind : Kind) (t : Nat) : Running → Prop
  | .partitioning k _ _ _ => k = kind
  | .flushing k target _ => k = kind ∧ target ≤ t
  | .notifying k target _ => k = kind ∧ target ≤ t
  | _ => False

/-- The notification from `c` to `t` is not spawned yet. -/
def Open (s : State) (kind : Kind) (c t : Nat) : Prop :=
  s.place (.partition kind c) ≠ .started ∨ (s.running c).Opens kind t

/-- The notification from `c` to `t` is not counted yet. -/
def Waiting (s : State) (kind : Kind) (c t : Nat) : Prop :=
  Open s kind c t ∨ .notification kind ∈ s.queues (c, t)

/-- Behind a batch there is its notification. -/
structure Streams (J : Join) (s : State) : Prop where
  range : ∀ c t, s.queues (c, t) ≠ [] → c < J.countCores ∧ t < J.countCores
  busy : ∀ c, s.running c ≠ .idle → c < J.countCores
  last : ∀ kind c t l₁ l₂, s.queues (c, t) = l₁ ++ .notification kind :: l₂ →
    ¬ Open s kind c t ∧ ∀ x ∈ l₂, ¬ x.Of kind
  batch : ∀ kind c t rows, .batch kind rows ∈ s.queues (c, t) → Waiting s kind c t
  executing : ∀ kind c t rows, s.running t = .executing kind c rows →
    c < J.countCores ∧ Waiting s kind c t
  notifying : ∀ c kind k tasks, s.running c = .notifying kind k tasks → k < J.countCores

section Waiting

variable {J : Join} {s s' : State} {kind kind' : Kind} {c t c' t' : Nat} {r : Running}
  {x : Task} {rest : List Task}

theorem open_congr (hRunning : s'.running = s.running)
    (hPlace : ∀ kind c, s'.place (.partition kind c) = .started ↔
      s.place (.partition kind c) = .started) : Open s' kind c t ↔ Open s kind c t := by
  rw [Open, Open, hRunning, ne_eq, hPlace kind c]

/-- A channel goes on and has the same notifications to send. -/
theorem open_set (hOpens : ∀ kind t, t < J.countCores →
      (r.Opens kind t ↔ (s.running c).Opens kind t)) (ht : t' < J.countCores) :
    Open (s.set c r) kind c' t' ↔ Open s kind c' t' := by
  by_cases hEq : c' = c
  · subst hEq
    simp only [Open, State.set, Function.update_self, hOpens kind t' ht]
  · simp only [Open, State.set, Function.update_of_ne hEq]

theorem waiting_set (hOpens : ∀ kind t, t < J.countCores →
      (r.Opens kind t ↔ (s.running c).Opens kind t)) (ht : t' < J.countCores) :
    Waiting (s.set c r) kind c' t' ↔ Waiting s kind c' t' :=
  or_congr_left (open_set hOpens ht)

theorem waiting_congr (hQueues : s'.queues = s.queues) (hRunning : s'.running = s.running)
    (hPlace : ∀ kind c, s'.place (.partition kind c) = .started ↔
      s.place (.partition kind c) = .started) : Waiting s' kind c t ↔ Waiting s kind c t := by
  rw [Waiting, Waiting, open_congr hRunning hPlace, hQueues]

theorem waiting_pop_of_ne (hQueue : s.queues (c, t) = x :: rest)
    (hx : x = .notification kind → (c', t') ≠ (c, t)) :
    Waiting (s.pop c t rest) kind c' t' ↔ Waiting s kind c' t' := by
  refine or_congr_right ?_
  by_cases hEq : (c', t') = (c, t)
  · have hne : x ≠ .notification kind := fun hNot => hx hNot hEq
    simp only [State.pop, hEq, Function.update_self, hQueue, List.mem_cons, hne.symm, false_or]
  · simp only [State.pop, Function.update_of_ne hEq]

theorem waiting_spawn_of_ne (hx : x ≠ .notification kind) :
    Waiting (s.spawn c t x) kind c' t' ↔ Waiting s kind c' t' := by
  refine or_congr_right ?_
  by_cases hEq : (c', t') = (c, t)
  · simp only [State.spawn, hEq, Function.update_self, List.mem_append, List.mem_singleton,
      hx.symm, or_false]
  · simp only [State.spawn, Function.update_of_ne hEq]

/-- A partition task is started: its channel has the notifications to send. -/
theorem open_start (hPlace : s.place (.partition kind c) ≠ .started) (hIdle : s.running c = .idle)
    (j : Nat) (tasks : Nat → List Row) :
    Open ((s.set c (.partitioning kind c j tasks)).move (.partition kind c) .started) kind' c' t' ↔
      Open s kind' c' t' := by
  simp only [Open, State.set, State.move]
  by_cases hEq : c' = c
  · subst hEq
    by_cases hKind : kind' = kind
    · subst hKind
      simp [Running.Opens, hPlace]
    · simp [Running.Opens, hIdle, hKind, Ne.symm hKind]
  · simp [hEq]

/-- A notification is spawned. -/
theorem waiting_notify {k : Nat} {tasks : Nat → List Row}
    (hCase : s.running c = .notifying kind k tasks) :
    Waiting ((s.spawn c k (.notification kind)).set c (.flushing kind (k + 1) tasks)) kind' c' t' ↔
      Waiting s kind' c' t' := by
  simp only [Waiting, Open, State.spawn, State.set]
  by_cases hEq : c' = c
  · subst hEq
    by_cases hKind : kind' = kind
    · subst hKind
      by_cases ht : t' = k
      · subst ht
        simp [Running.Opens, hCase]
      · have hLe : k + 1 ≤ t' ↔ k ≤ t' := by omega
        simp [Running.Opens, hCase, ht, hLe]
    · by_cases ht : t' = k
      · subst ht
        simp [Running.Opens, hCase, Ne.symm hKind, hKind]
      · simp [Running.Opens, hCase, Ne.symm hKind, ht]
  · simp [hEq]

end Waiting

/-- What lies behind an element that is not the last one. -/
theorem split_of_concat {α : Type*} {q l₁ l₂ : List α} {x n : α} (hne : x ≠ n)
    (h : q ++ [x] = l₁ ++ n :: l₂) : ∃ l, l₂ = l ++ [x] ∧ q = l₁ ++ n :: l := by
  rcases l₂.eq_nil_or_concat with rfl | ⟨l, y, rfl⟩
  · have hLast := List.append_inj_right' h rfl
    exact absurd (List.singleton_inj.mp hLast) hne
  · have h' : q ++ [x] = (l₁ ++ n :: l) ++ [y] := by simpa using h
    obtain ⟨hInit, hLast⟩ := List.append_inj' h' rfl
    obtain rfl := List.singleton_inj.mp hLast
    exact ⟨l, List.concat_eq_append .., hInit⟩

namespace Streams

variable {J : Join} {s s' : State} {kind : Kind} {c t : Nat} {x : Task} {rest : List Task}

theorem initial (J : Join) : Streams J (State.initial J) := by
  have hPos := J.pos
  refine ⟨fun c t h => ?_, fun c h => absurd rfl h, fun kind c t l₁ l₂ h => ?_,
    fun kind c t rows h => ?_, fun kind c t rows h => absurd h (by simp [State.initial]),
    fun c kind k tasks h => absurd h (by simp [State.initial])⟩
  · simp only [State.initial] at h
    grind
  · have hMem : .notification kind ∈ (State.initial J).queues (c, t) := by rw [h]; simp
    simp only [State.initial] at hMem
    grind
  · simp only [State.initial] at h
    grind

theorem congr (h : Streams J s) (hQueues : s'.queues = s.queues) (hRunning : s'.running = s.running)
    (hPlace : ∀ kind c, s'.place (.partition kind c) = .started ↔
      s.place (.partition kind c) = .started) : Streams J s' := by
  refine ⟨by rw [hQueues]; exact h.range, by rw [hRunning]; exact h.busy, ?_, ?_, ?_,
    by rw [hRunning]; exact h.notifying⟩
  · intro kind c t l₁ l₂ hQueue
    rw [hQueues] at hQueue
    rw [open_congr hRunning hPlace]
    exact h.last kind c t l₁ l₂ hQueue
  · intro kind c t rows hMem
    rw [hQueues] at hMem
    rw [waiting_congr hQueues hRunning hPlace]
    exact h.batch kind c t rows hMem
  · intro kind c t rows hRun
    rw [hRunning] at hRun
    rw [waiting_congr hQueues hRunning hPlace]
    exact h.executing kind c t rows hRun

theorem target_lt (h : Streams J s) (hMem : x ∈ s.queues (c, t)) : t < J.countCores :=
  (h.range c t (List.ne_nil_of_mem hMem)).2

theorem set (h : Streams J s) (r : Running) (hc : c < J.countCores)
    (hOpens : ∀ kind t, t < J.countCores → (r.Opens kind t ↔ (s.running c).Opens kind t))
    (hExecuting : ∀ kind source rows, r = .executing kind source rows →
      source < J.countCores ∧ Waiting s kind source c)
    (hNotifying : ∀ kind k tasks, r = .notifying kind k tasks → k < J.countCores) :
    Streams J (s.set c r) := by
  refine ⟨h.range, ?_, ?_, ?_, ?_, ?_⟩
  · intro c' hc'
    by_cases hEq : c' = c
    · rw [hEq]
      exact hc
    · exact h.busy c' (by simpa [State.set, hEq] using hc')
  · intro kind c' t l₁ l₂ hQueue
    have ht : t < J.countCores := (h.range c' t (by
      intro hNil
      rw [show (s.set c r).queues = s.queues from rfl, hNil] at hQueue
      simp at hQueue)).2
    rw [open_set hOpens ht]
    exact h.last kind c' t l₁ l₂ hQueue
  · intro kind c' t rows hMem
    rw [waiting_set hOpens (h.target_lt hMem)]
    exact h.batch kind c' t rows hMem
  · intro kind source t rows hRun
    rcases update_cases hRun with ⟨rfl, hr⟩ | ⟨_, hOld⟩
    · rw [waiting_set hOpens hc]
      exact hExecuting kind source rows hr.symm
    · rw [waiting_set hOpens (h.busy t (by rw [hOld]; simp))]
      exact h.executing kind source t rows hOld
  · intro c' kind k tasks hRun
    rcases update_cases hRun with ⟨rfl, hr⟩ | ⟨_, hOld⟩
    · exact hNotifying kind k tasks hr.symm
    · exact h.notifying c' kind k tasks hOld

theorem pop (h : Streams J s) (hQueue : s.queues (c, t) = x :: rest) (hIdle : s.running t = .idle) :
    Streams J (s.pop c t rest) := by
  have hSub : ∀ c' t' y, y ∈ (s.pop c t rest).queues (c', t') → y ∈ s.queues (c', t') := by
    intro c' t' y hy
    by_cases hEq : (c', t') = (c, t)
    · rw [hEq] at hy ⊢
      rw [hQueue]
      exact List.mem_cons_of_mem _ (by simpa [State.pop] using hy)
    · simpa [State.pop, hEq] using hy
  refine ⟨?_, h.busy, ?_, ?_, ?_, h.notifying⟩
  · intro c' t' hne
    obtain ⟨y, hy⟩ := List.exists_mem_of_ne_nil _ hne
    exact h.range c' t' (List.ne_nil_of_mem (hSub c' t' y hy))
  · intro kind c' t' l₁ l₂ hNew
    by_cases hEq : (c', t') = (c, t)
    · obtain ⟨rfl, rfl⟩ := Prod.mk.inj hEq
      refine h.last kind c' t' (x :: l₁) l₂ ?_
      rw [hQueue, List.cons_append, ← hNew]
      simp [State.pop]
    · exact h.last kind c' t' l₁ l₂ (by simpa [State.pop, hEq] using hNew)
  · intro kind c' t' rows hMem
    refine (waiting_pop_of_ne hQueue ?_).mpr (h.batch kind c' t' rows (hSub c' t' _ hMem))
    -- behind the notification there is no batch any more
    rintro rfl hEq
    obtain ⟨rfl, rfl⟩ := Prod.mk.inj hEq
    have hBehind := (h.last kind c' t' [] rest hQueue).2 (.batch kind rows)
      (by simpa [State.pop] using hMem)
    exact hBehind rfl
  · intro kind c' t' rows hRun
    obtain ⟨hc', hWaiting⟩ := h.executing kind c' t' rows hRun
    refine ⟨hc', (waiting_pop_of_ne hQueue ?_).mpr hWaiting⟩
    rintro _ hEq
    obtain ⟨rfl, rfl⟩ := Prod.mk.inj hEq
    rw [show (s.pop c' t' rest).running = s.running from rfl, hIdle] at hRun
    exact absurd hRun (by simp)

/-- A batch is spawned while its notification is still to come, or another task. -/
theorem spawn (h : Streams J s) (hc : c < J.countCores) (ht : t < J.countCores)
    (hOf : ∀ kind, x.Of kind → Open s kind c t) (hne : ∀ kind, x ≠ .notification kind) :
    Streams J (s.spawn c t x) := by
  have hMem : ∀ c' t' y, y ∈ (s.spawn c t x).queues (c', t') →
      y ∈ s.queues (c', t') ∨ ((c', t') = (c, t) ∧ y = x) := by
    intro c' t' y hy
    by_cases hEq : (c', t') = (c, t)
    · rw [hEq] at hy ⊢
      simpa [State.spawn] using hy
    · exact Or.inl (by simpa [State.spawn, hEq] using hy)
  refine ⟨?_, h.busy, ?_, ?_, ?_, h.notifying⟩
  · intro c' t' hNil
    obtain ⟨y, hy⟩ := List.exists_mem_of_ne_nil _ hNil
    rcases hMem c' t' y hy with hOld | ⟨hEq, _⟩
    · exact h.range c' t' (List.ne_nil_of_mem hOld)
    · obtain ⟨rfl, rfl⟩ := Prod.mk.inj hEq
      exact ⟨hc, ht⟩
  · intro kind c' t' l₁ l₂ hNew
    by_cases hEq : (c', t') = (c, t)
    · obtain ⟨rfl, rfl⟩ := Prod.mk.inj hEq
      have hNew' : s.queues (c', t') ++ [x] = l₁ ++ .notification kind :: l₂ := by
        simpa [State.spawn] using hNew
      obtain ⟨l, rfl, hOld⟩ := split_of_concat (hne kind) hNew'
      obtain ⟨hOpen, hBehind⟩ := h.last kind c' t' l₁ l hOld
      refine ⟨hOpen, fun y hy => ?_⟩
      rcases List.mem_append.mp hy with hy | hy
      · exact hBehind y hy
      · rw [List.mem_singleton.mp hy]
        exact fun hx => hOpen (hOf kind hx)
    · exact h.last kind c' t' l₁ l₂ (by simpa [State.spawn, hEq] using hNew)
  · intro kind c' t' rows hIn
    rw [waiting_spawn_of_ne (hne kind)]
    rcases hMem c' t' _ hIn with hOld | ⟨hEq, rfl⟩
    · exact h.batch kind c' t' rows hOld
    · obtain ⟨rfl, rfl⟩ := Prod.mk.inj hEq
      exact Or.inl (hOf kind rfl)
  · intro kind c' t' rows hRun
    rw [waiting_spawn_of_ne (hne kind)]
    exact h.executing kind c' t' rows hRun

/-- The notification is spawned behind the batches. -/
theorem notify (h : Streams J s) {k : Nat} {tasks : Nat → List Row}
    (hCase : s.running c = .notifying kind k tasks)
    (hPlace : s.place (.partition kind c) = .started) :
    Streams J ((s.spawn c k (.notification kind)).set c (.flushing kind (k + 1) tasks)) := by
  have hc : c < J.countCores := h.busy c (by rw [hCase]; simp)
  have hk : k < J.countCores := h.notifying c kind k tasks hCase
  have hOpen : Open s kind c k := Or.inr (by rw [hCase]; exact ⟨rfl, Nat.le_refl k⟩)
  have hStarted : ∀ kind' c' t', Open ((s.spawn c k (.notification kind)).set c
      (.flushing kind (k + 1) tasks)) kind' c' t' → Open s kind' c' t' := by
    intro kind' c' t' hNew
    simp only [Open, State.spawn, State.set] at hNew ⊢
    by_cases hEq : c' = c
    · subst hEq
      refine hNew.imp id fun hOpens => ?_
      simp only [Function.update_self, Running.Opens] at hOpens
      rw [hCase]
      exact ⟨hOpens.1, by omega⟩
    · simpa [hEq] using hNew
  refine ⟨?_, ?_, ?_, ?_, ?_, ?_⟩
  · intro c' t' hNil
    by_cases hEq : (c', t') = (c, k)
    · obtain ⟨rfl, rfl⟩ := Prod.mk.inj hEq
      exact ⟨hc, hk⟩
    · exact h.range c' t' (by simpa [State.spawn, State.set, hEq] using hNil)
  · intro c' hc'
    by_cases hEq : c' = c
    · rw [hEq]
      exact hc
    · exact h.busy c' (by simpa [State.spawn, State.set, hEq] using hc')
  · intro kind' c' t' l₁ l₂ hNew
    by_cases hEq : (c', t') = (c, k)
    · obtain ⟨rfl, rfl⟩ := Prod.mk.inj hEq
      have hNew' : s.queues (c', t') ++ [.notification kind] =
          l₁ ++ .notification kind' :: l₂ := by
        simpa [State.spawn, State.set] using hNew
      by_cases hKind : kind' = kind
      · subst hKind
        -- no notification of the phase was in the queue before
        rcases l₂.eq_nil_or_concat with rfl | ⟨l, y, rfl⟩
        · refine ⟨?_, fun y hy => absurd hy List.not_mem_nil⟩
          rintro (hNot | hOpens)
          · exact hNot hPlace
          · simp only [State.set, Function.update_self, Running.Opens] at hOpens
            omega
        · have hConcat : s.queues (c', t') ++ [.notification kind'] =
              (l₁ ++ .notification kind' :: l) ++ [y] := by simpa using hNew'
          exact absurd hOpen (h.last kind' c' t' l₁ l (List.append_inj' hConcat rfl).1).1
      · obtain ⟨l, rfl, hOld⟩ := split_of_concat (by simpa using Ne.symm hKind) hNew'
        obtain ⟨hClosed, hBehind⟩ := h.last kind' c' t' l₁ l hOld
        refine ⟨fun hNot => hClosed (hStarted kind' c' t' hNot), fun y hy => ?_⟩
        rcases List.mem_append.mp hy with hy | hy
        · exact hBehind y hy
        · rw [List.mem_singleton.mp hy]
          exact fun hOf => hKind hOf.symm
    · obtain ⟨hClosed, hBehind⟩ := h.last kind' c' t' l₁ l₂
        (by simpa [State.spawn, State.set, hEq] using hNew)
      exact ⟨fun hNot => hClosed (hStarted kind' c' t' hNot), hBehind⟩
  · intro kind' c' t' rows hMem
    rw [waiting_notify hCase]
    refine h.batch kind' c' t' rows ?_
    by_cases hEq : (c', t') = (c, k)
    · obtain ⟨rfl, rfl⟩ := Prod.mk.inj hEq
      simpa [State.spawn, State.set] using hMem
    · simpa [State.spawn, State.set, hEq] using hMem
  · intro kind' c' t' rows hRun
    rw [waiting_notify hCase]
    obtain ⟨_, hOld⟩ := update_elsewhere hRun (by simp)
    exact h.executing kind' c' t' rows hOld
  · intro c' kind' k' tasks' hRun
    obtain ⟨_, hOld⟩ := update_elsewhere hRun (by simp)
    exact h.notifying c' kind' k' tasks' hOld

/-- A partition task is started. -/
theorem start (h : Streams J s) (hc : c < J.countCores)
    (hPlace : s.place (.partition kind c) ≠ .started) (hIdle : s.running c = .idle) (j : Nat)
    (tasks : Nat → List Row) :
    Streams J ((s.set c (.partitioning kind c j tasks)).move (.partition kind c) .started) := by
  have hWaiting : ∀ kind' c' t', Waiting ((s.set c (.partitioning kind c j tasks)).move
      (.partition kind c) .started) kind' c' t' ↔ Waiting s kind' c' t' :=
    fun _ _ _ => or_congr_left (open_start hPlace hIdle j tasks)
  refine ⟨h.range, ?_, ?_, ?_, ?_, ?_⟩
  · intro c' hc'
    by_cases hEq : c' = c
    · rw [hEq]
      exact hc
    · exact h.busy c' (by simpa [State.set, State.move, hEq] using hc')
  · intro kind' c' t' l₁ l₂ hQueue
    rw [open_start hPlace hIdle]
    exact h.last kind' c' t' l₁ l₂ hQueue
  · intro kind' c' t' rows hMem
    rw [hWaiting]
    exact h.batch kind' c' t' rows hMem
  · intro kind' c' t' rows hRun
    rw [hWaiting]
    obtain ⟨_, hOld⟩ := update_elsewhere hRun (by simp)
    exact h.executing kind' c' t' rows hOld
  · intro c' kind' k' tasks' hRun
    obtain ⟨_, hOld⟩ := update_elsewhere hRun (by simp)
    exact h.notifying c' kind' k' tasks' hOld

/-- One step. -/
theorem step {e : Event} (h : Streams J s) (hPlaced : Placed J s) (hStep : Step J s e s') :
    Streams J s' := by
  have hBusy : ∀ {c r}, s.running c = r → r ≠ .idle → c < J.countCores := by
    intro c r hCase hne
    exact h.busy c (by rw [hCase]; exact hne)
  cases hStep with
  | popPartition c t kind i rest hIdle hQueue =>
      have hMem : .partition kind i ∈ s.queues (c, t) := by rw [hQueue]; simp
      obtain ⟨hPlace, hHome⟩ := hPlaced.queued.place_of_mem (x := .partition kind i) trivial hMem
      obtain rfl : t = i := hHome
      exact (h.pop hQueue hIdle).start (h.target_lt hMem)
        (by rw [show (s.pop c t rest).place = s.place from rfl, hPlace]; simp) hIdle 0 _
  | popBatch c t kind rows rest hIdle hQueue =>
      have hMem : .batch kind rows ∈ s.queues (c, t) := by rw [hQueue]; simp
      refine (h.pop hQueue hIdle).set _ (h.target_lt hMem) ?_ ?_ (by simp)
      · simp [Running.Opens, State.pop, hIdle]
      · rintro _ _ _ ⟨⟩
        exact ⟨(h.range c t (List.ne_nil_of_mem hMem)).1,
          (waiting_pop_of_ne hQueue (by simp)).mpr (h.batch kind c t rows hMem)⟩
  | popNotification c t kind rest hIdle hQueue =>
      have hMem : .notification kind ∈ s.queues (c, t) := by rw [hQueue]; simp
      refine Streams.congr ((h.pop hQueue hIdle).set (c := t)
        (if pred32 (s.pendingLocal kind t) = 0 then .notified kind else .idle) (h.target_lt hMem)
        ?_ ?_ ?_) rfl rfl fun _ _ => Iff.rfl
      · split <;> simp [Running.Opens, State.pop, hIdle]
      · split <;> simp
      · split <;> simp
  | popMerge c t rest hIdle hQueue =>
      have hMem : .merge ∈ s.queues (c, t) := by rw [hQueue]; simp
      exact Streams.congr ((h.pop hQueue hIdle).set (.merging 0) (h.target_lt hMem)
        (by simp [Running.Opens, State.pop, hIdle]) (by simp) (by simp)) rfl rfl
        (by simp [State.move])
  | row c kind i j tasks key hCase _ _ _ =>
      exact h.set _ (hBusy hCase (by simp)) (by simp [Running.Opens, hCase]) (by simp) (by simp)
  | rowSpawn c kind i j tasks key hCase _ _ _ =>
      have hc := hBusy hCase (by simp)
      refine (h.spawn hc (J.target_lt key) ?_ (by simp)).set _ hc
        (by simp [Running.Opens, State.spawn, hCase]) (by simp) (by simp)
      rintro kind' rfl
      exact Or.inr (by rw [hCase]; rfl)
  | rowsDone c kind i j tasks hCase _ =>
      exact h.set _ (hBusy hCase (by simp)) (by simp [Running.Opens, hCase]) (by simp) (by simp)
  | flush c kind k tasks hCase hk =>
      have hc := hBusy hCase (by simp)
      refine (h.spawn hc hk ?_ (by simp)).set _ hc
        (by simp [Running.Opens, State.spawn, hCase]) (by simp) (by rintro _ _ _ ⟨⟩; exact hk)
      rintro kind' rfl
      exact Or.inr (by rw [hCase]; exact ⟨rfl, Nat.le_refl k⟩)
  | notify c kind k tasks hCase =>
      exact h.notify hCase (hPlaced.started c kind (by rw [hCase]; rfl))
  | flushed c kind k tasks hCase hk =>
      refine h.set _ (hBusy hCase (by simp)) (fun kind' t ht => ?_) (by simp) (by simp)
      rw [hCase]
      simp only [Running.Opens, false_iff]
      omega
  | insert t c row rows table hCase _ =>
      exact Streams.congr (h.set (c := t) (.executing .build c rows) (hBusy hCase (by simp))
        (by simp [Running.Opens, hCase])
        (by rintro _ _ _ ⟨⟩; exact h.executing _ _ _ _ hCase) (by simp)) rfl rfl
        fun _ _ => Iff.rfl
  | hit t c row rows value r hCase _ _ _ =>
      exact Streams.congr (h.set (c := t) (.executing .probe c rows) (hBusy hCase (by simp))
        (by simp [Running.Opens, hCase])
        (by rintro _ _ _ ⟨⟩; exact h.executing _ _ _ _ hCase) (by simp)) rfl rfl
        fun _ _ => Iff.rfl
  | miss t c row rows hCase _ =>
      exact Streams.congr (h.set (c := t) (.executing .probe c rows) (hBusy hCase (by simp))
        (by simp [Running.Opens, hCase])
        (by rintro _ _ _ ⟨⟩; exact h.executing _ _ _ _ hCase) (by simp)) rfl rfl
        fun _ _ => Iff.rfl
  | finish t kind c hCase =>
      exact h.set _ (hBusy hCase (by simp)) (by simp [Running.Opens, hCase]) (by simp) (by simp)
  | decrement t kind hCase _ =>
      exact Streams.congr (h.set .idle (hBusy hCase (by simp)) (by simp [Running.Opens, hCase])
        (by simp) (by simp)) rfl rfl fun _ _ => Iff.rfl
  | callBuild t hCase hZero =>
      exact Streams.congr (h.set (.dispatching 0) (hBusy hCase (by simp))
        (by simp [Running.Opens, hCase]) (by simp) (by simp)) rfl rfl
        (hPlaced.started_moveProbes (pred32_ne_zero hZero))
  | callProbe t hCase hZero =>
      have hc := hBusy hCase (by simp)
      exact Streams.congr ((h.spawn (x := .merge) hc hc (fun _ hOf => absurd hOf not_false)
        (by simp)).set (c := t) .idle hc (by simp [Running.Opens, State.spawn, hCase]) (by simp)
        (by simp)) rfl rfl (by simp [State.move, State.set, State.spawn, State.setGlobal])
  | dispatch c k hCase hk =>
      have hc := hBusy hCase (by simp)
      exact Streams.congr ((h.spawn (x := .partition .probe k) hc hk
        (fun _ hOf => absurd hOf not_false) (by simp)).set (c := c) (.dispatching (k + 1)) hc
        (by simp [Running.Opens, State.spawn, hCase]) (by simp) (by simp)) rfl rfl
        (hPlaced.started_dispatch hCase)
  | dispatched c k hCase hk =>
      exact h.set _ (hBusy hCase (by simp)) (by simp [Running.Opens, hCase]) (by simp) (by simp)
  | merge c k hCase _ =>
      exact Streams.congr (h.set (.merging (k + 1)) (hBusy hCase (by simp))
        (by simp [Running.Opens, hCase]) (by simp) (by simp)) rfl rfl fun _ _ => Iff.rfl
  | merged c k hCase _ =>
      exact h.set _ (hBusy hCase (by simp)) (by simp [Running.Opens, hCase]) (by simp) (by simp)

end Streams

/-! ## The counters -/

/-- The channel has not been counted globally. -/
def Missing (s : State) (kind : Kind) (t : Nat) : Prop :=
  s.pendingLocal kind t ≠ 0 ∨ s.running t = .notified kind

/-- The counters are the numbers of what is missing. -/
structure Counters (J : Join) (s : State) : Prop where
  pendingLocal : ∀ kind t, t < J.countCores →
    s.pendingLocal kind t = howMany J.countCores fun c => Waiting s kind c t
  pendingGlobal : ∀ kind, s.pendingGlobal kind = howMany J.countCores fun t => Missing s kind t
  notified : ∀ kind t, s.running t = .notified kind → s.pendingLocal kind t = 0

section Steps

variable {J : Join} {s s' : State} {kind : Kind} {c t : Nat} {e : Event}

/-- Only counting a notification makes it one that is not waited for. -/
theorem waiting_step (hPlaced : Placed J s) (hStep : Step J s e s') (ht : t < J.countCores)
    (hne : e ≠ .notification kind c t) : Waiting s' kind c t ↔ Waiting s kind c t := by
  cases hStep with
  | popPartition c₀ t₀ kind₀ i rest hIdle hQueue =>
      have hMem : .partition kind₀ i ∈ s.queues (c₀, t₀) := by rw [hQueue]; simp
      obtain ⟨hPlace, hHome⟩ := hPlaced.queued.place_of_mem (x := .partition kind₀ i) trivial hMem
      obtain rfl : t₀ = i := hHome
      have hNot : (s.pop c₀ t₀ rest).place (.partition kind₀ t₀) ≠ .started := by
        rw [show (s.pop c₀ t₀ rest).place = s.place from rfl, hPlace]
        simp
      exact (or_congr_left (open_start hNot hIdle 0 _)).trans
        (waiting_pop_of_ne hQueue (by simp))
  | popBatch c₀ t₀ kind₀ rows rest hIdle hQueue =>
      exact (waiting_set (by simp [Running.Opens, State.pop, hIdle]) ht).trans
        (waiting_pop_of_ne hQueue (by simp))
  | popNotification c₀ t₀ kind₀ rest hIdle hQueue =>
      have hSet : Waiting ((s.pop c₀ t₀ rest).set t₀
          (if pred32 (s.pendingLocal kind₀ t₀) = 0 then .notified kind₀ else .idle)) kind c t ↔
          Waiting (s.pop c₀ t₀ rest) kind c t :=
        waiting_set (by split <;> simp [Running.Opens, State.pop, hIdle]) ht
      refine Iff.trans (Iff.trans (waiting_congr rfl rfl fun _ _ => Iff.rfl) hSet)
        (waiting_pop_of_ne hQueue ?_)
      rintro ⟨⟩ ⟨⟩
      exact hne rfl
  | popMerge c₀ t₀ rest hIdle hQueue =>
      have hSet : Waiting ((s.pop c₀ t₀ rest).set t₀ (.merging 0)) kind c t ↔
          Waiting (s.pop c₀ t₀ rest) kind c t :=
        waiting_set (by simp [Running.Opens, State.pop, hIdle]) ht
      exact Iff.trans (waiting_congr rfl rfl (by simp [State.move]))
        (hSet.trans (waiting_pop_of_ne hQueue (by simp)))
  | row c₀ kind₀ i j tasks key hCase _ _ _ =>
      exact waiting_set (by simp [Running.Opens, hCase]) ht
  | rowSpawn c₀ kind₀ i j tasks key hCase _ _ _ =>
      exact (waiting_set (by simp [Running.Opens, State.spawn, hCase]) ht).trans
        (waiting_spawn_of_ne (by simp))
  | rowsDone c₀ kind₀ i j tasks hCase _ => exact waiting_set (by simp [Running.Opens, hCase]) ht
  | flush c₀ kind₀ k tasks hCase _ =>
      exact (waiting_set (by simp [Running.Opens, State.spawn, hCase]) ht).trans
        (waiting_spawn_of_ne (by simp))
  | notify c₀ kind₀ k tasks hCase => exact waiting_notify hCase
  | flushed c₀ kind₀ k tasks hCase hk =>
      refine waiting_set (fun kind' t ht => ?_) ht
      rw [hCase]
      simp only [Running.Opens, false_iff]
      omega
  | insert t₀ c₀ row rows table hCase _ =>
      exact waiting_set (s := s) (r := .executing .build c₀ rows)
        (by simp [Running.Opens, hCase]) ht
  | hit t₀ c₀ row rows value r hCase _ _ _ =>
      exact waiting_set (s := s) (r := .executing .probe c₀ rows)
        (by simp [Running.Opens, hCase]) ht
  | miss t₀ c₀ row rows hCase _ =>
      exact waiting_set (s := s) (r := .executing .probe c₀ rows)
        (by simp [Running.Opens, hCase]) ht
  | finish t₀ kind₀ c₀ hCase => exact waiting_set (by simp [Running.Opens, hCase]) ht
  | decrement t₀ kind₀ hCase _ =>
      exact waiting_set (s := s) (r := .idle) (by simp [Running.Opens, hCase]) ht
  | callBuild t₀ hCase hZero =>
      have hSet : Waiting (s.set t₀ (.dispatching 0)) kind c t ↔ Waiting s kind c t :=
        waiting_set (by simp [Running.Opens, hCase]) ht
      exact Iff.trans (waiting_congr (s := s.set t₀ (.dispatching 0)) rfl rfl
        (hPlaced.started_moveProbes (pred32_ne_zero hZero))) hSet
  | callProbe t₀ hCase hZero =>
      have hSet : Waiting ((s.spawn t₀ t₀ .merge).set t₀ .idle) kind c t ↔
          Waiting (s.spawn t₀ t₀ .merge) kind c t :=
        waiting_set (by simp [Running.Opens, State.spawn, hCase]) ht
      exact Iff.trans (waiting_congr rfl rfl (by simp [State.move, State.set, State.spawn,
        State.setGlobal])) (hSet.trans (waiting_spawn_of_ne (by simp)))
  | dispatch c₀ k hCase hk =>
      have hSet : Waiting ((s.spawn c₀ k (.partition .probe k)).set c₀ (.dispatching (k + 1)))
          kind c t ↔ Waiting (s.spawn c₀ k (.partition .probe k)) kind c t :=
        waiting_set (by simp [Running.Opens, State.spawn, hCase]) ht
      refine Iff.trans (waiting_congr (s := (s.spawn c₀ k (.partition .probe k)).set c₀
        (.dispatching (k + 1))) rfl rfl (hPlaced.started_dispatch hCase)) ?_
      exact hSet.trans (waiting_spawn_of_ne (by simp))
  | dispatched c₀ k hCase hk => exact waiting_set (by simp [Running.Opens, hCase]) ht
  | merge c₀ k hCase _ =>
      exact waiting_set (s := s) (r := .merging (k + 1)) (by simp [Running.Opens, hCase]) ht
  | merged c₀ k hCase _ => exact waiting_set (by simp [Running.Opens, hCase]) ht

/-- A notification that is counted was waited for, and is not any more. -/
theorem waiting_notification (h : Streams J s) (hStep : Step J s (.notification kind c t) s') :
    Waiting s kind c t ∧ ¬ Waiting s' kind c t := by
  cases hStep with
  | popNotification c t kind rest hIdle hQueue =>
      have hMem : .notification kind ∈ s.queues (c, t) := by rw [hQueue]; simp
      obtain ⟨hClosed, hBehind⟩ := h.last kind c t [] rest hQueue
      refine ⟨Or.inr hMem, ?_⟩
      rintro (hOpen | hIn)
      · refine hClosed (hOpen.imp id fun hOpens => ?_)
        by_cases hEq : c = t
        · subst hEq
          simp only [State.set, Function.update_self] at hOpens
          split at hOpens <;> exact absurd hOpens not_false
        · simpa [State.set, State.pop, State.setLocal, hEq] using hOpens
      · have hRest : .notification kind ∈ rest := by
          simpa [State.set, State.setLocal, State.pop] using hIn
        exact hBehind _ hRest rfl

theorem missing_set {r : Running} (hOld : s.running c ≠ .notified kind)
    (hNew : r ≠ .notified kind) : Missing (s.set c r) kind t ↔ Missing s kind t := by
  refine or_congr_right ?_
  by_cases hEq : t = c
  · subst hEq
    simp [State.set, hOld, hNew]
  · simp [State.set, hEq]

/-- Only counting a notification changes a local counter. -/
theorem pendingLocal_step (hStep : Step J s e s') (hne : ∀ c, e ≠ .notification kind c t) :
    s'.pendingLocal kind t = s.pendingLocal kind t := by
  cases hStep with
  | popNotification c₀ t₀ kind₀ rest hIdle hQueue =>
      by_cases hKind : kind = kind₀
      · have ht : t ≠ t₀ := by
          rintro rfl
          exact hne c₀ (by rw [hKind])
        simp [State.set, State.setLocal, State.pop, hKind, ht]
      · simp [State.set, State.setLocal, State.pop, hKind]
  | _ => rfl

/-- Only the last part of a notification changes a global counter. -/
theorem pendingGlobal_step (hStep : Step J s e s') (hne : ∀ t, e ≠ .decrement kind t)
    (hCall : ∀ t, e ≠ .call kind t) : s'.pendingGlobal kind = s.pendingGlobal kind := by
  cases hStep with
  | decrement t₀ kind₀ hCase _ =>
      have hKind : kind ≠ kind₀ := by
        rintro rfl
        exact hne t₀ rfl
      simp [State.set, State.setGlobal, hKind]
  | callBuild t₀ hCase _ =>
      have hKind : kind ≠ .build := by
        rintro rfl
        exact hCall t₀ rfl
      simp [State.set, State.setGlobal, State.moveProbes, hKind]
  | callProbe t₀ hCase _ =>
      have hKind : kind ≠ .probe := by
        rintro rfl
        exact hCall t₀ rfl
      simp [State.set, State.setGlobal, State.move, State.spawn, hKind]
  | _ => rfl

/-- A channel that has counted its last notification has just done so, or had before. -/
theorem notified_step (hStep : Step J s e s') (hRun : s'.running t = .notified kind) :
    s.running t = .notified kind ∨
      ∃ c, e = .notification kind c t ∧ s'.pendingLocal kind t = 0 := by
  cases hStep with
  | popNotification c₀ t₀ kind₀ rest hIdle hQueue =>
      rcases update_cases hRun with ⟨rfl, hr⟩ | ⟨_, hOld⟩
      · split at hr
        · next hZero =>
            obtain rfl := Running.notified.inj hr
            exact Or.inr ⟨c₀, rfl, by simpa [State.set, State.setLocal] using hZero⟩
        · exact absurd hr (by simp)
      · exact Or.inl hOld
  | _ =>
      obtain ⟨_, hOld⟩ := update_elsewhere hRun (by simp)
      exact Or.inl hOld

/-- A channel stays missing until it is counted globally. -/
theorem missing_step (hStep : Step J s e s') (hne : e ≠ .decrement kind t)
    (hCall : e ≠ .call kind t)
    (hPending : ∀ kind c t, e = .notification kind c t → s.pendingLocal kind t ≠ 0) :
    Missing s' kind t ↔ Missing s kind t := by
  cases hStep with
  | popNotification c₀ t₀ kind₀ rest hIdle hQueue =>
      have hOld := hPending kind₀ c₀ t₀ rfl
      simp only [Missing, State.set, State.setLocal, State.pop]
      by_cases ht : t = t₀
      · subst ht
        by_cases hKind : kind = kind₀
        · subst hKind
          by_cases hZero : pred32 (s.pendingLocal kind t) = 0 <;> simp [hZero, hOld]
        · by_cases hZero : pred32 (s.pendingLocal kind₀ t) = 0 <;>
            simp [hZero, hKind, Ne.symm hKind, hIdle]
      · by_cases hKind : kind = kind₀ <;> simp [hKind, ht]
  | popPartition c₀ t₀ kind₀ i rest hIdle hQueue =>
      exact missing_set (s := s) (by simp [hIdle]) (by simp)
  | popBatch c₀ t₀ kind₀ rows rest hIdle hQueue =>
      exact missing_set (s := s) (by simp [hIdle]) (by simp)
  | popMerge c₀ t₀ rest hIdle hQueue => exact missing_set (s := s) (by simp [hIdle]) (by simp)
  | decrement t₀ kind₀ hCase _ =>
      by_cases ht : t = t₀
      · subst ht
        have hKind : kind₀ ≠ kind := by
          rintro rfl
          exact hne rfl
        exact missing_set (s := s) (by simp [hCase, hKind]) (by simp)
      · simp [Missing, State.set, State.setGlobal, ht]
  | callBuild t₀ hCase _ =>
      by_cases ht : t = t₀
      · subst ht
        have hKind : Kind.build ≠ kind := by
          rintro rfl
          exact hCall rfl
        exact missing_set (s := s) (by simp [hCase, hKind]) (by simp)
      · simp [Missing, State.set, State.setGlobal, State.moveProbes, ht]
  | callProbe t₀ hCase _ =>
      by_cases ht : t = t₀
      · subst ht
        have hKind : Kind.probe ≠ kind := by
          rintro rfl
          exact hCall rfl
        exact missing_set (s := s) (by simp [hCase, hKind]) (by simp)
      · simp [Missing, State.set, State.setGlobal, State.move, State.spawn, ht]
  | row c₀ kind₀ i j tasks key hCase _ _ _ => exact missing_set (by simp [hCase]) (by simp)
  | rowSpawn c₀ kind₀ i j tasks key hCase _ _ _ =>
      exact missing_set (s := s) (by simp [hCase]) (by simp)
  | rowsDone c₀ kind₀ i j tasks hCase _ => exact missing_set (by simp [hCase]) (by simp)
  | flush c₀ kind₀ k tasks hCase _ => exact missing_set (s := s) (by simp [hCase]) (by simp)
  | notify c₀ kind₀ k tasks hCase => exact missing_set (s := s) (by simp [hCase]) (by simp)
  | flushed c₀ kind₀ k tasks hCase _ => exact missing_set (by simp [hCase]) (by simp)
  | insert t₀ c₀ row rows table hCase _ => exact missing_set (s := s) (by simp [hCase]) (by simp)
  | hit t₀ c₀ row rows value r hCase _ _ _ =>
      exact missing_set (s := s) (by simp [hCase]) (by simp)
  | miss t₀ c₀ row rows hCase _ => exact missing_set (s := s) (by simp [hCase]) (by simp)
  | finish t₀ kind₀ c₀ hCase => exact missing_set (by simp [hCase]) (by simp)
  | dispatch c₀ k hCase _ => exact missing_set (s := s) (by simp [hCase]) (by simp)
  | dispatched c₀ k hCase _ => exact missing_set (by simp [hCase]) (by simp)
  | merge c₀ k hCase _ => exact missing_set (s := s) (by simp [hCase]) (by simp)
  | merged c₀ k hCase _ => exact missing_set (by simp [hCase]) (by simp)

/-- A channel that is counted globally was missing, and is not any more. -/
theorem missing_counted (h : Counters J s) (hStep : Step J s e s')
    (he : e = .decrement kind t ∨ e = .call kind t) :
    s.running t = .notified kind ∧ ¬ Missing s' kind t ∧
      s'.pendingGlobal kind = pred32 (s.pendingGlobal kind) := by
  cases hStep with
  | decrement t₀ kind₀ hCase _ =>
      obtain ⟨rfl, rfl⟩ : kind₀ = kind ∧ t₀ = t := by simpa using he
      have hZero := h.notified _ _ hCase
      exact ⟨hCase, by simp [Missing, State.set, State.setGlobal, hZero],
        by simp [State.set, State.setGlobal]⟩
  | callBuild t₀ hCase hPred =>
      obtain ⟨rfl, rfl⟩ : .build = kind ∧ t₀ = t := by simpa using he
      have hZero := h.notified _ _ hCase
      exact ⟨hCase, by simp [Missing, State.set, State.setGlobal, State.moveProbes, hZero],
        by simp [State.set, State.setGlobal, State.moveProbes, hPred]⟩
  | callProbe t₀ hCase hPred =>
      obtain ⟨rfl, rfl⟩ : .probe = kind ∧ t₀ = t := by simpa using he
      have hZero := h.notified _ _ hCase
      exact ⟨hCase, by simp [Missing, State.set, State.setGlobal, State.move, State.spawn, hZero],
        by simp [State.set, State.setGlobal, State.move, State.spawn, hPred]⟩
  | _ => exact absurd he (by simp)

end Steps

/-- The invariant of the barrier. -/
structure Barrier (J : Join) (s : State) : Prop where
  placed : Placed J s
  streams : Streams J s
  counters : Counters J s

namespace Barrier

variable {J : Join} {s s' : State} {kind : Kind} {c t : Nat} {e : Event}

theorem initial (J : Join) : Barrier J (State.initial J) := by
  have hPos := J.pos
  have hWaiting : ∀ kind c t, Waiting (State.initial J) kind c t := by
    intro kind c t
    refine Or.inl (Or.inl ?_)
    cases kind <;> simp only [State.initial] <;> grind
  refine ⟨Placed.initial J, Streams.initial J, fun kind t ht => ?_, fun kind => ?_, ?_⟩
  · rw [howMany_all fun c _ => hWaiting kind c t]
    exact if_pos ht
  · have hMissing : ∀ t < J.countCores, Missing (State.initial J) kind t := by
      intro t ht
      refine Or.inl ?_
      simp only [State.initial, if_pos ht]
      omega
    exact (howMany_all hMissing).symm
  · intro kind t h
    exact absurd h (by simp [State.initial])

/-- A notification is counted: the local counter is decremented above 0. -/
theorem notification (h : Barrier J s) (hStep : Step J s (.notification kind c t) s') :
    s.pendingLocal kind t ≠ 0 ∧ s'.pendingLocal kind t = s.pendingLocal kind t - 1 ∧
      (howMany J.countCores fun c => Waiting s' kind c t) = s.pendingLocal kind t - 1 := by
  obtain ⟨hWas, hNot⟩ := waiting_notification h.streams hStep
  have hSame : ∀ c', t < J.countCores → Event.notification kind c t ≠ .notification kind c' t →
      (Waiting s' kind c' t ↔ Waiting s kind c' t) :=
    fun c' ht hne => waiting_step h.placed hStep ht hne
  cases hStep with
  | popNotification c t kind rest hIdle hQueue =>
      obtain ⟨hc, ht⟩ := h.streams.range c t (by rw [hQueue]; simp)
      have hCount := h.counters.pendingLocal kind t ht
      obtain ⟨hPos, hLess⟩ := howMany_erase (P := fun c => Waiting s kind c t) hc hWas hNot
        fun c' _ hne => hSame c' ht (by simpa using Ne.symm hne)
      rw [← hCount] at hPos hLess
      have hLe : s.pendingLocal kind t ≤ J.countCores := hCount ▸ howMany_le
      have hFits := J.fits
      refine ⟨hPos, ?_, hLess⟩
      simp only [State.set, State.setLocal, if_pos, Function.update_self]
      exact pred32_eq (by omega) hPos

/-- A channel is counted: the global counter is decremented above 0. -/
theorem counted (h : Barrier J s) (hStep : Step J s e s')
    (he : e = .decrement kind t ∨ e = .call kind t) :
    s.pendingGlobal kind ≠ 0 ∧ s'.pendingGlobal kind = s.pendingGlobal kind - 1 ∧
      (howMany J.countCores fun t => Missing s' kind t) = s.pendingGlobal kind - 1 := by
  obtain ⟨hRun, hNot, hPred⟩ := missing_counted h.counters hStep he
  have ht : t < J.countCores := h.streams.busy t (by rw [hRun]; simp)
  have hCount := h.counters.pendingGlobal kind
  have hSame : ∀ t' < J.countCores, t' ≠ t → (Missing s' kind t' ↔ Missing s kind t') := by
    intro t' _ hne
    refine missing_step hStep ?_ ?_ ?_
    · rcases he with rfl | rfl <;> simp [Ne.symm hne]
    · rcases he with rfl | rfl <;> simp [Ne.symm hne]
    · rintro kind' c' t' rfl
      exact absurd he (by simp)
  obtain ⟨hPos, hLess⟩ := howMany_erase (P := Missing s kind) ht (Or.inr hRun) hNot hSame
  rw [← hCount] at hPos hLess
  have hLe : s.pendingGlobal kind ≤ J.countCores := hCount ▸ howMany_le
  have hFits := J.fits
  exact ⟨hPos, hPred.trans (pred32_eq (by omega) hPos), hLess⟩

/-- One step. -/
theorem step (h : Barrier J s) (hStep : Step J s e s') : Barrier J s' := by
  have hPending : ∀ kind c t, e = .notification kind c t → s.pendingLocal kind t ≠ 0 := by
    rintro kind c t rfl
    exact (h.notification hStep).1
  have hGlobal : ∀ t kind, s.running t = .notified kind → s.pendingGlobal kind ≠ 0 := by
    intro t kind hRun hZero
    rw [h.counters.pendingGlobal kind, howMany_eq_zero] at hZero
    exact hZero t (h.streams.busy t (by rw [hRun]; simp)) (Or.inr hRun)
  refine ⟨h.placed.step hStep hGlobal, h.streams.step h.placed hStep, ?_, ?_, ?_⟩
  · intro kind t ht
    by_cases hEvent : ∃ c, e = .notification kind c t
    · obtain ⟨c, rfl⟩ := hEvent
      obtain ⟨_, hNew, hCount⟩ := h.notification hStep
      rw [hNew, hCount]
    · have hne : ∀ c, e ≠ .notification kind c t := fun c hEq => hEvent ⟨c, hEq⟩
      rw [pendingLocal_step hStep hne, h.counters.pendingLocal kind t ht]
      exact howMany_congr fun c _ => (waiting_step h.placed hStep ht (hne c)).symm
  · intro kind
    by_cases hEvent : ∃ t, e = .decrement kind t ∨ e = .call kind t
    · obtain ⟨t, he⟩ := hEvent
      obtain ⟨_, hNew, hCount⟩ := h.counted hStep he
      rw [hNew, hCount]
    · have hne : ∀ t, e ≠ .decrement kind t := fun t hEq => hEvent ⟨t, Or.inl hEq⟩
      have hCall : ∀ t, e ≠ .call kind t := fun t hEq => hEvent ⟨t, Or.inr hEq⟩
      rw [pendingGlobal_step hStep hne hCall, h.counters.pendingGlobal kind]
      exact howMany_congr fun t _ => (missing_step hStep (hne t) (hCall t) hPending).symm
  · intro kind t hRun
    rcases notified_step hStep hRun with hOld | ⟨c, _, hZero⟩
    · have hZero := h.counters.notified kind t hOld
      rw [pendingLocal_step hStep, hZero]
      rintro c rfl
      exact hPending kind c t rfl hZero
    · exact hZero

theorem run {log : List Event} (hRun : Run (Step J) (State.initial J) log s) : Barrier J s :=
  hRun.invariant (P := Barrier J) (initial J) fun _ _ _ h hStep => h.step hStep

/-- When the global counter is 0, nothing of the phase is left. -/
theorem finished (h : Barrier J s) (hZero : s.pendingGlobal kind = 0) (hc : c < J.countCores)
    (ht : t < J.countCores) : ¬ Waiting s kind c t := by
  rw [h.counters.pendingGlobal kind, howMany_eq_zero] at hZero
  have hLocal : s.pendingLocal kind t = 0 := by
    by_contra hne
    exact hZero t ht (Or.inl hne)
  rw [h.counters.pendingLocal kind t ht, howMany_eq_zero] at hLocal
  exact hLocal c hc

end Barrier

end MxTasking.HashJoin
