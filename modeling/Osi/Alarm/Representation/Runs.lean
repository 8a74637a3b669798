import Osi.Alarm.Representation.Invariant

/-!
# Alarms are where their fields say, in every run

The invariant holds as long as every alarm stays on one queue. The set that moves an alarm
to another queue is the step that may break it.
-/

namespace Osi

namespace Alarm

open Transition AlarmState

/-- The invariant holds along every run that leaves no stale instance behind. -/
theorem represents_of_reachable {guard : System → Label → Prop}
    (hguard : ∀ s l, guard s l → NoStaleInstance s.mod l)
    {isPeriodic : AlarmPtr → Bool} {capacity : QueuePtr → UInt64} {s : System}
    (h : Reachable (Guarded guard (Next System.step))
      (System.init isPeriodic capacity) s) :
    Wellformed s.mod s.inTransit ∧ Represents s.mod s.inTransit := by
  apply h.invariant
    (I := fun s => Wellformed s.mod s.inTransit ∧ Represents s.mod s.inTransit)
  · rintro s l s' ⟨hw, hr⟩ ⟨hg, hstep⟩
    have heffect := System.step_effect hstep
    exact ⟨hw.effect heffect, hr.effect hw (hguard s l hg) heffect⟩
  · exact ⟨Wellformed.init isPeriodic capacity, Represents.init isPeriodic capacity⟩

structure Sound (home : AlarmPtr → QueuePtr) (s : System) : Prop where
  queue_eq : ∀ a q, (s.mod.alarm a).queue = some q → q = home a
  wellformed : Wellformed s.mod s.inTransit
  represents : Represents s.mod s.inTransit

namespace Sound

variable {home : AlarmPtr → QueuePtr} {s s' : System}

theorem noStaleInstance (h : Sound home s) {l : Label}
    (hl : System.OneQueue home s l) : NoStaleInstance s.mod l := by
  cases l with
  | set r env =>
      have hl' : r.queue = home r.alarm := hl
      cases hq : (s.mod.alarm r.alarm).queue with
      | none => simp [NoStaleInstance, hq]
      | some q =>
          have hqq : q = r.queue := (h.queue_eq _ _ hq).trans hl'.symm
          simp [NoStaleInstance, hq, hqq]
  | _ => trivial

theorem step (h : Sound home s) {l : Label} (hl : System.OneQueue home s l)
    (hstep : s.step l = .ok s') : Sound home s' := by
  have heffect := System.step_effect hstep
  refine ⟨?_, h.wellformed.effect heffect,
    h.represents.effect h.wellformed (h.noStaleInstance hl) heffect⟩
  intro a q hq
  rcases heffect.queue_eq a with hsame | ⟨r, env, rfl, rfl, hset⟩
  · exact h.queue_eq a q (hsame ▸ hq)
  · obtain rfl : r.queue = q := by
      rw [hset] at hq
      exact Option.some.inj hq
    exact hl

theorem init (isPeriodic : AlarmPtr → Bool) (capacity : QueuePtr → UInt64) :
    Sound home (System.init isPeriodic capacity) where
  queue_eq a q hq := absurd hq (by
    simp [System.init, AlarmState.init, alarmNewInternal])
  wellformed := Wellformed.init isPeriodic capacity
  represents := Represents.init isPeriodic capacity

end Sound

theorem sound_of_reachable {guard : System → Label → Prop}
    {home : AlarmPtr → QueuePtr}
    (hguard : ∀ s l, guard s l → System.OneQueue home s l)
    {isPeriodic : AlarmPtr → Bool} {capacity : QueuePtr → UInt64} {s : System}
    (h : Reachable (Guarded guard (Next System.step))
      (System.init isPeriodic capacity) s) : Sound home s := by
  apply h.invariant (I := Sound home)
  · rintro s l s' hs ⟨hg, hstep⟩
    exact hs.step (hguard s l hg) hstep
  · exact Sound.init isPeriodic capacity

theorem Represents.mem_processingQueue_iff {m : AlarmState} {x : Option AlarmPtr}
    (h : Represents m x) (a : AlarmPtr) :
    a ∈ m.processingQueue a ↔ ∃ q, a ∈ (m.queues q).list := by
  unfold processingQueue
  constructor
  · intro ha
    split at ha
    · exact absurd ha (by simp)
    · exact ⟨_, ha⟩
  · rintro ⟨q, hq⟩
    rw [h.home a q hq]
    exact hq

/-- The representation invariant, in every state between critical sections of
every run in which each alarm is always set with one and the same queue. -/
theorem representation_invariant (isPeriodic : AlarmPtr → Bool)
    (capacity : QueuePtr → UInt64) (home : AlarmPtr → QueuePtr) (s : System)
    (h : Reachable (Guarded (System.OneQueue home) (Next System.step))
      (System.init isPeriodic capacity) s)
    (hquiet : s.Quiet) :
    (s.mod.alarms.Pairwise
        (fun a b => (s.mod.alarm a).deadline ≤ (s.mod.alarm b).deadline) ∧
      s.mod.alarms.Nodup) ∧
    (∀ a, alarmIsScheduled (s.mod.alarm a) ↔
      a ∈ s.mod.alarms ∨ a ∈ s.mod.processingQueue a) ∧
    (∀ a, alarmIsScheduled (s.mod.alarm a) →
      ((s.mod.alarm a).isPeriodic = false →
        Xor (a ∈ s.mod.alarms) (a ∈ s.mod.processingQueue a)) ∧
      ((s.mod.alarm a).isPeriodic = true → a ∈ s.mod.alarms)) ∧
    (∀ a, (s.mod.processingQueue a).count a ≤ 1) := by
  obtain ⟨_, hw, hr⟩ := sound_of_reachable (fun _ _ hg => hg) h
  have hx : s.inTransit = none := hquiet
  rw [hx] at hw hr
  have hscheduled : ∀ a, alarmIsScheduled (s.mod.alarm a) ↔
      a ∈ s.mod.alarms ∨ a ∈ s.mod.processingQueue a := by
    intro a
    rw [hr.mem_processingQueue_iff]
    simpa [alarmIsScheduled] using hr.scheduled_iff a
  refine ⟨⟨hr.sorted, hw.nodup⟩, hscheduled, ?_, ?_⟩
  · intro a ha
    refine ⟨fun hper => ?_, fun hper => hr.listed_of_periodic a hper ha⟩
    rw [xor_iff_or_and_not_and]
    refine ⟨(hscheduled a).mp ha, ?_⟩
    rintro ⟨hlisted, hqueued⟩
    obtain ⟨q, hq⟩ := (hr.mem_processingQueue_iff a).mp hqueued
    exact hr.not_listed_of_queued hw hper hq hlisted
  · intro a
    unfold processingQueue
    split
    · simp
    · exact List.nodup_iff_count_le_one.mp (hw.queue_nodup _) a

/-- A single-shot and a periodic alarm on one queue, up to the dispatch of the
first. -/
def oneDispatch : List Label :=
  [.set ⟨1, 10, 100, 0, 7⟩ (setAt 10), .set ⟨2, 10, 200, 0, 7⟩ (setAt 11),
    .expireTimer 20, .take, .dispatch (dispatchAt 20), .enqueue]

/-- The invariant at the end of `oneDispatch`, where the list holds the
periodic alarm and the queue the single-shot one. -/
theorem representation_invariant_oneDispatch :
    ∃ s : System, s.mod.alarms = [2] ∧ s.mod.processingQueue 1 = [1] ∧
      (∀ a, alarmIsScheduled (s.mod.alarm a) ↔
        a ∈ s.mod.alarms ∨ a ∈ s.mod.processingQueue a) := by
  have hend : ((exec (fun s l => decide (System.OneQueue (fun _ => 7) s l))
      System.step (System.init (· == 2) fun _ => 10) oneDispatch).any fun s =>
        decide (s.Quiet ∧ s.mod.alarms = [2] ∧ s.mod.processingQueue 1 = [1])) =
      true := by
    decide
  obtain ⟨s, hs, hend⟩ := (Option.any_eq_true _ _).mp hend
  obtain ⟨hquiet, halarms, hqueue⟩ := of_decide_eq_true hend
  have hinv := representation_invariant _ _ _ s (Reachable.of_exec hs) hquiet
  exact ⟨s, halarms, hqueue, hinv.2.1⟩

/-! ## Moving an alarm to another queue -/

/-- What a set and the later dequeues guarantee in every run in which no alarm
is set on another queue while an instance of it waits in its old one. The
condition is exact for the set itself: the old instance is gone from all queues
exactly when the condition holds. -/
theorem set_revokes_instance (isPeriodic : AlarmPtr → Bool)
    (capacity : QueuePtr → UInt64) (s : System)
    (h : Reachable (Guarded (fun s l => NoStaleInstance s.mod l)
      (Next System.step)) (System.init isPeriodic capacity) s) :
    (∀ r env s', s.step (.set r env) = .ok s' →
      ((∀ q, r.alarm ∉ (s'.mod.queues q).list) ↔
        NoStaleInstance s.mod (.set r env))) ∧
    (∀ a q q', a ∈ (s.mod.queues q).list → a ∈ (s.mod.queues q').list → q = q') ∧
    (∀ a q, (s.mod.queues q).list.count a ≤ 1) ∧
    (∀ t q i s', s.step (.dequeue t q) = .ok s' →
      s'.hist = s.hist ++ [.dequeue t q i] → i.callback ≠ none) ∧
    (∀ t q s', s.step (.dequeue t q) = .ok s' →
      ∀ a ∈ s.mod.alarms, (s'.mod.alarm a).deadline = (s.mod.alarm a).deadline) := by
  obtain ⟨hw, hr⟩ := represents_of_reachable (fun _ _ hg => hg) h
  refine ⟨?_, ?_, ?_, ?_, ?_⟩
  · intro r env s' hstep
    cases System.step_cases hstep with
    | set hquiet hmod =>
        have hx : s.inTransit = none := hquiet
        rw [hx] at hr
        exact hr.not_mem_queues_iff hmod
  · intro a q q' hq hq'
    exact Option.some.inj ((hr.home a q hq).symm.trans (hr.home a q' hq'))
  · intro a q
    exact List.nodup_iff_count_le_one.mp (hw.queue_nodup q) a
  · intro t q i s' hstep hhist
    cases System.step_cases hstep with
    | dequeueNone _ _ _ => exact absurd hhist (by simp)
    | dequeueSome _ _ hmod =>
        obtain rfl : _ = i := by simpa using hhist
        exact hr.instance_callback hmod
  · intro t q s' hstep a ha
    cases System.step_cases hstep with
    | dequeueNone _ _ hmod => rw [System.record_mod, (alarmQueueReady_none hmod).1]
    | dequeueSome _ _ hmod => exact hr.dequeue_deadline hw hmod ha

theorem set_revokes_instance_oneDispatch :
    ∃ s : System, s.mod.processingQueue 1 = [1] ∧
      ∀ env s', s.step (.set ⟨1, 10, 100, 0, 7⟩ env) = .ok s' →
        ∀ q, 1 ∉ (s'.mod.queues q).list := by
  have hend : ((exec (fun s l => decide (NoStaleInstance s.mod l)) System.step
      (System.init (· == 2) fun _ => 10) oneDispatch).any fun s =>
        decide (s.mod.processingQueue 1 = [1] ∧
          NoStaleInstance s.mod (.set ⟨1, 10, 100, 0, 7⟩ (setAt 21)))) = true := by
    decide
  obtain ⟨s, hs, hend⟩ := (Option.any_eq_true _ _).mp hend
  obtain ⟨hqueue, hok⟩ := of_decide_eq_true hend
  refine ⟨s, hqueue, ?_⟩
  intro env s' hstep
  exact ((set_revokes_instance _ _ s (Reachable.of_exec hs)).1 _ env s' hstep).mpr hok

def expiredOnSeven : List Label :=
  [.set ⟨1, 10, 100, 0, 7⟩ (setAt 10), .expireTimer 20, .take,
    .dispatch (dispatchAt 20), .enqueue]

/-- After the alarm has been set on queue 8: queue 7 is served, the alarm is
dispatched to queue 8, and queue 8 is served. -/
def servedOnBoth : List Label :=
  [.dequeue 5 7, .invoke 5 22, .finish 5 23, .expireTimer 31, .take,
    .dispatch (dispatchAt 31), .enqueue, .dequeue 6 8]

/-- The old instance survives a set on another queue. Serving it resets the
deadline of the alarm in the list, and the new instance is then read with a
`NULL` callback. -/
theorem stale_instance_after_move :
    ∃ s s₁ s₂ s₃ : System,
      Reachable (Next System.step) (System.init (fun _ => false) fun _ => 10) s ∧
      s.step (.set ⟨1, 10, 100, 0, 8⟩ (setAt 21)) = .ok s₁ ∧
      1 ∈ (s₁.mod.queues 7).list ∧
      s₁.step (.dequeue 5 7) = .ok s₂ ∧
      1 ∈ s₁.mod.alarms ∧ (s₁.mod.alarm 1).deadline = 31 ∧
      (s₂.mod.alarm 1).deadline = 0 ∧
      Reachable (Next System.step) s₁ s₃ ∧
      s₃.hist.getLast? = some (.dequeue 6 8 ⟨1, none, 0, 0⟩) := by
  have hend : ((exec (fun _ _ => true) System.step
      (System.init (fun _ => false) fun _ => 10) expiredOnSeven).any fun s =>
        match s.step (.set ⟨1, 10, 100, 0, 8⟩ (setAt 21)) with
        | .ok s₁ =>
            decide (1 ∈ (s₁.mod.queues 7).list ∧ 1 ∈ s₁.mod.alarms ∧
              (s₁.mod.alarm 1).deadline = 31) &&
            (match s₁.step (.dequeue 5 7) with
              | .ok s₂ => decide ((s₂.mod.alarm 1).deadline = 0)
              | .error _ => false) &&
            (exec (fun _ _ => true) System.step s₁ servedOnBoth).any fun s₃ =>
              decide (s₃.hist.getLast? = some (.dequeue 6 8 ⟨1, none, 0, 0⟩))
        | .error _ => false) = true := by
    decide
  obtain ⟨s, hs, hend⟩ := (Option.any_eq_true _ _).mp hend
  split at hend
  · rename_i s₁ hs₁
    simp only [Bool.and_eq_true] at hend
    obtain ⟨⟨hstale, hdequeue⟩, hserved⟩ := hend
    obtain ⟨hstale, hlisted, hdeadline⟩ := of_decide_eq_true hstale
    obtain ⟨s₃, hs₃, hlast⟩ := (Option.any_eq_true _ _).mp hserved
    split at hdequeue
    · rename_i s₂ hs₂
      exact ⟨s, s₁, s₂, s₃, Reachable.of_exec_true hs, hs₁, hstale, hs₂, hlisted,
        hdeadline, of_decide_eq_true hdequeue, Reachable.of_exec_true hs₃,
        of_decide_eq_true hlast⟩
    · exact absurd hdequeue (by simp)
  · exact absurd hend (by simp)

end Alarm

end Osi
