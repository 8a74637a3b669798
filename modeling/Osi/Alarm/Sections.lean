import Osi.Alarm.Definitions
import Osi.Collection.Insertion

/-!
# What the critical sections do to the alarms

One lemma for each section of `Alarm/Definitions.lean`, stated on the three
fields that carry the representation: the alarm objects, the list of alarms and
the processing queues. `reschedule_root_alarm` leaves all three alone, so these
lemmas do not mention the kernel's answers except for the clock readings that
go into a deadline.
-/

namespace Osi

namespace Alarm

namespace AlarmState

/-! ## Frame lemmas -/

@[simp] theorem modify_alarm (s : AlarmState) (a : AlarmPtr) (f : AlarmT → AlarmT) :
    (s.modify a f).alarm = Function.update s.alarm a (f (s.alarm a)) := rfl

@[simp] theorem modify_alarms (s : AlarmState) (a : AlarmPtr)
    (f : AlarmT → AlarmT) : (s.modify a f).alarms = s.alarms := rfl

@[simp] theorem modify_queues (s : AlarmState) (a : AlarmPtr)
    (f : AlarmT → AlarmT) : (s.modify a f).queues = s.queues := rfl

@[simp] theorem setQueue_alarm (s : AlarmState) (q : QueuePtr)
    (queue : FixedQueue AlarmPtr) : (s.setQueue q queue).alarm = s.alarm := rfl

@[simp] theorem setQueue_queues_self (s : AlarmState) (q : QueuePtr)
    (queue : FixedQueue AlarmPtr) : (s.setQueue q queue).queues q = queue := by
  simp [setQueue]

theorem setQueue_queues_of_ne (s : AlarmState) {q q' : QueuePtr}
    (queue : FixedQueue AlarmPtr) (h : q' ≠ q) :
    (s.setQueue q queue).queues q' = s.queues q' := by
  simp [setQueue, h]

theorem setQueue_capacity (s : AlarmState) {q : QueuePtr}
    {queue : FixedQueue AlarmPtr} (h : queue.capacity = (s.queues q).capacity)
    (q' : QueuePtr) :
    ((s.setQueue q queue).queues q').capacity = (s.queues q').capacity := by
  by_cases hq : q' = q
  · subst hq
    rw [setQueue_queues_self, h]
  · rw [setQueue_queues_of_ne s queue hq]

/-- `reschedule_root_alarm` touches neither alarms, nor list, nor queues. -/
theorem rescheduleRootAlarm_frame (s : AlarmState) (env : RescheduleEnv) :
    (s.rescheduleRootAlarm env).alarm = s.alarm ∧
      (s.rescheduleRootAlarm env).alarms = s.alarms ∧
      (s.rescheduleRootAlarm env).queues = s.queues := by
  unfold rescheduleRootAlarm
  split
  · exact ⟨rfl, rfl, rfl⟩
  · dsimp only
    split_ifs <;> exact ⟨rfl, rfl, rfl⟩

@[simp] theorem rescheduleRootAlarm_alarm (s : AlarmState) (env : RescheduleEnv) :
    (s.rescheduleRootAlarm env).alarm = s.alarm := (s.rescheduleRootAlarm_frame env).1

@[simp] theorem rescheduleRootAlarm_alarms (s : AlarmState) (env : RescheduleEnv) :
    (s.rescheduleRootAlarm env).alarms = s.alarms :=
  (s.rescheduleRootAlarm_frame env).2.1

@[simp] theorem rescheduleRootAlarm_queues (s : AlarmState) (env : RescheduleEnv) :
    (s.rescheduleRootAlarm env).queues = s.queues :=
  (s.rescheduleRootAlarm_frame env).2.2

/-! ## Removing the pending instances -/

/-- The loop of `remove_pending_alarm` ends with no instance left in the queue
and keeps the rest of it in order. -/
theorem removeInstances_list (a : AlarmPtr) (fuel : ℕ) (q : FixedQueue AlarmPtr)
    (hfuel : q.list.length ≤ fuel) :
    (removeInstances a fuel q).list = q.list.filter (· ≠ a) := by
  induction fuel generalizing q with
  | zero =>
      have hnil : q.list = [] := List.length_eq_zero_iff.mp (by omega)
      simp [removeInstances, hnil]
  | succ fuel ih =>
      rw [removeInstances]
      by_cases ha : a ∈ q.list
      · rw [FixedQueue.tryRemoveFromQueue_of_mem ha]
        have hlen : (q.remove a ha).list.length ≤ fuel := by
          rw [FixedQueue.remove_list, List.length_erase_of_mem ha]
          omega
        rw [ih (q.remove a ha) hlen, FixedQueue.remove_list,
          Collection.filter_ne_erase]
      · rw [FixedQueue.tryRemoveFromQueue_of_not_mem ha]
        symm
        rw [List.filter_eq_self]
        intro x hx
        simpa using fun hxa : x = a => ha (hxa ▸ hx)

theorem removeInstances_capacity (a : AlarmPtr) (fuel : ℕ)
    (q : FixedQueue AlarmPtr) :
    (removeInstances a fuel q).capacity = q.capacity := by
  induction fuel generalizing q with
  | zero => rfl
  | succ fuel ih =>
      rw [removeInstances]
      by_cases ha : a ∈ q.list
      · rw [FixedQueue.tryRemoveFromQueue_of_mem ha]
        exact ih (q.remove a ha)
      · rw [FixedQueue.tryRemoveFromQueue_of_not_mem ha]

/-- The queues `queues` with every instance of `a` taken out of the queue `q`,
and nothing else changed. -/
structure Purged (a : AlarmPtr) (q : Option QueuePtr)
    (queues queues' : QueuePtr → FixedQueue AlarmPtr) : Prop where
  here : ∀ q', q = some q' →
    (queues' q').list = (queues q').list.filter (· ≠ a)
  elsewhere : ∀ q', q ≠ some q' → queues' q' = queues q'
  capacity : ∀ q', (queues' q').capacity = (queues q').capacity

/-- Whatever was in a queue and is not `a` is still there, in the same order. -/
theorem Purged.list_sublist {a : AlarmPtr} {q : Option QueuePtr}
    {queues queues' : QueuePtr → FixedQueue AlarmPtr}
    (h : Purged a q queues queues') (q' : QueuePtr) :
    (queues' q').list.Sublist (queues q').list := by
  by_cases hq : q = some q'
  · rw [h.here q' hq]
    exact List.filter_sublist
  · rw [h.elsewhere q' hq]

theorem Purged.mem_iff {a b : AlarmPtr} {q : Option QueuePtr}
    {queues queues' : QueuePtr → FixedQueue AlarmPtr}
    (h : Purged a q queues queues') (q' : QueuePtr) :
    b ∈ (queues' q').list ↔
      b ∈ (queues q').list ∧ ¬ (b = a ∧ q = some q') := by
  by_cases hq : q = some q'
  · rw [h.here q' hq]
    simp [hq]
  · rw [h.elsewhere q' hq]
    simp [hq]

@[simp] theorem removePendingAlarm_alarm (s : AlarmState) (a : AlarmPtr) :
    (s.removePendingAlarm a).alarm = s.alarm := rfl

@[simp] theorem removePendingAlarm_alarms (s : AlarmState) (a : AlarmPtr) :
    (s.removePendingAlarm a).alarms = s.alarms.erase a := rfl

theorem removePendingAlarm_queues (s : AlarmState) (a : AlarmPtr) :
    Purged a (s.alarm a).queue s.queues (s.removePendingAlarm a).queues := by
  cases hq : (s.alarm a).queue with
  | none =>
      have hsame : (s.removePendingAlarm a).queues = s.queues := by
        simp [removePendingAlarm, hq]
      rw [hsame]
      exact ⟨by simp, fun _ _ => rfl, fun _ => rfl⟩
  | some q =>
      have hupd : (s.removePendingAlarm a).queues =
          Function.update s.queues q
            (removeInstances a (s.queues q).list.length (s.queues q)) := by
        simp [removePendingAlarm, hq]
      rw [hupd]
      refine ⟨?_, ?_, ?_⟩
      · rintro q' ⟨rfl⟩
        rw [Function.update_self]
        exact removeInstances_list a _ _ le_rfl
      · intro q' hne
        have hne' : q' ≠ q := fun h => hne (by rw [h])
        rw [Function.update_of_ne hne']
      · intro q'
        by_cases hqq : q' = q
        · subst hqq
          rw [Function.update_self, removeInstances_capacity]
        · rw [Function.update_of_ne hqq]

/-! ## The sorted insertion -/

/-- The loop inserts before the first later node with a greater deadline. -/
theorem insertAfter_eq (deadline : AlarmPtr → PeriodMs) (a node : AlarmPtr)
    (rest : List AlarmPtr) :
    insertAfter deadline a node rest =
      node :: rest.orderedInsert (fun x y => deadline x < deadline y) a := by
  induction rest generalizing node with
  | nil => rfl
  | cons next rest ih =>
      rw [insertAfter, List.orderedInsert_cons, ih next]
      split_ifs <;> rfl

/-- The insertion of `schedule_next_instance` is the stable ordered insertion:
strict in the comparison, so `a` comes after the alarms with its deadline. -/
theorem insertAlarm_eq (deadline : AlarmPtr → PeriodMs) (a : AlarmPtr)
    (alarms : List AlarmPtr) :
    insertAlarm deadline a alarms =
      alarms.orderedInsert (fun x y => deadline x < deadline y) a := by
  cases alarms with
  | nil => rfl
  | cons front rest =>
      rw [insertAlarm, List.orderedInsert_cons, insertAfter_eq]

def inserted (alarm : AlarmPtr → AlarmT) (a : AlarmPtr) (alarms : List AlarmPtr) :
    List AlarmPtr :=
  alarms.orderedInsert (fun x y => (alarm x).deadline < (alarm y).deadline) a

theorem mem_inserted {alarm : AlarmPtr → AlarmT} {a b : AlarmPtr}
    {alarms : List AlarmPtr} :
    b ∈ inserted alarm a alarms ↔ b = a ∨ b ∈ alarms :=
  List.mem_orderedInsert _

/-- Only the deadlines of the alarm objects matter for the insertion. -/
theorem inserted_congr {alarm alarm' : AlarmPtr → AlarmT} (a : AlarmPtr)
    (alarms : List AlarmPtr)
    (h : ∀ x, (alarm' x).deadline = (alarm x).deadline) :
    inserted alarm' a alarms = inserted alarm a alarms := by
  unfold inserted
  simp only [h]

/-! ## The sections -/

def scheduled (alarm : AlarmT) (justNow : PeriodMs) : AlarmT :=
  { alarm with deadline := nextDeadline alarm justNow }

theorem addToTimerList_spec (s : AlarmState) (a : AlarmPtr) (justNow : PeriodMs) :
    (s.addToTimerList a justNow).alarm =
        Function.update s.alarm a (scheduled (s.alarm a) justNow) ∧
      (s.addToTimerList a justNow).alarms =
        inserted (s.addToTimerList a justNow).alarm a s.alarms ∧
      (s.addToTimerList a justNow).queues = s.queues := by
  refine ⟨rfl, ?_, rfl⟩
  exact insertAlarm_eq (fun x => ((s.addToTimerList a justNow).alarm x).deadline)
    a s.alarms

/-- `schedule_next_instance`. An alarm whose callback is set is first taken out
of the list and of its queue. -/
theorem scheduleNextInstance_ok {s s' : AlarmState} {a : AlarmPtr}
    {env : ScheduleEnv} (h : s.scheduleNextInstance a env = .ok s') :
    s'.alarm = Function.update s.alarm a (scheduled (s.alarm a) env.now) ∧
      ((s.alarm a).callback.isSome →
        s'.alarms = inserted s'.alarm a (s.alarms.erase a) ∧
          Purged a (s.alarm a).queue s.queues s'.queues) := by
  unfold scheduleNextInstance at h
  dsimp only at h
  by_cases hcb : (s.alarm a).callback.isSome
  · have hpurge := s.removePendingAlarm_queues a
    obtain ⟨halarm, halarms, hqueues⟩ :=
      (s.removePendingAlarm a).addToTimerList_spec a env.now
    rw [← hqueues] at hpurge
    rw [if_pos hcb] at h
    split_ifs at h
    · cases h
      rw [rescheduleRootAlarm_alarm, rescheduleRootAlarm_alarms,
        rescheduleRootAlarm_queues]
      exact ⟨halarm, fun _ => ⟨halarms, hpurge⟩⟩
    · cases h
      exact ⟨halarm, fun _ => ⟨halarms, hpurge⟩⟩
  · rw [if_neg hcb] at h
    split_ifs at h
    · cases h
      rw [rescheduleRootAlarm_alarm]
      exact ⟨rfl, fun hcb' => absurd hcb' hcb⟩
    · cases h
      exact ⟨rfl, fun hcb' => absurd hcb' hcb⟩

theorem scheduleNextInstance_period {s s' : AlarmState} {a : AlarmPtr}
    {env : ScheduleEnv} (h : s.scheduleNextInstance a env = .ok s')
    (hper : (s.alarm a).isPeriodic = true) : (s.alarm a).period ≠ 0 := by
  unfold scheduleNextInstance at h
  dsimp only at h
  intro hzero
  by_cases hcb : (s.alarm a).callback.isSome
  · rw [if_pos hcb, if_pos (by simp [hper, hzero])] at h
    cases h
  · rw [if_neg hcb, if_pos (by simp [hper, hzero])] at h
    cases h

theorem alarmSetInternal_eq_ok {s s' : AlarmState} {r : SetArgs} {env : SetEnv}
    (h : s.alarmSetInternal r env = .ok s') :
    ∃ s₁, (s.modify r.alarm fun al => assigned al r env).scheduleNextInstance r.alarm
        env.schedule = .ok s₁ ∧
      s' = s₁.modify r.alarm fun al =>
        { al with
          stats := { al.stats with scheduledCount := al.stats.scheduledCount + 1 } } := by
  unfold alarmSetInternal at h
  dsimp only at h
  split at h
  · cases h
  · rename_i s₁ hs₁
    cases h
    exact ⟨s₁, hs₁, rfl⟩

/-- `alarm_set_internal`. The purge goes to the queue of this call, because
`alarm->queue` has already been overwritten. -/
theorem alarmSetInternal_ok {s s' : AlarmState} {r : SetArgs} {env : SetEnv}
    (h : s.alarmSetInternal r env = .ok s') :
    (∃ stats, s'.alarm = Function.update s.alarm r.alarm
      { scheduled (assigned (s.alarm r.alarm) r env) env.schedule.now with
        stats := stats }) ∧
      s'.alarms = inserted s'.alarm r.alarm (s.alarms.erase r.alarm) ∧
      Purged r.alarm (some r.queue) s.queues s'.queues := by
  obtain ⟨s₁, hs₁, rfl⟩ := alarmSetInternal_eq_ok h
  have hq : ((s.modify r.alarm fun al => assigned al r env).alarm r.alarm).queue =
      some r.queue := by
    simp [assigned]
  obtain ⟨halarm, hcb⟩ := scheduleNextInstance_ok hs₁
  obtain ⟨halarms, hpurge⟩ := hcb (by simp [assigned])
  rw [hq] at hpurge
  refine ⟨?_, ?_, hpurge⟩
  · simp only [modify_alarm, halarm, Function.update_self, Function.update_idem]
    exact ⟨_, rfl⟩
  · rw [modify_alarms, halarms]
    symm
    apply inserted_congr
    intro x
    rw [modify_alarm]
    by_cases hx : x = r.alarm
    · subst hx
      rw [Function.update_self]
    · rw [Function.update_of_ne hx]

theorem alarmSetInternal_period {s s' : AlarmState} {r : SetArgs} {env : SetEnv}
    (h : s.alarmSetInternal r env = .ok s')
    (hper : (s.alarm r.alarm).isPeriodic = true) : r.intervalMs ≠ 0 := by
  obtain ⟨s₁, hs₁, -⟩ := alarmSetInternal_eq_ok h
  have hne := scheduleNextInstance_period hs₁ (by simpa [assigned] using hper)
  simpa [assigned] using hne

theorem alarmCancel_spec (s : AlarmState) (a : AlarmPtr) (env : RescheduleEnv) :
    (∃ stats, (s.alarmCancel a env).alarm = Function.update s.alarm a
      { s.alarm a with
        deadline := 0, prevDeadline := 0, callback := none, data := 0
        stats := stats }) ∧
      (s.alarmCancel a env).alarms = s.alarms.erase a ∧
      Purged a (s.alarm a).queue s.queues (s.alarmCancel a env).queues := by
  have hpurge := s.removePendingAlarm_queues a
  unfold alarmCancel
  dsimp only
  split_ifs
  · rw [rescheduleRootAlarm_alarm, rescheduleRootAlarm_alarms,
      rescheduleRootAlarm_queues]
    exact ⟨⟨_, rfl⟩, rfl, hpurge⟩
  · exact ⟨⟨_, rfl⟩, rfl, hpurge⟩

/-- What an iteration of `callback_dispatch` does up to the enqueue. -/
inductive Dispatched (s : AlarmState) (env : DispatchEnv) :
    AlarmState → Option AlarmPtr → Prop
  | empty (halarms : s.alarms = []) :
      Dispatched s env (s.rescheduleRootAlarm env.reschedule) none
  | later {a : AlarmPtr} {rest : List AlarmPtr} (halarms : s.alarms = a :: rest)
      (hlater : env.now < (s.alarm a).deadline) :
      Dispatched s env (s.rescheduleRootAlarm env.reschedule) none
  | single {a : AlarmPtr} {rest : List AlarmPtr} (halarms : s.alarms = a :: rest)
      (hdue : ¬ env.now < (s.alarm a).deadline) (hsingle : ¬ (s.alarm a).isPeriodic = true) :
      Dispatched s env
        (rescheduleRootAlarm { s with alarms := s.alarms.erase a } env.reschedule) (some a)
  | periodic {a : AlarmPtr} {rest : List AlarmPtr} {s₁ : AlarmState}
      (halarms : s.alarms = a :: rest) (hdue : ¬ env.now < (s.alarm a).deadline)
      (hper : (s.alarm a).isPeriodic = true)
      (hs₁ : scheduleNextInstance ({ s with alarms := s.alarms.erase a }.modify a fun al =>
        { al with prevDeadline := al.deadline }) a env.schedule = .ok s₁) :
      Dispatched s env
        ((s₁.modify a fun al =>
          { al with
            stats :=
              { al.stats with
                rescheduledCount := al.stats.rescheduledCount + 1 } }).rescheduleRootAlarm
          env.reschedule) (some a)

theorem callbackDispatch_cases {s s' : AlarmState} {env : DispatchEnv} {x : Option AlarmPtr}
    (h : s.callbackDispatch env = .ok (s', x)) : Dispatched s env s' x := by
  unfold callbackDispatch at h
  split at h
  · rename_i halarms
    cases h
    exact .empty halarms
  · rename_i a rest halarms
    dsimp only at h
    split at h
    · rename_i hlater
      cases h
      exact .later halarms hlater
    · rename_i hdue
      split at h
      · rename_i hper
        split at h
        · cases h
        · rename_i s₁ hs₁
          cases h
          exact .periodic halarms hdue hper hs₁
      · rename_i hsingle
        cases h
        exact .single halarms hdue hsingle

/-- `callback_dispatch` when the list is empty or its front is not due. -/
theorem callbackDispatch_none {s s' : AlarmState} {env : DispatchEnv}
    (h : s.callbackDispatch env = .ok (s', none)) :
    s' = s.rescheduleRootAlarm env.reschedule ∧
      ∀ a ∈ s.alarms.head?, env.now < (s.alarm a).deadline := by
  cases callbackDispatch_cases h with
  | empty halarms => exact ⟨rfl, by simp [halarms]⟩
  | @later a rest halarms hlater =>
      refine ⟨rfl, ?_⟩
      intro b hb
      obtain rfl : a = b := by simpa [halarms] using hb
      exact hlater

/-- The alarm that `callback_dispatch` leaves behind when it re-arms a periodic
alarm. -/
def rearmed (alarm : AlarmT) (justNow : PeriodMs) : AlarmT :=
  scheduled { alarm with prevDeadline := alarm.deadline } justNow

/-- `callback_dispatch` when the front of the list is due, up to the enqueue. A
periodic alarm leaves the list and the queue and is back in the list with its
next deadline. -/
theorem callbackDispatch_some {s s' : AlarmState} {env : DispatchEnv}
    {a : AlarmPtr} (h : s.callbackDispatch env = .ok (s', some a)) :
    ∃ rest, s.alarms = a :: rest ∧ (s.alarm a).deadline ≤ env.now ∧
      (((s.alarm a).isPeriodic = false ∧ s'.alarm = s.alarm ∧ s'.alarms = rest ∧
          s'.queues = s.queues) ∨
        ((s.alarm a).isPeriodic = true ∧
          (∃ stats, s'.alarm = Function.update s.alarm a
            { rearmed (s.alarm a) env.schedule.now with stats := stats }) ∧
          ((s.alarm a).callback.isSome →
            s'.alarms = inserted s'.alarm a (rest.erase a) ∧
              Purged a (s.alarm a).queue s.queues s'.queues))) := by
  cases callbackDispatch_cases h with
  | @single _ rest halarms hdue hsingle =>
      refine ⟨rest, halarms, UInt64.not_lt.mp hdue, Or.inl ⟨by simpa using hsingle, ?_⟩⟩
      simp [halarms]
  | @periodic _ rest s₁ hcons hdue hper hs₁ =>
      obtain ⟨halarm, hcb⟩ := scheduleNextInstance_ok hs₁
      simp only [modify_alarm, modify_alarms, modify_queues, hcons,
        List.erase_cons_head, Function.update_self, Function.update_idem]
        at halarm hcb
      refine ⟨rest, hcons, UInt64.not_lt.mp hdue, Or.inr ⟨hper, ?_, ?_⟩⟩
      · simp only [rescheduleRootAlarm_alarm, modify_alarm, halarm,
          Function.update_self, Function.update_idem]
        exact ⟨_, rfl⟩
      · intro hsome
        obtain ⟨halarms, hpurge⟩ := hcb hsome
        rw [rescheduleRootAlarm_alarm, rescheduleRootAlarm_alarms,
          rescheduleRootAlarm_queues, modify_queues, modify_alarms, halarms]
        refine ⟨?_, hpurge⟩
        symm
        apply inserted_congr
        intro x
        rw [modify_alarm]
        by_cases hx : x = a
        · subst hx
          rw [Function.update_self]
        · rw [Function.update_of_ne hx]

theorem callbackDispatch_period {s s' : AlarmState} {env : DispatchEnv}
    {a : AlarmPtr} (h : s.callbackDispatch env = .ok (s', some a))
    (hper : (s.alarm a).isPeriodic = true) : (s.alarm a).period ≠ 0 := by
  cases callbackDispatch_cases h with
  | single _ _ hsingle => exact absurd hper hsingle
  | periodic _ _ _ hs₁ =>
      have hne := scheduleNextInstance_period hs₁ (by simpa using hper)
      simpa using hne

theorem callbackDispatchEnqueue_ok {s s' : AlarmState} {a : AlarmPtr}
    (h : s.callbackDispatchEnqueue a = .ok s') :
    s'.alarm = s.alarm ∧ s'.alarms = s.alarms ∧
      ∃ q, (s.alarm a).queue = some q ∧
        (s.queues q).list.length < (s.queues q).slots ∧
        (s'.queues q).list = (s.queues q).list ++ [a] ∧
        (∀ q', (s'.queues q').capacity = (s.queues q').capacity) ∧
        ∀ q', q' ≠ q → s'.queues q' = s.queues q' := by
  unfold callbackDispatchEnqueue at h
  split at h
  · cases h
  · rename_i q hq
    split at h
    · cases h
    · rename_i queue hqueue
      cases h
      obtain ⟨hroom, hlist, hcap⟩ :=
        (FixedQueue.enqueue_eq_some_iff _ _ _).mp hqueue
      refine ⟨rfl, rfl, q, hq, hroom, ?_, setQueue_capacity s hcap, ?_⟩
      · rw [setQueue_queues_self, hlist]
      · intro q' hne
        exact setQueue_queues_of_ne s queue hne

def serviced (alarm : AlarmT) : AlarmT :=
  if alarm.isPeriodic then alarm
  else { alarm with deadline := 0, callback := none, data := 0 }

/-- Serving an alarm changes neither its kind, nor its queue, nor the time of its set. -/
theorem serviced_fields (alarm : AlarmT) :
    (serviced alarm).isPeriodic = alarm.isPeriodic ∧ (serviced alarm).queue = alarm.queue ∧
      (serviced alarm).creationTime = alarm.creationTime := by
  unfold serviced
  split_ifs <;> exact ⟨rfl, rfl, rfl⟩

theorem alarmQueueReady_none {s s' : AlarmState} {q : QueuePtr}
    (h : s.alarmQueueReady q = (s', none)) : s' = s ∧ (s.queues q).list = [] := by
  cases hlist : (s.queues q).list with
  | nil =>
      have htry := FixedQueue.tryDequeue_of_nil hlist
      simp only [alarmQueueReady, htry, Prod.mk.injEq] at h
      exact ⟨h.1.symm, rfl⟩
  | cons a rest =>
      obtain ⟨hfst, _⟩ := FixedQueue.tryDequeue_of_cons hlist
      simp only [alarmQueueReady] at h
      split at h
      · rename_i htry
        rw [htry] at hfst
        cases hfst
      · split at h <;> cases h

/-- `alarm_queue_ready` with an alarm in the queue: its front is taken, and the
instance holds what the alarm said at that moment. -/
theorem alarmQueueReady_some {s s' : AlarmState} {q : QueuePtr} {i : Instance}
    (h : s.alarmQueueReady q = (s', some i)) :
    (∃ rest, (s.queues q).list = i.alarm :: rest ∧ (s'.queues q).list = rest) ∧
      i = ⟨i.alarm, (s.alarm i.alarm).callback, (s.alarm i.alarm).data,
        dispatchedDeadline (s.alarm i.alarm)⟩ ∧
      s'.alarm = Function.update s.alarm i.alarm (serviced (s.alarm i.alarm)) ∧
      s'.alarms = s.alarms ∧
      (∀ q', (s'.queues q').capacity = (s.queues q').capacity) ∧
      ∀ q', q' ≠ q → s'.queues q' = s.queues q' := by
  cases hlist : (s.queues q).list with
  | nil =>
      have htry := FixedQueue.tryDequeue_of_nil hlist
      simp only [alarmQueueReady, htry, Prod.mk.injEq] at h
      cases h.2
  | cons a rest =>
      obtain ⟨hfst, hrest, hcap⟩ := FixedQueue.tryDequeue_of_cons hlist
      have htry : (s.queues q).tryDequeue = (some a, (s.queues q).tryDequeue.2) := by
        rw [← hfst]
      unfold alarmQueueReady at h
      rw [htry] at h
      dsimp only at h
      split_ifs at h with hper
      · cases h
        refine ⟨⟨rest, rfl, ?_⟩, rfl, ?_, rfl, setQueue_capacity s hcap, ?_⟩
        · rw [setQueue_queues_self, hrest]
        · simp [serviced, hper]
        · intro q' hne
          exact setQueue_queues_of_ne s _ hne
      · cases h
        refine ⟨⟨rest, rfl, ?_⟩, rfl, ?_, rfl, setQueue_capacity s hcap, ?_⟩
        · rw [modify_queues, setQueue_queues_self, hrest]
        · simp [serviced, hper]
        · intro q' hne
          exact setQueue_queues_of_ne s _ hne

/-- Only a single-shot alarm is changed by being served. -/
theorem alarmQueueReady_alarm_eq {s s' : AlarmState} {q : QueuePtr} {i : Instance}
    {a : AlarmPtr} (h : s.alarmQueueReady q = (s', some i))
    (hper : a = i.alarm → (s.alarm a).isPeriodic = true) : s'.alarm a = s.alarm a := by
  obtain ⟨_, _, halarm, _⟩ := alarmQueueReady_some h
  rw [halarm]
  by_cases ha : a = i.alarm
  · have hperiodic := hper ha
    subst ha
    rw [Function.update_self, serviced, if_pos hperiodic]
  · rw [Function.update_of_ne ha]

end AlarmState

end Alarm

end Osi
