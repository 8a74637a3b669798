import Osi.EagerReader.Basic

/-!
# The eager reader delivers the byte stream

The bytes read so far are those delivered, in their order, followed by those
still `pending`: in the current buffer, in the queue, and in the buffer that the
inbound thread has not enqueued yet. The counts follow the bytes: the eventfd
counter, what the consumer holds of it, and what the inbound thread has not
added to it make up the number of pending bytes. A consumer that may still copy
therefore finds a buffer, because what is pending outside the queue has not been
counted.
-/

namespace Osi

namespace EagerReader

/-- The bytes the inbound thread has read and not enqueued. -/
def Producer.chunk : Producer → List UInt8
  | .enqueueing b => b.remaining
  | _ => []

/-- The number of bytes the inbound thread has read and not counted. -/
def Producer.uncounted : Producer → ℕ
  | .waiting => 0
  | .enqueueing b => b.length
  | .counting n => n

def Consumer.copied : Consumer → List UInt8
  | .copying c => c.buffer
  | _ => []

/-- What the consumer holds of the counter: what it fetched and did not use. -/
def Consumer.held : Consumer → ℕ
  | .copying c => c.bytesAvailable - c.bytesConsumed
  | _ => 0

def returned (s : EagerReader) : List UInt8 := s.calls.flatMap Call.bytes

def delivered (s : EagerReader) : List UInt8 := s.returned ++ s.consumer.copied

def current (s : EagerReader) : List UInt8 :=
  match s.currentBuffer with
  | none => []
  | some b => b.remaining

/-- The bytes that have been read and not delivered. -/
def pending (s : EagerReader) : List UInt8 :=
  s.current ++ (s.buffers.list.flatMap DataBuffer.remaining ++ s.producer.chunk)

def Label.Proceeds : Label → Prop
  | .poll | .fetch | .dequeue | .copy | .finish => True
  | _ => False

/-- A bound on the steps the consumer takes before its call returns. -/
def rank (s : EagerReader) : ℕ :=
  match s.consumer with
  | .idle => 0
  | .polling n => 2 * n + 4
  | .fetching n => 2 * n + 3
  | .copying c =>
      2 * (c.maxSize - c.bytesConsumed) + (if s.currentBuffer = none then 2 else 1)

structure Fresh (b : DataBuffer) : Prop where
  length_eq : b.length = b.data.length
  offset_eq : b.offset = 0
  pos : 0 < b.length

theorem Fresh.length_remaining {b : DataBuffer} (h : Fresh b) :
    b.remaining.length = b.length := by
  simp [DataBuffer.remaining, h.offset_eq, h.length_eq]

structure Consistent (s : EagerReader) : Prop where
  stream : s.delivered ++ s.pending = s.input
  count : s.bytesAvailable + s.consumer.held + s.producer.uncounted = s.pending.length
  queued : ∀ b ∈ s.buffers.list, Fresh b
  inbound : ∀ b, s.producer = .enqueueing b → Fresh b
  opened : ∀ b, s.currentBuffer = some b → b.length = b.data.length ∧ b.offset < b.length
  fetching : ∀ n, s.consumer = .fetching n → s.bytesAvailable ≠ 0
  copying : ∀ c, s.consumer = .copying c →
    c.maxSize = min c.requested c.bytesAvailable ∧ c.bytesConsumed ≤ c.maxSize ∧
      c.buffer.length = c.bytesConsumed
  lengths : ∀ call ∈ s.calls, call.bytes.length = min call.maxSize call.fetched

theorem consistent_new (bufferSize : ℕ) (maxBufferCount : UInt64) :
    Consistent (new bufferSize maxBufferCount) := by
  refine ⟨rfl, rfl, ?_, ?_, ?_, ?_, ?_, ?_⟩
  · intro b hb
    cases hb
  · intro b hb
    cases hb
  · intro b hb
    cases hb
  · intro n hn
    cases hn
  · intro c hc
    cases hc
  · intro call hcall
    cases hcall

/-- One iteration of the copy loop moves bytes from the front of the current
buffer to the end of the caller's, at least one and at most as many as may still
be copied. -/
theorem copyFrom_spec {c : Copying} {b : DataBuffer} (hlen : b.length = b.data.length)
    (hoff : b.offset < b.length) (hlt : c.bytesConsumed < c.maxSize) :
    ∃ n, 0 < n ∧ n ≤ b.remaining.length ∧
      (copyFrom c b).1 = { c with
        bytesConsumed := c.bytesConsumed + n
        buffer := c.buffer ++ b.remaining.take n } ∧
      c.bytesConsumed + n ≤ c.maxSize ∧
      ((copyFrom c b).2 = none ∧ b.remaining.drop n = [] ∨
        ∃ b', (copyFrom c b).2 = some b' ∧ b'.remaining = b.remaining.drop n ∧
          b'.length = b'.data.length ∧ b'.offset < b'.length) := by
  have hrem : b.remaining.length = b.length - b.offset := by
    simp [DataBuffer.remaining, hlen]
  refine ⟨if b.length - b.offset > c.maxSize - c.bytesConsumed then
    c.maxSize - c.bytesConsumed else b.length - b.offset, ?_, ?_, rfl, ?_, ?_⟩
  · split <;> omega
  · split <;> omega
  · split <;> omega
  · simp only [copyFrom]
    generalize hn : (if b.length - b.offset > c.maxSize - c.bytesConsumed then
      c.maxSize - c.bytesConsumed else b.length - b.offset) = n
    by_cases hdone : b.offset + n ≥ b.length
    · left
      rw [if_pos hdone]
      exact ⟨rfl, List.drop_eq_nil_of_le (by omega)⟩
    · right
      rw [if_neg hdone]
      refine ⟨_, rfl, ?_, hlen, Nat.lt_of_not_ge hdone⟩
      simp [DataBuffer.remaining, List.drop_drop]

namespace Consistent

variable {s : EagerReader}

theorem read (h : Consistent s) {chunk : List UInt8} (hp : s.producer = .waiting)
    (hpos : 0 < chunk.length) :
    Consistent { s with
      producer := .enqueueing { length := chunk.length, offset := 0, data := chunk }
      input := s.input ++ chunk } := by
  have hpending : s.pending = s.current ++ s.buffers.list.flatMap DataBuffer.remaining := by
    simp [pending, hp, Producer.chunk]
  have hstream := h.stream
  have hcount := h.count
  simp only [hp, Producer.uncounted, hpending] at hstream hcount
  refine ⟨?_, ?_, h.queued, ?_, h.opened, h.fetching, h.copying, h.lengths⟩
  · change s.delivered ++ (s.current ++
      (s.buffers.list.flatMap DataBuffer.remaining ++ chunk)) = _
    rw [← hstream]
    simp
  · change s.bytesAvailable + s.consumer.held + chunk.length =
      (s.current ++ (s.buffers.list.flatMap DataBuffer.remaining ++ chunk)).length
    simp only [List.length_append] at hcount ⊢
    omega
  · rintro b hb
    obtain rfl := Producer.enqueueing.inj hb
    exact ⟨rfl, rfl, hpos⟩

theorem enqueue (h : Consistent s) {b : DataBuffer} {q : FixedQueue DataBuffer}
    (hp : s.producer = .enqueueing b) (hq : s.buffers.enqueue b = some q) :
    Consistent { s with buffers := q, producer := .counting b.length } := by
  obtain ⟨-, hlist, -⟩ := (FixedQueue.enqueue_eq_some_iff _ _ _).mp hq
  have hpending : pending { s with buffers := q, producer := .counting b.length } =
      s.pending := by
    simp [pending, current, hlist, hp, Producer.chunk]
  have hcount := h.count
  rw [hp] at hcount
  refine ⟨?_, ?_, ?_, ?_, h.opened, h.fetching, h.copying, h.lengths⟩
  · rw [hpending]
    exact h.stream
  · rw [hpending]
    exact hcount
  · intro b' hb'
    change b' ∈ q.list at hb'
    rw [hlist] at hb'
    rcases List.mem_append.mp hb' with hb' | hb'
    · exact h.queued b' hb'
    · rw [List.mem_singleton.mp hb']
      exact h.inbound b hp
  · intro b' hb'
    cases hb'

theorem count_step (h : Consistent s) {n : ℕ} (hp : s.producer = .counting n) :
    Consistent
      { s with bytesAvailable := s.bytesAvailable + n, producer := .waiting } := by
  have hpending : pending
      { s with bytesAvailable := s.bytesAvailable + n, producer := .waiting } =
      s.pending := by
    simp [pending, current, hp, Producer.chunk]
  have hcount := h.count
  rw [hp] at hcount
  simp only [Producer.uncounted] at hcount
  refine ⟨?_, ?_, h.queued, ?_, h.opened, ?_, h.copying, h.lengths⟩
  · rw [hpending]
    exact h.stream
  · rw [hpending]
    change s.bytesAvailable + n + s.consumer.held + 0 = _
    omega
  · intro b hb
    cases hb
  · intro m hm
    have := h.fetching m hm
    change s.bytesAvailable + n ≠ 0
    omega

/-- A step of the consumer that only moves it to another point, where it holds
and has copied nothing. -/
theorem goto (h : Consistent s) {v : Consumer} (hcopied : s.consumer.copied = [])
    (hheld : s.consumer.held = 0) (hv : v.copied = []) (hv' : v.held = 0)
    (hfetch : ∀ n, v = .fetching n → s.bytesAvailable ≠ 0)
    (hcopy : ∀ c, v ≠ .copying c) : Consistent { s with consumer := v } := by
  have hstream := h.stream
  have hcount := h.count
  rw [hheld] at hcount
  refine ⟨?_, ?_, h.queued, h.inbound, h.opened, hfetch, ?_, h.lengths⟩
  · rw [delivered, hcopied] at hstream
    change s.returned ++ v.copied ++ s.pending = s.input
    rw [hv]
    exact hstream
  · change s.bytesAvailable + v.held + s.producer.uncounted = s.pending.length
    rw [hv']
    exact hcount
  · intro c hc
    exact absurd hc (hcopy c)

theorem fetch (h : Consistent s) {n : ℕ} (hc : s.consumer = .fetching n) :
    Consistent { s with
      bytesAvailable := 0
      consumer := .copying
        { requested := n
          maxSize := if n > s.bytesAvailable then s.bytesAvailable else n
          bytesAvailable := s.bytesAvailable
          bytesConsumed := 0
          buffer := [] } } := by
  have hstream := h.stream
  have hcount := h.count
  rw [hc] at hcount
  refine ⟨?_, ?_, h.queued, h.inbound, h.opened, ?_, ?_, h.lengths⟩
  · rw [delivered, hc] at hstream
    exact hstream
  · change 0 + (s.bytesAvailable - 0) + s.producer.uncounted = s.pending.length
    simp only [Consumer.held] at hcount
    omega
  · intro m hm
    cases hm
  · intro c hcopy
    obtain rfl := Consumer.copying.inj hcopy
    refine ⟨?_, Nat.zero_le _, rfl⟩
    change (if n > s.bytesAvailable then s.bytesAvailable else n) = min n s.bytesAvailable
    split <;> omega

theorem dequeue (h : Consistent s) {b : DataBuffer} {q : FixedQueue DataBuffer}
    (hb : s.currentBuffer = none) (hq : s.buffers.dequeue = some (b, q)) :
    Consistent { s with buffers := q, currentBuffer := some b } := by
  have hlist := FixedQueue.list_of_dequeue hq
  have hpending : pending { s with buffers := q, currentBuffer := some b } = s.pending := by
    simp [pending, current, hb, hlist]
  refine ⟨?_, ?_, ?_, h.inbound, ?_, h.fetching, h.copying, h.lengths⟩
  · rw [hpending]
    exact h.stream
  · rw [hpending]
    exact h.count
  · intro b' hb'
    exact h.queued b' (by rw [hlist]; exact List.mem_cons_of_mem _ hb')
  · intro b' hb'
    obtain rfl := Option.some.inj hb'
    have hfresh := h.queued b (by rw [hlist]; exact List.mem_cons_self)
    exact ⟨hfresh.length_eq, by rw [hfresh.offset_eq]; exact hfresh.pos⟩

theorem copy (h : Consistent s) {c : Copying} {b : DataBuffer}
    (hc : s.consumer = .copying c) (hb : s.currentBuffer = some b)
    (hlt : c.bytesConsumed < c.maxSize) :
    Consistent { s with
      consumer := .copying (copyFrom c b).1
      currentBuffer := (copyFrom c b).2 } := by
  obtain ⟨hlen, hoff⟩ := h.opened b hb
  obtain ⟨hmax, hle, hbuffer⟩ := h.copying c hc
  obtain ⟨n, hpos, hn, hcopy, hroom, hcur⟩ := copyFrom_spec hlen hoff hlt
  have hcurrent : current { s with
      consumer := .copying (copyFrom c b).1
      currentBuffer := (copyFrom c b).2 } = b.remaining.drop n := by
    unfold current
    rcases hcur with ⟨hnone, hnil⟩ | ⟨b', hsome, hdrop, -, -⟩
    · simp only [hnone, hnil]
    · simp only [hsome, hdrop]
  have hpending : s.pending = b.remaining ++
      (s.buffers.list.flatMap DataBuffer.remaining ++ s.producer.chunk) := by
    simp [pending, current, hb]
  have hstream := h.stream
  have hcount := h.count
  rw [delivered, hc, hpending] at hstream
  rw [hc, hpending] at hcount
  refine ⟨?_, ?_, h.queued, h.inbound, ?_, ?_, ?_, h.lengths⟩
  · rw [pending, hcurrent, delivered]
    change s.returned ++ (copyFrom c b).1.buffer ++ (_ ++ (_ ++ _)) = s.input
    rw [hcopy, ← hstream]
    simp only [Consumer.copied, List.append_assoc]
    rw [← List.append_assoc (b.remaining.take n), List.take_append_drop]
  · rw [pending, hcurrent]
    change s.bytesAvailable + ((copyFrom c b).1.bytesAvailable -
      (copyFrom c b).1.bytesConsumed) + s.producer.uncounted = _
    rw [hcopy]
    simp only [Consumer.held, List.length_append, List.length_drop] at hcount ⊢
    omega
  · intro b' hb'
    change (copyFrom c b).2 = some b' at hb'
    rcases hcur with ⟨hnone, -⟩ | ⟨b'', hsome, -, hlen', hoff'⟩
    · rw [hnone] at hb'
      cases hb'
    · rw [hsome] at hb'
      obtain rfl := Option.some.inj hb'
      exact ⟨hlen', hoff'⟩
  · intro m hm
    cases hm
  · intro c' hc'
    obtain rfl := Consumer.copying.inj hc'
    rw [hcopy]
    refine ⟨hmax, hroom, ?_⟩
    simp only [List.length_append, List.length_take]
    omega

theorem finishCall (h : Consistent s) {call : Call}
    (hbytes : call.bytes.length = min call.maxSize call.fetched) {n : ℕ}
    (hcopied : s.consumer.copied = call.bytes) (hheld : s.consumer.held = n) :
    Consistent ({ s with bytesAvailable := s.bytesAvailable + n }.finishCall call) := by
  have hstream := h.stream
  have hcount := h.count
  rw [delivered, hcopied] at hstream
  rw [hheld] at hcount
  refine ⟨?_, ?_, h.queued, h.inbound, h.opened, ?_, ?_, ?_⟩
  · change ((s.calls ++ [call]).flatMap Call.bytes ++ []) ++ s.pending = s.input
    rw [← hstream]
    simp [returned]
  · exact hcount
  · intro m hm
    cases hm
  · intro c hc
    cases hc
  · intro call' hcall'
    rcases List.mem_append.mp hcall' with hcall' | hcall'
    · exact h.lengths call' hcall'
    · rw [List.mem_singleton.mp hcall']
      exact hbytes

theorem step (h : Consistent s) {s' : EagerReader} {l : Label}
    (hstep : s.step l = .ok s') : Consistent s' := by
  cases step_cases hstep with
  | read hp hpos => exact h.read hp hpos
  | readFailed hp => exact h
  | enqueue hp hq => exact h.enqueue hp hq
  | count hp => exact h.count_step hp
  | call hc =>
      exact h.goto (by rw [hc]; rfl) (by rw [hc]; rfl) rfl rfl
        (fun n hn => by cases hn) (fun c hc => by cases hc)
  | pollEmpty hc hzero =>
      exact h.finishCall (n := 0) (by simp) (by rw [hc]; rfl) (by rw [hc]; rfl)
  | poll hc hpos =>
      exact h.goto (by rw [hc]; rfl) (by rw [hc]; rfl) rfl rfl (fun _ _ => hpos)
        (fun c hc => by cases hc)
  | fetch hc => exact h.fetch hc
  | dequeue hc hb hq => exact h.dequeue hb hq
  | copy hc hb hlt => exact h.copy hc hb hlt
  | @finish c hc hge =>
      obtain ⟨hmax, hle, hbuffer⟩ := h.copying c hc
      refine h.finishCall ?_ (by rw [hc]; rfl) (by rw [hc]; rfl)
      change c.buffer.length = min c.requested c.bytesAvailable
      omega

/-- A consumer that may still copy and has no current buffer finds one in the
queue. -/
theorem buffers_ne_nil (h : Consistent s) {c : Copying} (hc : s.consumer = .copying c)
    (hb : s.currentBuffer = none) (hlt : c.bytesConsumed < c.maxSize) :
    s.buffers.list ≠ [] := by
  intro hnil
  obtain ⟨hmax, -, -⟩ := h.copying c hc
  have hcount := h.count
  have hheld : s.consumer.held = c.bytesAvailable - c.bytesConsumed := by rw [hc]; rfl
  have hpending : s.pending = s.producer.chunk := by simp [pending, current, hb, hnil]
  have hchunk : s.producer.chunk.length ≤ s.producer.uncounted := by
    cases hp : s.producer with
    | waiting => exact Nat.zero_le _
    | enqueueing b => exact (h.inbound b hp).length_remaining.le
    | counting n => exact Nat.zero_le _
  rw [hpending] at hcount
  omega

theorem dequeue_ne_blocked (h : Consistent s) : s.step .dequeue ≠ .error .blocked := by
  intro hblocked
  simp only [EagerReader.step] at hblocked
  split at hblocked
  · rename_i c hc hb
    split at hblocked
    · rename_i hlt
      split at hblocked
      · cases hblocked
      · rename_i hnone
        exact h.buffers_ne_nil hc hb hlt (FixedQueue.list_of_dequeue_none hnone)
    · cases hblocked
  · cases hblocked

theorem fetch_ne_blocked (h : Consistent s) : s.step .fetch ≠ .error .blocked := by
  intro hblocked
  simp only [EagerReader.step] at hblocked
  split at hblocked
  · rename_i n hc
    split at hblocked
    · rename_i hzero
      exact h.fetching n hc hzero
    · cases hblocked
  · cases hblocked

/-- An iteration of the copy loop copies something. -/
theorem delivered_lt_of_copy (h : Consistent s) {s' : EagerReader}
    (hstep : s.step .copy = .ok s') : s.delivered.length < s'.delivered.length := by
  cases step_cases hstep with
  | @copy c b hc hb hlt =>
      obtain ⟨hlen, hoff⟩ := h.opened b hb
      obtain ⟨n, hpos, hn, hcopy, -, -⟩ := copyFrom_spec hlen hoff hlt
      change (s.returned ++ s.consumer.copied).length <
        (s.returned ++ (copyFrom c b).1.buffer).length
      rw [hc, hcopy]
      simp only [Consumer.copied, List.length_append, List.length_take]
      omega

/-- A consumer in a call can always take its next step. -/
theorem exists_proceeds (h : Consistent s) (hne : s.consumer ≠ .idle) :
    ∃ l s', Label.Proceeds l ∧ s.step l = .ok s' := by
  cases hc : s.consumer with
  | idle => exact absurd hc hne
  | polling n =>
      refine ⟨.poll, ?_⟩
      by_cases hzero : s.bytesAvailable = 0
      · exact ⟨_, trivial, by simp only [EagerReader.step, hc, if_pos hzero]; rfl⟩
      · exact ⟨_, trivial, by simp only [EagerReader.step, hc, if_neg hzero]; rfl⟩
  | fetching n =>
      exact ⟨.fetch, _, trivial, by
        simp only [EagerReader.step, hc, if_neg (h.fetching n hc)]; rfl⟩
  | copying c =>
      by_cases hlt : c.bytesConsumed < c.maxSize
      · cases hb : s.currentBuffer with
        | none =>
            cases hq : s.buffers.dequeue with
            | none =>
                exact absurd (FixedQueue.list_of_dequeue_none hq)
                  (h.buffers_ne_nil hc hb hlt)
            | some r =>
                exact ⟨.dequeue, _, trivial, by
                  simp only [EagerReader.step, hc, hb, if_pos hlt, hq]; rfl⟩
        | some b =>
            exact ⟨.copy, _, trivial, by
              simp only [EagerReader.step, hc, hb, if_pos hlt]; rfl⟩
      · exact ⟨.finish, _, trivial, by
          simp only [EagerReader.step, hc, if_neg hlt]; rfl⟩

/-- Every step of a call brings it nearer to its return. -/
theorem rank_lt (h : Consistent s) {s' : EagerReader} {l : Label}
    (hstep : s.step l = .ok s') (hl : l.Proceeds) : s'.rank < s.rank := by
  cases step_cases hstep with
  | read | readFailed | enqueue | count | call => exact hl.elim
  | pollEmpty hc hzero =>
      simp only [rank, hc, EagerReader.finishCall]
      omega
  | poll hc hpos =>
      simp only [rank, hc]
      omega
  | fetch hc =>
      simp only [rank, hc]
      split <;> split <;> omega
  | dequeue hc hb hq =>
      simp only [rank, hc, hb, if_true, reduceCtorEq, if_false]
      omega
  | @copy c b hc hb hlt =>
      obtain ⟨hlen, hoff⟩ := h.opened b hb
      obtain ⟨n, hpos, -, hcopy, hroom, -⟩ := copyFrom_spec hlen hoff hlt
      simp only [rank, hc, hb, hcopy, reduceCtorEq, if_false]
      split <;> omega
  | finish hc hge =>
      simp only [rank, hc, EagerReader.finishCall]
      split <;> omega

end Consistent

/-- The steps of the inbound thread leave the consumer where it is. -/
theorem rank_eq_of_step {s s' : EagerReader} {l : Label} (hstep : s.step l = .ok s')
    (hl : ¬ l.Proceeds) (hcall : ∀ n, l ≠ .call n) : s'.rank = s.rank := by
  cases step_cases hstep with
  | read | readFailed | enqueue | count => rfl
  | call => exact absurd rfl (hcall _)
  | pollEmpty | poll | fetch | dequeue | copy | finish => exact absurd trivial hl

theorem consistent_of_reachable {bufferSize : ℕ} {maxBufferCount : UInt64}
    {s : EagerReader}
    (h : Transition.Reachable (Transition.Next step) (new bufferSize maxBufferCount) s) :
    Consistent s :=
  h.invariant (fun _ _ _ hs hstep => hs.step hstep) (consistent_new _ _)

/-- In every state that the inbound thread and the consumer reach together, the
bytes returned are a first part of the bytes read, every call returned as many
bytes as it asked for or fetched, the consumer waits neither for the eventfd nor
for a buffer, an iteration of its copy loop copies something, and the counter,
what the consumer holds of it and what is not yet counted make up the bytes not
yet delivered. A call returns: its next step can be taken, its steps bring it
nearer to its return, and those of the inbound thread do not take it away. -/
theorem eager_reader_delivers_stream {bufferSize : ℕ} {maxBufferCount : UInt64}
    {s : EagerReader}
    (h : Transition.Reachable (Transition.Next step) (new bufferSize maxBufferCount) s) :
    s.returned <+: s.input ∧
      (∀ call ∈ s.calls, call.bytes.length = min call.maxSize call.fetched) ∧
      (∀ c, s.consumer = .copying c → c.bytesConsumed < c.maxSize →
        s.currentBuffer = none → s.buffers.list ≠ []) ∧
      s.step .dequeue ≠ .error .blocked ∧
      s.step .fetch ≠ .error .blocked ∧
      (∀ s', s.step .copy = .ok s' → s.delivered.length < s'.delivered.length) ∧
      s.bytesAvailable + s.consumer.held + s.producer.uncounted + s.delivered.length =
        s.input.length ∧
      (s.consumer ≠ .idle → ∃ l s', Label.Proceeds l ∧ s.step l = .ok s') ∧
      (∀ l s', s.step l = .ok s' → l.Proceeds → s'.rank < s.rank) ∧
      (∀ l s', s.step l = .ok s' → ¬ l.Proceeds → (∀ n, l ≠ .call n) →
        s'.rank = s.rank) := by
  have hs := consistent_of_reachable h
  refine ⟨?_, hs.lengths, ?_, hs.dequeue_ne_blocked, hs.fetch_ne_blocked,
    fun s' hstep => hs.delivered_lt_of_copy hstep, ?_, hs.exists_proceeds,
    fun l s' hstep => hs.rank_lt hstep, fun l s' hstep => rank_eq_of_step hstep⟩
  · refine ⟨s.consumer.copied ++ s.pending, ?_⟩
    rw [← List.append_assoc]
    exact hs.stream
  · intro c hc hlt hb
    exact hs.buffers_ne_nil hc hb hlt
  · have hlen := congrArg List.length hs.stream
    have hcount := hs.count
    rw [List.length_append] at hlen
    omega

/-- A call that comes before the chunk is counted, and one that takes a part of
it while the inbound thread reads the next. -/
def splitChunk : List Label :=
  [.read [1, 2, 3], .enqueue, .call 2, .poll, .count, .call 2, .poll, .fetch,
    .read [4, 5], .dequeue, .copy, .finish, .enqueue, .call 4, .poll, .fetch]

theorem eager_reader_delivers_stream_splitChunk :
    ∃ s : EagerReader, s.input = [1, 2, 3, 4, 5] ∧ s.returned = [1, 2] ∧
      s.consumer ≠ .idle ∧ s.returned <+: s.input ∧
      s.bytesAvailable + s.consumer.held + s.producer.uncounted + s.delivered.length =
        s.input.length := by
  have hend : ((Transition.exec (fun _ _ => true) step (new 4 2) splitChunk).any fun s =>
      decide (s.input = [1, 2, 3, 4, 5] ∧ s.returned = [1, 2] ∧ s.consumer ≠ .idle)) =
        true := by
    decide
  obtain ⟨s, hs, hend⟩ := (Option.any_eq_true _ _).mp hend
  obtain ⟨hinput, hreturned, hconsumer⟩ := of_decide_eq_true hend
  obtain ⟨hfirst, -, -, -, -, -, hcount, -⟩ :=
    eager_reader_delivers_stream (Transition.Reachable.of_exec_true hs)
  exact ⟨s, hinput, hreturned, hconsumer, hfirst, hcount⟩

end EagerReader

end Osi
