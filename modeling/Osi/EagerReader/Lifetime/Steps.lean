import Osi.EagerReader.Lifetime.Basic

/-!
# One step of a reader that is freed

What each step does, and what the consumer and the inbound thread know of each other.
-/

namespace Osi

namespace EagerReader

namespace Lifetime

open Transition

variable {s s' : State} {l : Label}

inductive Effect (s : State) : Label → State → Prop
  | enter (hcallback : s.callback = .outside) (hexited : s.exited = false)
      (hphase : s.phase.rank ≤ 2) : Effect s .enter { s with callback := .entered }
  | finish {l : Label} (hcallback : s.callback = .entered)
      (hproducer : s.reader.producer = .waiting) : Effect s l { s with callback := .finished }
  | read {chunk : List UInt8} (hcallback : s.callback = .entered)
      (hproducer : s.reader.producer = .waiting) :
      Effect s (.reader (.read chunk)) { s with
        reader := { s.reader with
          producer := .enqueueing { length := chunk.length, offset := 0, data := chunk }
          input := s.reader.input ++ chunk }
        chunks := s.chunks ++ [chunk] }
  | enqueue {b : DataBuffer} {q : FixedQueue DataBuffer} (hcallback : s.callback = .entered)
      (hproducer : s.reader.producer = .enqueueing b) (hq : s.reader.buffers.enqueue b = some q) :
      Effect s (.reader .enqueue) { s with
        reader := { s.reader with buffers := q, producer := .counting b.length } }
  | count {n : ℕ} (hcallback : s.callback = .entered)
      (hproducer : s.reader.producer = .counting n) :
      Effect s (.reader .count) { s with
        reader := { s.reader with
          bytesAvailable := s.reader.bytesAvailable + n, producer := .waiting }
        callback := .finished }
  | consume {l : EagerReader.Label} {reader : EagerReader} (hphase : s.phase = .opened)
      (hreader : StepCase s.reader l reader) (hproducer : reader.producer = s.reader.producer) :
      Effect s (.reader l) { s with
        reader := reader
        released := s.released ++
          if reader.currentBuffer.isNone then
            (s.reader.currentBuffer.map DataBuffer.data).toList
          else [] }
  | leave (hcallback : s.callback = .finished) : Effect s .leave { s with callback := .outside }
  | exit (hstopped : s.stopped = true) (hcallback : s.callback = .outside) :
      Effect s .exit { s with exited := true }
  | free (hphase : s.phase = .opened) (hconsumer : s.reader.consumer = .idle) :
      Effect s .free { s with phase := .delete }
  | unregister {phase : Phase} (hphase : s.phase = .delete ∧ phase = .append ∨
      s.phase = .append ∧ phase = .lockObject) : Effect s .run { s with phase := phase }
  | lockObject (hphase : s.phase = .lockObject) (hcallback : s.callback = .outside) :
      Effect s .run { s with phase := .closeFd }
  | closeFd (hphase : s.phase = .closeFd) : Effect s .run { s with phase := .freeCurrent }
  | freeCurrent (hphase : s.phase = .freeCurrent) :
      Effect s .run { s with
        phase := .freeBuffers
        reader := { s.reader with currentBuffer := none }
        released := s.released ++ (s.reader.currentBuffer.map DataBuffer.data).toList }
  | freeBuffers (hphase : s.phase = .freeBuffers) :
      Effect s .run { s with
        phase := .stop
        reader := { s.reader with buffers := FixedQueue.new s.reader.buffers.capacity }
        released := s.released ++ s.reader.buffers.list.map DataBuffer.data }
  | stop (hphase : s.phase = .stop) :
      Effect s .run { s with phase := .join, stopped := true }
  | join (hphase : s.phase = .join) (hexited : s.exited = true) :
      Effect s .run { s with phase := .freeReader }
  | freeReader (hphase : s.phase = .freeReader) : Effect s .run { s with phase := .done }

theorem inbound_eq_ok {l : EagerReader.Label} {gone : Bool} {chunk : List (List UInt8)}
    {callback : Callback} (h : s.inbound l gone chunk callback = .ok s') :
    s.callback = .entered ∧ ∃ reader, StepCase s.reader l reader ∧
      s' = { s with reader := reader, callback := callback, chunks := s.chunks ++ chunk } := by
  unfold State.inbound at h
  split_ifs at h with hcallback
  split at h
  · rename_i reader hreader
    cases h
    exact ⟨hcallback, reader, step_cases hreader, rfl⟩
  · cases h
  · cases h

theorem consume_eq_ok {l : EagerReader.Label} (h : s.consume l = .ok s') :
    s.phase = .opened ∧ ∃ reader, StepCase s.reader l reader ∧
      s' = { s with
        reader := reader
        released := s.released ++
          if reader.currentBuffer.isNone then
            (s.reader.currentBuffer.map DataBuffer.data).toList
          else [] } := by
  unfold State.consume at h
  split_ifs at h with hphase
  split at h
  · rename_i reader hreader
    cases h
    exact ⟨hphase, reader, step_cases hreader, rfl⟩
  · cases h
  · cases h

theorem effect_of_step (h : s.step l = .ok s') : Effect s l s' := by
  cases l with
  | enter =>
      simp only [State.step, Phase.isPast, decide_eq_false_iff_not, Nat.not_lt] at h
      split_ifs at h with henter
      cases h
      exact .enter henter.1 henter.2.1 henter.2.2
  | noBuffer =>
      simp only [State.step] at h
      split_ifs at h with hcallback
      cases h
      exact .finish hcallback.1 hcallback.2
  | reader l =>
      cases l with
      | read chunk =>
          obtain ⟨hcallback, reader, hreader, rfl⟩ := inbound_eq_ok h
          cases hreader with
          | read hproducer =>
              rw [← hcallback]
              exact .read hcallback hproducer
      | readFailed =>
          obtain ⟨hcallback, reader, hreader, rfl⟩ := inbound_eq_ok h
          cases hreader with
          | readFailed hproducer =>
              rw [List.append_nil]
              exact .finish hcallback hproducer
      | enqueue =>
          obtain ⟨hcallback, reader, hreader, rfl⟩ := inbound_eq_ok h
          cases hreader with
          | enqueue hproducer hq =>
              rw [List.append_nil, ← hcallback]
              exact .enqueue hcallback hproducer hq
      | count =>
          obtain ⟨hcallback, reader, hreader, rfl⟩ := inbound_eq_ok h
          cases hreader with
          | count hproducer =>
              rw [List.append_nil]
              exact .count hcallback hproducer
      | _ =>
          obtain ⟨hphase, reader, hreader, rfl⟩ := consume_eq_ok h
          exact .consume hphase hreader (by cases hreader <;> rfl)
  | leave =>
      simp only [State.step] at h
      split_ifs at h with hcallback
      cases h
      exact .leave hcallback
  | exit =>
      simp only [State.step] at h
      split_ifs at h with hexit
      cases h
      exact .exit hexit.1 hexit.2.1
  | free =>
      simp only [State.step] at h
      split_ifs at h with hfree
      cases h
      exact .free hfree.1 hfree.2
  | run =>
      simp only [State.step, State.runFree] at h
      split at h
      · cases h
      · cases h
      · rename_i hphase
        cases h
        exact .unregister (.inl ⟨hphase, rfl⟩)
      · rename_i hphase
        cases h
        exact .unregister (.inr ⟨hphase, rfl⟩)
      · rename_i hphase
        split_ifs at h with hcallback
        cases h
        exact .lockObject hphase hcallback
      · rename_i hphase
        cases h
        exact .closeFd hphase
      · rename_i hphase
        cases h
        exact .freeCurrent hphase
      · rename_i hphase
        cases h
        exact .freeBuffers hphase
      · rename_i hphase
        cases h
        exact .stop hphase
      · rename_i hphase
        split_ifs at h with hexited
        cases h
        exact .join hphase hexited
      · rename_i hphase
        cases h
        exact .freeReader hphase

end Lifetime

end EagerReader

end Osi
