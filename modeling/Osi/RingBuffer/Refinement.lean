import Osi.RingBuffer.Basic

/-!
# The ring buffer is a bounded byte queue

`Fifo n` is what the ring buffer is for: at most `n` bytes, appended at the back
and taken from the front. The invariant `Wellformed` keeps the two offsets
inside the buffer and `tail` exactly `size` bytes after `head`; with it the
contents of the buffer are a circular window, and every call acts on them as on
the queue.
-/

namespace Osi

structure Fifo (n : ℕ) where
  bytes : List UInt8
  length_le : bytes.length ≤ n

namespace Fifo

variable {n : ℕ}

def empty (n : ℕ) : Fifo n where
  bytes := []
  length_le := Nat.zero_le n

def free (q : Fifo n) : ℕ := n - q.bytes.length

def insert (q : Fifo n) (p : List UInt8) : Fifo n where
  bytes := q.bytes ++ p.take (min p.length q.free)
  length_le := by
    have := q.length_le
    unfold free
    simp only [List.length_append, List.length_take]
    omega

def delete (q : Fifo n) (length : ℕ) : Fifo n where
  bytes := q.bytes.drop (min length q.bytes.length)
  length_le := by
    have := q.length_le
    simp only [List.length_drop]
    omega

def step (q : Fifo n) : Ringbuffer.Op → Fifo n × Ringbuffer.Reply
  | .insert p => (q.insert p, { bytes := [], count := min p.length q.free })
  | .delete length =>
      (q.delete length, { bytes := [], count := min length q.bytes.length })
  | .peek length =>
      (q, { bytes := q.bytes.take (min length q.bytes.length)
            count := min length q.bytes.length })
  | .pop length =>
      (q.delete length,
        { bytes := q.bytes.take (min length q.bytes.length)
          count := min length q.bytes.length })

end Fifo

namespace Ringbuffer

open Collection

/-- The ring buffer of `n` bytes is in order: its counters agree, `head` is
inside the buffer, `tail` is `size` bytes further around the circle, and nothing
was written outside. A buffer of no bytes has both offsets at `0`. -/
structure Wellformed (n : ℕ) (rb : Ringbuffer) : Prop where
  total_eq : rb.total = n
  available_le : rb.available ≤ n
  head_lt : rb.head < n ∨ n = 0 ∧ rb.head = 0
  tail_eq : rb.tail = (rb.head + rb.size) % n
  outside : ∀ i, n ≤ i → rb.base i = 0

theorem wellformed_init (n : ℕ) : Wellformed n (init n) := by
  refine ⟨rfl, le_rfl, ?_, ?_, fun _ _ => rfl⟩
  · change 0 < n ∨ n = 0 ∧ 0 = 0
    omega
  · simp [init, size]

/-- Inside the buffer the loops advance their pointer modulo the size. -/
theorem next_eq {n : ℕ} {rb : Ringbuffer} (htotal : rb.total = n) {b : ℕ} (hb : b < n) :
    rb.next b = (b + 1) % n := by
  unfold next
  rw [htotal]
  split
  · obtain rfl : n = b + 1 := by omega
    rw [Nat.mod_self]
  · rw [Nat.mod_eq_of_lt (by omega)]

namespace Wellformed

variable {n : ℕ} {rb : Ringbuffer}

theorem size_eq (h : Wellformed n rb) : rb.size = n - rb.available := by
  rw [size, h.total_eq]

theorem available_add_size (h : Wellformed n rb) : rb.available + rb.size = n := by
  have := h.available_le
  rw [h.size_eq]
  omega

theorem inside (h : Wellformed n rb) :
    rb.head < n ∧ rb.tail < n ∨ n = 0 ∧ rb.head = 0 ∧ rb.tail = 0 := by
  have hsum := h.available_add_size
  have htail := h.tail_eq
  rcases h.head_lt with hlt | ⟨rfl, hzero⟩
  · exact Or.inl ⟨hlt, htail ▸ Nat.mod_lt _ (by omega)⟩
  · rw [Nat.mod_zero] at htail
    exact Or.inr ⟨rfl, hzero, by omega⟩

/-- Moving the head by at most `size` bytes wraps at most once. -/
theorem head_advanceHead (h : Wellformed n rb) {length : ℕ} (hle : length ≤ rb.size) :
    (rb.advanceHead length).head = (rb.head + length) % n := by
  have := h.available_add_size
  simp only [advanceHead, h.total_eq]
  rcases h.head_lt with hlt | ⟨rfl, hzero⟩
  · split
    · rw [Nat.mod_eq_sub_mod (by omega), Nat.mod_eq_of_lt (by omega)]
    · rw [Nat.mod_eq_of_lt (by omega)]
  · obtain rfl : length = 0 := by omega
    simp [hzero]

/-- Moving the head drops bytes from the front of the contents. -/
theorem advanceHead (h : Wellformed n rb) {length : ℕ} (hle : length ≤ rb.size) :
    Wellformed n (rb.advanceHead length) ∧
      (rb.advanceHead length).contents = rb.contents.drop length := by
  have hsum := h.available_add_size
  have hhead := h.head_advanceHead hle
  have hsize : (rb.advanceHead length).size = rb.size - length := by
    simp only [size, Ringbuffer.advanceHead]
    omega
  constructor
  · refine ⟨h.total_eq, ?_, ?_, ?_, h.outside⟩
    · change rb.available + length ≤ n
      omega
    · rw [hhead]
      rcases h.head_lt with hlt | ⟨rfl, hzero⟩
      · exact Or.inl (Nat.mod_lt _ (by omega))
      · obtain rfl : length = 0 := by omega
        exact Or.inr ⟨rfl, by simp [hzero]⟩
    · change rb.tail = _
      rw [h.tail_eq, hhead, hsize, Nat.mod_add_mod]
      congr 1
      omega
  · rw [contents, hhead, hsize]
    change window rb.base rb.total _ _ = _
    rw [h.total_eq, window_mod, contents, window_drop, h.total_eq]

end Wellformed

/-- The buffer in the middle of the loop of `ringbuffer_insert`: `l` are the
bytes from `head` to `tail`, while `available` has not been updated yet. -/
structure Filled (n : ℕ) (rb : Ringbuffer) (l : List UInt8) : Prop where
  total_eq : rb.total = n
  tail_eq : rb.tail = (rb.head + l.length) % n
  window_eq : window rb.base n rb.head l.length = l
  outside : ∀ i, n ≤ i → rb.base i = 0

theorem Wellformed.filled {n : ℕ} {rb : Ringbuffer} (h : Wellformed n rb) :
    Filled n rb rb.contents := by
  have hlen : rb.contents.length = rb.size := length_window ..
  refine ⟨h.total_eq, ?_, ?_, h.outside⟩
  · rw [hlen, h.tail_eq]
  · rw [hlen, contents, h.total_eq]

namespace Filled

variable {n : ℕ} {rb : Ringbuffer} {l : List UInt8}

theorem insertByte (h : Filled n rb l) (hroom : l.length < n) (x : UInt8) :
    Filled n (rb.insertByte x) (l ++ [x]) := by
  have htail : rb.tail < n := by
    rw [h.tail_eq]
    exact Nat.mod_lt _ (by omega)
  refine ⟨h.total_eq, ?_, ?_, ?_⟩
  · change rb.next rb.tail = (rb.head + _) % n
    rw [next_eq h.total_eq htail, h.tail_eq, Nat.mod_add_mod, List.length_append,
      List.length_singleton,
      Nat.add_assoc]
  · change window (Function.update rb.base rb.tail x) n rb.head _ = _
    rw [h.tail_eq, List.length_append, List.length_singleton, window_update _ _ hroom,
      h.window_eq]
  · intro i hi
    change Function.update rb.base rb.tail x i = 0
    rw [Function.update_of_ne (by omega), h.outside i hi]

/-- The whole loop appends the bytes it was given room for. -/
theorem foldl_insertByte (h : Filled n rb l) (p : List UInt8)
    (hroom : l.length + p.length ≤ n) :
    Filled n (p.foldl Ringbuffer.insertByte rb) (l ++ p) := by
  induction p generalizing rb l with
  | nil => simpa using h
  | cons x p ih =>
      rw [List.length_cons] at hroom
      have hnext := ih (h.insertByte (by omega) x) (by simp; omega)
      simpa using hnext

end Filled

/-- The loop of `ringbuffer_insert` leaves `head` and `available` alone. -/
theorem foldl_insertByte_frame (rb : Ringbuffer) (p : List UInt8) :
    (p.foldl insertByte rb).head = rb.head ∧
      (p.foldl insertByte rb).available = rb.available := by
  induction p generalizing rb with
  | nil => exact ⟨rfl, rfl⟩
  | cons x p ih => exact ih (rb.insertByte x)

theorem Wellformed.insert {n : ℕ} {rb : Ringbuffer} (h : Wellformed n rb)
    (p : List UInt8) :
    Wellformed n (rb.insert p).1 ∧
      (rb.insert p).1.contents = rb.contents ++ p.take (min p.length rb.available) ∧
      (rb.insert p).2 = min p.length rb.available := by
  have hsum := h.available_add_size
  have hlen : rb.contents.length = rb.size := length_window ..
  have hclamp : (if p.length > rb.available then rb.available else p.length) =
      min p.length rb.available := by
    split <;> omega
  have hloop := h.filled.foldl_insertByte (p.take (min p.length rb.available))
    (by rw [hlen, List.length_take]; omega)
  obtain ⟨hhead, havail⟩ :=
    foldl_insertByte_frame rb (p.take (min p.length rb.available))
  simp only [Ringbuffer.insert, hclamp]
  generalize (p.take (min p.length rb.available)).foldl insertByte rb = rb' at hloop hhead havail
  have hsize : rb'.total - (rb'.available - min p.length rb.available) =
      (rb.contents ++ p.take (min p.length rb.available)).length := by
    rw [hloop.total_eq, havail, List.length_append, List.length_take, hlen]
    omega
  refine ⟨⟨hloop.total_eq, ?_, ?_, ?_, hloop.outside⟩, ?_, trivial⟩
  · change rb'.available - _ ≤ n
    omega
  · change rb'.head < n ∨ n = 0 ∧ rb'.head = 0
    rw [hhead]
    exact h.head_lt
  · change rb'.tail = (rb'.head + (rb'.total - _)) % n
    rw [hsize, hloop.tail_eq]
  · change window rb'.base rb'.total rb'.head (rb'.total - _) = _
    rw [hsize, hloop.total_eq, hloop.window_eq]

theorem Wellformed.peekLoop {n : ℕ} {rb : Ringbuffer} (h : Wellformed n rb)
    (k copied : ℕ) (hle : copied ≤ rb.size) :
    rb.peekLoop k ((rb.head + copied) % n) copied =
      (window rb.base n (rb.head + copied) (min k (rb.size - copied)),
        copied + min k (rb.size - copied)) := by
  have hsum := h.available_add_size
  induction k generalizing copied with
  | zero => simp [Ringbuffer.peekLoop]
  | succ k ih =>
      rw [Ringbuffer.peekLoop]
      split
      · rename_i hlt
        have hin : (rb.head + copied) % n < n := Nat.mod_lt _ (by omega)
        have hmin : min (k + 1) (rb.size - copied) =
            min k (rb.size - (copied + 1)) + 1 := by omega
        rw [next_eq h.total_eq hin, Nat.mod_add_mod, Nat.add_assoc, ih (copied + 1) hlt, hmin,
          window_cons]
        simp only [Nat.add_assoc, Nat.add_comm 1]
      · have hzero : rb.size - copied = 0 := by omega
        simp [hzero]

theorem Wellformed.peek {n : ℕ} {rb : Ringbuffer} (h : Wellformed n rb) (length : ℕ) :
    rb.peek length = (rb.contents.take (min length rb.size), min length rb.size) := by
  have hhead : rb.head % n = rb.head := by
    rcases h.head_lt with hlt | ⟨rfl, hzero⟩
    · exact Nat.mod_eq_of_lt hlt
    · simp
  have hloop := h.peekLoop length 0 (Nat.zero_le _)
  simp only [Nat.add_zero, Nat.sub_zero, Nat.zero_add, hhead] at hloop
  rw [Ringbuffer.peek, hloop, contents, window_take, h.total_eq]
  simp

/-- The relation between a ring buffer and the queue it stands for. -/
def Represents (n : ℕ) (rb : Ringbuffer) (q : Fifo n) : Prop :=
  Wellformed n rb ∧ rb.contents = q.bytes

theorem represents_init (n : ℕ) : Represents n (init n) (Fifo.empty n) := by
  refine ⟨wellformed_init n, ?_⟩
  simp [contents, init, size, Fifo.empty]

/-- Every call acts on the contents as on the queue, and replies the same. -/
theorem Represents.step {n : ℕ} {rb : Ringbuffer} {q : Fifo n}
    (h : Represents n rb q) (op : Op) :
    Represents n (rb.step op).1 (q.step op).1 ∧ (rb.step op).2 = (q.step op).2 := by
  obtain ⟨hwf, hq⟩ := h
  have hsize : rb.size = q.bytes.length := by rw [← hq, contents, length_window]
  have hfree : rb.available = q.free := by
    have := hwf.available_add_size
    have := q.length_le
    unfold Fifo.free
    omega
  have hmin : ∀ length, (if length > rb.size then rb.size else length) =
      min length q.bytes.length := by
    intro length
    split <;> omega
  cases op with
  | insert p =>
      obtain ⟨hwf', hcontents, hcount⟩ := hwf.insert p
      rw [hq, hfree] at hcontents
      rw [hfree] at hcount
      refine ⟨⟨hwf', hcontents⟩, ?_⟩
      change Reply.mk [] (rb.insert p).2 = _
      rw [hcount]
      rfl
  | delete length =>
      have hle : min length q.bytes.length ≤ rb.size := by omega
      obtain ⟨hwf', hcontents⟩ := hwf.advanceHead hle
      simp only [Ringbuffer.step, Ringbuffer.delete, hmin]
      exact ⟨⟨hwf', by rw [hcontents, hq]; rfl⟩, rfl⟩
  | peek length =>
      simp only [Ringbuffer.step, hwf.peek, hsize, hq]
      exact ⟨⟨hwf, hq⟩, rfl⟩
  | pop length =>
      have hle : min length q.bytes.length ≤ rb.size := by omega
      obtain ⟨hwf', hcontents⟩ := hwf.advanceHead hle
      simp only [Ringbuffer.step, Ringbuffer.pop, hwf.peek, hsize, hq]
      exact ⟨⟨hwf', by rw [hcontents, hq]; rfl⟩, rfl⟩

/-- After any sequence of calls the offsets of the ring buffer are inside it and
agree with its counters, its contents are those of the bounded queue after the
same calls, every call replied as the queue does, and `ringbuffer_pop` is
`ringbuffer_peek` followed by `ringbuffer_delete` of the bytes it copied. -/
theorem ringbuffer_refines_fifo (n : ℕ) (ops : List Op) :
    let rb := (Transition.calls step (init n) ops).1
    let q := (Transition.calls Fifo.step (Fifo.empty n) ops).1
    (rb.head < n ∧ rb.tail < n ∨ n = 0 ∧ rb.head = 0 ∧ rb.tail = 0) ∧
      (∀ i, n ≤ i → rb.base i = 0) ∧
      (0 < n → rb.tail = (rb.head + rb.size) % n) ∧
      rb.available + rb.size = n ∧
      rb.total = n ∧
      rb.contents = q.bytes ∧
      (Transition.calls step (init n) ops).2 =
        (Transition.calls Fifo.step (Fifo.empty n) ops).2 ∧
      ∀ length, (rb.pop length).2 = rb.peek length ∧
        (rb.pop length).1 = (rb.delete (rb.peek length).2).1 := by
  intro rb q
  obtain ⟨⟨hwf, hq⟩, hreplies⟩ :=
    Transition.calls_simulation (R := Represents n)
      (fun rb q op h => Represents.step h op) (represents_init n) ops
  refine ⟨hwf.inside, hwf.outside, fun _ => hwf.tail_eq, hwf.available_add_size,
    hwf.total_eq, hq, hreplies, ?_⟩
  intro length
  refine ⟨rfl, ?_⟩
  have hpeek : (rb.peek length).2 = min length rb.size := by rw [hwf.peek]
  have hclamp : ¬ min length rb.size > rb.size := by omega
  simp only [pop, delete, hpeek, if_neg hclamp]

end Ringbuffer

end Osi
