/-
Two windows, one turn.

What either window does with a message is `turn`: the message goes behind the
history, and once the two together reach the dictionary size they are given up and
the history starts again as nothing.  The sending side finds the message behind its
history already (`Growing.advance_eq`), the receiving side has it ahead of its cursor
(`Ring.advance_eq`), where it was just written (`Ring.ahead_put`).  After that neither
the stale bytes of the ring nor the room of the buffer can be told.

`Lz4Context.Holds` says what a codec context and the history of its window are
together: the end of everything that went before, with the seam wherever the last
turn put it.  A turn moves the seam and appends the message (`Holds.turn`).
-/
import WindowedLz4.Codec.Lz4
import WindowedLz4.Proofs.History
import WindowedLz4.Window.Growing
import WindowedLz4.Window.Ring
namespace WindowedLz4

/-- What a window does with a message behind its history, and the history it has then. -/
def turn (dictionarySize : Nat) (history message : Bytes) : Advance × Bytes :=
  if dictionarySize ≤ (history ++ message).size then (.rolledOver (history ++ message), #[])
  else (.continued, history ++ message)

/-- A history that has been turned is shorter than the dictionary. -/
theorem size_turn_lt {dictionarySize : Nat} (h : 0 < dictionarySize) (history message : Bytes) :
    (turn dictionarySize history message).2.size < dictionarySize := by
  unfold turn
  split
  · exact h
  · next hshort => exact Nat.lt_of_not_le hshort

/-! ### Sizes that fit together -/

/-- The ring holds a dictionary and a message, and a position in it fits a word. -/
structure WindowConfig.Exact (config : WindowConfig) : Prop where
  dictionarySize_pos : 0 < config.dictionarySize
  ringCapacity_eq : config.ringCapacity = config.dictionarySize + config.maxMessageSize
  lt_word : config.ringCapacity < UInt64.size

/-- A session's sizes fit together, whatever it was asked for. -/
theorem WindowConfig.exact_clamped (config : WindowConfig) : config.clamped.Exact := by
  refine ⟨config.dictionarySize_clamped_pos, config.ringCapacity_clamped, ?_⟩
  rw [ringCapacity_clamped]
  simp only [clamped, minDictionarySize, maxDictionarySize, minMessageSize,
    WindowedLz4.maxMessageSize, maxInputSize, UInt64.size]
  omega

/-- How far back the dictionaries of a session reach. -/
def WindowConfig.reach (config : WindowConfig) : Nat :=
  min config.clamped.dictionarySize maxDistance

namespace Growing

variable (w : Growing)

theorem size_history : w.history.size = w.start := by
  have := w.start_le
  rw [history, Array.size_extract]
  omega

/-- The buffer is the history and the pending message. -/
theorem history_append_pending : w.history ++ w.pending = w.buffer :=
  extract_append_extract_size w.start_le

/-- Appended bytes go to the pending message alone. -/
theorem append_eq {bytes : Bytes} (h : w.buffer.size + bytes.size ≤ w.capacity) :
    ∃ w', w.append bytes = .ok w' ∧ w'.dictionarySize = w.dictionarySize ∧
      w'.capacity = w.capacity ∧ w'.start = w.start ∧ w'.history = w.history ∧
      w'.pending = w.pending ++ bytes := by
  have hstart := w.start_le
  refine ⟨_, if_neg (Nat.not_lt.mpr h), rfl, rfl, rfl, ?_, ?_⟩
  · show (w.buffer ++ bytes).extract 0 w.start = w.buffer.extract 0 w.start
    rw [Array.extract_append, Nat.zero_sub, Nat.sub_eq_zero_of_le hstart,
      Array.extract_empty_of_stop_le_start (Nat.le_refl 0), Array.append_empty]
  · show (w.buffer ++ bytes).extract w.start (w.buffer ++ bytes).size
      = w.buffer.extract w.start w.buffer.size ++ bytes
    have hleft : w.buffer.extract w.start (w.buffer.size + bytes.size)
        = w.buffer.extract w.start w.buffer.size :=
      Array.extract_eq_extract_right.mpr (by omega)
    rw [Array.size_append, Array.extract_append, hleft, Nat.add_sub_cancel_left,
      Nat.sub_eq_zero_of_le hstart, Array.extract_size]

/-- **Committing the pending message turns the history.** -/
theorem advance_eq :
    ∃ w', w.advance w.pendingSize = .ok ((turn w.dictionarySize w.history w.pending).1, w') ∧
      w'.dictionarySize = w.dictionarySize ∧ w'.capacity = w.capacity ∧
      w'.history = (turn w.dictionarySize w.history w.pending).2 ∧ w'.pending = #[] := by
  have hne : ¬ w.pendingSize ≠ w.pendingSize := fun h => h rfl
  unfold advance turn
  rw [if_neg hne, history_append_pending]
  by_cases hfull : w.dictionarySize ≤ w.buffer.size
  · rw [if_pos hfull, if_pos hfull]
    exact ⟨_, rfl, rfl, rfl, Array.extract_empty, Array.extract_empty⟩
  · rw [if_neg hfull, if_neg hfull]
    exact ⟨_, rfl, rfl, rfl, Array.extract_size,
      Array.extract_empty_of_size_le_start (Nat.le_refl _)⟩

end Growing

namespace Ring

variable {config : WindowConfig} (w : Ring config)

theorem size_history (h : w.cursor ≤ config.ringCapacity) : w.history.size = w.cursor := by
  rw [history, Array.size_extract, Vector.size_toArray]
  omega

/-- Writing at the cursor does not touch the history. -/
@[simp] theorem history_put (bytes : Bytes) : (w.put w.cursor bytes).history = w.history :=
  extract_overwrite_of_le w.bytes bytes.toList (Nat.le_refl _)

/-- The bytes from the cursor on, as many as a message has. -/
def ahead (len : Nat) : Bytes :=
  w.bytes.toArray.extract w.cursor (w.cursor + len)

variable {w} {len : Nat}

/-- A message that was written at the cursor stands ahead of it. -/
theorem ahead_put {message : Bytes} (hfit : w.cursor + message.size ≤ config.ringCapacity) :
    (w.put w.cursor message).ahead message.size = message :=
  extract_overwrite w.bytes message hfit

theorem size_ahead (hfit : w.cursor + len ≤ config.ringCapacity) : (w.ahead len).size = len := by
  rw [ahead, Array.size_extract, Vector.size_toArray]
  omega

/-- A message that lies inside the ring is read. -/
theorem message_eq (hword : config.ringCapacity < UInt64.size)
    (hfit : w.cursor + len ≤ config.ringCapacity) : w.message len = .ok (w.ahead len) := by
  have hstop : wordSum w.cursor len = w.cursor + len := wordSum_eq_add (by omega)
  unfold message
  rw [hstop]
  exact if_pos ⟨by omega, hfit⟩

/-- A message that does not lie inside the ring is refused, also if the end of it fits no word. -/
theorem message_eq_error (hword : config.ringCapacity < UInt64.size)
    (hcursor : w.cursor ≤ config.ringCapacity) (hlen : len ≤ maxWord)
    (hlong : config.ringCapacity - w.cursor < len) : w.message len = .error .messageBeyondRing := by
  unfold message
  rw [if_neg]
  intro hinside
  -- A sum that is cut to a word falls short of the cursor.
  simp only [wordSum, maxWord, UInt64.size] at *
  omega

/-- The history and what stands ahead of the cursor are one part of the ring. -/
theorem history_append_ahead :
    w.history ++ w.ahead len = w.bytes.toArray.extract 0 (w.cursor + len) := by
  rw [history, ahead, Array.extract_append_extract, Nat.zero_min, Nat.max_eq_right (by omega)]

/-- **Committing a message that lies inside the ring turns the history.** -/
theorem advance_eq (hword : config.ringCapacity < UInt64.size)
    (hfit : w.cursor + len ≤ config.ringCapacity) :
    ∃ w', w.advance len = .ok ((turn config.dictionarySize w.history (w.ahead len)).1, w') ∧
      w'.cursor ≤ config.ringCapacity ∧
      w'.history = (turn config.dictionarySize w.history (w.ahead len)).2 := by
  have hstop : wordSum w.cursor len = w.cursor + len := wordSum_eq_add (by omega)
  have hsize : (w.history ++ w.ahead len).size = w.cursor + len := by
    rw [Array.size_append, size_history w (by omega), size_ahead hfit]
  unfold advance turn
  rw [hstop, hsize, if_neg (Nat.not_lt.mpr hfit), history_append_ahead]
  by_cases hfull : config.dictionarySize ≤ w.cursor + len
  · rw [if_pos hfull, if_pos hfull]
    exact ⟨_, rfl, Nat.zero_le _, Array.extract_empty_of_stop_le_start (Nat.le_refl _)⟩
  · rw [if_neg hfull, if_neg hfull]
    exact ⟨_, rfl, hfit, rfl⟩

/-- Whatever the length, an advance gives up a part of the ring that holds a dictionary, or ends
inside the dictionary. -/
theorem advance_cases {advance : Advance} {w' : Ring config}
    (h : w.advance len = .ok (advance, w')) :
    (∃ stop, config.dictionarySize ≤ stop ∧ stop ≤ config.ringCapacity ∧
      advance = .rolledOver (w.bytes.toArray.extract 0 stop) ∧ w' = { w with cursor := 0 }) ∨
    ∃ stop, stop < config.dictionarySize ∧ advance = .continued ∧
      w' = { w with cursor := stop } := by
  simp only [Ring.advance] at h
  split at h
  · simp at h
  · next hinside =>
    split at h
    · next hfull =>
      simp only [Except.ok.injEq, Prod.mk.injEq] at h
      exact .inl ⟨_, hfull, Nat.le_of_not_lt hinside, h.1.symm, h.2.symm⟩
    · next hshort =>
      simp only [Except.ok.injEq, Prod.mk.injEq] at h
      exact .inr ⟨_, Nat.lt_of_not_le hshort, h.1.symm, h.2.symm⟩

end Ring

namespace Lz4Context

/-! ### The seam between history and window -/

/-- The context and the history of its window are together the end of `past`. -/
def Holds (c : Lz4Context) (history past : Bytes) : Prop :=
  ∃ gone, past = gone ++ history ∧ c.history.Recalls gone

theorem holds_ofConfig (config : WindowConfig) : (ofConfig config).Holds #[] #[] :=
  ⟨#[], Array.append_empty.symm, History.recalls_ofDictionarySize _⟩

/-- The context once its window has advanced. -/
def settle (c : Lz4Context) : Advance → Lz4Context
  | .continued => c
  | .rolledOver retired => c.retire retired

@[simp] theorem limit_settle (c : Lz4Context) (advance : Advance) :
    (c.settle advance).history.limit = c.history.limit := by
  cases advance with
  | continued => rfl
  | rolledOver retired => exact History.limit_retire _ _

variable {c : Lz4Context} {history past : Bytes}

/-- The dictionary of a message is the end of everything before it. -/
theorem Holds.dictionary_eq (h : c.Holds history past) :
    (c.history.dictionary history).1 = lastBytes c.history.limit past := by
  obtain ⟨gone, rfl, hrecalls⟩ := h
  exact hrecalls.dictionary_eq history

/-- What is kept of the windows that are gone is what stands before the history. -/
theorem Holds.tail_eq (h : c.Holds history past) :
    c.history.tail = lastBytes c.history.limit (past.extract 0 (past.size - history.size)) := by
  obtain ⟨gone, rfl, hrecalls⟩ := h
  have hgone : (gone ++ history).extract 0 ((gone ++ history).size - history.size) = gone := by
    simp
  rw [hgone]
  exact hrecalls

theorem Holds.dictionary (h : c.Holds history past) (before : Bytes) :
    Holds ⟨(c.history.dictionary before).2⟩ history past := by
  obtain ⟨gone, hpast, hrecalls⟩ := h
  exact ⟨gone, hpast, hrecalls.dictionary before⟩

/-- **A turn appends the message to what is held.** -/
theorem Holds.turn (h : c.Holds history past) (dictionarySize : Nat) (message : Bytes) :
    (c.settle (turn dictionarySize history message).1).Holds
      (WindowedLz4.turn dictionarySize history message).2 (past ++ message) := by
  obtain ⟨gone, rfl, hrecalls⟩ := h
  unfold WindowedLz4.turn
  split
  · refine ⟨gone ++ (history ++ message), by simp, hrecalls.retire _⟩
  · exact ⟨gone, Array.append_assoc, hrecalls⟩

end Lz4Context

end WindowedLz4
