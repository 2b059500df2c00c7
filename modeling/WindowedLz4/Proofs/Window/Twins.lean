/-
The two windows side by side.

A growing window takes a message by appending it and committing its length; a ring
takes it by having it copied in at the cursor, if it fits there, and then being
advanced.  The first looks for room when it appends, the second when it advances, and
the first compares the length with what is pending, which the second does not know.
Yet on the same messages the two cannot be told apart by their cursors, their
histories, what they give up, or whether they refuse.

Both are the same turn of the same history (`Growing.take_fits`, `Ring.take_fits`),
and both refuse exactly the message that does not fit behind it (`Growing.take_long`,
`Ring.take_long`).  `Alike` is what the induction on the messages carries.  It asks
nothing of the configuration: a dictionary may be empty, and the ring may have no
room for a message at all.

The ring adds its cursor and a length in words.  A sum that no word can hold would
turn up as a small one, so a run is only looked at as long as the end of each message
is a position (`InWords`).  No string in memory is so long that it could be otherwise
(`inWords_of_size_lt`).
-/
import WindowedLz4.Proofs.Window
namespace WindowedLz4

/-! ### A message at a time -/

/-- Appends a message and commits it.  What was appended stays if the commit is refused. -/
def Growing.take (w : Growing) (message : Bytes) : Outcome Advance Growing :=
  match w.append message with
  | .error failure => .refused failure w
  | .ok appended =>
    match appended.advance message.size with
    | .error failure => .refused failure appended
    | .ok (advance, w') => .done advance w'

/-- Copies a message to the cursor, if it fits there, and commits its length. -/
def Ring.take {config : WindowConfig} (w : Ring config) (message : Bytes) :
    Outcome Advance (Ring config) :=
  let w := if w.cursor + message.size ≤ config.ringCapacity then w.put w.cursor message else w
  match w.advance message.size with
  | .error failure => .refused failure w
  | .ok (advance, w') => .done advance w'

namespace Growing

variable {w : Growing} {message : Bytes}

/-- A message that fits behind the history turns it. -/
theorem take_fits (hpending : w.pending = #[])
    (hfit : w.history.size + message.size ≤ w.capacity) :
    ∃ w', w.take message = .done (turn w.dictionarySize w.history message).1 w' ∧
      w'.dictionarySize = w.dictionarySize ∧ w'.capacity = w.capacity ∧
      w'.history = (turn w.dictionarySize w.history message).2 ∧ w'.pending = #[] := by
  have hbuffer : w.buffer = w.history := by
    rw [← w.history_append_pending, hpending, Array.append_empty]
  have hroom : w.buffer.size + message.size ≤ w.capacity := by
    rw [hbuffer]
    exact hfit
  obtain ⟨appended, happend, hdictionary, hcapacity, -, hhistory, hmessage⟩ := w.append_eq hroom
  rw [hpending, Array.empty_append] at hmessage
  obtain ⟨w', hadvance, hdictionary', hcapacity', hturned, hnone⟩ := appended.advance_eq
  rw [← appended.size_pending, hmessage, hdictionary, hhistory] at hadvance
  rw [hmessage, hdictionary, hhistory] at hturned
  refine ⟨w', ?_, hdictionary'.trans hdictionary, hcapacity'.trans hcapacity, hturned, hnone⟩
  unfold take
  simp only [happend, hadvance]

/-- A message that does not fit is not even appended. -/
theorem take_long (hpending : w.pending = #[])
    (hlong : w.capacity < w.history.size + message.size) :
    w.take message = .refused .ringOverflow w := by
  have hbuffer : w.buffer = w.history := by
    rw [← w.history_append_pending, hpending, Array.append_empty]
  have happend : w.append message = .error .ringOverflow :=
    if_pos (by rw [hbuffer]; exact hlong)
  unfold take
  rw [happend]

end Growing

namespace Ring

variable {config : WindowConfig} {w : Ring config} {message : Bytes}

/-- A message that fits ahead of the cursor turns the history. -/
theorem take_fits (hfit : w.cursor + message.size ≤ config.ringCapacity) :
    ∃ w', w.take message = .done (turn config.dictionarySize w.history message).1 w' ∧
      w'.cursor ≤ config.ringCapacity ∧
      w'.history = (turn config.dictionarySize w.history message).2 := by
  have hword : config.ringCapacity < UInt64.size :=
    Nat.lt_of_le_of_lt (Nat.min_le_right _ _) (by decide)
  have hput : (w.put w.cursor message).cursor + message.size ≤ config.ringCapacity := hfit
  obtain ⟨w', hadvance, hcursor, hhistory⟩ := advance_eq hword hput
  rw [ahead_put hfit, history_put] at hadvance hhistory
  refine ⟨w', ?_, hcursor, hhistory⟩
  unfold take
  simp only [if_pos hfit, hadvance]

/-- A message that does not fit is not copied, and the cursor stays. -/
theorem take_long (hlong : config.ringCapacity < w.cursor + message.size)
    (hword : w.cursor + message.size < UInt64.size) :
    w.take message = .refused .cursorBeyondRing w := by
  have hadvance : w.advance message.size = .error .cursorBeyondRing :=
    if_pos (by rw [wordSum_eq_add hword]; exact hlong)
  unfold take
  simp only [if_neg (Nat.not_le.mpr hlong), hadvance]

/-- The cursor is inside the dictionary, or at 0 if there is none. -/
theorem cursor_advance_le {len : Nat} {advance : Advance} {w' : Ring config}
    (h : w.advance len = .ok (advance, w')) : w'.cursor ≤ config.dictionarySize := by
  obtain ⟨-, -, -, -, rfl⟩ | ⟨stop, hstop, -, rfl⟩ := advance_cases h
  · exact Nat.zero_le _
  · exact Nat.le_of_lt hstop

theorem cursor_take_le (w : Ring config) (h : w.cursor ≤ config.dictionarySize)
    (message : Bytes) : (w.take message).after.cursor ≤ config.dictionarySize := by
  have hput : (if w.cursor + message.size ≤ config.ringCapacity then w.put w.cursor message
      else w).cursor = w.cursor := by
    split <;> rfl
  unfold take
  cases hadvance : (if w.cursor + message.size ≤ config.ringCapacity then
      w.put w.cursor message else w).advance message.size with
  | error failure =>
      simp only [hadvance, Outcome.refused, hput]
      exact h
  | ok next =>
      simp only [hadvance]
      exact cursor_advance_le hadvance

end Ring

/-! ### Both at once -/

/-- A window of either kind, of one configuration. -/
structure Twins (config : WindowConfig) where
  growing : Growing
  ring : Ring config

namespace Twins

variable {config : WindowConfig}

/-- The two as they are new. -/
def fresh (config : WindowConfig) : Twins config := ⟨.ofConfig config, .empty config⟩

/-- The two after a message was given to both. -/
def take (t : Twins config) (message : Bytes) : Twins config :=
  ⟨(t.growing.take message).after, (t.ring.take message).after⟩

/-- The two after some messages. -/
def run (t : Twins config) (messages : List Bytes) : Twins config := messages.foldl take t

/-- The end of every message, as its turn comes, is a position that a word can hold. -/
def InWords (t : Twins config) : List Bytes → Prop
  | [] => True
  | message :: rest =>
    t.ring.cursor + message.size < UInt64.size ∧ (t.take message).InWords rest

/-- The two have the same history and nothing is pending. -/
structure Alike (t : Twins config) : Prop where
  dictionarySize_eq : t.growing.dictionarySize = config.dictionarySize
  capacity_eq : t.growing.capacity = config.ringCapacity
  pending_eq : t.growing.pending = #[]
  history_eq : t.growing.history = t.ring.history
  cursor_le : t.ring.cursor ≤ config.ringCapacity

variable {t : Twins config} {message : Bytes}

theorem fresh_alike (config : WindowConfig) : (fresh config).Alike :=
  ⟨rfl, rfl, rfl, (Array.extract_empty_of_stop_le_start (Nat.le_refl 0)).symm, Nat.zero_le _⟩

theorem Alike.size_history (h : t.Alike) : t.growing.history.size = t.ring.cursor := by
  rw [h.history_eq, t.ring.size_history h.cursor_le]

theorem Alike.start_eq (h : t.Alike) : t.growing.start = t.ring.cursor := by
  rw [← h.size_history, t.growing.size_history]

/-- A message that fits is taken by both, as the same turn. -/
theorem Alike.take_fits (h : t.Alike)
    (hfit : t.growing.history.size + message.size ≤ config.ringCapacity) :
    ∃ growing ring,
      t.growing.take message
        = .done (turn config.dictionarySize t.growing.history message).1 growing ∧
      t.ring.take message
        = .done (turn config.dictionarySize t.growing.history message).1 ring ∧
      growing.history = (turn config.dictionarySize t.growing.history message).2 ∧
      (⟨growing, ring⟩ : Twins config).Alike := by
  have hroom : t.growing.history.size + message.size ≤ t.growing.capacity := by
    rw [h.capacity_eq]
    exact hfit
  have hahead : t.ring.cursor + message.size ≤ config.ringCapacity := by
    rw [← h.size_history]
    exact hfit
  obtain ⟨growing, hgrowing, hdictionary, hcapacity, hhistory, hpending⟩ :=
    Growing.take_fits h.pending_eq hroom
  obtain ⟨ring, hring, hcursor, hhistory'⟩ := Ring.take_fits hahead
  rw [h.dictionarySize_eq] at hgrowing hhistory
  rw [← h.history_eq] at hring hhistory'
  exact ⟨growing, ring, hgrowing, hring, hhistory, hdictionary.trans h.dictionarySize_eq,
    hcapacity.trans h.capacity_eq, hpending, hhistory.trans hhistory'.symm, hcursor⟩

/-- A message that does not fit is refused by both, which stay as they are. -/
theorem Alike.take_long (h : t.Alike)
    (hlong : config.ringCapacity < t.growing.history.size + message.size)
    (hword : t.ring.cursor + message.size < UInt64.size) :
    t.growing.take message = .refused .ringOverflow t.growing ∧
      t.ring.take message = .refused .cursorBeyondRing t.ring := by
  refine ⟨Growing.take_long h.pending_eq (by rw [h.capacity_eq]; exact hlong), ?_⟩
  exact Ring.take_long (by rw [← h.size_history]; exact hlong) hword

theorem Alike.take (h : t.Alike) (hword : t.ring.cursor + message.size < UInt64.size) :
    (t.take message).Alike := by
  by_cases hfit : t.growing.history.size + message.size ≤ config.ringCapacity
  · obtain ⟨growing, ring, hgrowing, hring, -, halike⟩ := h.take_fits hfit
    rw [Twins.take, hgrowing, hring]
    exact halike
  · obtain ⟨hgrowing, hring⟩ := h.take_long (Nat.lt_of_not_le hfit) hword
    rw [Twins.take, hgrowing, hring]
    exact h

/-- The two stay alike, and so they are when the next message comes. -/
theorem Alike.run (messages : List Bytes) :
    ∀ {t : Twins config}, t.Alike → t.InWords (messages ++ [message]) →
      (t.run messages).Alike ∧ (t.run messages).ring.cursor + message.size < UInt64.size := by
  induction messages with
  | nil => intro t h hwords; exact ⟨h, hwords.1⟩
  | cons first rest ih => intro t h hwords; exact ih (h.take hwords.1) hwords.2

/-- Messages that a word can measure together with the dictionary never lead past it. -/
theorem inWords_of_size_lt (messages : List Bytes)
    (h : ∀ message ∈ messages, config.dictionarySize + message.size < UInt64.size) :
    ∀ {t : Twins config}, t.ring.cursor ≤ config.dictionarySize → t.InWords messages := by
  induction messages with
  | nil => intro t _; trivial
  | cons message rest ih =>
      intro t hcursor
      have hsize := h message List.mem_cons_self
      refine ⟨by omega, ih (fun m hm => h m (List.mem_cons_of_mem message hm)) ?_⟩
      exact t.ring.cursor_take_le hcursor message

/--
**A growing window and a ring take the same messages alike.**

After any messages the two have the same cursor and the same history.  The next message,
if it fits the ring behind that history, is taken by both as the same turn: they give up
the history followed by the message, or nothing.  A message that does not fit is refused
by both as an internal failure, and both stay as they are.
-/
theorem take_agrees (config : WindowConfig) (messages : List Bytes) (message : Bytes)
    (hwords : (fresh config).InWords (messages ++ [message])) :
    let t := (fresh config).run messages
    let next := t.take message
    let turned := turn config.dictionarySize t.growing.history message
    t.growing.start = t.ring.cursor ∧ t.growing.history = t.ring.history ∧
    next.growing.start = next.ring.cursor ∧ next.growing.history = next.ring.history ∧
    if t.growing.history.size + message.size ≤ config.ringCapacity then
      (t.growing.take message).verdict = .ok turned.1 ∧
        (t.ring.take message).verdict = .ok turned.1 ∧
        next.growing.history = turned.2
    else
      t.growing.take message = .refused .ringOverflow t.growing ∧
        t.ring.take message = .refused .cursorBeyondRing t.ring := by
  intro t next turned
  obtain ⟨halike, hword⟩ := Alike.run messages (fresh_alike config) hwords
  have hnext : next.Alike := halike.take hword
  refine ⟨halike.start_eq, halike.history_eq, hnext.start_eq, hnext.history_eq, ?_⟩
  split
  · next hfit =>
    obtain ⟨growing, ring, hgrowing, hring, hhistory, -⟩ := halike.take_fits hfit
    refine ⟨congrArg Outcome.verdict hgrowing, congrArg Outcome.verdict hring, ?_⟩
    exact (congrArg (fun o => o.after.history) hgrowing).trans hhistory
  · next hlong => exact halike.take_long (Nat.lt_of_not_le hlong) hword

/-- In a ring of seven bytes a message of four is refused behind four others, and then a
message of one completes the dictionary. -/
theorem take_agrees_seven :
    let messages : List Bytes := [#[1, 2, 3, 4], #[], #[5, 6, 7, 8]]
    let t := (fresh ⟨5, 2⟩).run messages
    (fresh ⟨5, 2⟩).InWords (messages ++ [#[9]]) ∧
      (t.take #[9]).growing.start = (t.take #[9]).ring.cursor ∧
      (t.growing.take #[9]).verdict = .ok (.rolledOver #[1, 2, 3, 4, 9]) ∧
      (t.ring.take #[9]).verdict = .ok (.rolledOver #[1, 2, 3, 4, 9]) := by
  intro messages t
  have hwords : (fresh ⟨5, 2⟩).InWords (messages ++ [#[9]]) :=
    inWords_of_size_lt _ (by decide) (Nat.zero_le _)
  exact ⟨hwords, (take_agrees ⟨5, 2⟩ messages #[9] hwords).2.2.1, rfl, rfl⟩

end Twins

end WindowedLz4
