import Mathlib.Tactic
import Mathlib.Data.Fintype.Card

/-!
# Tickets: sharing a job among threads

A job of `chunks` pieces is shared by drawing tickets: every thread repeats
"draw the next ticket; stop when it is past the last piece; otherwise work on the
piece, then count it off". This file is about the dispenser alone, for any type
of threads: which ticket may be in whose hand (`Drawn`), what is worked on and
counted off (`Fair`), that every step of every thread keeps it (`Fair.step`), and
what it says once nothing remains (`Fair.served_once`): each piece was worked on
exactly once.
-/

namespace LuzServing

/-- Where a thread is in its drawing loop. -/
inductive Hand : Type where
  /-- about to draw -/
  | claim
  /-- drew a ticket, about to compare it with the number of pieces -/
  | bound (ticket : ℕ)
  /-- about to work on its piece -/
  | serve (ticket : ℕ)
  /-- worked on its piece, about to count it off -/
  | finish (ticket : ℕ)
  /-- counted the last piece off, about to signal -/
  | signal
  deriving DecidableEq

/-- The ticket a thread holds. -/
def Hand.ticket : Hand → Option ℕ
  | .bound k | .serve k | .finish k => some k
  | _ => none

/-- The counters of a dispenser, with the tickets worked on so far. -/
structure Counters : Type where
  /-- the next ticket -/
  next : ℕ
  /-- pieces not yet counted off -/
  remaining : ℕ
  /-- the tickets worked on, oldest first -/
  served : List ℕ
  deriving DecidableEq

/-- One step of a thread's drawing loop over `chunks` pieces; `none` when the
loop is left. -/
def drawStep (chunks : ℕ) (s : Counters) : Hand → Counters × Option Hand
  | .claim => ({ s with next := s.next + 1 }, some (.bound s.next))
  | .bound k => (s, if chunks ≤ k then none else some (.serve k))
  | .serve k => ({ s with served := s.served ++ [k] }, some (.finish k))
  | .finish _ =>
    ({ s with remaining := s.remaining - 1 }, some (if s.remaining = 1 then .signal else .claim))
  | .signal => (s, some .claim)

/-- The counters at the start of a job. -/
def Counters.start (chunks : ℕ) : Counters := ⟨0, chunks, []⟩

variable {τ : Type*}

/-! ## Tickets in hands -/

/-- The ticket in each thread's hand. -/
def ticketOf (hand : τ → Option Hand) (t : τ) : Option ℕ := (hand t).bind Hand.ticket

/-- **Tickets are drawn once**: a ticket in a hand was drawn, it is in no other
hand, and its piece is not counted off. -/
structure Drawn (next : ℕ) (done : Finset ℕ) (holds : τ → Option ℕ) : Prop where
  /-- a ticket in a hand was drawn -/
  lt_next : ∀ t k, holds t = some k → k < next
  /-- no two hands hold one ticket -/
  unique : ∀ t t' k, holds t = some k → holds t' = some k → t = t'
  /-- a ticket in a hand is not counted off -/
  not_done : ∀ t k, holds t = some k → k ∉ done

section
variable [DecidableEq τ] {next : ℕ} {done : Finset ℕ} {holds : τ → Option ℕ} {t u : τ} {k : ℕ}

theorem ticketOf_update {hand : τ → Option Hand} {o : Option Hand} :
    ticketOf (Function.update hand t o) =
      Function.update (ticketOf hand) t (o.bind Hand.ticket) := by
  funext u
  by_cases hut : u = t
  · subst hut
    simp [ticketOf]
  · simp [ticketOf, hut]

/-- After thread `t` moves, its value is the new one and the others keep theirs. -/
theorem update_eq_some {α : Type*} {f : τ → Option α} {o : Option α} {a : α} :
    Function.update f t o u = some a ↔ u = t ∧ o = some a ∨ u ≠ t ∧ f u = some a := by
  by_cases hut : u = t
  · subst hut
    simp
  · simp [hut]

/-- The account of the drawn tickets is kept when a thread draws the next one. -/
theorem Drawn.draw (hd : Drawn next done holds) (hnext : next ∉ done) :
    Drawn (next + 1) done (Function.update holds t (some next)) where
  lt_next u k hu := by
    rcases update_eq_some.mp hu with ⟨-, hk⟩ | ⟨-, hu⟩
    · cases hk
      exact next.lt_succ_self
    · exact Nat.lt_succ_of_lt (hd.lt_next u k hu)
  unique u u' k hu hu' := by
    rcases update_eq_some.mp hu with ⟨hut, hk⟩ | ⟨hut, hu⟩
    · rcases update_eq_some.mp hu' with ⟨hut', -⟩ | ⟨-, hu'⟩
      · rw [hut, hut']
      · cases hk
        exact absurd (hd.lt_next u' _ hu') (lt_irrefl _)
    · rcases update_eq_some.mp hu' with ⟨-, hk⟩ | ⟨-, hu'⟩
      · cases hk
        exact absurd (hd.lt_next u _ hu) (lt_irrefl _)
      · exact hd.unique u u' k hu hu'
  not_done u k hu := by
    rcases update_eq_some.mp hu with ⟨-, hk⟩ | ⟨-, hu⟩
    · cases hk
      exact hnext
    · exact hd.not_done u k hu

/-- The account of the drawn tickets is kept when a thread puts its ticket away. -/
theorem Drawn.drop (hd : Drawn next done holds) :
    Drawn next done (Function.update holds t none) := by
  have hold : ∀ {u k}, Function.update holds t none u = some k → holds u = some k := by
    intro u k hu
    rcases update_eq_some.mp hu with ⟨-, hk⟩ | ⟨-, hu⟩
    · cases hk
    · exact hu
  exact ⟨fun u k hu => hd.lt_next u k (hold hu),
    fun u u' k hu hu' => hd.unique u u' k (hold hu) (hold hu'),
    fun u k hu => hd.not_done u k (hold hu)⟩

/-- A thread puts its ticket away and counts its piece off: no other hand holds
that ticket. -/
theorem Drawn.count_off (hd : Drawn next done holds) (ht : holds t = some k) :
    Drawn next (insert k done) (Function.update holds t none) where
  lt_next := hd.drop.lt_next
  unique := hd.drop.unique
  not_done u j hu := by
    rcases update_eq_some.mp hu with ⟨-, hj⟩ | ⟨hut, hu⟩
    · cases hj
    · rw [Finset.mem_insert, not_or]
      refine ⟨?_, hd.not_done u j hu⟩
      rintro rfl
      exact hut (hd.unique u t _ hu ht)

end

/-! ## Pieces worked on -/

/-- **The dispenser's invariant.** `done` are the pieces counted off: every ticket
drawn for a piece is counted off or in one hand, and a piece was worked on exactly
when it is counted off or about to be. -/
structure Fair (chunks : ℕ) (s : Counters) (hand : τ → Option Hand) (done : Finset ℕ) : Prop where
  /-- only pieces are counted off, and only drawn ones -/
  done_lt : ∀ k ∈ done, k < chunks ∧ k < s.next
  /-- the rest remains -/
  remaining : s.remaining + done.card = chunks
  /-- tickets are drawn once -/
  drawn : Drawn s.next done (ticketOf hand)
  /-- a thread at work has a piece -/
  piece : ∀ t k, hand t = some (.serve k) ∨ hand t = some (.finish k) → k < chunks
  /-- every drawn piece is counted off or in a hand -/
  covered : ∀ k, k < chunks → k < s.next → k ∈ done ∨ ∃ t, ticketOf hand t = some k
  /-- a piece counted off, or about to be, was worked on once -/
  worked : ∀ k, (k ∈ done ∨ ∃ t, hand t = some (.finish k)) → s.served.count k = 1
  /-- any other piece was not worked on -/
  unworked : ∀ k, k ∉ done → (∀ t, hand t ≠ some (.finish k)) → s.served.count k = 0

namespace Fair

variable {chunks : ℕ} {s : Counters} {hand : τ → Option Hand} {done : Finset ℕ} {t : τ} {k : ℕ}

/-- A job starts fair: nothing is drawn and no hand is in. -/
theorem start (chunks : ℕ) (hnone : ∀ t, hand t = none) :
    Fair chunks (Counters.start chunks) hand ∅ where
  done_lt := by simp
  remaining := by simp [Counters.start]
  drawn := by constructor <;> simp [ticketOf, hnone]
  piece := by simp [hnone]
  covered := by simp [Counters.start]
  worked := by simp [hnone]
  unworked := by simp [Counters.start]

/-- The next ticket has not been counted off, since it has not been drawn. -/
theorem next_notMem (hf : Fair chunks s hand done) : s.next ∉ done :=
  fun h => absurd (hf.done_lt _ h).2 (lt_irrefl _)

section
variable [DecidableEq τ]

/-- A thread that holds no ticket may take any other hand without one (it joins
the loop, or goes on after its signal), and one whose ticket is a piece may go to
work on it. -/
theorem retarget (hf : Fair chunks s hand done) {o : Option Hand}
    (hsame : o.bind Hand.ticket = ticketOf hand t) (hpiece : ∀ k, o = some (.serve k) → k < chunks)
    (ho : ∀ k, o ≠ some (.finish k)) (ht : ∀ k, hand t ≠ some (.finish k)) :
    Fair chunks s (Function.update hand t o) done := by
  have htickets : ticketOf (Function.update hand t o) = ticketOf hand := by
    rw [ticketOf_update, hsame, Function.update_eq_self]
  have hfinish : ∀ u k, Function.update hand t o u = some (.finish k) ↔
      hand u = some (.finish k) := by
    intro u k
    rw [update_eq_some]
    constructor
    · rintro (⟨-, h⟩ | ⟨-, h⟩)
      · exact absurd h (ho k)
      · exact h
    · exact fun h => .inr ⟨fun hut => ht k (hut ▸ h), h⟩
  constructor
  case done_lt => exact hf.done_lt
  case remaining => exact hf.remaining
  case drawn =>
    rw [htickets]
    exact hf.drawn
  case piece =>
    rintro u k (hu | hu)
    · rcases update_eq_some.mp hu with ⟨-, h⟩ | ⟨-, h⟩
      · exact hpiece k h
      · exact hf.piece u k (.inl h)
    · exact hf.piece u k (.inr ((hfinish u k).mp hu))
  case covered =>
    rw [htickets]
    exact hf.covered
  case worked =>
    intro k hk
    simp only [hfinish] at hk
    exact hf.worked k hk
  case unworked =>
    intro k hk hno
    simp only [ne_eq, hfinish] at hno
    exact hf.unworked k hk hno

/-- A thread without a ticket may join the loop at any time, and the dispenser stays fair. -/
theorem enter (hf : Fair chunks s hand done) (ht : hand t = none) :
    Fair chunks s (Function.update hand t (some .claim)) done :=
  hf.retarget (by simp [ticketOf, ht, Hand.ticket]) (by simp) (by simp) (by simp [ht])

/-- Drawing keeps the dispenser fair, since the ticket that is drawn is a new one. -/
theorem claim (hf : Fair chunks s hand done) (ht : hand t = some .claim) :
    Fair chunks { s with next := s.next + 1 } (Function.update hand t (some (.bound s.next)))
      done := by
  have htickets : ticketOf (Function.update hand t (some (.bound s.next))) =
      Function.update (ticketOf hand) t (some s.next) := ticketOf_update
  constructor
  case done_lt => exact fun k hk => ⟨(hf.done_lt k hk).1, Nat.lt_succ_of_lt (hf.done_lt k hk).2⟩
  case remaining => exact hf.remaining
  case drawn =>
    rw [htickets]
    exact hf.drawn.draw hf.next_notMem
  case piece =>
    rintro u k (hu | hu) <;> rcases update_eq_some.mp hu with ⟨-, h⟩ | ⟨-, h⟩
    · cases h
    · exact hf.piece u k (.inl h)
    · cases h
    · exact hf.piece u k (.inr h)
  case covered =>
    intro k hk hnext
    rw [htickets]
    by_cases heq : k = s.next
    · exact .inr ⟨t, update_eq_some.mpr (.inl ⟨rfl, by rw [heq]⟩)⟩
    · refine (hf.covered k hk (by simp only at hnext; omega)).imp_right ?_
      rintro ⟨u, hu⟩
      refine ⟨u, update_eq_some.mpr (.inr ⟨?_, hu⟩)⟩
      rintro rfl
      simp [ticketOf, ht, Hand.ticket] at hu
  case worked =>
    intro k hk
    refine hf.worked k (hk.imp_right ?_)
    rintro ⟨u, hu⟩
    rcases update_eq_some.mp hu with ⟨-, h⟩ | ⟨-, h⟩
    · cases h
    · exact ⟨u, h⟩
  case unworked =>
    intro k hk hno
    refine hf.unworked k hk fun u hu => hno u (update_eq_some.mpr (.inr ⟨?_, hu⟩))
    rintro rfl
    rw [ht] at hu
    cases hu

/-- A thread whose ticket is past the last piece leaves the loop, and the dispenser stays fair. -/
theorem leave (hf : Fair chunks s hand done) (ht : hand t = some (.bound k)) (hk : chunks ≤ k) :
    Fair chunks s (Function.update hand t none) done := by
  have htickets : ticketOf (Function.update hand t none) =
      Function.update (ticketOf hand) t none := ticketOf_update
  have hold : ∀ {u h}, Function.update hand t none u = some h → hand u = some h := by
    intro u h hu
    rcases update_eq_some.mp hu with ⟨-, h⟩ | ⟨-, h⟩
    · cases h
    · exact h
  constructor
  case done_lt => exact hf.done_lt
  case remaining => exact hf.remaining
  case drawn =>
    rw [htickets]
    exact hf.drawn.drop
  case piece => exact fun u k hu => hf.piece u k (hu.imp hold hold)
  case covered =>
    intro j hj hnext
    rw [htickets]
    refine (hf.covered j hj hnext).imp_right ?_
    rintro ⟨u, hu⟩
    refine ⟨u, update_eq_some.mpr (.inr ⟨?_, hu⟩)⟩
    rintro rfl
    simp only [ticketOf, ht, Option.bind_some, Hand.ticket, Option.some.injEq] at hu
    omega
  case worked => exact fun j hj => hf.worked j (hj.imp_right fun ⟨u, hu⟩ => ⟨u, hold hu⟩)
  case unworked =>
    intro j hj hno
    refine hf.unworked j hj fun u hu => hno u (update_eq_some.mpr (.inr ⟨?_, hu⟩))
    rintro rfl
    rw [ht] at hu
    cases hu

/-- Working on a piece is the first time it is worked on. -/
theorem work (hf : Fair chunks s hand done) (ht : hand t = some (.serve k)) :
    Fair chunks { s with served := s.served ++ [k] }
      (Function.update hand t (some (.finish k))) done := by
  have hmine : ticketOf hand t = some k := by simp [ticketOf, ht, Hand.ticket]
  have htickets : ticketOf (Function.update hand t (some (.finish k))) = ticketOf hand := by
    rw [ticketOf_update, ← Function.update_eq_self t (ticketOf hand), hmine,
      Function.update_idem]
    rfl
  have hfresh : s.served.count k = 0 := by
    refine hf.unworked k (hf.drawn.not_done t k hmine) fun u hu => ?_
    obtain rfl := hf.drawn.unique u t k (by simp [ticketOf, hu, Hand.ticket]) hmine
    rw [ht] at hu
    cases hu
  have hcount : ∀ j, (s.served ++ [k]).count j = s.served.count j + if j = k then 1 else 0 := by
    intro j
    by_cases hjk : j = k
    · simp [hjk]
    · rw [List.count_append, List.count_singleton, if_neg hjk,
        if_neg (by simpa using Ne.symm hjk)]
  constructor
  case done_lt => exact hf.done_lt
  case remaining => exact hf.remaining
  case drawn =>
    rw [htickets]
    exact hf.drawn
  case piece =>
    have hk := hf.piece t k (.inl ht)
    rintro u j (hu | hu) <;> rcases update_eq_some.mp hu with ⟨-, h⟩ | ⟨-, h⟩
    · cases h
    · exact hf.piece u j (.inl h)
    · cases h
      exact hk
    · exact hf.piece u j (.inr h)
  case covered =>
    rw [htickets]
    exact hf.covered
  case worked =>
    intro j hj
    simp only [hcount]
    by_cases hjk : j = k
    · rw [if_pos hjk, hjk, hfresh]
    · rw [if_neg hjk]
      refine hf.worked j (hj.imp_right ?_)
      rintro ⟨u, hu⟩
      rcases update_eq_some.mp hu with ⟨-, h⟩ | ⟨-, h⟩
      · cases h
        exact absurd rfl hjk
      · exact ⟨u, h⟩
  case unworked =>
    intro j hj hno
    have hjk : j ≠ k := fun h => hno t (by rw [h, Function.update_self])
    simp only [hcount, if_neg hjk]
    refine hf.unworked j hj fun u hu => hno u (update_eq_some.mpr (.inr ⟨?_, hu⟩))
    rintro rfl
    rw [ht] at hu
    cases hu

/-- Counting a piece off keeps the dispenser fair, since the piece's own ticket stands for it. -/
theorem count_off (hf : Fair chunks s hand done) (ht : hand t = some (.finish k)) {h : Hand}
    (hh : h = .signal ∨ h = .claim) :
    Fair chunks { s with remaining := s.remaining - 1 } (Function.update hand t (some h))
      (insert k done) := by
  have hmine : ticketOf hand t = some k := by simp [ticketOf, ht, Hand.ticket]
  have hk : k < chunks := hf.piece t k (.inr ht)
  have hempty : h.ticket = none := by rcases hh with rfl | rfl <;> rfl
  have htickets : ticketOf (Function.update hand t (some h)) =
      Function.update (ticketOf hand) t none := by
    rw [ticketOf_update, Option.bind_some, hempty]
  have hother : ∀ {u j}, Function.update hand t (some h) u = some (.serve j) ∨
      Function.update hand t (some h) u = some (.finish j) →
      hand u = some (.serve j) ∨ hand u = some (.finish j) := by
    rintro u j (hu | hu) <;> rcases update_eq_some.mp hu with ⟨-, hne⟩ | ⟨-, hu⟩
    · rcases hh with rfl | rfl <;> cases hne
    · exact .inl hu
    · rcases hh with rfl | rfl <;> cases hne
    · exact .inr hu
  have hdone : ∀ j ∈ insert k done, j < chunks ∧ j < s.next := by
    intro j hj
    rcases Finset.mem_insert.mp hj with rfl | hj
    · exact ⟨hk, hf.drawn.lt_next t _ hmine⟩
    · exact hf.done_lt j hj
  have hcard : (insert k done).card = done.card + 1 :=
    Finset.card_insert_of_notMem (hf.drawn.not_done t k hmine)
  have hroom : (insert k done).card ≤ (Finset.range chunks).card :=
    Finset.card_le_card fun j hj => Finset.mem_range.mpr (hdone j hj).1
  constructor
  case done_lt => exact hdone
  case remaining =>
    have := hf.remaining
    rw [Finset.card_range] at hroom
    simp only
    omega
  case drawn =>
    rw [htickets]
    exact hf.drawn.count_off hmine
  case piece => exact fun u j hu => hf.piece u j (hother hu)
  case covered =>
    intro j hj hnext
    rw [htickets, Finset.mem_insert]
    rcases hf.covered j hj hnext with hd | ⟨u, hu⟩
    · exact .inl (.inr hd)
    · by_cases hut : u = t
      · subst hut
        rw [hmine] at hu
        cases hu
        exact .inl (.inl rfl)
      · exact .inr ⟨u, update_eq_some.mpr (.inr ⟨hut, hu⟩)⟩
  case worked =>
    intro j hj
    rw [Finset.mem_insert] at hj
    rcases hj with (rfl | hj) | ⟨u, hu⟩
    · exact hf.worked _ (.inr ⟨t, ht⟩)
    · exact hf.worked j (.inl hj)
    · rcases update_eq_some.mp hu with ⟨-, hne⟩ | ⟨-, hu⟩
      · rcases hh with rfl | rfl <;> cases hne
      · exact hf.worked j (.inr ⟨u, hu⟩)
  case unworked =>
    intro j hj hno
    rw [Finset.mem_insert, not_or] at hj
    refine hf.unworked j hj.2 fun u hu => hno u (update_eq_some.mpr (.inr ⟨?_, hu⟩))
    rintro rfl
    rw [ht] at hu
    cases hu
    exact hj.1 rfl

/-- **The step lemma**: whatever a thread's next step is, the dispenser stays
fair. -/
theorem step (hf : Fair chunks s hand done) {h : Hand} (ht : hand t = some h) :
    ∃ done', Fair chunks (drawStep chunks s h).1
      (Function.update hand t (drawStep chunks s h).2) done' := by
  cases h with
  | claim => exact ⟨done, hf.claim ht⟩
  | bound k =>
    by_cases hk : chunks ≤ k
    · refine ⟨done, ?_⟩
      simp only [drawStep, if_pos hk]
      exact hf.leave ht hk
    · refine ⟨done, ?_⟩
      simp only [drawStep, if_neg hk]
      refine hf.retarget (by simp [ticketOf, ht, Hand.ticket]) ?_ (by simp) (by simp [ht])
      rintro j ⟨⟩
      omega
  | serve k => exact ⟨done, hf.work ht⟩
  | finish k =>
    refine ⟨insert k done, hf.count_off ht ?_⟩
    split
    · exact .inl rfl
    · exact .inr rfl
  | signal =>
    refine ⟨done, hf.retarget ?_ ?_ ?_ ?_⟩
    · simp [drawStep, ticketOf, ht, Hand.ticket]
    · simp [drawStep]
    · simp [drawStep]
    · simp [ht]

end

/-- A thread leaves the loop only after the last piece was drawn. -/
theorem drawn_all (hf : Fair chunks s hand done) {h : Hand} (ht : hand t = some h)
    (hleave : (drawStep chunks s h).2 = none) : chunks ≤ s.next := by
  cases h with
  | bound k =>
    have hk : k < s.next := hf.drawn.lt_next t k (by simp [ticketOf, ht, Hand.ticket])
    simp only [drawStep] at hleave
    split at hleave
    · omega
    · cases hleave
  | _ => cases hleave

/-- **Everything was worked on once**: when nothing remains, each piece was worked
on exactly once, and nothing else was. -/
theorem served_once (hf : Fair chunks s hand done) (hrem : s.remaining = 0) (k : ℕ) :
    s.served.count k = if k < chunks then 1 else 0 := by
  have hsub : done ⊆ Finset.range chunks := fun j hj =>
    Finset.mem_range.mpr (hf.done_lt j hj).1
  have hall : done = Finset.range chunks := by
    refine Finset.eq_of_subset_of_card_le hsub ?_
    rw [Finset.card_range]
    have := hf.remaining
    omega
  split
  · exact hf.worked k (.inl (by rw [hall]; exact Finset.mem_range.mpr ‹_›))
  · refine hf.unworked k (by rw [hall, Finset.mem_range]; assumption) fun t ht => ?_
    exact absurd (hf.piece t k (.inr ht)) ‹_›

/-- When every ticket is drawn and no hand is in, nothing remains. -/
theorem remaining_eq_zero (hf : Fair chunks s hand done) (hnext : chunks ≤ s.next)
    (hnone : ∀ t, hand t = none) : s.remaining = 0 := by
  have hall : Finset.range chunks ⊆ done := by
    intro k hk
    have hk := Finset.mem_range.mp hk
    rcases hf.covered k hk (hk.trans_le hnext) with hd | ⟨t, ht⟩
    · exact hd
    · rw [ticketOf, hnone t] at ht
      cases ht
  have := Finset.card_le_card hall
  rw [Finset.card_range] at this
  have := hf.remaining
  omega

end Fair

end LuzServing
