import Mathlib.Data.List.Basic
import Mathlib.Logic.Relation

/-!
# Regular expressions over lines

The regular expressions that a line scanner needs: classes of characters, repeated or not, sequences
and alternatives, word boundaries, and a look ahead for what must not follow.

`Regex.Matches` says what matches from which position of a text to which; `Regex.search` looks for a
match, and finds one exactly when there is one (`search_iff`).

A scanner that searches line by line misses what crosses a line break. **An expression none of
whose classes has the line break matches in a text exactly if it matches in one of its lines**
(`matchesIn_splitOn`): what its boundaries and its look ahead see of a line break is what they see
of the end of a line.
-/

namespace LuzServing

/-- A regular expression. -/
inductive Regex : Type where
  /-- what is always there -/
  | empty
  /-- a character of a class, `[…]` -/
  | one (accepts : Char → Bool)
  /-- any number of characters of a class, `[…]*` -/
  | many (accepts : Char → Bool)
  /-- one after the other -/
  | seq (r s : Regex)
  /-- one or the other, `r|s` -/
  | alt (r s : Regex)
  /-- an end of a word, `\b` -/
  | boundary
  /-- what does not follow, `(?!r)` -/
  | notAhead (r : Regex)

namespace Regex

instance : Append Regex := ⟨seq⟩

/-- The expression that matches a given text and nothing else. -/
def lit (text : String) : Regex := text.toList.foldr (fun c r => one (· == c) ++ r) empty

/-- One of the texts, `(?:…|…)`. -/
def oneOf (texts : List String) : Regex :=
  texts.foldr (fun text r => alt (lit text) r) (one fun _ => false)

/-- At least so many characters of a class, `[…]{n,}`. -/
def atLeast (n : ℕ) (accepts : Char → Bool) : Regex :=
  (List.replicate n (one accepts)).foldr (· ++ ·) (many accepts)

/-! ## What matches -/

/-- A position of a text. -/
structure Pos : Type where
  /-- the character before it is one of a word -/
  wordBefore : Bool
  /-- the text from there on -/
  rest : List Char
  deriving DecidableEq

section
variable (word : Char → Bool)

/-- The positions on the two sides of a character of a class. -/
def Over (accepts : Char → Bool) (p q : Pos) : Prop :=
  ∃ c, accepts c = true ∧ p.rest = c :: q.rest ∧ q.wordBefore = word c

/-- The character after the position is one of a word. -/
def Pos.wordAfter (p : Pos) : Bool := p.rest.head?.any word

/-- The expression matches what is between the positions. -/
def Matches : Regex → Pos → Pos → Prop
  | empty, p, q => q = p
  | one accepts, p, q => Over word accepts p q
  | many accepts, p, q => Relation.ReflTransGen (Over word accepts) p q
  | seq r s, p, q => ∃ m, Matches r p m ∧ Matches s m q
  | alt r s, p, q => Matches r p q ∨ Matches s p q
  | boundary, p, q => q = p ∧ p.wordBefore ≠ p.wordAfter word
  | notAhead r, p, q => q = p ∧ ∀ m, ¬ Matches r p m

/-- The expression matches somewhere in the text. -/
def MatchesIn (r : Regex) (text : List Char) : Prop :=
  ∃ before after q, text = before ++ after ∧
    Matches word r ⟨before.getLast?.any word, after⟩ q

/-! ## The search -/

/-- Where a repeated class may end. -/
def manyEnds (accepts : Char → Bool) : Bool → List Char → List Pos
  | b, [] => [⟨b, []⟩]
  | b, c :: rest => ⟨b, c :: rest⟩ :: if accepts c then manyEnds accepts (word c) rest else []

/-- Where a match from the position may end. -/
def ends : Regex → Pos → List Pos
  | empty, p => [p]
  | one accepts, ⟨_, rest⟩ =>
    match rest with
    | [] => []
    | c :: rest => if accepts c then [⟨word c, rest⟩] else []
  | many accepts, ⟨b, rest⟩ => manyEnds word accepts b rest
  | seq r s, p => (ends r p).flatMap (ends s)
  | alt r s, p => ends r p ++ ends s p
  | boundary, p => if p.wordBefore ≠ p.wordAfter word then [p] else []
  | notAhead r, p => if (ends r p).isEmpty then [p] else []

/-- The positions of a text. -/
def positions : Bool → List Char → List Pos
  | b, [] => [⟨b, []⟩]
  | b, c :: rest => ⟨b, c :: rest⟩ :: positions (word c) rest

/-- `re.search` -/
def search (r : Regex) (text : List Char) : Bool :=
  (positions word false text).any fun p => !(ends word r p).isEmpty

variable {word} {accepts : Char → Bool}

theorem mem_manyEnds {b : Bool} {rest : List Char} {q : Pos} :
    q ∈ manyEnds word accepts b rest ↔
      Relation.ReflTransGen (Over word accepts) ⟨b, rest⟩ q := by
  induction rest generalizing b with
  | nil =>
    rw [manyEnds, List.mem_singleton, Relation.ReflTransGen.cases_head_iff]
    refine ⟨?_, ?_⟩
    · rintro rfl
      exact .inl rfl
    · rintro (rfl | ⟨_, ⟨c, -, hrest, -⟩, -⟩)
      · rfl
      · cases hrest
  | cons c rest ih =>
    rw [manyEnds, List.mem_cons, Relation.ReflTransGen.cases_head_iff, eq_comm]
    refine or_congr_right ?_
    refine ⟨?_, ?_⟩
    · intro hq
      split at hq
      case isTrue hc => exact ⟨_, ⟨c, hc, rfl, rfl⟩, ih.mp hq⟩
      case isFalse => cases hq
    · rintro ⟨⟨b', rest'⟩, ⟨c', hc, hrest, hword⟩, hq⟩
      obtain ⟨rfl, rfl⟩ := List.cons.inj hrest
      obtain rfl : b' = word c := hword
      rw [if_pos hc]
      exact ih.mpr hq

/-- **The search finds all matches from a position.** -/
theorem mem_ends {r : Regex} {p q : Pos} : q ∈ ends word r p ↔ Matches word r p q := by
  induction r generalizing p q with
  | empty => exact List.mem_singleton
  | one accepts =>
    obtain ⟨b, rest⟩ := p
    cases rest with
    | nil =>
      refine ⟨fun hq => absurd hq List.not_mem_nil, ?_⟩
      rintro ⟨c, -, hrest, -⟩
      cases hrest
    | cons c rest =>
      rw [ends, Matches]
      refine ⟨?_, ?_⟩
      · intro hq
        split at hq
        case isTrue hc =>
          obtain rfl := List.mem_singleton.mp hq
          exact ⟨c, hc, rfl, rfl⟩
        case isFalse => cases hq
      · rintro ⟨c', hc, hrest, hword⟩
        obtain ⟨rfl, rfl⟩ := List.cons.inj hrest
        rw [if_pos hc, ← hword]
        exact List.mem_singleton_self q
  | many accepts => exact mem_manyEnds
  | seq r s ihr ihs =>
    rw [ends, Matches, List.mem_flatMap]
    exact exists_congr fun m => and_congr ihr ihs
  | alt r s ihr ihs =>
    rw [ends, Matches, List.mem_append]
    exact or_congr ihr ihs
  | boundary =>
    rw [ends, Matches]
    split
    case isTrue hne => rw [List.mem_singleton, and_iff_left hne]
    case isFalse heq => exact ⟨fun hq => absurd hq List.not_mem_nil, fun hq => absurd hq.2 heq⟩
  | notAhead r ih =>
    have hempty : (ends word r p).isEmpty = true ↔ ∀ m, ¬ Matches word r p m := by
      rw [List.isEmpty_iff, List.eq_nil_iff_forall_not_mem]
      exact forall_congr' fun m => not_congr ih
    rw [ends, Matches, ← hempty]
    split
    case isTrue hnil => rw [List.mem_singleton, and_iff_left hnil]
    case isFalse hne => exact ⟨fun hq => absurd hq List.not_mem_nil, fun hq => absurd hq.2 hne⟩

theorem mem_positions {b : Bool} {text : List Char} {p : Pos} :
    p ∈ positions word b text ↔
      ∃ before after, text = before ++ after ∧ p = ⟨before.getLast?.elim b word, after⟩ := by
  induction text generalizing b with
  | nil =>
    rw [positions, List.mem_singleton]
    refine ⟨?_, ?_⟩
    · rintro rfl
      exact ⟨[], [], rfl, rfl⟩
    · rintro ⟨before, after, htext, rfl⟩
      obtain ⟨rfl, rfl⟩ := List.append_eq_nil_iff.mp htext.symm
      rfl
  | cons c rest ih =>
    have hlast : ∀ before : List Char,
        (c :: before).getLast?.elim b word = before.getLast?.elim (word c) word := by
      intro before
      rw [List.getLast?_cons]
      cases before.getLast? <;> rfl
    rw [positions, List.mem_cons, ih]
    refine ⟨?_, ?_⟩
    · rintro (rfl | ⟨before, after, rfl, rfl⟩)
      · exact ⟨[], c :: rest, rfl, rfl⟩
      · exact ⟨c :: before, after, rfl, by rw [hlast]⟩
    · rintro ⟨before, after, htext, rfl⟩
      cases before with
      | nil =>
        obtain rfl : c :: rest = after := htext
        exact .inl rfl
      | cons c' before =>
        obtain ⟨rfl, rfl⟩ := List.cons.inj htext
        exact .inr ⟨before, after, rfl, by rw [hlast]⟩

/-- **The search finds a match exactly if there is one.** -/
theorem search_iff {r : Regex} {text : List Char} :
    search word r text = true ↔ MatchesIn word r text := by
  have hends : ∀ p, (!(ends word r p).isEmpty) = true ↔ ∃ q, Matches word r p q := by
    intro p
    rw [Bool.not_eq_true', List.isEmpty_eq_false_iff_exists_mem]
    exact exists_congr fun q => mem_ends
  have hbefore : ∀ before : List Char,
      before.getLast?.elim false word = before.getLast?.any word := fun before => by
    cases before.getLast? <;> rfl
  rw [search, List.any_eq_true, MatchesIn]
  refine ⟨?_, ?_⟩
  · rintro ⟨p, hp, hfound⟩
    obtain ⟨before, after, rfl, rfl⟩ := mem_positions.mp hp
    obtain ⟨q, hq⟩ := (hends _).mp hfound
    exact ⟨before, after, q, rfl, hbefore before ▸ hq⟩
  · rintro ⟨before, after, q, rfl, hq⟩
    exact ⟨_, mem_positions.mpr ⟨before, after, rfl, rfl⟩,
      (hends _).mpr ⟨q, (hbefore before).symm ▸ hq⟩⟩

/-! ## Line by line -/

/-- No class of the expression has the line break. -/
def Inline : Regex → Prop
  | empty | boundary => True
  | one accepts | many accepts => accepts '\n' = false
  | seq r s | alt r s => Inline r ∧ Inline s
  | notAhead r => Inline r

instance decidableInline : (r : Regex) → Decidable r.Inline
  | empty | boundary => .isTrue trivial
  | one accepts | many accepts => inferInstanceAs (Decidable (accepts '\n' = false))
  | seq r s | alt r s => @instDecidableAnd _ _ (decidableInline r) (decidableInline s)
  | notAhead r => decidableInline r

/-- A position of a line, in a text that goes on after the line. -/
def Pos.before (more : List Char) (p : Pos) : Pos := ⟨p.wordBefore, p.rest ++ '\n' :: more⟩

variable {more : List Char}

theorem manyEnds_before (hinline : accepts '\n' = false) {b : Bool} {rest : List Char} :
    manyEnds word accepts b (rest ++ '\n' :: more) =
      (manyEnds word accepts b rest).map (Pos.before more) := by
  induction rest generalizing b with
  | nil =>
    change Pos.mk b ('\n' :: more) :: (if accepts '\n' then _ else []) = _
    rw [hinline]
    rfl
  | cons c rest ih =>
    rw [List.cons_append, manyEnds, manyEnds, List.map_cons, ih]
    split <;> rfl

/-- **An expression without line breaks matches in a text what it matches in the line.** -/
theorem ends_before (hword : word '\n' = false) {r : Regex} (hinline : r.Inline) (p : Pos) :
    ends word r (p.before more) = (ends word r p).map (Pos.before more) := by
  induction r generalizing p with
  | empty => rfl
  | one accepts =>
    obtain ⟨b, rest⟩ := p
    cases rest with
    | nil => exact if_neg (by rw [hinline]; exact Bool.false_ne_true)
    | cons c rest =>
      change (if accepts c then _ else _) = List.map _ (if accepts c then _ else _)
      split <;> rfl
  | many accepts => exact manyEnds_before hinline
  | seq r s ihr ihs =>
    rw [ends, ends, ihr hinline.1, List.flatMap_map, List.map_flatMap]
    exact List.flatMap_congr fun q _ => ihs hinline.2 q
  | alt r s ihr ihs =>
    rw [ends, ends, ihr hinline.1, ihs hinline.2, List.map_append]
  | boundary =>
    have hafter : (p.before more).wordAfter word = p.wordAfter word := by
      obtain ⟨b, rest⟩ := p
      cases rest with
      | nil => exact hword
      | cons c rest => rfl
    rw [ends, ends, hafter]
    change (if p.wordBefore ≠ _ then _ else _) = _
    split <;> rfl
  | notAhead r ih =>
    rw [ends, ends, ih hinline, List.isEmpty_map]
    split <;> rfl

/-- The positions of a text are those of its first line and those of the rest. -/
theorem positions_line (hword : word '\n' = false) {b : Bool} {line : List Char} :
    positions word b (line ++ '\n' :: more) =
      (positions word b line).map (Pos.before more) ++ positions word false more := by
  induction line generalizing b with
  | nil =>
    change _ :: positions word (word '\n') more = _
    rw [hword]
    rfl
  | cons c line ih =>
    rw [List.cons_append, positions, ih]
    rfl

theorem search_line (hword : word '\n' = false) {r : Regex} (hinline : r.Inline)
    {line : List Char} :
    search word r (line ++ '\n' :: more) = (search word r line || search word r more) := by
  have hends : ∀ p : Pos, (ends word r (p.before more)).isEmpty = (ends word r p).isEmpty := by
    intro p
    rw [ends_before hword hinline, List.isEmpty_map]
  rw [search, positions_line hword, List.any_append, List.any_map]
  simp only [Function.comp_def, hends]
  rfl

/-- **Line by line.** An expression without line breaks matches in a text exactly if it matches in
one of its lines. -/
theorem search_splitOn (hword : word '\n' = false) {r : Regex} (hinline : r.Inline)
    (text : List Char) :
    search word r text = (text.splitOn '\n').any (search word r) := by
  induction hlen : text.length using Nat.strongRecOn generalizing text with
  | _ n ih =>
    by_cases hbreak : '\n' ∈ text
    · obtain ⟨line, more, rfl, hline⟩ := List.eq_append_cons_of_mem hbreak
      rw [List.splitOn_append_cons_self_of_not_mem hline, List.any_cons,
        search_line hword hinline, ih more.length (by simp at hlen; omega) more rfl]
    · rw [List.splitOn_eq_singleton hbreak, List.any_cons, List.any_nil, Bool.or_false]

/-- So it matches somewhere in the text if and only if somewhere in a line. -/
theorem matchesIn_splitOn (hword : word '\n' = false) {r : Regex} (hinline : r.Inline)
    {text : List Char} :
    MatchesIn word r text ↔ ∃ line ∈ text.splitOn '\n', MatchesIn word r line := by
  rw [← search_iff, search_splitOn hword hinline, List.any_eq_true]
  exact exists_congr fun line => and_congr_right fun _ => search_iff

end

end Regex

end LuzServing
