import Mathlib.Data.List.Basic

/-!
# Lists of partial results

A loop that may fail at any entry of a list is a `mapM` in `Option`. It yields when every entry
does (`mapM_eq_some_map`), and then each result is that of an entry (`exists_of_mem_mapM`) and each
entry has its result (`exists_mem_mapM`); so a registry that is built key by key has under a key
what was built for it (`lookup_mapM`).
-/

namespace LuzServing

universe u v

section
variable {α : Type u} {β : Type v} {f : α → Option β} {l : List α} {out : List β}

/-- A map over a list and one entry more yields when both do. -/
theorem mapM_cons_eq_some {a : α} : (a :: l).mapM f = some out ↔
    ∃ b rest, f a = some b ∧ l.mapM f = some rest ∧ out = b :: rest := by
  rw [List.mapM_cons]
  refine ⟨?_, ?_⟩
  · intro h
    obtain ⟨b, hb, h⟩ := Option.bind_eq_some_iff.mp h
    obtain ⟨rest, hrest, h⟩ := Option.bind_eq_some_iff.mp h
    exact ⟨b, rest, hb, hrest, (Option.some.inj h).symm⟩
  · rintro ⟨b, rest, hb, hrest, rfl⟩
    rw [hb, hrest]
    rfl

/-- A map over a list that yields everywhere is the list of what it yields. -/
theorem mapM_eq_some_map {g : α → β} (h : ∀ a ∈ l, f a = some (g a)) :
    l.mapM f = some (l.map g) := by
  induction l with
  | nil => rfl
  | cons a l ih =>
    exact mapM_cons_eq_some.mpr ⟨g a, l.map g, h a (List.mem_cons_self ..),
      ih fun b hb => h b (List.mem_cons_of_mem a hb), rfl⟩

/-- A partial map that yields nothing at some entry yields nothing for the whole list. -/
theorem mapM_eq_none {a : α} (ha : a ∈ l) (h : f a = none) : l.mapM f = none := by
  rw [Option.eq_none_iff_forall_ne_some]
  induction l with
  | nil => cases ha
  | cons b l ih =>
    intro out hout
    obtain ⟨b', rest, hb, hrest, -⟩ := mapM_cons_eq_some.mp hout
    rcases List.mem_cons.mp ha with rfl | ha
    · rw [h] at hb
      cases hb
    · exact ih ha rest hrest

/-- Each element of what a partial map yields comes from an entry of the list. -/
theorem exists_of_mem_mapM (h : l.mapM f = some out) {b : β} (hb : b ∈ out) :
    ∃ a ∈ l, f a = some b := by
  induction l generalizing out with
  | nil =>
    obtain rfl := Option.some.inj h
    cases hb
  | cons a l ih =>
    obtain ⟨b', rest, hb', hrest, rfl⟩ := mapM_cons_eq_some.mp h
    rcases List.mem_cons.mp hb with rfl | hmem
    · exact ⟨a, List.mem_cons_self .., hb'⟩
    · obtain ⟨a', ha', hfa'⟩ := ih hrest hmem
      exact ⟨a', List.mem_cons_of_mem _ ha', hfa'⟩

/-- When a partial map yields a list, what each entry yields is an element of it. -/
theorem exists_mem_mapM (h : l.mapM f = some out) {a : α} (ha : a ∈ l) :
    ∃ b ∈ out, f a = some b := by
  induction l generalizing out with
  | nil => cases ha
  | cons a' l ih =>
    obtain ⟨b', rest, hb', hrest, rfl⟩ := mapM_cons_eq_some.mp h
    rcases List.mem_cons.mp ha with rfl | hmem
    · exact ⟨b', List.mem_cons_self .., hb'⟩
    · obtain ⟨b, hb, hfa⟩ := ih hrest hmem
      exact ⟨b, List.mem_cons_of_mem _ hb, hfa⟩

/-- A map that yields is the `map` of what its calls return. -/
theorem eq_map_of_mapM_eq_some {g : α → β} (h : l.mapM f = some out)
    (hg : ∀ a ∈ l, ∀ b, f a = some b → b = g a) : out = l.map g := by
  induction l generalizing out with
  | nil =>
    obtain rfl := Option.some.inj h
    rfl
  | cons a l ih =>
    obtain ⟨b, rest, hb, hrest, rfl⟩ := mapM_cons_eq_some.mp h
    rw [List.map_cons, ← hg a (List.mem_cons_self ..) b hb,
      ih hrest fun a' ha' => hg a' (List.mem_cons_of_mem _ ha')]

end

/-- What a registry that is built key by key has under a key. -/
theorem lookup_mapM {κ : Type u} {β : Type v} [DecidableEq κ] {f : κ → Option β} {keys : List κ}
    {entries : List (κ × β)} (h : (keys.mapM fun key => (f key).map (Prod.mk key)) = some entries)
    {key : κ} (hkey : key ∈ keys) : ∃ b, f key = some b ∧ entries.lookup key = some b := by
  induction keys generalizing entries with
  | nil => cases hkey
  | cons k keys ih =>
    obtain ⟨entry, rest, hentry, hrest, rfl⟩ := mapM_cons_eq_some.mp h
    obtain ⟨b, hb, rfl⟩ := Option.map_eq_some_iff.mp hentry
    by_cases heq : key = k
    · subst heq
      exact ⟨b, hb, List.lookup_cons_self⟩
    · obtain ⟨b', hb', hlookup⟩ := ih hrest ((List.mem_cons.mp hkey).resolve_left heq)
      refine ⟨b', hb', ?_⟩
      rw [List.lookup_cons, beq_eq_false_iff_ne.mpr heq]
      exact hlookup

end LuzServing
