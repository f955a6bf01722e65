import LuzServing.Stores
import Mathlib.Data.List.Dedup
import Mathlib.Data.List.Nodup

/-!
# Dictionaries

A dictionary as a program fills it: a key that is set again keeps its place and takes the new value.
`Dict` carries the fact that its keys differ. What is under a key after a series of assignments is
what `storeAll` says (`get?_setAll`), so its rules apply; `length_ofList_eq_iff` tells when a
dictionary has lost nothing of what it was filled with.
-/

namespace LuzServing

universe u v

/-- A dictionary, in the order in which its keys were first set. -/
structure Dict (κ : Type u) (α : Type v) : Type (max u v) where
  /-- the keys and their values -/
  entries : List (κ × α)
  /-- a key is there once -/
  nodup : (entries.map Prod.fst).Nodup

namespace Dict

variable {κ : Type u} {α : Type v}

/-- The keys. -/
def keys (d : Dict κ α) : List κ := d.entries.map Prod.fst

/-- The values, in the order of the keys. -/
def values (d : Dict κ α) : List α := d.entries.map Prod.snd

/-- A dictionary of no keys. -/
def empty : Dict κ α where
  entries := []
  nodup := List.nodup_nil

instance : Inhabited (Dict κ α) where
  default := empty

/-- Two dictionaries with the same entries in the same order are the same dictionary. -/
theorem entries_inj {d d' : Dict κ α} : d.entries = d'.entries ↔ d = d' := by
  refine ⟨fun h => ?_, congrArg entries⟩
  cases d
  cases d'
  cases h
  rfl

/-- The same keys, with other values. -/
def mapValues {β : Type v} (d : Dict κ α) (f : α → β) : Dict κ β where
  entries := d.entries.map fun e => (e.1, f e.2)
  nodup := (List.map_map (l := d.entries) (f := fun e => (e.1, f e.2)) (g := Prod.fst)) ▸ d.nodup

variable [DecidableEq κ]

/-- The value under a key. -/
def get? (d : Dict κ α) (k : κ) : Option α := (d.entries.find? fun e => e.1 = k).map Prod.snd

/-- The entries after `k` is set to `v`. -/
def setEntries (k : κ) (v : α) : List (κ × α) → List (κ × α)
  | [] => [(k, v)]
  | e :: entries => if e.1 = k then (k, v) :: entries else e :: setEntries k v entries

/-- A key that is there keeps its place, another one goes to the end. -/
theorem map_fst_setEntries (k : κ) (v : α) (entries : List (κ × α)) :
    (setEntries k v entries).map Prod.fst =
      if k ∈ entries.map Prod.fst then entries.map Prod.fst
      else entries.map Prod.fst ++ [k] := by
  induction entries with
  | nil => rfl
  | cons e entries ih =>
    rw [setEntries]
    by_cases he : e.1 = k
    · rw [if_pos he, if_pos (he ▸ List.mem_cons_self ..), List.map_cons, List.map_cons, he]
    · have hiff : k ∈ (e :: entries).map Prod.fst ↔ k ∈ entries.map Prod.fst := by
        rw [List.map_cons, List.mem_cons, or_iff_right (Ne.symm he)]
      rw [if_neg he, List.map_cons, ih, if_congr hiff rfl rfl, List.map_cons]
      split_ifs
      · rfl
      · rfl

theorem nodup_setEntries (k : κ) (v : α) {entries : List (κ × α)}
    (h : (entries.map Prod.fst).Nodup) : ((setEntries k v entries).map Prod.fst).Nodup := by
  rw [map_fst_setEntries]
  split_ifs with hk
  · exact h
  · exact List.nodup_append.mpr ⟨h, List.nodup_singleton k, fun a ha b hb hab =>
      hk (List.mem_singleton.mp hb ▸ hab ▸ ha)⟩

/-- `d[k] = v` -/
def set (d : Dict κ α) (k : κ) (v : α) : Dict κ α where
  entries := setEntries k v d.entries
  nodup := nodup_setEntries k v d.nodup

/-- Set the keys to the values, in order. -/
def setAll (d : Dict κ α) (assignments : List (κ × α)) : Dict κ α :=
  assignments.foldl (fun d e => d.set e.1 e.2) d

/-- The dictionary of a list of keys and values. -/
def ofList (assignments : List (κ × α)) : Dict κ α := empty.setAll assignments

theorem setAll_cons (d : Dict κ α) (e : κ × α) (assignments : List (κ × α)) :
    d.setAll (e :: assignments) = (d.set e.1 e.2).setAll assignments := rfl

/-! ## What is under a key -/

theorem find?_cons (k : κ) (e : κ × α) (entries : List (κ × α)) :
    ((e :: entries).find? fun e => e.1 = k).map Prod.snd =
      if e.1 = k then some e.2 else (entries.find? fun e => e.1 = k).map Prod.snd := by
  rw [List.find?_cons]
  split_ifs with he
  · rw [decide_eq_true he]
    rfl
  · rw [decide_eq_false he]

theorem find?_setEntries (k k' : κ) (v : α) (entries : List (κ × α)) :
    ((setEntries k v entries).find? fun e => e.1 = k').map Prod.snd =
      if k = k' then some v else (entries.find? fun e => e.1 = k').map Prod.snd := by
  induction entries with
  | nil => exact find?_cons k' (k, v) []
  | cons e entries ih =>
    rw [setEntries, find?_cons]
    by_cases he : e.1 = k
    · rw [if_pos he, find?_cons, he]
      split_ifs
      · rfl
      · rfl
    · rw [if_neg he, find?_cons, ih]
      by_cases hk : e.1 = k'
      · rw [if_pos hk, if_pos hk, if_neg fun hkk => he (hk.trans hkk.symm)]
      · rw [if_neg hk, if_neg hk]

theorem get?_set (d : Dict κ α) (k k' : κ) (v : α) :
    (d.set k v).get? k' = if k = k' then some v else d.get? k' :=
  find?_setEntries k k' v d.entries

/-- An assignment to a key changes what is found under this key and under no other one. -/
theorem get?_set_eq_update (d : Dict κ α) (k : κ) (v : α) :
    (d.set k v).get? = Function.update d.get? k (some v) := by
  funext k'
  rw [get?_set, Function.update_apply]
  exact if_congr eq_comm rfl rfl

/-- A list of assignments, made one after the other, is found again as the stores of a memory
are. -/
theorem get?_setAll (d : Dict κ α) (assignments : List (κ × α)) (k : κ) :
    (d.setAll assignments).get? k =
      storeAll d.get? (assignments.map fun e => (e.1, some e.2)) k := by
  induction assignments generalizing d with
  | nil => rfl
  | cons e assignments ih =>
    rw [setAll_cons, ih, List.map_cons, storeAll_cons, get?_set_eq_update]

/-- A pair is an entry of a dictionary exactly when its value is what is found under its key. -/
theorem mem_entries_iff {d : Dict κ α} {k : κ} {v : α} :
    (k, v) ∈ d.entries ↔ d.get? k = some v := by
  rw [get?, Option.map_eq_some_iff]
  constructor
  · intro hmem
    cases hfind : d.entries.find? fun e => e.1 = k with
    | none => exact absurd (decide_eq_true rfl) (List.find?_eq_none.mp hfind _ hmem)
    | some e =>
      have hkey : e.1 = k := of_decide_eq_true (List.find?_some hfind :)
      have heq : e = (k, v) :=
        List.inj_on_of_nodup_map d.nodup (List.mem_of_find?_eq_some hfind) hmem hkey
      exact ⟨e, rfl, by rw [heq]⟩
  · rintro ⟨e, hfind, rfl⟩
    have hkey : e.1 = k := of_decide_eq_true (List.find?_some hfind :)
    rw [← hkey]
    exact List.mem_of_find?_eq_some hfind

theorem mem_keys_iff {d : Dict κ α} {k : κ} : k ∈ d.keys ↔ ∃ v, d.get? k = some v := by
  rw [keys, List.mem_map]
  constructor
  · rintro ⟨⟨_, v⟩, hmem, rfl⟩
    exact ⟨v, mem_entries_iff.mp hmem⟩
  · rintro ⟨v, hget⟩
    exact ⟨(k, v), mem_entries_iff.mpr hget, rfl⟩

theorem mem_keys_set {d : Dict κ α} {k k' : κ} {v : α} :
    k' ∈ (d.set k v).keys ↔ k' ∈ d.keys ∨ k' = k := by
  have hkeys : (d.set k v).keys = if k ∈ d.keys then d.keys else d.keys ++ [k] :=
    map_fst_setEntries k v d.entries
  rw [hkeys]
  split_ifs with hk
  · exact ⟨Or.inl, fun h => h.elim id fun heq => heq ▸ hk⟩
  · rw [List.mem_append, List.mem_singleton]

theorem mem_keys_setAll {d : Dict κ α} {assignments : List (κ × α)} {k : κ} :
    k ∈ (d.setAll assignments).keys ↔ k ∈ d.keys ∨ k ∈ assignments.map Prod.fst := by
  induction assignments generalizing d with
  | nil => simp [setAll]
  | cons e assignments ih =>
    rw [setAll_cons, ih, mem_keys_set, List.map_cons, List.mem_cons, or_assoc]

theorem get?_mapValues {β : Type v} (d : Dict κ α) (f : α → β) (k : κ) :
    (d.mapValues f).get? k = (d.get? k).map f := by
  rw [get?, get?, mapValues, List.find?_map, Option.map_map, Option.map_map]
  rfl

/-- What is under a key was assigned to it, where the dictionary was empty. -/
theorem mem_of_get?_ofList {assignments : List (κ × α)} {k : κ} {v : α}
    (h : (ofList assignments).get? k = some v) : (k, v) ∈ assignments := by
  have hrun : ∀ d : Dict κ α, (d.setAll assignments).get? k = some v →
      d.get? k = some v ∨ (k, v) ∈ assignments := by
    clear h
    induction assignments with
    | nil => exact fun d h => Or.inl h
    | cons e assignments ih =>
      intro d h
      rcases ih _ h with hset | hmem
      · rw [get?_set] at hset
        split_ifs at hset with hk
        · cases hset
          exact Or.inr (hk ▸ List.mem_cons_self ..)
        · exact Or.inl hset
      · exact Or.inr (List.mem_cons_of_mem _ hmem)
  rcases hrun empty h with hempty | hmem
  · cases hempty
  · exact hmem

/-- A key that was assigned to has one of the values. -/
theorem exists_get?_ofList {assignments : List (κ × α)} {k : κ}
    (h : k ∈ assignments.map Prod.fst) :
    ∃ v, (ofList assignments).get? k = some v ∧ (k, v) ∈ assignments := by
  obtain ⟨v, hget⟩ := mem_keys_iff.mp (mem_keys_setAll (d := empty) |>.mpr (Or.inr h))
  exact ⟨v, hget, mem_of_get?_ofList hget⟩

/-! ## When nothing is lost -/

/-- A dictionary that is filled from a list has every key of the list, and each of them once. -/
theorem keys_ofList_perm (assignments : List (κ × α)) :
    (ofList assignments).keys.Perm (assignments.map Prod.fst).dedup := by
  refine (List.perm_ext_iff_of_nodup (ofList assignments).nodup (List.nodup_dedup _)).mpr ?_
  intro k
  rw [List.mem_dedup]
  exact mem_keys_setAll.trans (or_iff_right List.not_mem_nil)

/-- It has as many entries as there were assignments exactly when these were to different keys. -/
theorem length_ofList_eq_iff (assignments : List (κ × α)) :
    (ofList assignments).entries.length = assignments.length ↔
      (assignments.map Prod.fst).Nodup := by
  have hlen : (ofList assignments).entries.length = (assignments.map Prod.fst).dedup.length := by
    rw [← (keys_ofList_perm assignments).length_eq, keys, List.length_map]
  have hkeys : assignments.length = (assignments.map Prod.fst).length :=
    (List.length_map _).symm
  rw [hlen, hkeys]
  constructor
  · intro h
    rw [← (List.dedup_sublist _).eq_of_length h]
    exact List.nodup_dedup _
  · intro h
    rw [h.dedup]

theorem setEntries_of_notMem {k : κ} {v : α} {entries : List (κ × α)}
    (h : k ∉ entries.map Prod.fst) : setEntries k v entries = entries ++ [(k, v)] := by
  induction entries with
  | nil => rfl
  | cons e entries ih =>
    rw [List.map_cons, List.mem_cons, not_or] at h
    rw [setEntries, if_neg (Ne.symm h.1), ih h.2, List.cons_append]

/-- A dictionary that is filled from a list without repeated keys has the list as its entries, in
order. -/
theorem entries_ofList {assignments : List (κ × α)} (h : (assignments.map Prod.fst).Nodup) :
    (ofList assignments).entries = assignments := by
  have hrun : ∀ d : Dict κ α, (d.entries.map Prod.fst ++ assignments.map Prod.fst).Nodup →
      (d.setAll assignments).entries = d.entries ++ assignments := by
    clear h
    induction assignments with
    | nil => exact fun d _ => (List.append_nil _).symm
    | cons e assignments ih =>
      intro d hd
      have hnew : e.1 ∉ d.entries.map Prod.fst := fun hmem =>
        (List.nodup_append.mp hd).2.2 _ hmem _ (List.mem_cons_self ..) rfl
      have hset : (d.set e.1 e.2).entries = d.entries ++ [e] := setEntries_of_notMem hnew
      rw [setAll_cons, ih, hset, List.append_assoc, List.singleton_append]
      rw [hset, List.map_append, List.append_assoc]
      exact hd
  exact hrun empty h

/-! ## What is taken out -/

/-- `d.pop(k, None)` -/
def pop (d : Dict κ α) (k : κ) : Dict κ α where
  entries := d.entries.filter fun e => e.1 ≠ k
  nodup := (List.filter_sublist.map Prod.fst).nodup d.nodup

theorem get?_pop (d : Dict κ α) (k k' : κ) :
    (d.pop k).get? k' = if k = k' then none else d.get? k' := by
  refine Option.ext fun v => ?_
  rw [← mem_entries_iff, pop, List.mem_filter, mem_entries_iff, decide_eq_true_iff]
  split_ifs with hk
  · exact iff_of_false (fun h => h.2 hk.symm) fun h => by cases h
  · exact and_iff_left fun h => hk h.symm

/-- After a key is taken out nothing is found under it, and the other keys are as they were. -/
theorem get?_pop_eq_update (d : Dict κ α) (k : κ) :
    (d.pop k).get? = Function.update d.get? k none := by
  funext k'
  rw [get?_pop, Function.update_apply]
  exact if_congr eq_comm rfl rfl

/-- The entries of a dictionary are that of one of its keys and those of the rest, up to their
order. -/
theorem entries_perm_cons_pop {d : Dict κ α} {k : κ} {v : α} (h : d.get? k = some v) :
    d.entries.Perm ((k, v) :: (d.pop k).entries) := by
  have hnodup : ∀ d : Dict κ α, d.entries.Nodup := fun d => List.Nodup.of_map Prod.fst d.nodup
  refine (List.perm_ext_iff_of_nodup (hnodup d) (List.nodup_cons.mpr ⟨?_, hnodup _⟩)).mpr ?_
  · rw [mem_entries_iff, get?_pop, if_pos rfl]
    exact (Option.some_ne_none v).symm
  · rintro ⟨k', v'⟩
    rw [List.mem_cons, mem_entries_iff, mem_entries_iff, get?_pop, Prod.mk.injEq]
    by_cases hk : k = k'
    · subst hk
      rw [h, if_pos rfl]
      constructor
      · intro hv
        exact Or.inl ⟨rfl, (Option.some.inj hv).symm⟩
      · rintro (⟨-, rfl⟩ | hv)
        · rfl
        · cases hv
    · rw [if_neg hk]
      exact ⟨Or.inr, fun hor => hor.resolve_left fun heq => hk heq.1.symm⟩

/-- Two dictionaries that find the same under every key have the same entries, up to their order. -/
theorem entries_perm_of_get?_eq {d d' : Dict κ α} (h : d.get? = d'.get?) :
    d.entries.Perm d'.entries := by
  have hnodup : ∀ d : Dict κ α, d.entries.Nodup := fun d => List.Nodup.of_map Prod.fst d.nodup
  refine (List.perm_ext_iff_of_nodup (hnodup d) (hnodup d')).mpr ?_
  rintro ⟨k, v⟩
  rw [mem_entries_iff, mem_entries_iff, h]

/-- A dictionary has no entries exactly when nothing is found in it under any key. -/
theorem entries_eq_nil_iff {d : Dict κ α} : d.entries = [] ↔ ∀ k, d.get? k = none := by
  refine List.eq_nil_iff_forall_not_mem.trans ⟨fun h k => ?_, fun h e he => ?_⟩
  · cases hget : d.get? k with
    | none => rfl
    | some v => exact absurd (mem_entries_iff.mpr hget) (h (k, v))
  · have hget : d.get? e.1 = some e.2 := mem_entries_iff.mp he
    rw [h e.1] at hget
    cases hget

end Dict

end LuzServing
