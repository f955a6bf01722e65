import LuzServing.FooterPages

/-!
# Runs of pages of slots

A buffer is cut into pages, each of so many slots, and a slot's bytes are somewhere in its page;
what no slot has is padding (`SlotPages`). Where pages are moved in runs of `k` adjacent ones, the
run `g` holds the bytes of the slots `s` with `s / (slots * k) = g` and padding (`run_eq`), and
touches no other slot (`disjoint_run`).

Pages with a footer are such pages (`FooterPages.slotPages`), and so are pages that keep a slot's
bytes in several groups (`groupedPages`).
-/

namespace LuzServing

/-- Pages that are made up of slots of one size, with or without padding. -/
structure SlotPages : Type where
  /-- the slots of a page -/
  slots : ℕ
  /-- a page has one -/
  slots_pos : 0 < slots
  /-- the bytes of a page -/
  stride : ℕ
  /-- where the bytes of a slot are -/
  bytes : ℕ → Set ℕ
  /-- the bytes of a page that are of no slot -/
  padding : ℕ → Set ℕ
  /-- a page is its slots and its padding -/
  page_eq : ∀ p, Set.Ico (p * stride) ((p + 1) * stride) =
    (⋃ s, ⋃ (_ : s / slots = p), bytes s) ∪ padding p
  /-- no slot has bytes of the padding -/
  padding_disjoint : ∀ p s, Disjoint (padding p) (bytes s)

namespace SlotPages

variable (g : SlotPages)

/-- The bytes of the run `n`, of `k` adjacent pages. -/
def run (k n : ℕ) : Set ℕ := Set.Ico (n * (g.stride * k)) ((n + 1) * (g.stride * k))

/-- The bytes of a page. -/
def page (p : ℕ) : Set ℕ := Set.Ico (p * g.stride) ((p + 1) * g.stride)

variable {g}

/-- A number lies in the `n`-th interval of length `d` exactly when its quotient by `d` is `n`. -/
theorem mem_Ico_mul {a d n : ℕ} :
    a ∈ Set.Ico (n * d) ((n + 1) * d) ↔ 0 < d ∧ a / d = n := by
  refine ⟨?_, ?_⟩
  · rintro ⟨hle, hlt⟩
    have hd : 0 < d := by
      rcases Nat.eq_zero_or_pos d with rfl | hd
      · omega
      · exact hd
    exact ⟨hd, (Nat.div_eq_iff hd).mpr ⟨hle, by rw [Nat.add_one_mul] at hlt; omega⟩⟩
  · rintro ⟨hd, hdiv⟩
    obtain ⟨hle, hlt⟩ := (Nat.div_eq_iff hd).mp hdiv
    exact ⟨hle, by rw [Nat.add_one_mul]; omega⟩

theorem mem_page {a p : ℕ} : a ∈ g.page p ↔ 0 < g.stride ∧ a / g.stride = p := mem_Ico_mul

theorem mem_run {a k n : ℕ} : a ∈ g.run k n ↔ 0 < g.stride * k ∧ a / (g.stride * k) = n :=
  mem_Ico_mul

/-- An address lies in a run of pages exactly when it lies in one of the pages of the run. -/
theorem mem_run_iff_page {a k n : ℕ} (hk : 0 < k) :
    a ∈ g.run k n ↔ ∃ p, p / k = n ∧ a ∈ g.page p := by
  rw [mem_run]
  refine ⟨?_, ?_⟩
  · rintro ⟨hpos, hdiv⟩
    refine ⟨a / g.stride, ?_, mem_page.mpr ⟨Nat.pos_of_mul_pos_right hpos, rfl⟩⟩
    rw [Nat.div_div_eq_div_mul, hdiv]
  · rintro ⟨p, rfl, hpage⟩
    obtain ⟨hpos, rfl⟩ := mem_page.mp hpage
    exact ⟨Nat.mul_pos hpos hk, (Nat.div_div_eq_div_mul ..).symm⟩

/-- The bytes of a slot all lie in the page that the slot belongs to. -/
theorem bytes_subset_page (s : ℕ) : g.bytes s ⊆ g.page (s / g.slots) := by
  intro a ha
  rw [page, g.page_eq]
  exact .inl (Set.mem_iUnion₂.mpr ⟨s, rfl, ha⟩)

/-- The bytes of a slot all lie in the run of pages that the slot belongs to. -/
theorem bytes_subset_run {k : ℕ} (hk : 0 < k) (s : ℕ) :
    g.bytes s ⊆ g.run k (s / (g.slots * k)) := by
  intro a ha
  refine (mem_run_iff_page hk).mpr ⟨s / g.slots, Nat.div_div_eq_div_mul .., ?_⟩
  exact bytes_subset_page s ha

/-- **Runs do not meet**: two different runs of pages have no address in common. -/
theorem run_disjoint (k : ℕ) {n n' : ℕ} (hne : n ≠ n') : Disjoint (g.run k n) (g.run k n') := by
  refine Set.disjoint_left.mpr fun a ha ha' => hne ?_
  rw [← (mem_run.mp ha).2, ← (mem_run.mp ha').2]

/-- **A run touches the slots of its own pages only**, so writing it leaves the other slots
alone. -/
theorem disjoint_run {k : ℕ} (hk : 0 < k) {s n : ℕ} (hne : s / (g.slots * k) ≠ n) :
    Disjoint (g.bytes s) (g.run k n) :=
  (run_disjoint k hne).mono_left (bytes_subset_run hk s)

/-- **A run is its slots and the padding of its pages.** -/
theorem run_eq {k : ℕ} (hk : 0 < k) (n : ℕ) : g.run k n =
    (⋃ s, ⋃ (_ : s / (g.slots * k) = n), g.bytes s) ∪ ⋃ p, ⋃ (_ : p / k = n), g.padding p := by
  ext a
  rw [mem_run_iff_page hk, Set.mem_union, Set.mem_iUnion₂, Set.mem_iUnion₂]
  refine ⟨?_, ?_⟩
  · rintro ⟨p, hp, hpage⟩
    rw [page, g.page_eq] at hpage
    rcases hpage with hslot | hpad
    · obtain ⟨s, rfl, ha⟩ := Set.mem_iUnion₂.mp hslot
      exact .inl ⟨s, (Nat.div_div_eq_div_mul ..).symm.trans hp, ha⟩
    · exact .inr ⟨p, hp, hpad⟩
  · rintro (⟨s, hs, ha⟩ | ⟨p, hp, ha⟩)
    · exact ⟨s / g.slots, (Nat.div_div_eq_div_mul ..).trans hs, bytes_subset_page s ha⟩
    · refine ⟨p, hp, ?_⟩
      rw [page, g.page_eq]
      exact .inr ha

/-- The first runs of pages lie within a buffer that has as many pages as they are made of. -/
theorem run_subset {k n pages : ℕ} (h : (n + 1) * k ≤ pages) :
    g.run k n ⊆ Set.Ico 0 (pages * g.stride) := by
  refine Set.Ico_subset_Ico (Nat.zero_le _) ?_
  calc (n + 1) * (g.stride * k) = (n + 1) * k * g.stride := by ring
    _ ≤ pages * g.stride := Nat.mul_le_mul_right _ h

end SlotPages

/-! ## Pages with a footer -/

namespace FooterPages

variable {g : FooterPages}

/-- A byte of a region is of the row of a slot of the page. -/
theorem exists_row (r : Region) (p : ℕ) {o : ℕ} (ho : o < g.slots * g.width r) :
    ∃ t, t / g.slots = p ∧ p * g.stride + (g.base r + o) ∈ g.row r t := by
  have hwidth : 0 < g.width r := Nat.pos_of_ne_zero fun h => by simp [h] at ho
  have hslot : o / g.width r < g.slots := by
    rw [Nat.div_lt_iff_lt_mul hwidth]
    exact ho
  have hdiv : (o / g.width r + p * g.slots) / g.slots = p := by
    rw [Nat.add_mul_div_right _ _ g.slots_pos, Nat.div_eq_of_lt hslot, Nat.zero_add]
  refine ⟨o / g.width r + p * g.slots, hdiv, mem_row.mpr ⟨o % g.width r, Nat.mod_lt _ hwidth, ?_⟩⟩
  rw [rowStart, hdiv, inPage, Nat.add_mul_mod_self_right, Nat.mod_eq_of_lt hslot]
  have hsplit := Nat.div_add_mod' o (g.width r)
  omega

/-- A byte of a page is of a row of data, of a row of scales, or behind them. -/
theorem mem_page_cases {p a : ℕ} (ha : a ∈ g.page p) :
    (∃ t, t / g.slots = p ∧ (a ∈ g.row .data t ∨ a ∈ g.row .scale t)) ∨
      p * g.stride + g.slots * (g.width .data + g.width .scale) ≤ a := by
  obtain ⟨o, rfl⟩ := Nat.exists_eq_add_of_le ha.1
  rw [Nat.mul_add]
  rcases Nat.lt_or_ge o (g.slots * g.width .data) with hdata | hdata
  · obtain ⟨t, ht, hrow⟩ := exists_row .data p hdata
    rw [base_data, Nat.zero_add] at hrow
    exact .inl ⟨t, ht, .inl hrow⟩
  · obtain ⟨c, rfl⟩ := Nat.exists_eq_add_of_le hdata
    rcases Nat.lt_or_ge c (g.slots * g.width .scale) with hscale | hscale
    · obtain ⟨t, ht, hrow⟩ := exists_row .scale p hscale
      rw [base_scale] at hrow
      exact .inl ⟨t, ht, .inr hrow⟩
    · exact .inr (by omega)

/-- A page is made up of the rows of its tokens and the padding behind them. -/
theorem page_eq_rows (p : ℕ) : Set.Ico (p * g.stride) ((p + 1) * g.stride) =
    (⋃ t, ⋃ (_ : t / g.slots = p), g.row .data t ∪ g.row .scale t) ∪
      Set.Ico (p * g.stride + g.slots * (g.width .data + g.width .scale)) ((p + 1) * g.stride) := by
  ext a
  rw [Set.mem_union, Set.mem_iUnion₂]
  refine ⟨?_, ?_⟩
  · intro ha
    rcases mem_page_cases ha with ⟨t, ht, hrow⟩ | hpad
    · exact .inl ⟨t, ht, hrow⟩
    · exact .inr ⟨hpad, ha.2⟩
  · rintro (⟨t, rfl, hrow⟩ | hpad)
    · exact hrow.elim (fun h => row_subset_page .data t h) fun h => row_subset_page .scale t h
    · exact ⟨(Nat.le_add_right ..).trans hpad.1, hpad.2⟩

/-- The padding of a page has no byte in common with the rows of any token. -/
theorem padding_disjoint_rows (p t : ℕ) :
    Disjoint (Set.Ico (p * g.stride + g.slots * (g.width .data + g.width .scale))
      ((p + 1) * g.stride)) (g.row .data t ∪ g.row .scale t) := by
  refine Set.disjoint_left.mpr fun a hpad hrow => ?_
  obtain ⟨r, ha⟩ : ∃ r, a ∈ g.row r t := hrow.elim (fun h => ⟨_, h⟩) fun h => ⟨_, h⟩
  obtain ⟨i, hi, rfl⟩ := mem_row.mp ha
  have hpage : p = t / g.slots := by
    have hin : g.rowStart r t + i ∈ Set.Ico (p * g.stride) ((p + 1) * g.stride) :=
      ⟨(Nat.le_add_right ..).trans hpad.1, hpad.2⟩
    rw [← rowStart_div r t hi, (SlotPages.mem_Ico_mul.mp hin).2]
  have hlt := inPage_add_lt r t hi
  have hend : g.base r + g.slots * g.width r ≤ g.slots * (g.width .data + g.width .scale) := by
    rw [Nat.mul_add]
    cases r with
    | data => exact (Nat.add_comm ..).trans_le (Nat.add_le_add_left (Nat.zero_le _) _)
    | scale => exact le_rfl
  have hle := hpad.1
  rw [hpage, rowStart] at hle
  omega

/-- Pages with a footer, as pages of slots. -/
def slotPages (g : FooterPages) : SlotPages where
  slots := g.slots
  slots_pos := g.slots_pos
  stride := g.stride
  bytes t := g.row .data t ∪ g.row .scale t
  padding p := Set.Ico (p * g.stride + g.slots * (g.width .data + g.width .scale))
    ((p + 1) * g.stride)
  page_eq := page_eq_rows
  padding_disjoint := padding_disjoint_rows

end FooterPages

/-! ## Pages of groups -/

/-- The bytes of slot `s`, a piece of `width` bytes in each group. -/
def groupBytes (slots groups width s : ℕ) : Set ℕ :=
  {a | ∃ c i, c < groups ∧ i < width ∧
    a = s / slots * (groups * slots * width) + ((c * slots + s % slots) * width + i)}

/-- A page is made up of the pieces of its slots, with nothing left over. -/
theorem page_eq_groupBytes {slots : ℕ} (hslots : 0 < slots) (groups width p : ℕ) :
    Set.Ico (p * (groups * slots * width)) ((p + 1) * (groups * slots * width)) =
      (⋃ s, ⋃ (_ : s / slots = p), groupBytes slots groups width s) ∪ ∅ := by
  ext a
  rw [Set.union_empty, Set.mem_iUnion₂]
  refine ⟨?_, ?_⟩
  · rintro ⟨hle, hlt⟩
    obtain ⟨o, rfl⟩ := Nat.exists_eq_add_of_le hle
    have ho : o < groups * slots * width := by
      rw [Nat.add_one_mul] at hlt
      omega
    have hwidth : 0 < width := Nat.pos_of_ne_zero fun h => by simp [h] at ho
    have hpiece : o / width < groups * slots := by
      rw [Nat.div_lt_iff_lt_mul hwidth]
      exact ho
    have hgroup : o / width / slots < groups := by
      rw [Nat.div_lt_iff_lt_mul hslots]
      exact hpiece
    have hslot := Nat.mod_lt (o / width) hslots
    have hdiv : (o / width % slots + p * slots) / slots = p := by
      rw [Nat.add_mul_div_right _ _ hslots, Nat.div_eq_of_lt hslot, Nat.zero_add]
    refine ⟨o / width % slots + p * slots, hdiv, o / width / slots, o % width, hgroup,
      Nat.mod_lt _ hwidth, ?_⟩
    rw [hdiv, Nat.add_mul_mod_self_right, Nat.mod_eq_of_lt hslot, Nat.div_add_mod',
      Nat.div_add_mod']
  · rintro ⟨s, rfl, c, i, hc, hi, rfl⟩
    have hslot := Nat.mod_lt s hslots
    have hrow : (c * slots + s % slots) + 1 ≤ groups * slots := by
      have h := Nat.mul_le_mul_right slots (Nat.succ_le_of_lt hc)
      rw [Nat.succ_mul] at h
      omega
    have hbyte := Nat.mul_le_mul_right width hrow
    rw [Nat.add_one_mul] at hbyte
    refine ⟨Nat.le_add_right .., ?_⟩
    rw [Nat.add_one_mul (s / slots)]
    omega

/-- Pages that keep `groups` pieces of a slot, of `width` bytes, each among the like pieces of the
other slots. -/
def groupedPages (slots groups width : ℕ) (hslots : 0 < slots) : SlotPages where
  slots := slots
  slots_pos := hslots
  stride := groups * slots * width
  bytes := groupBytes slots groups width
  padding _ := ∅
  page_eq := page_eq_groupBytes hslots groups width
  padding_disjoint _ _ := Set.empty_disjoint _

end LuzServing
