import Carving.Geometry.Stride

/-!
# The most frequent value

A tally holds each value with its count, in the order in which the values occur first. The first of
its entries with the greatest count is therefore the most frequent value, and of several such values
the one that occurs first (`mode_eq_some_iff`). Distances between ascending offsets are
positive, so that a stride never stands still (`pos_of_mem_gaps`).
-/

namespace Carving

/-- No value occurs more often, and every other value that occurs as often occurs later first. -/
structure IsFirstMode (values : List Nat) (value : Nat) : Prop where
  mem : value ∈ values
  count_le : ∀ other, values.count other ≤ values.count value
  first : ∀ other, other ≠ value → values.count other = values.count value →
    values.idxOf value < values.idxOf other

section Tally

variable {value : Nat} {values keys : List Nat} {counts : List (Nat × Nat)}

/-- The keys are the values, each once and in the order of their first occurrences, and stand with
their counts. -/
structure Tallies (values keys : List Nat) (counts : List (Nat × Nat)) : Prop where
  counts_eq : counts = keys.map fun v => (v, values.count v)
  mem_iff : ∀ v, v ∈ keys ↔ v ∈ values
  ordered : keys.Pairwise fun a b => values.idxOf a < values.idxOf b

theorem tallies_nil : Tallies [] [] [] := ⟨rfl, fun _ => Iff.rfl, .nil⟩

theorem bump_cons (v count : Nat) : bump (m := Id) (· + 1) value ((v, count) :: counts)
    = if v = value then (v, count + 1) :: counts
      else (v, count) :: bump (m := Id) (· + 1) value counts := by
  rw [bump]
  split <;> rfl

theorem bump_map_of_mem (hn : keys.Nodup) (hv : value ∈ keys) (f : Nat → Nat) :
    bump (m := Id) (· + 1) value (keys.map fun v => (v, f v))
      = keys.map fun v => (v, f v + if v = value then 1 else 0) := by
  induction keys with
  | nil => cases hv
  | cons key keys ih =>
    obtain ⟨hkey, hn⟩ := List.nodup_cons.1 hn
    rw [List.map_cons, List.map_cons, bump_cons]
    by_cases hk : key = value
    · subst hk
      rw [if_pos rfl, if_pos rfl]
      congr 1
      refine List.map_congr_left fun v hv => ?_
      rw [if_neg (fun h : v = key => hkey (h ▸ hv)), Nat.add_zero]
    · rw [if_neg hk, if_neg hk, Nat.add_zero,
        ih hn ((List.mem_cons.1 hv).resolve_left fun h => hk h.symm)]

theorem bump_map_of_not_mem (hv : value ∉ keys) (f : Nat → Nat) :
    bump (m := Id) (· + 1) value (keys.map fun v => (v, f v))
      = keys.map (fun v => (v, f v)) ++ [(value, 1)] := by
  induction keys with
  | nil => rfl
  | cons key keys ih =>
    rw [List.mem_cons, not_or] at hv
    rw [List.map_cons, bump_cons, if_neg fun h => hv.1 h.symm, ih hv.2, List.cons_append]

theorem Tallies.nodup (h : Tallies values keys counts) : keys.Nodup :=
  h.ordered.imp fun hlt heq => by
    rw [heq] at hlt
    exact Nat.lt_irrefl _ hlt

theorem idxOf_append_of_mem {v : Nat} (hv : v ∈ values) (more : List Nat) :
    (values ++ more).idxOf v = values.idxOf v := by
  rw [List.idxOf_append, if_pos hv]

theorem count_append_singleton (v : Nat) :
    (values ++ [value]).count v = values.count v + if v = value then 1 else 0 := by
  rw [List.count_append, List.count_singleton]
  by_cases h : v = value
  · simp [h]
  · rw [if_neg h, if_neg (by simpa using Ne.symm h)]

/-- One more value counts under its key, or is a new key behind the others. -/
theorem Tallies.bump (h : Tallies values keys counts) (value : Nat) :
    ∃ keys', Tallies (values ++ [value]) keys' (Carving.bump (m := Id) (· + 1) value counts) := by
  have hordered : keys.Pairwise fun a b =>
      (values ++ [value]).idxOf a < (values ++ [value]).idxOf b :=
    h.ordered.imp_of_mem fun ha hb hlt => by
      rwa [idxOf_append_of_mem ((h.mem_iff _).1 ha), idxOf_append_of_mem ((h.mem_iff _).1 hb)]
  by_cases hv : value ∈ keys
  · refine ⟨keys, ?_, fun v => ?_, hordered⟩
    · simp only [h.counts_eq, bump_map_of_mem h.nodup hv, count_append_singleton]
    · rw [h.mem_iff, List.mem_append, List.mem_singleton]
      refine ⟨.inl, fun hm => hm.elim id ?_⟩
      rintro rfl
      exact (h.mem_iff v).1 hv
  · have hv' : value ∉ values := fun hm => hv ((h.mem_iff value).2 hm)
    refine ⟨keys ++ [value], ?_, fun v => ?_, ?_⟩
    · rw [h.counts_eq, bump_map_of_not_mem hv, List.map_append, List.map_singleton,
        count_append_singleton, if_pos rfl, List.count_eq_zero_of_not_mem hv']
      congr 1
      refine List.map_congr_left fun v hk => ?_
      rw [count_append_singleton, if_neg (fun h : v = value => hv (h ▸ hk)), Nat.add_zero]
    · rw [List.mem_append, List.mem_append, h.mem_iff]
    · refine List.pairwise_append.2 ⟨hordered, List.pairwise_singleton _ _, fun a ha b hb => ?_⟩
      cases List.mem_singleton.1 hb
      have ha' := (h.mem_iff a).1 ha
      have := List.idxOf_lt_length_of_mem ha'
      rw [idxOf_append_of_mem ha', List.idxOf_append, if_neg hv']
      omega

theorem Tallies.foldlM (h : Tallies values keys counts) (more : List Nat) :
    ∃ keys', Tallies (values ++ more) keys'
      (more.foldlM (m := Id) (fun counts value => Carving.bump (· + 1) value counts) counts) := by
  induction more generalizing values keys counts with
  | nil => exact ⟨keys, by rwa [List.append_nil]⟩
  | cons value more ih =>
    obtain ⟨keys', h'⟩ := h.bump value
    rw [List.append_cons]
    exact ih h'

theorem exists_tallies (values : List Nat) :
    ∃ keys, Tallies values keys (tally (m := Id) (· + 1) values) :=
  tallies_nil.foldlM values

theorem Tallies.count_le (h : Tallies values keys counts) :
    ∀ entry ∈ counts, entry.2 ≤ values.length := by
  rw [h.counts_eq]
  intro entry he
  obtain ⟨v, -, rfl⟩ := List.mem_map.1 he
  exact List.count_le_length

section Counting

variable {m : Type → Type} [Monad m] [LawfulMonad m] {next : Nat → m Nat}

theorem bump_eq (hnext : ∀ entry ∈ counts, next entry.2 = pure (entry.2 + 1)) :
    bump next value counts = pure (bump (m := Id) (· + 1) value counts) := by
  induction counts with
  | nil => rfl
  | cons entry counts ih =>
    obtain ⟨v, count⟩ := entry
    have hcount : next count = pure (count + 1) := hnext _ List.mem_cons_self
    rw [bump, bump_cons]
    split
    · rw [hcount, pure_bind]
    · rw [ih fun entry he => hnext entry (List.mem_cons_of_mem _ he), pure_bind]

theorem Tallies.foldlM_eq (h : Tallies values keys counts) {more : List Nat}
    (hnext : ∀ count < values.length + more.length, next count = pure (count + 1)) :
    more.foldlM (fun counts value => Carving.bump next value counts) counts
      = pure (more.foldlM (m := Id) (fun counts value => Carving.bump (· + 1) value counts)
        counts) := by
  induction more generalizing values keys counts with
  | nil => rfl
  | cons value more ih =>
    rw [List.length_cons] at hnext
    obtain ⟨keys', h'⟩ := h.bump value
    rw [List.foldlM_cons, bump_eq fun entry he => hnext _ (by have := h.count_le entry he; omega),
      pure_bind]
    exact ih h' (by rwa [List.length_append, List.length_singleton, Nat.add_assoc, Nat.add_comm 1])

/-- No count exceeds the number of values, so that it does not matter what follows a greater one. -/
theorem tally_eq (hnext : ∀ count < values.length, next count = pure (count + 1)) :
    tally next values = pure (tally (m := Id) (· + 1) values) :=
  tallies_nil.foldlM_eq (by simpa using hnext)

end Counting

end Tally

section Mode

variable {values : List Nat} {value : Nat}

/-- The entry with the greatest count is the first of those that have it. -/
theorem mostFrequent_eq_some {entries : List (Nat × Nat)} {best : Nat × Nat}
    (h : mostFrequent entries = some best) : ∃ before behind, entries = before ++ best :: behind
      ∧ (∀ entry ∈ before, entry.2 < best.2) ∧ ∀ entry ∈ behind, entry.2 ≤ best.2 := by
  induction entries generalizing best with
  | nil => cases h
  | cons entry entries ih =>
    rw [mostFrequent] at h
    rcases hm : mostFrequent entries with _ | other
    · have hnil : entries = [] := by
        rcases entries with _ | ⟨next, entries⟩
        · rfl
        · rw [mostFrequent] at hm
          split at hm
          · cases hm
          · split at hm <;> cases hm
      rw [hm] at h
      cases h
      exact ⟨[], [], by rw [hnil]; rfl, nofun, nofun⟩
    · obtain ⟨before, behind, rfl, h1, h2⟩ := ih hm
      rw [hm] at h
      dsimp only at h
      split at h
      · rename_i hlt
        cases h
        exact ⟨entry :: before, behind, rfl, List.forall_mem_cons.2 ⟨hlt, h1⟩, h2⟩
      · rename_i hge
        cases h
        refine ⟨[], _, rfl, nofun, fun e he => ?_⟩
        rcases List.mem_append.1 he with he | he
        · have := h1 e he
          omega
        · rcases List.mem_cons.1 he with rfl | he
          · omega
          · have := h2 e he
            omega

theorem mostFrequent_eq_none {entries : List (Nat × Nat)} :
    mostFrequent entries = none ↔ entries = [] := by
  rcases entries with _ | ⟨entry, entries⟩
  · exact ⟨fun _ => rfl, fun _ => rfl⟩
  · rw [mostFrequent]
    split
    · simp
    · split <;> simp

/-- A list has no most frequent value only if it has no values. -/
theorem mode_eq_none_iff : mode values = none ↔ values = [] := by
  obtain ⟨keys, h⟩ := exists_tallies values
  rw [mode, Option.map_eq_none_iff, mostFrequent_eq_none, h.counts_eq, List.map_eq_nil_iff,
    List.eq_nil_iff_forall_not_mem, List.eq_nil_iff_forall_not_mem]
  exact forall_congr' fun v => not_congr (h.mem_iff v)

theorem isFirstMode_of_mode (h : mode values = some value) : IsFirstMode values value := by
  obtain ⟨keys, ht⟩ := exists_tallies values
  obtain ⟨best, hb, rfl⟩ := Option.map_eq_some_iff.1 h
  obtain ⟨before, behind, hsplit, hbefore, hbehind⟩ := mostFrequent_eq_some hb
  rw [ht.counts_eq] at hsplit
  obtain ⟨keys1, keys2, rfl, h1, h2⟩ := List.map_eq_append_iff.1 hsplit
  obtain ⟨key, keys3, rfl, rfl, h3⟩ := List.map_eq_cons_iff.1 h2
  subst h1 h3
  change IsFirstMode values key
  obtain ⟨-, hcons, -⟩ := List.pairwise_append.1 ht.ordered
  have hlt : ∀ v ∈ keys1, values.count v < values.count key := fun v hv =>
    hbefore _ (List.mem_map_of_mem hv)
  have hle : ∀ v ∈ keys3, values.count v ≤ values.count key := fun v hv =>
    hbehind _ (List.mem_map_of_mem hv)
  have hcases : ∀ v ∈ values, v ∈ keys1 ∨ v = key ∨ v ∈ keys3 := fun v hv => by
    simpa using (ht.mem_iff v).2 hv
  refine ⟨(ht.mem_iff key).1 (by simp), fun v => ?_, fun v hne heq => ?_⟩
  · by_cases hv : v ∈ values
    · rcases hcases v hv with hv | rfl | hv
      · exact Nat.le_of_lt (hlt v hv)
      · exact Nat.le_refl _
      · exact hle v hv
    · rw [List.count_eq_zero_of_not_mem hv]
      exact Nat.zero_le _
  · have hkey := List.count_pos_iff.2 ((ht.mem_iff key).1 (by simp))
    rcases hcases v (List.count_pos_iff.1 (heq ▸ hkey)) with hv | rfl | hv
    · have := hlt v hv
      omega
    · exact absurd rfl hne
    · exact (List.pairwise_cons.1 hcons).1 v hv

theorem IsFirstMode.unique {other : Nat} (h : IsFirstMode values value)
    (h' : IsFirstMode values other) : value = other := by
  have hcount := Nat.le_antisymm (h'.count_le value) (h.count_le other)
  by_cases hsame : value = other
  · exact hsame
  · have := h.first other (Ne.symm hsame) hcount.symm
    have := h'.first value hsame hcount
    omega

theorem mode_eq_some_iff : mode values = some value ↔ IsFirstMode values value := by
  refine ⟨isFirstMode_of_mode, fun h => ?_⟩
  rcases hm : mode values with _ | found
  · exact absurd h.mem (by simp [mode_eq_none_iff.1 hm])
  · rw [(isFirstMode_of_mode hm).unique h]

end Mode

section Gaps

variable {offsets : List Nat} {gap : Nat}

theorem gaps_cons_cons (a b : Nat) (offsets : List Nat) :
    gaps (a :: b :: offsets) = (b - a) :: gaps (b :: offsets) := rfl

theorem gaps_eq_nil_iff : gaps offsets = [] ↔ offsets.length < 2 := by
  rcases offsets with _ | ⟨a, _ | ⟨b, offsets⟩⟩
  · simp [gaps]
  · simp [gaps]
  · rw [gaps_cons_cons]
    simp

theorem mode_gaps_eq_none_iff : mode (gaps offsets) = none ↔ offsets.length < 2 := by
  rw [mode_eq_none_iff, gaps_eq_nil_iff]

theorem length_gaps_le (offsets : List Nat) : (gaps offsets).length ≤ offsets.length := by
  rw [gaps, List.length_zipWith]
  exact Nat.min_le_left _ _

theorem gaps_map_add (distance : Nat) (offsets : List Nat) :
    gaps (offsets.map (distance + ·)) = gaps offsets := by
  induction offsets with
  | nil => rfl
  | cons a offsets ih =>
    rcases offsets with _ | ⟨b, offsets⟩
    · rfl
    · simp only [List.map_cons] at ih ⊢
      rw [gaps_cons_cons, gaps_cons_cons, ih, Nat.add_sub_add_left]

/-- A gap is the distance of two offsets that follow each other. -/
theorem exists_of_mem_gaps (h : gap ∈ gaps offsets) :
    ∃ before a b behind, offsets = before ++ a :: b :: behind ∧ gap = b - a := by
  induction offsets with
  | nil => cases h
  | cons a offsets ih =>
    rcases offsets with _ | ⟨b, offsets⟩
    · cases h
    · rw [gaps_cons_cons] at h
      rcases List.mem_cons.1 h with rfl | h
      · exact ⟨[], a, b, offsets, rfl, rfl⟩
      · obtain ⟨before, a', b', behind, heq, hgap⟩ := ih h
        exact ⟨a :: before, a', b', behind, by rw [heq]; rfl, hgap⟩

theorem pos_of_mem_gaps (ho : offsets.Pairwise (· < ·)) (h : gap ∈ gaps offsets) : 0 < gap := by
  obtain ⟨before, a, b, behind, rfl, rfl⟩ := exists_of_mem_gaps h
  have hlt := (List.pairwise_cons.1 (List.pairwise_append.1 ho).2.1).1 b List.mem_cons_self
  omega

end Gaps

end Carving
