import Carving.Format
import Carving.Proofs.MarkerSearch

/-!
# The candidates of a signature

The candidates are the offsets that an occurrence of some pattern leads to, in ascending order and
each once (`mem_candidates`, `pairwise_candidates`, `candidates_eq_filter`). The signatures of two
formats never lead to the same offset, since they ask for different bytes there
(`Format.eq_of_mem_candidates`).
-/

namespace Carving

section EraseReps

theorem eraseReps_loop (a : Nat) (as acc : List Nat) :
    List.eraseRepsBy.loop (· == ·) a as acc
      = acc.reverse ++ List.eraseRepsBy.loop (· == ·) a as [] := by
  induction as generalizing a acc with
  | nil => simp [List.eraseRepsBy.loop]
  | cons b as ih =>
    simp only [List.eraseRepsBy.loop]
    split
    · exact ih a acc
    · rw [ih b (a :: acc), ih b [a]]
      simp

theorem eraseReps_cons_cons (a b : Nat) (as : List Nat) : (a :: b :: as).eraseReps
    = if a = b then (a :: as).eraseReps else a :: (b :: as).eraseReps := by
  simp only [List.eraseReps, List.eraseRepsBy, List.eraseRepsBy.loop]
  split <;> rename_i h
  · rw [if_pos (by simpa using h)]
  · rw [if_neg (by simpa using h), eraseReps_loop]
    rfl

theorem mem_eraseReps {x a : Nat} {as : List Nat} : x ∈ (a :: as).eraseReps ↔ x ∈ a :: as := by
  induction as generalizing a with
  | nil => rfl
  | cons b as ih =>
    rw [eraseReps_cons_cons]
    split <;> rename_i h
    · simp [ih, h]
    · simp [ih]

theorem pairwise_eraseReps {a : Nat} {as : List Nat} (h : (a :: as).Pairwise (· ≤ ·)) :
    (a :: as).eraseReps.Pairwise (· < ·) := by
  induction as generalizing a with
  | nil => exact List.pairwise_singleton _ _
  | cons b as ih =>
    obtain ⟨ha, hb⟩ := List.pairwise_cons.1 h
    rw [eraseReps_cons_cons]
    split <;> rename_i hab
    · exact ih (hab ▸ hb)
    · refine List.pairwise_cons.2 ⟨fun x hx => ?_, ih hb⟩
      have hx' := mem_eraseReps.1 hx
      have h1 := ha b List.mem_cons_self
      have h2 : b ≤ x := by
        rcases List.mem_cons.1 hx' with rfl | hx'
        · exact Nat.le_refl _
        · exact (List.pairwise_cons.1 hb).1 x hx'
      omega

end EraseReps

/-- Lists that ascend in some measure are equal if they have the same members. -/
theorem eq_of_pairwise_lt {α : Type} (measure : α → Nat) {l l' : List α}
    (h : l.Pairwise fun a b => measure a < measure b)
    (h' : l'.Pairwise fun a b => measure a < measure b) (hm : ∀ a, a ∈ l ↔ a ∈ l') : l = l' := by
  have hne : ∀ {a b : α}, measure a < measure b → a ≠ b := by
    rintro a _ hlt rfl
    exact Nat.lt_irrefl _ hlt
  exact List.Perm.eq_of_pairwise (fun a b _ _ h1 h2 => absurd h1 (Nat.lt_asymm h2)) h h'
    ((List.perm_ext_iff_of_nodup (h.imp hne) (h'.imp hne)).2 hm)

section Candidates

theorem Signature.startOf_eq_some_iff {matchOffset : Int} {i x : Nat} :
    startOf matchOffset i = some x ↔ (i : Int) + matchOffset = x := by
  unfold startOf
  dsimp only
  split
  · rw [Option.some.injEq]
    omega
  · simp only [reduceCtorEq, false_iff]
    omega

variable {s : Signature} {data : List UInt8} {x : Nat}

theorem mem_candidates : x ∈ s.candidates data ↔ ∃ pattern ∈ s.patterns, ∃ i,
    OccursAt pattern data i ∧ Signature.startOf s.matchOffset i = some x := by
  have hm : ∀ l : List Nat, x ∈ l.eraseReps ↔ x ∈ l := fun l => by
    rcases l with _ | ⟨a, as⟩
    · rfl
    · exact mem_eraseReps
  simp only [Signature.candidates, hm, List.mem_mergeSort, List.mem_flatMap, List.mem_filterMap,
    resumedFrom_zero, mem_occurrences]

theorem pairwise_candidates : (s.candidates data).Pairwise (· < ·) := by
  unfold Signature.candidates
  have hs : ∀ l : List Nat, (l.mergeSort (· ≤ ·)).Pairwise (· ≤ ·) := fun l => by
    have := @List.pairwise_mergeSort Nat (fun a b => decide (a ≤ b))
      (fun a b c h1 h2 => by simp only [decide_eq_true_eq] at *; omega)
      (fun a b => by simp only [Bool.or_eq_true, decide_eq_true_eq]; omega) l
    simpa using this
  dsimp only
  generalize hl : List.mergeSort _ _ = l
  have h := hs (s.patterns.flatMap fun pattern =>
    (resumedFrom pattern data 0).filterMap (Signature.startOf s.matchOffset))
  rw [hl] at h
  rcases l with _ | ⟨a, as⟩
  · exact .nil
  · exact pairwise_eraseReps h

instance (pattern bytes : List UInt8) (offset : Nat) : Decidable (OccursAt pattern bytes offset) :=
  inferInstanceAs (Decidable (pattern ≠ [] ∧ pattern <+: bytes.drop offset))

/-- The candidates are the offsets from which some pattern is as far away as the signature says. -/
theorem candidates_eq_filter (s : Signature) (data : List UInt8) : s.candidates data
    = (List.range (data.length + s.matchOffset.toNat)).filter fun (x : Nat) =>
      s.matchOffset ≤ x
        ∧ ∃ pattern ∈ s.patterns, OccursAt pattern data (x - s.matchOffset).toNat := by
  refine eq_of_pairwise_lt id pairwise_candidates (List.pairwise_lt_range.filter _) fun x => ?_
  rw [mem_candidates, List.mem_filter, List.mem_range, decide_eq_true_eq]
  constructor
  · rintro ⟨pattern, hpattern, i, hi, hx⟩
    have hx := Signature.startOf_eq_some_iff.1 hx
    have hlt := hi.lt_length
    obtain rfl : i = (x - s.matchOffset).toNat := by omega
    exact ⟨by omega, by omega, pattern, hpattern, hi⟩
  · rintro ⟨-, hle, pattern, hpattern, hi⟩
    exact ⟨pattern, hpattern, _, hi, Signature.startOf_eq_some_iff.2 (by omega)⟩

/-- The candidates are the offsets at the distance of the signature from where one of its patterns
stands, if that is not before the data, in ascending order and each once. They are what is found
when every pattern is looked for again from one byte behind each of its occurrences; an empty
pattern is found nowhere. -/
theorem candidates_exact (s : Signature) (data : List UInt8) :
    (s.candidates data).Pairwise (· < ·)
    ∧ (∀ start : Nat, start ∈ s.candidates data ↔ ∃ pattern ∈ s.patterns, pattern ≠ []
      ∧ ∃ hit : Nat, (data.drop hit).take pattern.length = pattern
        ∧ (hit : Int) + s.matchOffset = start)
    ∧ s.candidates data = ((s.patterns.flatMap fun pattern =>
        (resumedFrom pattern data 0).filterMap (Signature.startOf s.matchOffset)).mergeSort
          (· ≤ ·)).eraseReps := by
  refine ⟨pairwise_candidates, fun start => ?_, rfl⟩
  rw [mem_candidates]
  simp only [Signature.startOf_eq_some_iff, occursAt_iff, and_assoc, exists_and_left]

/-- Of two patterns that begin alike, one overlaps itself; an empty one is found nowhere. -/
example : Signature.candidates ⟨[[1, 1], [1], []], -1, ""⟩ [1, 1, 1, 0, 1] = [0, 1, 3] := by
  rw [candidates_eq_filter]
  decide

/-- A byte that all patterns share stands at a fixed distance from every candidate. -/
theorem byte_of_mem_candidates {distance k : Nat} {bytes : List UInt8}
    (hk : (k : Int) = s.matchOffset + distance)
    (hb : ∀ pattern ∈ s.patterns, ∃ b ∈ bytes, pattern[k]? = some b)
    (hx : x ∈ s.candidates data) : ∃ b ∈ bytes, data[x + distance]? = some b := by
  obtain ⟨pattern, hp, i, ⟨-, hpre⟩, hi⟩ := mem_candidates.1 hx
  obtain ⟨b, hbm, hbk⟩ := hb pattern hp
  refine ⟨b, hbm, ?_⟩
  obtain ⟨rest, hrest⟩ := hpre
  have hpos : x + distance = i + k := by
    have hx := Signature.startOf_eq_some_iff.1 hi
    omega
  rw [hpos, ← List.getElem?_drop, ← hrest, List.getElem?_append_left, hbk]
  exact (List.getElem?_eq_some_iff.1 hbk).1

end Candidates

namespace Format

/-- The bytes that may stand two bytes behind the beginning of a candidate. -/
def thirdBytes : Format → List UInt8
  | gzip => [0x08]
  | lzh => [0x2D]
  | ntfs => [0x90]
  | ubifs => [0x10, 0x18]
  | ubi => [0x49]

theorem third_byte {format : Format} {data : List UInt8} {x : Nat}
    (hx : x ∈ format.signature.candidates data) :
    ∃ b ∈ format.thirdBytes, data[x + 2]? = some b := by
  cases format with
  | gzip => exact byte_of_mem_candidates (show (2 : Int) = 0 + 2 by decide) (by decide) hx
  | lzh => exact byte_of_mem_candidates (show (0 : Int) = -2 + 2 by decide) (by decide +kernel) hx
  | ntfs => exact byte_of_mem_candidates (show (2 : Int) = 0 + 2 by decide) (by decide) hx
  | ubifs => exact byte_of_mem_candidates (show (2 : Int) = 0 + 2 by decide) (by decide) hx
  | ubi => exact byte_of_mem_candidates (show (2 : Int) = 0 + 2 by decide) (by decide) hx

/-- Candidates of two formats never begin at the same offset. -/
theorem eq_of_mem_candidates {f g : Format} {data : List UInt8} {x : Nat}
    (hf : x ∈ f.signature.candidates data) (hg : x ∈ g.signature.candidates data) : f = g := by
  obtain ⟨b, hb, h1⟩ := third_byte hf
  obtain ⟨b', hb', h2⟩ := third_byte hg
  cases h1.symm.trans h2
  have hdisjoint : ∀ f g : Format, (∃ b ∈ f.thirdBytes, b ∈ g.thirdBytes) → f = g := by
    intro f g
    cases f <;> cases g <;> decide
  exact hdisjoint f g ⟨b, hb, hb'⟩

end Format

end Carving
