import Carving.Event
import Carving.Source.Search

/-!
# Sources that serve their data

A source serves its data if no read fails and every read that asks for bytes gets one where one is
left, however few it gets and however often it is interrupted before. What a step reads from such
a source depends on the data and the position alone: `fill` returns the next bytes
(`Serves.fill`), and a run of one byte is passed over to the first offset where it cannot go on
(`Serves.skipRun`, `skipRun_exact`).
-/

namespace Carving

section Bind

variable {ε σ α β : Type} {act : EStateM ε σ α} {next : α → EStateM ε σ β} {s s' : σ}

theorem bind_of_ok {a : α} (h : act s = .ok a s') : (act >>= next) s = next a s' := by
  change EStateM.bind act next s = _
  rw [EStateM.bind, h]

theorem bind_of_error {e : ε} (h : act s = .error e s') :
    (act >>= next) s = .error e s' := by
  change EStateM.bind act next s = _
  rw [EStateM.bind, h]

theorem ofReading_of_ok {act : Reading α} {session : Session} {a : α} {s : Source}
    (h : act session.source = .ok a s) :
    Probe.ofReading act session = .ok a { session with source := s } := by
  rw [Probe.ofReading, h]

theorem ofReading_of_error {act : Reading α} {session : Session} {e : Error} {s : Source}
    (h : act session.source = .error e s) :
    Probe.ofReading act session = .error e { session with source := s } := by
  rw [Probe.ofReading, h]

end Bind

section Take

variable {data bytes : List UInt8} {position count : Nat}

theorem drop_of_take (h : (data.drop position).take count = bytes) :
    data.drop position = bytes ++ data.drop (position + bytes.length) := by
  rw [← List.drop_drop, List.prefix_iff_eq_append.1 (h ▸ List.take_prefix _ _)]

theorem drop_of_take_nil (h : (data.drop position).take count = []) (hc : count ≠ 0) :
    data.drop position = [] :=
  (List.take_eq_nil_iff.1 h).resolve_left hc

end Take

/-- The session whose source stands at the offset. -/
def Session.seekTo (session : Session) (p : Nat) : Session :=
  { session with source := { session.source with position := p } }

namespace Source

/-- The source holds the data and stands at the position, no read fails, and a read that asks for
bytes gets at least one of those that are left. -/
structure Serves (s : Source) (data : List UInt8) (position : Nat) : Prop where
  content_eq : s.content.toList = data
  position_eq : s.position = position
  fault_eq_none : s.fault = none
  most_pos : data ≠ [] → ∀ turn, 0 < (s.pace turn).most

theorem serves_ofContent (content : Array UInt8) : (ofContent content).Serves content.toList 0 where
  content_eq := rfl
  position_eq := rfl
  fault_eq_none := rfl
  most_pos h _ := by
    have := List.length_pos_iff.2 h
    rwa [Array.length_toList] at this

/-- Bytes behind a device that is interrupted before every read and delivers single bytes. -/
def hesitant (bytes : List UInt8) : Source := { ofBytes bytes with pace := fun _ => ⟨1, 1⟩ }

theorem serves_hesitant (bytes : List UInt8) : (hesitant bytes).Serves bytes 0 where
  content_eq := rfl
  position_eq := rfl
  fault_eq_none := rfl
  most_pos _ _ := Nat.one_pos

variable {s : Source} {data : List UInt8} {position : Nat}

theorem Serves.size_eq (h : s.Serves data position) : s.content.size = data.length := by
  rw [← h.content_eq, Array.length_toList]

theorem Serves.seek (h : s.Serves data position) (p : Nat) :
    Serves { s with position := p } data p :=
  ⟨h.content_eq, rfl, h.fault_eq_none, h.most_pos⟩

theorem Serves.seekTo {session : Session} (h : session.source.Serves data position) (p : Nat) :
    (session.seekTo p).source.Serves data p :=
  h.seek p

theorem text_of_faultHere {s : Source} {text : String} (h : s.faultHere = some text) :
    ∃ f, s.fault = some f ∧ text = f.text := by
  unfold faultHere at h
  split at h
  · cases h
  · rename_i f hf
    split at h <;> cases h
    exact ⟨f, hf, rfl⟩

/-- A read before the fault delivers a byte where one is left. -/
theorem servable_pos {s : Source} {count : Nat} (hf : s.faultHere = none) (hc : 0 < count)
    (hm : 0 < (s.pace s.turn).most) (hr : 0 < s.remaining) : 0 < s.servable count := by
  unfold faultHere at hf
  unfold servable
  split at hf
  · dsimp only
    omega
  · split at hf
    · cases hf
    · dsimp only
      omega

/-- The source holds the data and stands at the position, and a read that asks for bytes gets at
least one of those that are left, unless it meets the fault. -/
structure Offers (s : Source) (data : List UInt8) (position : Nat) (fault : Option Fault) :
    Prop where
  content_eq : s.content.toList = data
  position_eq : s.position = position
  fault_eq : s.fault = fault
  most_pos : data ≠ [] → ∀ turn, 0 < (s.pace turn).most

theorem offers_none_iff : s.Offers data position none ↔ s.Serves data position :=
  ⟨fun ⟨h1, h2, h3, h4⟩ => ⟨h1, h2, h3, h4⟩, fun ⟨h1, h2, h3, h4⟩ => ⟨h1, h2, h3, h4⟩⟩

section Offers

variable {fault : Option Fault}

theorem Offers.size_eq (h : s.Offers data position fault) : s.content.size = data.length := by
  rw [← h.content_eq, Array.length_toList]

theorem Offers.seek (h : s.Offers data position fault) (p : Nat) :
    Offers { s with position := p } data p fault :=
  ⟨h.content_eq, rfl, h.fault_eq, h.most_pos⟩

/-- A read meets the fault, or is interrupted, or moves over what it delivers; it delivers nothing
only at the end. -/
theorem Offers.read (h : s.Offers data position fault) {count : Nat} (hc : count ≠ 0) :
    (∃ f s', fault = some f ∧ s.read count = (.failed f.text, s'))
    ∨ (∃ s', s.read count = (.interrupted, s') ∧ s'.Offers data position fault)
    ∨ ∃ bytes s', s.read count = (.delivered bytes, s')
      ∧ bytes.toList = (data.drop position).take bytes.size ∧ bytes.size ≤ count
      ∧ s'.Offers data (position + bytes.size) fault
      ∧ (bytes.size = 0 → data.drop position = []) := by
  have hp := h.position_eq
  by_cases hi : s.interruptionsLeft ≠ 0
  · refine .inr (.inl ⟨_, by rw [Source.read, if_pos hi], ?_⟩)
    exact ⟨h.content_eq, hp, h.fault_eq, h.most_pos⟩
  rcases hf : s.faultHere with _ | text
  · have hr : s.read count = (.delivered (s.content.extract s.position
        (s.position + s.servable count)), { s with
          position := s.position + s.servable count, turn := s.turn + 1, interrupted := 0 }) := by
      rw [Source.read, if_neg hi, hf]
    obtain ⟨h1, h2, h3, h4, -⟩ := read_delivered hr
    refine .inr (.inr ⟨_, _, hr, ?_, h2, ⟨h.content_eq, ?_, h.fault_eq, h.most_pos⟩, fun h0 => ?_⟩)
    · rw [h1, ← hp, ← h.content_eq]
    · rw [h4, hp]
    · rcases List.eq_nil_or_concat data with hd | ⟨_, _, hd⟩
      · rw [hd, List.drop_nil]
      have h5 : s.position + s.servable count = s.position := by rw [h0] at h4; exact h4
      have h6 := servable_pos hf (Nat.pos_of_ne_zero hc) (h.most_pos (by simp [hd]) s.turn)
      rw [remaining, h.size_eq, hp] at h6
      exact List.drop_eq_nil_of_le (by omega)
  · obtain ⟨f, hfault, rfl⟩ := text_of_faultHere hf
    exact .inl ⟨f, _, h.fault_eq.symm.trans hfault, by rw [Source.read, if_neg hi, hf]⟩

theorem Offers.fillFrom (h : s.Offers data position fault) (got : Array UInt8) (count : Nat) :
    (∃ f s', fault = some f ∧ fillFrom got count s = .error (.io f.text) s')
    ∨ ∃ s', fillFrom got count s = .ok (got ++ ((data.drop position).take count).toArray) s'
      ∧ s'.Offers data (position + ((data.drop position).take count).length) fault := by
  fun_induction Source.fillFrom got count s generalizing position with
  | case1 got s => exact .inr ⟨s, by simp, by simpa using h⟩
  | case2 got count s hc s1 hr ih =>
    rcases h.read hc with ⟨f, s2, -, hr'⟩ | ⟨s2, hr', h'⟩ | ⟨bytes, s2, hr', -⟩ <;>
      cases hr.symm.trans hr'
    exact ih h'
  | case3 got count s hc text s1 hr =>
    rcases h.read hc with ⟨f, s2, hf, hr'⟩ | ⟨s2, hr', -⟩ | ⟨bytes, s2, hr', -⟩ <;>
      cases hr.symm.trans hr'
    exact .inl ⟨f, s1, hf, rfl⟩
  | case4 got count s hc bytes s1 hr h0 =>
    rcases h.read hc with ⟨f, s2, -, hr'⟩ | ⟨s2, hr', -⟩ | ⟨bytes', s2, hr', -, -, h1, h2⟩ <;>
      cases hr.symm.trans hr'
    rw [h0] at h1
    exact .inr ⟨s1, by simp [h2 h0], by simpa [h2 h0] using h1⟩
  | case5 got count s hc bytes s1 hr h0 ih =>
    rcases h.read hc with ⟨f, s2, -, hr'⟩ | ⟨s2, hr', -⟩ | ⟨bytes', s2, hr', h1, h2, h3, -⟩ <;>
      cases hr.symm.trans hr'
    have hsplit : (data.drop position).take count
        = bytes.toList ++ (data.drop (position + bytes.size)).take (count - bytes.size) := by
      rw [h1, ← List.drop_drop, ← List.take_add, Nat.add_sub_cancel' h2]
    rcases ih h3 with ⟨f, s', hf, h4⟩ | ⟨s', h4, h5⟩
    · exact .inl ⟨f, s', hf, h4⟩
    · refine .inr ⟨s', ?_, ?_⟩
      · rw [h4, hsplit, Array.append_assoc, ← List.append_toArray, Array.toArray_toList]
      · rw [hsplit, List.length_append, Array.length_toList, ← Nat.add_assoc]
        exact h5

/-- `fill` meets the fault, or returns the next bytes, as many as are asked for and are there. -/
theorem Offers.fill (h : s.Offers data position fault) (count : Nat) :
    (∃ f s', fault = some f ∧ fill count s = .error (.io f.text) s')
    ∨ ∃ s', fill count s = .ok ((data.drop position).take count) s'
      ∧ s'.Offers data (position + ((data.drop position).take count).length) fault := by
  rcases h.fillFrom #[] count with ⟨f, s', hf, h1⟩ | ⟨s', h1, h2⟩
  · exact .inl ⟨f, s', hf, by simp [Source.fill, h1]⟩
  · exact .inr ⟨s', by simp [Source.fill, h1], h2⟩

end Offers

theorem Serves.fill (h : s.Serves data position) (count : Nat) :
    ∃ s', fill count s = .ok ((data.drop position).take count) s'
      ∧ s'.Serves data (position + ((data.drop position).take count).length) := by
  rcases (offers_none_iff.2 h).fill count with ⟨f, s', hf, -⟩ | ⟨s', h1, h2⟩
  · cases hf
  · exact ⟨s', h1, offers_none_iff.1 h2⟩

/-- The first byte that differs ends the run, whatever follows it. -/
theorem length_takeWhile_of_findIdx? {byte : UInt8} {xs : List UInt8} (ys : List UInt8) {i : Nat}
    (h : xs.findIdx? (· != byte) = some i) :
    ((xs ++ ys).takeWhile (· == byte)).length = i := by
  induction xs generalizing i with
  | nil => simp at h
  | cons x xs ih =>
    rw [List.findIdx?_cons] at h
    rw [List.cons_append, List.takeWhile_cons]
    split at h
    · rename_i hx
      rw [bne_iff_ne] at hx
      simpa [hx] using h
    · rename_i hx
      obtain ⟨j, hj, rfl⟩ := Option.map_eq_some_iff.1 h
      have hx' : (x == byte) = true := by simpa using hx
      rw [if_pos hx', List.length_cons, ih hj]

/-- A run of one byte is passed over to its end. -/
theorem Serves.skipRun (h : s.Serves data position) (byte : UInt8) :
    ∃ s', skipRun byte s = .ok (position + ((data.drop position).takeWhile (· == byte)).length) s'
      ∧ s'.Serves data (position + ((data.drop position).takeWhile (· == byte)).length) := by
  unfold Source.skipRun
  obtain ⟨s2, h1, h2⟩ := h.fill blockSize
  fun_induction Source.skipRunFrom byte s generalizing position s2 with
  | case1 s e s1 hr =>
    rw [hr] at h1
    cases h1
  | case2 s s1 hr =>
    rw [hr] at h1
    obtain ⟨h3, rfl⟩ := EStateM.Result.ok.inj h1
    have hd := drop_of_take_nil h3.symm (by decide)
    rw [hd, List.take_nil] at h2
    rw [hd, h.position_eq]
    exact ⟨s1, rfl, h2⟩
  | case3 s b bytes s1 hr _ i hi stop hstop =>
    rw [hr] at h1
    obtain ⟨h3, rfl⟩ := EStateM.Result.ok.inj h1
    have hl := length_takeWhile_of_findIdx? ((data.drop position).drop blockSize) hi
    rw [h3, List.take_append_drop] at hl
    cases hstop
    rw [hl, h.position_eq]
    exact ⟨_, rfl, h2.seek _⟩
  | case4 s b bytes s1 hr _ i hi e he => cases he
  | case5 s b bytes s1 hr _ hi ih =>
    rw [hr] at h1
    obtain ⟨h3, rfl⟩ := EStateM.Result.ok.inj h1
    have hall : ∀ x ∈ b :: bytes, (x == byte) = true := fun x hx => by
      simpa using List.findIdx?_eq_none_iff.1 hi x hx
    have hrun : (data.drop position).takeWhile (· == byte)
        = b :: bytes ++ (data.drop (position + (b :: bytes).length)).takeWhile (· == byte) := by
      rw [← List.takeWhile_append_of_pos hall, ← drop_of_take h3.symm]
    rw [← h3] at h2
    obtain ⟨s3, h4, h5⟩ := h2.fill blockSize
    obtain ⟨s', h6, h7⟩ := ih h2 s3 h4 h5
    refine ⟨s', ?_, ?_⟩
    · rw [hrun, h6, List.length_append, Nat.add_assoc]
    · rw [hrun, List.length_append, ← Nat.add_assoc]
      exact h7

/-- A run of one byte cannot go on at the offset: the data end there, or another byte stands
there. -/
def RunEnds (data : List UInt8) (byte : UInt8) (offset : Nat) : Prop :=
  offset = data.length ∨ ∃ h : offset < data.length, data[offset] ≠ byte

/-- The bytes from a position on that are equal to a given one end where no run can go on. -/
theorem runEnds_takeWhile (hp : position ≤ data.length) (byte : UInt8) :
    RunEnds data byte (position + ((data.drop position).takeWhile (· == byte)).length) := by
  have hsplit := List.takeWhile_append_dropWhile (p := (· == byte)) (l := data.drop position)
  generalize (data.drop position).takeWhile (· == byte) = run at hsplit ⊢
  have hdata : data
      = data.take position ++ (run ++ (data.drop position).dropWhile (· == byte)) := by
    rw [hsplit, List.take_append_drop]
  have hlength : (data.take position).length = position := List.length_take_of_le hp
  rcases hrest : (data.drop position).dropWhile (· == byte) with _ | ⟨other, rest⟩
  · have hend := congrArg List.length hdata
    simp only [hrest, List.length_append, List.length_nil] at hend
    exact .inl (by omega)
  · have hother : (other == byte) = false := by
      have := List.head_dropWhile_not (· == byte) (l := data.drop position) (by simp [hrest])
      simpa [hrest] using this
    have hat : data[position + run.length]? = some other := by
      rw [hdata, hrest, List.getElem?_append_right (by omega), hlength]
      simp
    obtain ⟨hlt, hat⟩ := List.getElem?_eq_some_iff.1 hat
    exact .inr ⟨hlt, by rw [hat]; simpa using hother⟩

/-- Before they end, a run can go on. -/
theorem le_of_runEnds {byte : UInt8} {offset : Nat} (h : RunEnds data byte offset)
    (hp : position ≤ offset) :
    position + ((data.drop position).takeWhile (· == byte)).length ≤ offset := by
  have hbegins := List.takeWhile_prefix (· == byte) (l := data.drop position)
  obtain rfl | ⟨hlt, hne⟩ := h
  · have := hbegins.length_le
    rw [List.length_drop] at this
    omega
  · refine Nat.le_of_not_lt fun hbefore => hne ?_
    have hin : offset - position < ((data.drop position).takeWhile (· == byte)).length := by omega
    have hrun := List.all_eq_true.1 List.all_takeWhile _ (List.getElem_mem hin)
    rw [hbegins.getElem hin, List.getElem_drop] at hrun
    simpa only [Nat.add_sub_cancel' hp, beq_iff_eq] using hrun

/-- On a source that serves its data, however few bytes a read delivers, passing over a run of one
byte returns the least offset from the position on where the run cannot go on, and leaves the source
there. -/
theorem skipRun_exact (hs : s.Serves data position) (hp : position ≤ data.length) (byte : UInt8) :
    ∃ offset s', skipRun byte s = .ok offset s' ∧ s'.Serves data offset
      ∧ position ≤ offset ∧ RunEnds data byte offset
      ∧ ∀ other, position ≤ other → RunEnds data byte other → offset ≤ other := by
  obtain ⟨s', hskip, hs'⟩ := hs.skipRun byte
  exact ⟨_, s', hskip, hs', Nat.le_add_right _ _, runEnds_takeWhile hp byte,
    fun _ hother hends => le_of_runEnds hends hother⟩

/-- A run that takes up exactly the first block that is read. -/
theorem skipRun_exact_block :
    let data : List UInt8 := 7 :: List.replicate blockSize 0 ++ [9]
    let s : Source := { hesitant data with position := 1 }
    s.Serves data 1
      ∧ ∃ s', skipRun 0 s = .ok (blockSize + 1) s' ∧ s'.position = blockSize + 1 := by
  intro data s
  have hs : s.Serves data 1 := (serves_hesitant data).seek 1
  have hpast : 1 ≤ data.length := List.length_pos_iff.2 (List.cons_ne_nil _ _)
  obtain ⟨offset, s', hskip, hs', hle, hends, hleast⟩ := skipRun_exact hs hpast 0
  have hzeros : ∀ n i, i ≤ n → (RunEnds (7 :: List.replicate n 0 ++ [9]) 0 (i + 1) ↔ i = n) := by
    intro n i hi
    obtain rfl | hlt := Nat.eq_or_lt_of_le hi
    · simp [RunEnds]
    · simp [RunEnds, hlt]
      omega
  obtain ⟨i, rfl⟩ := Nat.exists_eq_add_of_le' hle
  have hleast := hleast _ (Nat.le_add_left 1 blockSize) ((hzeros _ _ (Nat.le_refl _)).2 rfl)
  obtain rfl := (hzeros _ _ (Nat.le_of_succ_le_succ hleast)).1 hends
  exact ⟨hs, s', hskip, hs'.position_eq⟩

end Source

end Carving
