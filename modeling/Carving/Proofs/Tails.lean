import Carving.Proofs.InMemory

/-!
# What follows an object does not move its end

An object has an end of its own, which its header or its data give. No calculation accepts data that
are cut off before that end, and whatever follows it the end stays where it is: only the padding of
a gzip member and the terminator of an LZH archive are taken from what follows (`tail_law`).
-/

namespace Carving

theorem take_drop_congr {xs ys : List UInt8} {start size : Nat}
    (h : xs.take (start + size) = ys.take (start + size)) :
    (xs.drop start).take size = (ys.drop start).take size := by
  have hcut : ∀ zs : List UInt8, (zs.drop start).take size = (zs.take (start + size)).drop start :=
    fun zs => by rw [List.drop_take, Nat.add_sub_cancel_left]
  rw [hcut, h, ← hcut]

/-- Data that are cut off behind the header have the same header. -/
theorem fixed_take {data : List UInt8} {start size cut : Nat}
    (h : start + size ≤ (data.take cut).length) :
    ((data.take cut).drop start).take size = (data.drop start).take size := by
  refine take_drop_congr ?_
  rw [List.length_take] at h
  rw [List.take_take, Nat.min_eq_left (by omega)]

/-- Data that go on differently behind the header have the same header. -/
theorem fixed_append {data : List UInt8} {start size cut : Nat} (tail : List UInt8)
    (h : start + size ≤ cut) (hd : start + size ≤ data.length) :
    ((data.take cut ++ tail).drop start).take size = (data.drop start).take size := by
  refine take_drop_congr ?_
  rw [List.take_append_of_le_length (by rw [List.length_take]; omega), List.take_take,
    Nat.min_eq_left h]

section Declared

/-- A calculation accepts what its fixed header declares, if the data reach so far. -/
structure Declared (start size : Nat) (accepts declares : List UInt8 → Chunk → Prop) : Prop where
  accepts_iff : ∀ data c, accepts data c ↔ start + size ≤ data.length
    ∧ declares ((data.drop start).take size) c ∧ c.stop ≤ data.length
  stop_eq : ∀ {fixed c c'}, declares fixed c → declares fixed c' → c.stop = c'.stop

variable {start size : Nat} {accepts declares : List UInt8 → Chunk → Prop} {data : List UInt8}
  {c : Chunk}

theorem Declared.not_accepts_take (hd : Declared start size accepts declares)
    (h : accepts data c) {cut : Nat} (hcut : cut < c.stop) (c' : Chunk) :
    ¬accepts (data.take cut) c' := by
  intro h'
  obtain ⟨-, hc, -⟩ := (hd.accepts_iff data c).1 h
  obtain ⟨hl, hc', hle⟩ := (hd.accepts_iff _ _).1 h'
  rw [fixed_take hl] at hc'
  have hstop := hd.stop_eq hc hc'
  rw [List.length_take] at hle
  omega

theorem Declared.accepts_append (hd : Declared start size accepts declares) (h : accepts data c)
    (tail : List UInt8) : accepts (data.take (max c.stop (start + size)) ++ tail) c := by
  obtain ⟨hl, hc, hle⟩ := (hd.accepts_iff data c).1 h
  have hlength : (data.take (max c.stop (start + size)) ++ tail).length
      = max c.stop (start + size) + tail.length := by
    rw [List.length_append, List.length_take]
    omega
  rw [hd.accepts_iff, fixed_append tail (Nat.le_max_right _ _) hl]
  exact ⟨by omega, hc, by omega⟩

end Declared

section Formats

variable {data : List UInt8} {start : Nat} {c : Chunk}

theorem Lzh.outcome_take {m cut : Nat}
    (hm : m = start + declaredSize ((data.drop start).take header.size)) (hcut : cut < m) :
    outcome (data.take cut) start ≠ .ok (some c) := by
  intro h
  obtain ⟨hl, -, -, hstop, hle⟩ := outcome_eq_some.1 h
  rw [fixed_take hl, ← hm] at hstop
  rw [List.length_take] at hstop hle
  split at hstop <;> omega

theorem Lzh.outcome_append {m : Nat} (h : outcome data start = .ok (some c))
    (hm : m = start + declaredSize ((data.drop start).take header.size)) (tail : List UInt8) :
    ∃ c', outcome (data.take (max m (start + header.size)) ++ tail) start = .ok (some c')
      ∧ c'.start = start
      ∧ c'.stop = if (data.take (max m (start + header.size)) ++ tail).length = m + 1 then m + 1
        else m := by
  obtain ⟨hl, hlevel, hstart, hstop, hle⟩ := outcome_eq_some.1 h
  have hlt := c.start_lt_stop
  have hsize : 1 < header.size := by decide
  rw [← hm] at hstop
  have hpos : start < m ∧ m ≤ data.length := by
    split at hstop <;> omega
  have hlength : (data.take (max m (start + header.size)) ++ tail).length
      = max m (start + header.size) + tail.length := by
    rw [List.length_append, List.length_take]
    omega
  have hfixed := fixed_append tail (Nat.le_max_right m (start + header.size)) hl
  generalize data.take (max m (start + header.size)) ++ tail = extended at hlength hfixed ⊢
  obtain ⟨stop, hs⟩ : ∃ stop, stop = if extended.length = m + 1 then m + 1 else m := ⟨_, rfl⟩
  have hbounds : start < stop ∧ stop ≤ extended.length := by
    rw [hs]
    split <;> omega
  refine ⟨⟨start, stop, hbounds.1⟩, outcome_eq_some.2 ⟨?_, ?_, rfl, ?_, hbounds.2⟩, rfl, hs⟩
  · omega
  · rwa [hfixed]
  · rw [hfixed, ← hm]
    show stop = _
    rw [hs]
    by_cases he : extended.length = m + 1
    · rw [if_pos he, if_pos he, he]
    · rw [if_neg he, if_neg he]

theorem Ntfs.declared (start : Nat) : Declared start bootSector.size
    (fun data c => outcome data start = .ok (some c)) fun fixed c => volumeSize fixed ≠ 0
      ∧ c.start = start
      ∧ c.stop = saturatingAdd (saturatingAdd start bootSector.size) (volumeSize fixed) where
  accepts_iff data c := by
    rw [outcome_eq_some, and_assoc, and_assoc]
  stop_eq h h' := h.2.2.trans h'.2.2.symm

theorem Ubifs.declared (start : Nat) : Declared start superblock.size
    (fun data c => outcome data start = .ok (some c)) fun fixed c =>
      ∃ order, detectEndian (fixed.take 4) = some order ∧ imageSize order fixed ≠ 0
        ∧ c.start = start ∧ c.stop = start + imageSize order fixed where
  accepts_iff data c := by
    have hfour : ((data.drop start).take superblock.size).take 4 = (data.drop start).take 4 := by
      rw [List.take_take]
      rfl
    rw [outcome_eq_some, hfour]
    constructor
    · rintro ⟨hl, order, ho, hsize, hstart, hstop, hle⟩
      exact ⟨hl, ⟨order, ho, hsize, hstart, hstop⟩, hle⟩
    · rintro ⟨hl, ⟨order, ho, hsize, hstart, hstop⟩, hle⟩
      exact ⟨hl, order, ho, hsize, hstart, hstop, hle⟩
  stop_eq := by
    rintro fixed c c' ⟨order, ho, -, -, hstop⟩ ⟨order', ho', -, -, hstop'⟩
    cases ho.symm.trans ho'
    exact hstop.trans hstop'.symm

theorem Gzip.boundaryIn_take {bytes rest : List UInt8} {cut : Nat} (hb : IsMember bytes)
    (hd : data.drop start = bytes ++ rest) (hcut : cut < start + bytes.length) :
    Format.gzip.boundaryIn (data.take cut).toArray start ≠ .ok (some c) := by
  intro h
  rcases boundaryIn_cases (data.take cut).toArray start with
    h1 | ⟨_, bytes', rest', h1, hb', hd', -⟩ | ⟨_, h1⟩ <;> cases h.symm.trans h1
  -- A member in the data that are cut off would be the member itself, which is longer than they.
  have hpre : data.drop start = bytes' ++ (rest' ++ (data.drop start).drop (cut - start)) := by
    rw [← List.append_assoc, ← hd', List.drop_take, List.take_append_drop]
  obtain ⟨rfl, -⟩ := member_unique hb hb' (hd.symm.trans hpre)
  have hl := congrArg List.length hd'
  have hpos := hb.length_pos
  simp only [List.drop_take, List.length_take, List.length_append] at hl
  omega

theorem Gzip.boundaryIn_append {bytes rest : List UInt8} (hb : IsMember bytes)
    (hd : data.drop start = bytes ++ rest) (tail : List UInt8) :
    ∃ c', Format.gzip.boundaryIn (data.take (start + bytes.length) ++ tail).toArray start
        = .ok (some c') ∧ c'.start = start
      ∧ c'.stop = start + bytes.length + (tail.takeWhile (· == 0)).length := by
  have hs : (Session.ofSource (.ofContent
      (data.take (start + bytes.length) ++ tail).toArray)).source.Serves
        (data.take (start + bytes.length) ++ tail) 0 := Source.serves_ofContent _
  have hd' : (data.take (start + bytes.length) ++ tail).drop start = bytes ++ tail := by
    have hl := congrArg List.length hd
    have hpos := hb.length_pos
    rw [List.length_drop, List.length_append] at hl
    rw [List.drop_append_of_le_length (by rw [List.length_take]; omega), List.drop_take,
      Nat.add_sub_cancel_left, hd, List.take_left]
  obtain ⟨c', s, h1, h2, h3⟩ := boundary_of_isMember hs hb hd'
  exact ⟨c', (Format.boundaryIn_eq ..).trans (Probe.answer_eq_ok.2 ⟨s, h1⟩), h2, h3⟩

end Formats

/-- The size of the fixed header that a calculation decodes before anything else. -/
def Format.fixedSize : Format → Nat
  | gzip | ubi => 0
  | lzh => Lzh.header.size
  | ntfs => Ntfs.bootSector.size
  | ubifs => Ubifs.superblock.size

/-- The object of the chunk ends at the offset by itself: a member with its trailer, an archive
with the data that its header declares, and every other object with its chunk. -/
def Format.EndsAt (format : Format) (data : List UInt8) (c : Chunk) (m : Nat) : Prop :=
  match format with
  | gzip => ∃ bytes rest, Gzip.IsMember bytes ∧ data.drop c.start = bytes ++ rest
      ∧ m = c.start + bytes.length
  | lzh => m = c.start + Lzh.declaredSize ((data.drop c.start).take Lzh.header.size)
  | ntfs | ubifs | ubi => m = c.stop

/-- Where the chunk of an object ends that itself ends at `m`, when the data have that length and
go on with `tail` behind it. -/
def Format.stopBehind (format : Format) (m length : Nat) (tail : List UInt8) : Nat :=
  match format with
  | gzip => m + (tail.takeWhile (· == 0)).length
  | lzh => if length = m + 1 then m + 1 else m
  | ntfs | ubifs | ubi => m

/-- An object ends where it does by itself: data that are cut off before that end are not accepted,
and behind it only padding and a terminator are taken from whatever follows. -/
theorem tail_law {format : Format} (hf : format ≠ .ubi) {data : List UInt8} {start : Nat}
    {c : Chunk} (h : format.boundaryIn data.toArray start = .ok (some c)) :
    (∃ m, format.EndsAt data c m) ∧ ∀ m, format.EndsAt data c m →
      (∀ cut < m, ∀ c', format.boundaryIn (data.take cut).toArray start ≠ .ok (some c'))
      ∧ ∀ tail, ∃ c', format.boundaryIn
            (data.take (max m (start + format.fixedSize)) ++ tail).toArray start = .ok (some c')
        ∧ c'.start = start
        ∧ c'.stop = format.stopBehind m
          (data.take (max m (start + format.fixedSize)) ++ tail).length tail := by
  cases format with
  | gzip =>
    rcases Gzip.boundaryIn_cases data.toArray start with
      h1 | ⟨_, bytes, rest, h1, hb, hd, hstart, -⟩ | ⟨_, h1⟩ <;> cases h.symm.trans h1
    refine ⟨⟨_, bytes, rest, hb, hstart ▸ hd, rfl⟩, ?_⟩
    rintro m ⟨bytes, rest, hb, hd, rfl⟩
    rw [hstart] at hd ⊢
    rw [show max (start + bytes.length) (start + Format.gzip.fixedSize) = start + bytes.length from
      Nat.max_eq_left (by simp [Format.fixedSize])]
    exact ⟨fun cut hcut c' => Gzip.boundaryIn_take hb hd hcut, Gzip.boundaryIn_append hb hd⟩
  | lzh =>
    rw [Lzh.boundaryIn_eq] at h
    obtain ⟨-, -, hstart, -, -⟩ := Lzh.outcome_eq_some.1 h
    refine ⟨⟨_, rfl⟩, ?_⟩
    rintro m hm
    rw [Format.EndsAt, hstart] at hm
    refine ⟨fun cut hcut c' => ?_, fun tail => ?_⟩
    · rw [Lzh.boundaryIn_eq]
      exact Lzh.outcome_take hm hcut
    · rw [Lzh.boundaryIn_eq]
      exact Lzh.outcome_append h hm tail
  | ntfs =>
    rw [Ntfs.boundaryIn_eq] at h
    obtain ⟨-, -, hstart, -, -⟩ := Ntfs.outcome_eq_some.1 h
    refine ⟨⟨_, rfl⟩, ?_⟩
    rintro m rfl
    refine ⟨fun cut hcut c' => ?_, fun tail => ⟨c, ?_, hstart, rfl⟩⟩
    · rw [Ntfs.boundaryIn_eq]
      exact (Ntfs.declared start).not_accepts_take h hcut c'
    · rw [Ntfs.boundaryIn_eq]
      exact (Ntfs.declared start).accepts_append h tail
  | ubifs =>
    rw [Ubifs.boundaryIn_eq] at h
    obtain ⟨-, -, -, -, hstart, -, -⟩ := Ubifs.outcome_eq_some.1 h
    refine ⟨⟨_, rfl⟩, ?_⟩
    rintro m rfl
    refine ⟨fun cut hcut c' => ?_, fun tail => ⟨c, ?_, hstart, rfl⟩⟩
    · rw [Ubifs.boundaryIn_eq]
      exact (Ubifs.declared start).not_accepts_take h hcut c'
    · rw [Ubifs.boundaryIn_eq]
      exact (Ubifs.declared start).accepts_append h tail
  | ubi => exact absurd rfl hf

/-- An archive of 23 bytes, with its terminator. -/
theorem tail_law_terminated :
    let archive : List UInt8 := [19, 0, 0x2D, 0x6C, 0x68, 0x30, 0x2D, 2, 0, 0, 0, 2, 0, 0, 0,
      0, 0, 0, 0, 0x20, 0, 0x68, 0x69, 0]
    Format.lzh ≠ .ubi
      ∧ Format.lzh.boundaryIn archive.toArray 0 = .ok (some ⟨0, 24, by decide⟩)
      ∧ (∀ cut < 23, ∀ c', Format.lzh.boundaryIn (archive.take cut).toArray 0 ≠ .ok (some c'))
      ∧ ∀ tail, ∃ c', Format.lzh.boundaryIn (archive.take 23 ++ tail).toArray 0 = .ok (some c')
        ∧ c'.start = 0
        ∧ c'.stop = if (archive.take 23 ++ tail).length = 24 then 24 else 23 := by
  intro archive
  have h : Format.lzh.boundaryIn archive.toArray 0 = .ok (some ⟨0, 24, by decide⟩) := by
    rw [Lzh.boundaryIn_eq]
    exact Lzh.outcome_eq_some.2 ⟨by decide, by decide, rfl, by decide, by decide⟩
  exact ⟨by decide, h, (tail_law (by decide) h).2 23 (by rw [Format.EndsAt]; decide)⟩

end Carving
