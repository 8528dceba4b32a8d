import Carving.Proofs.MemberBoundary

/-!
# Reading a member header

A header is a word of a grammar: ten fixed bytes, and the optional fields that their flags announce,
in a fixed order. These words are the headers that `Header.encode` writes (`isHeader_iff`), and no
word is the beginning of another one. The header of a member is read if the bytes at the position
begin with such a word, and then the source stands behind it (`readHeader_exact`). Bytes that begin
otherwise are no member, and those that begin like one and go on otherwise are malformed.
-/

namespace Carving.Gzip

/-- The magic number, the method, flags of which none is reserved, six bytes of origin, and the
optional fields that the flags announce: an extra field behind its length, a name and a comment up
to a zero byte, and two bytes of a check. -/
def IsHeader (word : List UInt8) : Prop :=
  ∃ flags origin fields, flags &&& 0xE0 = 0 ∧ origin.length = 6 ∧ FieldsOf flags fields
    ∧ word = 0x1f :: 0x8b :: 8 :: flags :: origin ++ fields

theorem isHeader_iff {word : List UInt8} :
    IsHeader word ↔ ∃ h : Header, h.Valid ∧ word = h.encode := by
  constructor
  · rintro ⟨flags, origin, fields, hflags, horigin, hfields, rfl⟩
    obtain ⟨h, hv, rfl, rfl, rfl⟩ := exists_header hflags horigin hfields
    exact ⟨h, hv, h.encode_eq.symm⟩
  · rintro ⟨h, hv, rfl⟩
    obtain ⟨hflags, -⟩ := flagsOf_spec h.text h.check.isSome h.extra.isSome h.name.isSome
      h.comment.isSome
    exact ⟨h.flags, h.origin, h.fields, h.flags_eq ▸ hflags, hv.origin_length, h.fieldsOf hv,
      h.encode_eq⟩

variable {word word' bytes : List UInt8}

theorem IsHeader.begins_with_magic (h : IsHeader word) (hstarts : word <+: bytes) :
    [0x1f, 0x8b] <+: bytes := by
  obtain ⟨flags, origin, fields, -, -, -, rfl⟩ := h
  exact (List.prefix_append _ _).trans hstarts

/-- Bytes begin with one header at most. -/
theorem IsHeader.unique (h : IsHeader word) (h' : IsHeader word') (hstarts : word <+: bytes)
    (hstarts' : word' <+: bytes) : word = word' := by
  obtain ⟨header, hv, rfl⟩ := isHeader_iff.1 h
  obtain ⟨header', hv', rfl⟩ := isHeader_iff.1 h'
  obtain ⟨rest, hrest⟩ := hstarts
  obtain ⟨rest', hrest'⟩ := hstarts'
  exact (encode_unique hv hv' (hrest.trans hrest'.symm)).1

section Read

variable {m : Member} {data : List UInt8} {position : Nat}

/-- A header at the position is passed over, and nothing else of the member changes. -/
theorem readHeader_of_isHeader (hs : m.session.source.Serves data position) (h : IsHeader word)
    (hstarts : word <+: data.drop position) :
    ∃ s, m.readHeader = .ok true { m with session := { m.session with source := s } }
      ∧ s.Serves data (position + word.length) := by
  obtain ⟨header, hv, rfl⟩ := isHeader_iff.1 h
  obtain ⟨rest, hrest⟩ := hstarts
  obtain ⟨s, hskip, hserves⟩ := skipHeader_of_encode hs hv hrest.symm
  exact ⟨s, onSession_of_ok (ofReading_of_ok hskip), hserves⟩

/-- Reading a header tells whether there is one, or that it is malformed. -/
theorem readHeader_cases (hs : m.session.source.Serves data position) :
    (∃ m', m.readHeader = .ok false m' ∧ ¬ [0x1f, 0x8b] <+: data.drop position)
      ∨ (∃ m' word, m.readHeader = .ok true m' ∧ IsHeader word ∧ word <+: data.drop position)
      ∨ ∃ d m', m.readHeader = .error (Defect.error d) m'
        ∧ [0x1f, 0x8b] <+: data.drop position := by
  have hmagic : (data.drop position).take 2 = magic ↔ [0x1f, 0x8b] <+: data.drop position := by
    rw [List.prefix_iff_eq_take, eq_comm]
    rfl
  rcases skipHeader_cases hs with ⟨s, hskip, hne⟩ | ⟨h, rest, s, hskip, hv, hd, -⟩
    | ⟨d, s, hskip, heq⟩
  · exact .inl ⟨_, onSession_of_ok (ofReading_of_ok hskip), mt hmagic.2 hne⟩
  · exact .inr (.inl ⟨_, h.encode, onSession_of_ok (ofReading_of_ok hskip),
      isHeader_iff.2 ⟨h, hv, rfl⟩, hd ▸ List.prefix_append _ _⟩)
  · exact .inr (.inr ⟨d, _, onSession_of_error (ofReading_of_error hskip), hmagic.1 heq⟩)

/-- Reading a header from a source that serves its data, however few bytes a read delivers: there is
one exactly if the bytes at the position begin with a word of the grammar, which is then the only
one, and the source is left on the byte behind it. There is none exactly if the bytes are fewer than
two or do not begin with the magic number. In all other cases the header is malformed. -/
theorem readHeader_exact (hs : m.session.source.Serves data position) :
    ((∃ m', m.readHeader = .ok true m') ↔ ∃ word, IsHeader word ∧ word <+: data.drop position)
    ∧ (∀ word, IsHeader word → word <+: data.drop position →
      (∀ other, IsHeader other → other <+: data.drop position → other = word)
      ∧ ∃ s, m.readHeader = .ok true { m with session := { m.session with source := s } }
        ∧ s.Serves data (position + word.length))
    ∧ ((∃ m', m.readHeader = .ok false m') ↔ ¬ [0x1f, 0x8b] <+: data.drop position)
    ∧ ((¬ ∃ word, IsHeader word ∧ word <+: data.drop position) →
      [0x1f, 0x8b] <+: data.drop position →
      ∃ reason m', m.readHeader = .error (.malformed "gzip" reason) m') := by
  refine ⟨⟨?_, ?_⟩, fun word hword hstarts => ⟨fun other hother hbegins => ?_, ?_⟩, ⟨?_, ?_⟩, ?_⟩
  · rintro ⟨m', htrue⟩
    rcases readHeader_cases hs with ⟨_, hfalse, -⟩ | ⟨_, word, -, hword⟩ | ⟨_, _, herror, -⟩
    · cases htrue.symm.trans hfalse
    · exact ⟨word, hword⟩
    · cases htrue.symm.trans herror
  · rintro ⟨word, hword, hstarts⟩
    obtain ⟨_, htrue, -⟩ := readHeader_of_isHeader hs hword hstarts
    exact ⟨_, htrue⟩
  · exact hother.unique hword hbegins hstarts
  · exact readHeader_of_isHeader hs hword hstarts
  · rintro ⟨m', hfalse⟩
    rcases readHeader_cases hs with ⟨_, -, hother⟩ | ⟨_, _, htrue, -⟩ | ⟨_, _, herror, -⟩
    · exact hother
    · cases hfalse.symm.trans htrue
    · cases hfalse.symm.trans herror
  · intro hother
    rcases readHeader_cases hs with ⟨m', hfalse, -⟩ | ⟨_, _, -, hword, hstarts⟩ | ⟨_, _, -, hmagic⟩
    · exact ⟨m', hfalse⟩
    · exact absurd (hword.begins_with_magic hstarts) hother
    · exact absurd hmagic hother
  · intro hnone hmagic
    rcases readHeader_cases hs with ⟨_, -, hother⟩ | ⟨_, word, -, hword⟩ | ⟨d, m', herror, -⟩
    · exact absurd hmagic hother
    · exact absurd ⟨word, hword⟩ hnone
    · exact ⟨d.reason, m', herror⟩

end Read

/-- A header with all optional fields, behind a byte of something else. -/
theorem readHeader_exact_fields :
    let word : List UInt8 := [0x1f, 0x8b, 8, 0x1e, 0, 0, 0, 0, 0, 3, 1, 0, 0xAA, 0x61, 0, 0x62, 0,
      0xCD, 0xAB]
    let source : Source := { Source.hesitant (0 :: word ++ [0x4B]) with position := 1 }
    ∃ s, (Member.ofSession ⟨source, []⟩).readHeader = .ok true (Member.ofSession ⟨s, []⟩)
      ∧ s.Serves (0 :: word ++ [0x4B]) 20 := by
  intro word source
  have hs : source.Serves (0 :: word ++ [0x4B]) 1 := (Source.serves_hesitant _).seek 1
  have hvalid : Header.Valid ⟨false, [0, 0, 0, 0, 0, 3], some [0xAA], some [0x61], some [0x62],
      some [0xCD, 0xAB]⟩ := ⟨rfl, by decide, by decide, by decide, by decide⟩
  have hword : IsHeader word := isHeader_iff.2 ⟨_, hvalid, rfl⟩
  obtain ⟨-, hpassed, -⟩ := readHeader_exact (m := Member.ofSession ⟨source, []⟩) hs
  exact (hpassed word hword ⟨[0x4B], rfl⟩).2

end Carving.Gzip
