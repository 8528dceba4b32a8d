import Carving.Gzip.Header
import Carving.Proofs.Serving

/-!
# The grammar of a member header

A step reads a language if it moves a source behind a word of it, whatever follows the word, and
gives a format error where there is none (`Reads`). The optional fields of a header are languages
of their own, and a header that is passed over is one that `Header.encode` writes
(`skipHeader_of_encode`, `skipHeader_cases`).
-/

namespace Carving.Gzip

/-- The step moves a source behind a word of the language, and fails with a defect where no word
is. -/
structure Reads (act : Reading Unit) (words : List UInt8 → Prop) : Prop where
  ok_of_word : ∀ {s data position word rest}, s.Serves data position →
    data.drop position = word ++ rest → words word →
    ∃ s', act s = .ok () s' ∧ s'.Serves data (position + word.length)
  word_or_defect : ∀ {s data position}, s.Serves data position →
    (∃ word rest s', act s = .ok () s' ∧ s'.Serves data (position + word.length) ∧ words word
        ∧ data.drop position = word ++ rest)
      ∨ ∃ d s', act s = .error (Defect.error d) s'

theorem drop_add_of_eq_append {data word rest : List UInt8} {position : Nat}
    (h : data.drop position = word ++ rest) : data.drop (position + word.length) = rest := by
  rw [← List.drop_drop, h, List.drop_left]

/-- The words of one language followed by those of another. -/
def Followed (first second : List UInt8 → Prop) (word : List UInt8) : Prop :=
  ∃ u v, word = u ++ v ∧ first u ∧ second v

/-- The words of a language if it is announced, or else nothing. -/
def Announced (present : Prop) (words : List UInt8 → Prop) (word : List UInt8) : Prop :=
  (present → words word) ∧ (¬present → word = [])

section Combine

variable {act next : Reading Unit} {words words' : List UInt8 → Prop}

theorem reads_pure : Reads (pure ()) (· = []) where
  ok_of_word hs hd hw := by
    subst hw
    exact ⟨_, rfl, hs⟩
  word_or_defect hs := .inl ⟨[], _, _, rfl, hs, rfl, rfl⟩

theorem Reads.bind (h : Reads act words) (h' : Reads next words') :
    Reads (act >>= fun _ => next) (Followed words words') where
  ok_of_word := by
    rintro s data position word rest hs hd ⟨u, v, rfl, hu, hv⟩
    rw [List.append_assoc] at hd
    obtain ⟨s1, h1, hs1⟩ := h.ok_of_word hs hd hu
    obtain ⟨s2, h2, hs2⟩ := h'.ok_of_word hs1 (drop_add_of_eq_append hd) hv
    refine ⟨s2, by rw [bind_of_ok h1, h2], ?_⟩
    rwa [List.length_append, ← Nat.add_assoc]
  word_or_defect := by
    intro s data position hs
    rcases h.word_or_defect hs with ⟨u, rest, s1, h1, hs1, hu, hd⟩ | ⟨d, s1, h1⟩
    · rcases h'.word_or_defect hs1 with ⟨v, rest', s2, h2, hs2, hv, hd'⟩ | ⟨d, s2, h2⟩
      · refine .inl ⟨u ++ v, rest', s2, by rw [bind_of_ok h1, h2], ?_, ⟨u, v, rfl, hu, hv⟩, ?_⟩
        · rwa [List.length_append, ← Nat.add_assoc]
        · rw [drop_add_of_eq_append hd] at hd'
          rw [hd, hd', List.append_assoc]
      · exact .inr ⟨d, s2, by rw [bind_of_ok h1, h2]⟩
    · exact .inr ⟨d, s1, bind_of_error h1⟩

theorem Reads.announced (h : Reads act words) (present : Prop) [Decidable present] :
    Reads (if present then act else pure ()) (Announced present words) := by
  by_cases hp : present
  · rw [if_pos hp]
    have hw : Announced present words = words := by
      funext word
      simp [Announced, hp]
    rwa [hw]
  · rw [if_neg hp]
    have hw : Announced present words = (· = []) := by
      funext word
      simp [Announced, hp]
    rw [hw]
    exact reads_pure

end Combine

section Fields

variable {s : Source} {data : List UInt8} {position : Nat}

theorem takeExactly_of_le (hs : s.Serves data position) (count : Nat)
    (h : count ≤ (data.drop position).length) :
    ∃ s', takeExactly count s = .ok ((data.drop position).take count) s'
      ∧ s'.Serves data (position + count) := by
  obtain ⟨s', h1, h2⟩ := hs.fill count
  rw [List.length_take_of_le h] at h2
  refine ⟨s', ?_, h2⟩
  rw [takeExactly, bind_of_ok h1, if_neg (by rw [List.length_take_of_le h]; omega)]
  rfl

theorem takeExactly_of_lt (hs : s.Serves data position) (count : Nat)
    (h : (data.drop position).length < count) :
    ∃ s', takeExactly count s = .error Defect.headerTruncated.error s' := by
  obtain ⟨s', h1, -⟩ := hs.fill count
  refine ⟨s', ?_⟩
  rw [takeExactly, bind_of_ok h1, if_pos (by rw [List.length_take]; omega)]
  rfl

/-- A length of two bytes, and as many bytes. -/
def ExtraField (word : List UInt8) : Prop :=
  ∃ bytes, bytes.length < capacity 2 ∧ word = Endian.toLittle 2 bytes.length ++ bytes

/-- A text, and the zero byte that ends it. -/
def TextField (word : List UInt8) : Prop := ∃ bytes, 0 ∉ bytes ∧ word = bytes ++ [0]

/-- The two bytes of a check on the header. -/
def CheckField (word : List UInt8) : Prop := ∃ bytes, bytes.length = 2 ∧ word = bytes

theorem reads_check : Reads (do let _ ← takeExactly 2) CheckField where
  ok_of_word := by
    rintro s data position word rest hs hd ⟨_, hw, rfl⟩
    have hle : 2 ≤ (data.drop position).length := by
      rw [hd, List.length_append]
      omega
    obtain ⟨s', h1, h2⟩ := takeExactly_of_le hs 2 hle
    exact ⟨s', by rw [bind_of_ok h1]; rfl, hw ▸ h2⟩
  word_or_defect := by
    intro s data position hs
    rcases Nat.lt_or_ge (data.drop position).length 2 with hlt | hle
    · obtain ⟨s', h1⟩ := takeExactly_of_lt hs 2 hlt
      exact .inr ⟨_, s', bind_of_error h1⟩
    · obtain ⟨s', h1, h2⟩ := takeExactly_of_le hs 2 hle
      have hw := List.length_take_of_le hle
      exact .inl ⟨_, _, s', by rw [bind_of_ok h1]; rfl, hw.symm ▸ h2, ⟨_, hw, rfl⟩,
        (List.take_append_drop _ _).symm⟩

theorem reads_extra :
    Reads (do let length ← takeExactly 2; let _ ← takeExactly (Endian.ofLittle length))
      ExtraField where
  ok_of_word := by
    rintro s data position word rest hs hd ⟨bytes, hb, rfl⟩
    have hl := Endian.length_toLittle 2 bytes.length
    rw [List.append_assoc] at hd
    obtain ⟨s1, h1, hs1⟩ := takeExactly_of_le hs 2 (by rw [hd, List.length_append, hl]; omega)
    rw [hd, List.take_left' hl] at h1
    have hd1 := drop_add_of_eq_append hd
    rw [hl] at hd1
    obtain ⟨s2, h2, hs2⟩ := takeExactly_of_le hs1 bytes.length
      (by rw [hd1, List.length_append]; omega)
    rw [hd1, List.take_left] at h2
    refine ⟨s2, ?_, ?_⟩
    · rw [bind_of_ok h1, Endian.ofLittle_toLittle 2 _ hb, bind_of_ok h2]
      rfl
    · rwa [List.length_append, hl, ← Nat.add_assoc]
  word_or_defect := by
    intro s data position hs
    rcases Nat.lt_or_ge (data.drop position).length 2 with hlt | hle
    · obtain ⟨s1, h1⟩ := takeExactly_of_lt hs 2 hlt
      exact .inr ⟨_, s1, bind_of_error h1⟩
    · obtain ⟨s1, h1, hs1⟩ := takeExactly_of_le hs 2 hle
      have hl := List.length_take_of_le hle
      have hd : data.drop position = (data.drop position).take 2 ++ data.drop (position + 2) := by
        rw [← List.drop_drop, List.take_append_drop]
      generalize (data.drop position).take 2 = head at h1 hl hd
      rcases Nat.lt_or_ge (data.drop (position + 2)).length (Endian.ofLittle head) with hlt | hle'
      · obtain ⟨s2, h2⟩ := takeExactly_of_lt hs1 _ hlt
        exact .inr ⟨_, s2, by rw [bind_of_ok h1, bind_of_error h2]⟩
      · obtain ⟨s2, h2, hs2⟩ := takeExactly_of_le hs1 _ hle'
        have hl' := List.length_take_of_le hle'
        refine .inl ⟨head ++ (data.drop (position + 2)).take (Endian.ofLittle head),
          (data.drop (position + 2)).drop (Endian.ofLittle head), s2, ?_, ?_,
          ⟨(data.drop (position + 2)).take (Endian.ofLittle head), ?_, ?_⟩, ?_⟩
        · rw [bind_of_ok h1, bind_of_ok h2]
          rfl
        · rwa [List.length_append, hl, hl', ← Nat.add_assoc]
        · rw [hl', ← hl]
          exact Endian.ofLittle_lt _
        · rw [hl', ← hl, Endian.toLittle_ofLittle]
        · rw [List.append_assoc, List.take_append_drop, ← hd]

theorem skipText_cases (hs : s.Serves data position) :
    (∃ bytes rest s', skipText s = .ok () s' ∧ 0 ∉ bytes
        ∧ data.drop position = bytes ++ 0 :: rest
        ∧ s'.Serves data (position + (bytes.length + 1)))
      ∨ ∃ s', skipText s = .error Defect.headerTruncated.error s' ∧ 0 ∉ data.drop position := by
  unfold skipText
  obtain ⟨s2, h1, hs2⟩ := hs.fill 1
  fun_induction skipTextFrom s generalizing position s2 with
  | case1 s e s1 hr =>
    rw [hr] at h1
    cases h1
  | case2 s s1 hr =>
    rw [hr] at h1
    obtain ⟨h3, rfl⟩ := EStateM.Result.ok.inj h1
    refine .inr ⟨s1, rfl, ?_⟩
    rw [drop_of_take_nil h3.symm (by decide)]
    exact List.not_mem_nil
  | case3 s bytes s1 hr =>
    rw [hr] at h1
    obtain ⟨h3, rfl⟩ := EStateM.Result.ok.inj h1
    rcases hd : data.drop position with _ | ⟨b, rest⟩
    · rw [hd] at h3
      cases h3
    · rw [hd] at h3 hs2
      cases h3
      exact .inl ⟨[], rest, s1, rfl, List.not_mem_nil, rfl, hs2⟩
  | case4 s b bytes s1 hr _ hb ih =>
    rw [hr] at h1
    obtain ⟨h3, rfl⟩ := EStateM.Result.ok.inj h1
    rcases hd : data.drop position with _ | ⟨b', rest⟩
    · rw [hd] at h3
      cases h3
    · rw [hd] at h3 hs2
      cases h3
      have hs2' : s1.Serves data (position + 1) := hs2
      have hd' : data.drop (position + 1) = rest := by
        rw [← List.drop_drop, hd]
        rfl
      obtain ⟨s3, h4, h5⟩ := hs2'.fill 1
      rcases ih hs2' s3 h4 h5 with ⟨bytes, rest', s', h6, h7, h8, h9⟩ | ⟨s', h6, h7⟩
      · refine .inl ⟨b :: bytes, rest', s', h6, ?_, ?_, ?_⟩
        · exact List.not_mem_cons_of_ne_of_not_mem (Ne.symm hb) h7
        · rw [← hd', h8, List.cons_append]
        · rwa [List.length_cons, Nat.add_comm _ 1, ← Nat.add_assoc]
      · refine .inr ⟨s', h6, ?_⟩
        rw [hd'] at h7
        exact List.not_mem_cons_of_ne_of_not_mem (Ne.symm hb) h7

/-- A text ends at its first zero byte. -/
theorem text_unique {xs ys rest rest' : List UInt8} (hx : 0 ∉ xs) (hy : 0 ∉ ys)
    (h : xs ++ 0 :: rest = ys ++ 0 :: rest') : xs = ys := by
  rcases List.append_eq_append_iff.1 h with ⟨_ | ⟨c, more⟩, h1, h2⟩ | ⟨_ | ⟨c, more⟩, h1, h2⟩
  · rw [h1, List.append_nil]
  · cases h2
    exact absurd (by simp [h1]) hy
  · rw [h1, List.append_nil]
  · cases h2
    exact absurd (by simp [h1]) hx

theorem reads_text : Reads skipText TextField where
  ok_of_word := by
    rintro s data position word rest hs hd ⟨bytes, hb, rfl⟩
    rcases skipText_cases hs with ⟨bytes', rest', s', h1, h2, h3, h4⟩ | ⟨s', -, h1⟩
    · rw [hd, List.append_assoc, List.singleton_append] at h3
      rw [text_unique hb h2 h3, List.length_append]
      exact ⟨s', h1, h4⟩
    · exact absurd (by simp [hd]) h1
  word_or_defect := by
    intro s data position hs
    rcases skipText_cases hs with ⟨bytes, rest, s', h1, h2, h3, h4⟩ | ⟨s', h1, -⟩
    · refine .inl ⟨bytes ++ [0], rest, s', h1, ?_, ⟨bytes, h2, rfl⟩, ?_⟩
      · rwa [List.length_append]
      · rw [h3, List.append_assoc, List.singleton_append]
    · exact .inr ⟨_, s', h1⟩

end Fields

section Flags

/-- The flags byte that announces the given fields. -/
def flagsOf (text check extra name comment : Bool) : UInt8 :=
  (if text then 1 else 0) ||| (if check then checkFlag else 0)
    ||| (if extra then extraFlag else 0) ||| (if name then nameFlag else 0)
    ||| (if comment then commentFlag else 0)

theorem flagsOf_spec : ∀ text check extra name comment : Bool,
    flagsOf text check extra name comment &&& reservedFlags = 0
      ∧ (flagsOf text check extra name comment &&& extraFlag ≠ 0 ↔ extra)
      ∧ (flagsOf text check extra name comment &&& nameFlag ≠ 0 ↔ name)
      ∧ (flagsOf text check extra name comment &&& commentFlag ≠ 0 ↔ comment)
      ∧ (flagsOf text check extra name comment &&& checkFlag ≠ 0 ↔ check) := by
  decide

theorem ofFin_eq_flagsOf : ∀ n : Fin 256, UInt8.ofFin n &&& reservedFlags = 0 →
    UInt8.ofFin n = flagsOf (UInt8.ofFin n &&& 1 ≠ 0) (UInt8.ofFin n &&& checkFlag ≠ 0)
      (UInt8.ofFin n &&& extraFlag ≠ 0) (UInt8.ofFin n &&& nameFlag ≠ 0)
      (UInt8.ofFin n &&& commentFlag ≠ 0) := by
  decide +kernel

theorem eq_flagsOf {flags : UInt8} (h : flags &&& reservedFlags = 0) :
    flags = flagsOf (flags &&& 1 ≠ 0) (flags &&& checkFlag ≠ 0) (flags &&& extraFlag ≠ 0)
      (flags &&& nameFlag ≠ 0) (flags &&& commentFlag ≠ 0) :=
  ofFin_eq_flagsOf flags.toFin h

/-- The optional fields that the flags announce, in their order. -/
def FieldsOf (flags : UInt8) : List UInt8 → Prop :=
  Followed (Announced (flags &&& extraFlag ≠ 0) ExtraField)
    (Followed (Announced (flags &&& nameFlag ≠ 0) TextField)
      (Followed (Announced (flags &&& commentFlag ≠ 0) TextField)
        (Announced (flags &&& checkFlag ≠ 0) CheckField)))

theorem skipFields_eq (flags : UInt8) : skipFields flags
    = (if flags &&& extraFlag ≠ 0 then
        (do let length ← takeExactly 2; let _ ← takeExactly (Endian.ofLittle length)) else pure ())
      >>= fun _ => (if flags &&& nameFlag ≠ 0 then skipText else pure ())
      >>= fun _ => (if flags &&& commentFlag ≠ 0 then skipText else pure ())
      >>= fun _ => if flags &&& checkFlag ≠ 0 then (do let _ ← takeExactly 2) else pure () := by
  unfold skipFields
  by_cases h1 : flags &&& extraFlag ≠ 0 <;> by_cases h2 : flags &&& nameFlag ≠ 0 <;>
    by_cases h3 : flags &&& commentFlag ≠ 0 <;>
    simp only [h1, h2, h3, if_true, if_false, bind_assoc, pure_bind, ne_eq, not_false_eq_true]

theorem reads_skipFields (flags : UInt8) : Reads (skipFields flags) (FieldsOf flags) := by
  rw [skipFields_eq]
  exact (reads_extra.announced _).bind ((reads_text.announced _).bind
    ((reads_text.announced _).bind (reads_check.announced _)))

end Flags

section Encode

/-- An announced field is written from its content. -/
theorem announced_iff {present : Prop} [Decidable present] {valid : List UInt8 → Prop}
    {write : List UInt8 → List UInt8} {word : List UInt8} :
    Announced present (fun word => ∃ bytes, valid bytes ∧ word = write bytes) word
      ↔ ∃ content, (content.isSome = true ↔ present) ∧ (∀ bytes ∈ content, valid bytes)
        ∧ word = Header.field write content := by
  constructor
  · rintro ⟨h1, h2⟩
    by_cases hp : present
    · obtain ⟨bytes, hv, rfl⟩ := h1 hp
      exact ⟨some bytes, by simpa using hp, by simpa using hv, rfl⟩
    · exact ⟨none, by simpa using hp, nofun, h2 hp⟩
  · rintro ⟨_ | bytes, h1, h2, rfl⟩
    · exact ⟨fun hp => absurd (h1.2 hp) nofun, fun _ => rfl⟩
    · exact ⟨fun _ => ⟨bytes, h2 _ rfl, rfl⟩, fun hp => absurd (h1.1 rfl) hp⟩

/-- The optional fields of a header, in the way that they are written. -/
def Header.fields (h : Header) : List UInt8 :=
  Header.field (fun bytes => Endian.toLittle 2 bytes.length ++ bytes) h.extra
    ++ (Header.field (· ++ [0]) h.name ++ (Header.field (· ++ [0]) h.comment
      ++ Header.field id h.check))

theorem Header.encode_eq (h : Header) :
    h.encode = 0x1f :: 0x8b :: deflateMethod :: h.flags :: h.origin ++ h.fields := by
  simp [Header.encode, Header.fields, magic]

theorem Header.flags_eq (h : Header) : h.flags = flagsOf h.text h.check.isSome h.extra.isSome
    h.name.isSome h.comment.isSome := rfl

theorem Header.fieldsOf (h : Header) (hv : h.Valid) : FieldsOf h.flags h.fields := by
  obtain ⟨-, he, hn, hc, hk⟩ := flagsOf_spec h.text h.check.isSome h.extra.isSome h.name.isSome
    h.comment.isSome
  rw [← h.flags_eq] at he hn hc hk
  exact ⟨_, _, rfl, announced_iff.2 ⟨h.extra, he.symm, hv.extra_length, rfl⟩,
    _, _, rfl, announced_iff.2 ⟨h.name, hn.symm, hv.name_ne_zero, rfl⟩,
    _, _, rfl, announced_iff.2 ⟨h.comment, hc.symm, hv.comment_ne_zero, rfl⟩,
    announced_iff.2 ⟨h.check, hk.symm, hv.check_length, rfl⟩⟩

theorem exists_header {flags : UInt8} {origin word : List UInt8} (hf : flags &&& reservedFlags = 0)
    (ho : origin.length = 6) (hw : FieldsOf flags word) :
    ∃ h : Header, h.Valid ∧ h.flags = flags ∧ h.origin = origin ∧ h.fields = word := by
  obtain ⟨_, _, rfl, he, _, _, rfl, hn, _, _, rfl, hc, hk⟩ := hw
  obtain ⟨extra, he1, he2, rfl⟩ := announced_iff.1 he
  obtain ⟨name, hn1, hn2, rfl⟩ := announced_iff.1 hn
  obtain ⟨comment, hc1, hc2, rfl⟩ := announced_iff.1 hc
  obtain ⟨check, hk1, hk2, rfl⟩ := announced_iff.1 hk
  refine ⟨⟨flags &&& 1 ≠ 0, origin, extra, name, comment, check⟩,
    ⟨ho, he2, hn2, hc2, hk2⟩, ?_, rfl, rfl⟩
  have heq : ∀ {b : Bool} {present : Prop} [Decidable present], (b = true ↔ present) →
      b = decide present := fun h => by
    simp [← h]
  rw [Header.flags_eq, heq he1, heq hn1, heq hc1, heq hk1]
  exact (eq_flagsOf hf).symm

end Encode

section Header

variable {s : Source} {data : List UInt8} {position : Nat}

theorem skipHeader_of_fixed {s1 : Source} {a b method flags : UInt8} {origin : List UInt8}
    (h : Source.fill fixedSize s = .ok (a :: b :: method :: flags :: origin) s1) :
    skipHeader s = (if [a, b] ≠ magic then pure false
      else if origin.length < 6 then throw Defect.headerTruncated.error
      else if method ≠ deflateMethod then throw (Defect.methodUnknown method).error
      else if flags &&& reservedFlags ≠ 0 then throw (Defect.flagsReserved flags).error
      else do
        skipFields flags
        return true : Reading Bool) s1 := by
  rw [skipHeader, bind_of_ok h]
  rfl

/-- A header that is written is passed over. -/
theorem skipHeader_of_encode (hs : s.Serves data position) {h : Header} (hv : h.Valid)
    {rest : List UInt8} (hd : data.drop position = h.encode ++ rest) :
    ∃ s', skipHeader s = .ok true s' ∧ s'.Serves data (position + h.encode.length) := by
  have ho := hv.origin_length
  obtain ⟨hr, -⟩ := flagsOf_spec h.text h.check.isSome h.extra.isSome h.name.isSome
    h.comment.isSome
  rw [← h.flags_eq] at hr
  rw [h.encode_eq] at hd ⊢
  obtain ⟨s1, h1, hs1⟩ := hs.fill fixedSize
  rw [hd, List.append_assoc] at h1 hs1
  have htake : (0x1f :: 0x8b :: deflateMethod :: h.flags :: h.origin
      ++ (h.fields ++ rest)).take fixedSize
      = 0x1f :: 0x8b :: deflateMethod :: h.flags :: h.origin :=
    List.take_left' (by simp [fixedSize, ho])
  rw [htake] at h1 hs1
  rw [List.append_assoc] at hd
  obtain ⟨s2, h2, hs2⟩ := (reads_skipFields h.flags).ok_of_word hs1 (drop_add_of_eq_append hd)
    (h.fieldsOf hv)
  refine ⟨s2, ?_, ?_⟩
  · rw [skipHeader_of_fixed h1, if_neg (by decide), if_neg (by omega), if_neg (by decide),
      if_neg (by rw [hr]; decide), bind_of_ok h2]
    rfl
  · rwa [List.length_append, ← Nat.add_assoc]

theorem skipHeader_of_short {s1 : Source} {bytes : List UInt8}
    (h : Source.fill fixedSize s = .ok bytes s1) (hl : bytes.length < 4) :
    skipHeader s = (if bytes.take 2 ≠ magic then pure false
      else throw Defect.headerTruncated.error : Reading Bool) s1 := by
  rw [skipHeader, bind_of_ok h]
  rcases bytes with _ | ⟨a, _ | ⟨b, _ | ⟨c, _ | ⟨d, bytes⟩⟩⟩⟩
  · rfl
  · rfl
  · rfl
  · rfl
  · simp only [List.length_cons] at hl
    omega

/-- What begins with other bytes is no member; what begins like one has a header that is written
so, or a defect. -/
theorem skipHeader_cases (hs : s.Serves data position) :
    (∃ s', skipHeader s = .ok false s' ∧ (data.drop position).take 2 ≠ magic)
      ∨ (∃ h rest s', skipHeader s = .ok true s' ∧ Header.Valid h
        ∧ data.drop position = h.encode ++ rest
        ∧ s'.Serves data (position + h.encode.length))
      ∨ ∃ d s', skipHeader s = .error (Defect.error d) s'
        ∧ (data.drop position).take 2 = magic := by
  obtain ⟨s1, h1, hs1⟩ := hs.fill fixedSize
  have hd := drop_of_take (rfl : (data.drop position).take fixedSize = _)
  have hle : ((data.drop position).take fixedSize).length ≤ fixedSize := List.length_take_le _ _
  have htake : (data.drop position).take 2 = ((data.drop position).take fixedSize).take 2 := by
    rw [List.take_take]
    rfl
  rw [htake]
  generalize (data.drop position).take fixedSize = fixed at h1 hs1 hd hle
  -- Fewer than four bytes tell no more than whether there is a member.
  rcases Nat.lt_or_ge fixed.length 4 with hlt | hge
  · rw [skipHeader_of_short h1 hlt]
    by_cases hm : fixed.take 2 ≠ magic
    · exact .inl ⟨s1, by rw [if_pos hm]; rfl, hm⟩
    · exact .inr (.inr ⟨.headerTruncated, s1, by rw [if_neg hm]; rfl, Decidable.not_not.1 hm⟩)
  obtain ⟨a, b, method, flags, origin, rfl⟩ : ∃ a b method flags origin,
      fixed = a :: b :: method :: flags :: origin := by
    rcases fixed with _ | ⟨a, _ | ⟨b, _ | ⟨method, _ | ⟨flags, origin⟩⟩⟩⟩ <;>
      simp at hge ⊢
  rw [skipHeader_of_fixed h1]
  by_cases hm : [a, b] ≠ magic
  · exact .inl ⟨s1, by rw [if_pos hm]; rfl, hm⟩
  have hab : [a, b] = magic := Decidable.not_not.1 hm
  rw [if_neg hm]
  refine .inr ?_
  by_cases ho : origin.length < 6
  · exact .inr ⟨.headerTruncated, s1, by rw [if_pos ho]; rfl, hab⟩
  rw [if_neg ho]
  by_cases hmethod : method ≠ deflateMethod
  · exact .inr ⟨.methodUnknown method, s1, by rw [if_pos hmethod]; rfl, hab⟩
  rw [if_neg hmethod]
  by_cases hf : flags &&& reservedFlags ≠ 0
  · exact .inr ⟨.flagsReserved flags, s1, by rw [if_pos hf]; rfl, hab⟩
  rw [if_neg hf]
  rcases (reads_skipFields flags).word_or_defect hs1 with
    ⟨word, rest, s2, h2, hs2, hw, hd2⟩ | ⟨d, s2, h2⟩
  · have ho6 : origin.length = 6 := by
      simp only [List.length_cons, fixedSize] at hle
      omega
    obtain ⟨h, hv, rfl, rfl, rfl⟩ := exists_header (Decidable.not_not.1 hf) ho6 hw
    obtain rfl := Decidable.not_not.1 hmethod
    have he : h.encode = (a :: b :: deflateMethod :: h.flags :: h.origin) ++ h.fields := by
      cases hab
      exact h.encode_eq
    refine .inl ⟨h, rest, s2, by rw [bind_of_ok h2]; rfl, hv, ?_, ?_⟩
    · rw [hd, hd2, he, List.append_assoc]
    · rwa [he, List.length_append, ← Nat.add_assoc]
  · exact .inr ⟨d, s2, bind_of_error h2, hab⟩

end Header

end Carving.Gzip
