import Carving.Console.Run
import Carving.Proofs.FileWrites
import Carving.Proofs.ShownTexts

/-!
# Names of chunk files

The name of a chunk's file is that of its blob, an underscore, the two bounds with a hyphen between
them, a dot and the name of the format. What stands behind the underscore holds no other one, and
digits are neither a hyphen nor a dot. So the name tells the blob's own name, whatever that holds,
and the chunk (`chunkFileName_inj`). Nothing that the name adds to that of the blob bars the way to
the file (`isProper_chunkFileName`).
-/

namespace Carving

theorem Format.name_injective {f g : Format} (h : f.name = g.name) : f = g := by
  cases f <;> cases g <;> first | rfl | exact absurd h (by decide)

namespace Console

/-- What the name of a chunk's file has behind the underscore. -/
def boundsText (f : Finding) : List Char :=
  Nat.toDigits 10 f.chunk.start
    ++ '-' :: (Nat.toDigits 10 f.chunk.stop ++ '.' :: f.format.name.toList)

theorem toList_chunkFileName (blobName : String) (f : Finding) :
    (chunkFileName blobName f).toList = blobName.toList ++ '_' :: boundsText f := by
  simp [chunkFileName, boundsText, toString]

theorem takeWhile_toDigits {c : Char} (n : Nat) (hc : c.isDigit = false) (rest : List Char) :
    (Nat.toDigits 10 n ++ c :: rest).takeWhile Char.isDigit = Nat.toDigits 10 n := by
  rw [List.takeWhile_append_of_pos fun _ h => Nat.isDigit_of_mem_toDigits (by decide) (by decide) h,
    List.takeWhile_cons_of_neg (by simp [hc]), List.append_nil]

/-- A number ends where its digits do. -/
theorem toDigits_append_injective {m n : Nat} {c : Char} {rest rest' : List Char}
    (hc : c.isDigit = false)
    (h : Nat.toDigits 10 m ++ c :: rest = Nat.toDigits 10 n ++ c :: rest') :
    m = n ∧ rest = rest' := by
  have hdigits := congrArg (List.takeWhile Char.isDigit) h
  rw [takeWhile_toDigits m hc, takeWhile_toDigits n hc] at hdigits
  rw [hdigits] at h
  refine ⟨?_, (List.cons.inj (List.append_cancel_left h)).2⟩
  simpa using congrArg (Nat.ofDigitChars 10 · 0) hdigits

theorem boundsText_injective {f g : Finding} (h : boundsText f = boundsText g) : f = g := by
  obtain ⟨hstart, hbehind⟩ := toDigits_append_injective rfl h
  obtain ⟨hstop, hname⟩ := toDigits_append_injective rfl hbehind
  have hformat := Format.name_injective (String.toList_inj.1 hname)
  obtain ⟨_, _, _, _⟩ := f
  obtain ⟨_, _, _, _⟩ := g
  cases hstart
  cases hstop
  cases hformat
  rfl

theorem mem_boundsText {c : Char} {f : Finding} (h : c ∈ boundsText f) :
    c.isDigit ∨ c ∈ ['-', '.'] ∨ c ∈ f.format.name.toList := by
  have hdigit {n : Nat} (h : c ∈ Nat.toDigits 10 n) : c.isDigit :=
    Nat.isDigit_of_mem_toDigits (by decide) (by decide) h
  simp only [boundsText, List.mem_append, List.mem_cons] at h
  rcases h with h | h | h | h | h
  · exact .inl (hdigit h)
  · simp [h]
  · exact .inl (hdigit h)
  · simp [h]
  · exact .inr (.inr h)

/-- The underscore in front of the bounds is the last one of the name. -/
theorem underscore_not_mem_boundsText (f : Finding) : '_' ∉ boundsText f := fun h => by
  rcases mem_boundsText h with h | h | h
  · exact absurd h (by decide)
  · exact absurd h (by decide)
  · revert h
    cases f.format <;> decide

/-- Where a list is divided at the last one of its separators, both parts are determined. -/
theorem eq_of_append_cons {α : Type} {c : α} {front front' back back' : List α} (h : c ∉ back)
    (h' : c ∉ back') (heq : front ++ c :: back = front' ++ c :: back') :
    front = front' ∧ back = back' := by
  obtain ⟨_ | ⟨a, more⟩, hfront, hback⟩ | ⟨_ | ⟨a, more⟩, hfront, hback⟩ :=
    List.append_eq_append_iff.1 heq
  · exact ⟨by simpa using hfront.symm, (List.cons.inj hback).2⟩
  · exact absurd ((List.cons.inj hback).2 ▸ by simp) h
  · exact ⟨by simpa using hfront, (List.cons.inj hback).2.symm⟩
  · exact absurd ((List.cons.inj hback).2 ▸ by simp) h'

/-- The name of a chunk's file tells that of its blob, the bounds and the format. -/
theorem chunkFileName_inj {blobName blobName' : String} {f g : Finding} :
    chunkFileName blobName f = chunkFileName blobName' g ↔ blobName = blobName' ∧ f = g := by
  refine ⟨fun h => ?_, fun ⟨hname, hfinding⟩ => by rw [hname, hfinding]⟩
  have hlist := congrArg String.toList h
  rw [toList_chunkFileName, toList_chunkFileName] at hlist
  obtain ⟨hname, hbounds⟩ := eq_of_append_cons (underscore_not_mem_boundsText f)
    (underscore_not_mem_boundsText g) hlist
  exact ⟨String.toList_inj.1 hname, boundsText_injective hbounds⟩

theorem blobName_of_fileName? {path : OsText} {name : String}
    (h : fileName? path = some (OsText.ofString name)) : blobName path = name := by
  have hstring : (OsText.ofString name).string? = some name := OsText.string?_eq_some.2 rfl
  simp [blobName, h, hstring]

/-- Chunks share a file name only if the names of their blobs, their bounds and their formats are
the same. The name of a blob may itself be that of a chunk file, or hold any of its separators. -/
theorem chunkFileName_unambiguous {path path' : OsText} {name name' : String} {f g : Finding}
    (hname : fileName? path = some (OsText.ofString name))
    (hname' : fileName? path' = some (OsText.ofString name')) :
    chunkFileName (blobName path) f = chunkFileName (blobName path') g ↔ name = name'
      ∧ f.chunk.start = g.chunk.start ∧ f.chunk.stop = g.chunk.stop ∧ f.format = g.format := by
  have hsame : f = g ↔ f.chunk.start = g.chunk.start ∧ f.chunk.stop = g.chunk.stop
      ∧ f.format = g.format := by
    obtain ⟨_, _, _, _⟩ := f
    obtain ⟨_, _, _, _⟩ := g
    simp only [Finding.mk.injEq, Chunk.mk.injEq]
    exact and_comm.trans and_assoc
  rw [blobName_of_fileName? hname, blobName_of_fileName? hname', chunkFileName_inj, hsame]

/-- A blob that has the name of a chunk file, with a chunk of the same bounds and format. -/
theorem chunkFileName_unambiguous_nested :
    let f : Finding := ⟨.gzip, ⟨1, 2, by decide⟩⟩
    blobName "out/a_1-2.gzip" = chunkFileName (blobName "in/a") f
      ∧ chunkFileName (blobName "out/a_1-2.gzip") f ≠ chunkFileName (blobName "in/a") f := by
  intro f
  have hname : fileName? "in/a" = some "a" := by decide
  have hname' : fileName? "out/a_1-2.gzip" = some "a_1-2.gzip" := by decide
  refine ⟨?_, fun h => ?_⟩
  · rw [blobName_of_fileName? hname, blobName_of_fileName? hname']
    decide
  · obtain ⟨hnames, -⟩ := (chunkFileName_unambiguous hname' hname).1 h
    exact absurd hnames (by decide)

theorem mem_chunkFileName {c : Char} {blobName : String} {f : Finding}
    (h : c ∈ (chunkFileName blobName f).toList) :
    c ∈ blobName.toList ∨ c.isDigit ∨ c ∈ ['_', '-', '.'] ∨ c ∈ f.format.name.toList := by
  rw [toList_chunkFileName, List.mem_append, List.mem_cons] at h
  rcases h with h | rfl | h
  · exact .inl h
  · simp
  · rcases mem_boundsText h with h | h | h
    · exact .inr (.inl h)
    · exact .inr (.inr (.inl (List.mem_cons_of_mem _ h)))
    · exact .inr (.inr (.inr h))

/-- The bytes that bar a way, or end a line, are in the name of a chunk's file only if they are in
that of the blob. -/
theorem mem_of_mem_chunkFileName {b : UInt8} {blobName : String} {f : Finding}
    (hb : b ∈ [slash, 0, OsText.newline]) (h : b ∈ OsText.ofString (chunkFileName blobName f)) :
    Char.ofUInt8 b ∈ blobName.toList := by
  have hall : ∀ b ∈ [slash, 0, OsText.newline], b < 0x80 ∧ (Char.ofUInt8 b).isDigit = false
      ∧ Char.ofUInt8 b ∉ ['_', '-', '.'] ∧ Char.ofUInt8 b ∉ f.format.name.toList := by
    cases f.format <;> decide +kernel
  obtain ⟨hsmall, hdigit, hmark, hformat⟩ := hall b hb
  rcases mem_chunkFileName (OsText.mem_ofString hsmall h) with h | h | h | h
  · exact h
  · rw [hdigit] at h
    cases h
  · exact absurd h hmark
  · exact absurd h hformat

theorem isProper_chunkFileName {blobName : String} {f : Finding} (hslash : '/' ∉ blobName.toList)
    (hnul : '\x00' ∉ blobName.toList)
    (hshort : (OsText.ofString (chunkFileName blobName f)).length ≤ maxNameSize) :
    IsProper (OsText.ofString (chunkFileName blobName f)) := by
  have hne {name : String} (hn : '_' ∉ name.toList) :
      OsText.ofString (chunkFileName blobName f) ≠ OsText.ofString name := by
    rw [Ne, OsText.ofString_inj]
    rintro rfl
    rw [toList_chunkFileName] at hn
    simp at hn
  have hidle : isIdle (OsText.ofString (chunkFileName blobName f)) = false := by
    have hempty : OsText.ofString (chunkFileName blobName f) ≠ OsText.ofString "" := hne (by decide)
    have hdot : OsText.ofString (chunkFileName blobName f) ≠ OsText.ofString "." := hne (by decide)
    simp only [isIdle, Bool.or_eq_false_iff, decide_eq_false_iff_not]
    exact ⟨hempty, hdot⟩
  exact ⟨⟨hidle, hne (by decide)⟩, fun h => hslash (mem_of_mem_chunkFileName (by decide) h),
    fun h => hnul (mem_of_mem_chunkFileName (by decide) h), hshort⟩

theorem fileName?_eq_some {path name : OsText} (h : fileName? path = some name) :
    name ∈ pathNames path ∧ LeadsBelow name := by
  unfold fileName? at h
  cases hnames : (pathNames path).reverse.dropWhile isIdle with
  | nil => simp [hnames] at h
  | cons last names =>
    simp only [hnames, Option.ite_none_left_eq_some, Option.some.injEq] at h
    obtain ⟨habove, rfl⟩ := h
    have hmem : last ∈ (pathNames path).reverse.dropWhile isIdle := hnames ▸ List.mem_cons_self
    have hidle := List.head?_dropWhile_not isIdle (pathNames path).reverse
    rw [hnames] at hidle
    exact ⟨List.mem_reverse.1 ((List.dropWhile_suffix _).subset hmem), by simpa using hidle, habove⟩

/-- The name of a blob is that of a file, so that it bars no way, and ends a line only if its path
does. -/
theorem not_mem_blobName {b : UInt8} (hb : b ∈ [slash, 0, OsText.newline]) {path : OsText}
    (hpath : b ≠ slash → b ∉ path) : Char.ofUInt8 b ∉ (blobName path).toList := by
  unfold blobName
  cases hname : (fileName? path).bind OsText.string? with
  | none =>
    have hall : ∀ b ∈ [slash, 0, OsText.newline], Char.ofUInt8 b ∉ "blob".toList := by
      decide +kernel
    exact hall b hb
  | some name =>
    obtain ⟨text, htext, hstring⟩ := Option.bind_eq_some_iff.1 hname
    obtain rfl := OsText.string?_eq_some.1 hstring
    obtain ⟨hslash, hsub⟩ := FileTree.not_mem_of_mem_pathNames (fileName?_eq_some htext).1
    intro h
    have hall : ∀ b ∈ [slash, 0, OsText.newline],
        b ∈ String.utf8EncodeChar (Char.ofUInt8 b) := by decide +kernel
    have hmem : b ∈ OsText.ofString name := List.mem_flatMap.2 ⟨_, h, hall b hb⟩
    by_cases hne : b = slash
    · exact hslash (hne ▸ hmem)
    · exact hpath hne (hsub hmem)

end Console

end Carving
