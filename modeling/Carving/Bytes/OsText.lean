/-!
# Texts of the system

Paths, names and arguments are texts of the system: bytes, which mostly encode characters in UTF-8
but need not. A text is shown with a replacement character for each part of it that encodes nothing
(`OsText.shown`), and it spells a string only if it has no such part (`OsText.string?`).
-/

namespace Carving

abbrev OsText := List UInt8

instance : LawfulBEq OsText := inferInstance

namespace OsText

def ofString (s : String) : OsText := s.toList.flatMap String.utf8EncodeChar

instance : Coe String OsText := ⟨ofString⟩

/-- The character that a text begins with. -/
def firstChar? (text : OsText) : Option Char := (text.take 4).toByteArray.utf8DecodeChar? 0

/-- The second bytes that may follow a first one in the encoding of a character that takes three
bytes or four. -/
def seconds (first : UInt8) : UInt8 × UInt8 :=
  if first = 0xE0 then (0xA0, 0xBF)
  else if first = 0xED then (0x80, 0x9F)
  else if first = 0xF0 then (0x90, 0xBF)
  else if first = 0xF4 then (0x80, 0x8F)
  else (0x80, 0xBF)

/-- How many bytes of a text that begins with no character are shown as one replacement character:
those that begin the encoding of some character, and at least one. -/
def brokenSize : OsText → Nat
  | first :: second :: rest =>
    let (least, most) := seconds first
    if first < 0xE0 || 0xF4 < first || second < least || most < second then 1
    else
      match rest with
      | third :: _ => if 0xF0 ≤ first && 0x80 ≤ third && third ≤ 0xBF then 3 else 2
      | [] => 2
  | _ => 1

/-- The characters that a text is shown by, behind the next few bytes. -/
def shownFrom : Nat → OsText → List Char
  | _, [] => []
  | skip + 1, _ :: rest => shownFrom skip rest
  | 0, first :: rest =>
    match firstChar? (first :: rest) with
    | some c => c :: shownFrom (c.utf8Size - 1) rest
    | none => '\uFFFD' :: shownFrom (brokenSize (first :: rest) - 1) rest

def shown (text : OsText) : String := String.ofList (shownFrom 0 text)

/-- The string that a text encodes. -/
def string? (text : OsText) : Option String :=
  if ofString text.shown = text then some text.shown else none

variable {text rest : OsText} {c : Char} {s : String}

theorem firstChar?_append (c : Char) (rest : OsText) :
    firstChar? (String.utf8EncodeChar c ++ rest) = some c := by
  have hsize := String.length_utf8EncodeChar c
  have hle : (String.utf8EncodeChar c).length ≤ 4 := hsize ▸ c.utf8Size_le_four
  rw [firstChar?, List.take_append, List.take_of_length_le hle, List.toByteArray_append]
  exact ByteArray.utf8DecodeChar?_utf8EncodeChar_append

theorem firstChar?_eq_some :
    firstChar? text = some c ↔ ∃ rest, text = String.utf8EncodeChar c ++ rest := by
  constructor
  · intro h
    obtain ⟨b, hb⟩ := ByteArray.exists_of_utf8DecodeChar?_eq_some h
    have htake : text.take 4 = String.utf8EncodeChar c ++ b.data.toList := by
      have hlist := congrArg (·.data.toList) hb
      simpa using hlist
    refine ⟨b.data.toList ++ text.drop 4, ?_⟩
    rw [← List.append_assoc, ← htake, List.take_append_drop]
  · rintro ⟨rest, rfl⟩
    exact firstChar?_append c rest

theorem shownFrom_append (front rest : OsText) :
    shownFrom front.length (front ++ rest) = shownFrom 0 rest := by
  induction front with
  | nil => rfl
  | cons b front ih => exact ih

theorem shownFrom_encode (c : Char) (rest : OsText) :
    shownFrom 0 (String.utf8EncodeChar c ++ rest) = c :: shownFrom 0 rest := by
  obtain ⟨first, behind, hc⟩ := List.exists_cons_of_ne_nil (String.utf8EncodeChar_ne_nil (c := c))
  have hsize : c.utf8Size - 1 = behind.length := by
    rw [← String.length_utf8EncodeChar, hc, List.length_cons, Nat.add_sub_cancel]
  have hfirst := firstChar?_append c rest
  rw [hc, List.cons_append] at hfirst ⊢
  rw [shownFrom, hfirst]
  change c :: shownFrom (c.utf8Size - 1) (behind ++ rest) = _
  rw [hsize, shownFrom_append]

@[simp] theorem shown_ofString (s : String) : shown (ofString s) = s := by
  have hall (chars : List Char) :
      shownFrom 0 (chars.flatMap String.utf8EncodeChar) = chars := by
    induction chars with
    | nil => rfl
    | cons c chars ih => rw [List.flatMap_cons, shownFrom_encode, ih]
  rw [shown, ofString, hall, String.ofList_toList]

theorem ofString_injective {s s' : String} (h : ofString s = ofString s') : s = s' := by
  rw [← shown_ofString s, h, shown_ofString]

@[simp] theorem ofString_inj {s s' : String} : ofString s = ofString s' ↔ s = s' :=
  ⟨ofString_injective, congrArg ofString⟩

@[simp] theorem string?_eq_some : string? text = some s ↔ text = ofString s := by
  unfold string?
  constructor
  · intro h
    split at h
    · rename_i heq
      rw [← Option.some.inj h, heq]
    · cases h
  · rintro rfl
    rw [shown_ofString, if_pos rfl]

@[simp] theorem ofString_append (s s' : String) :
    ofString (s ++ s') = ofString s ++ ofString s' := by
  rw [ofString, String.toList_append, List.flatMap_append]
  rfl

end OsText

end Carving
