import Mathlib.Data.List.Basic
import Carving.Bytes.OsText

/-!
# How texts are shown

A text that ends with a string is shown as what is before it and that string
(`shown_append_ofString`), for the encoding of a character begins with a byte that goes on with no
other one. A character that is shown stands in the text, unless it replaces bytes that encode
nothing (`encode_of_mem_shown`).
-/

namespace Carving.OsText

variable {text front rest : OsText} {b : UInt8} {c : Char}

def newline : UInt8 := 0x0A

theorem lt_or_lt_of_isUTF8FirstByte (h : b.IsUTF8FirstByte) : b < 0x80 ∨ 0xBF < b := by
  have hall : ∀ n < 256, (UInt8.ofNat n).IsUTF8FirstByte →
      UInt8.ofNat n < 0x80 ∨ 0xBF < UInt8.ofNat n := by decide +kernel
  have hb := hall b.toNat b.toNat_lt
  rw [UInt8.ofNat_toNat] at hb
  exact hb h

/-- The encoding of a character goes on with bytes that begin none. -/
theorem not_isUTF8FirstByte_of_encode (hfront : front ≠ [])
    (h : String.utf8EncodeChar c = front ++ b :: rest) : ¬ b.IsUTF8FirstByte := by
  intro hb
  have hlt : front.length < (String.utf8EncodeChar c).length := by simp [h]
  have hb : ((String.utf8EncodeChar c)[front.length]).IsUTF8FirstByte := by simpa [h] using hb
  have hfirst := UInt8.isUTF8FirstByte_getElem_utf8EncodeChar.1 hb
  exact hfront (List.length_eq_zero_iff.1 hfirst)

/-- A byte of one bit less encodes a character by itself. -/
theorem eq_of_mem_encode (hb : b < 0x80) (h : b ∈ String.utf8EncodeChar c) :
    c = Char.ofUInt8 b := by
  have hwide (n : Nat) (hn : 128 ≤ n % 256) : b ≠ UInt8.ofNat n := by
    rintro rfl
    rw [UInt8.lt_iff_toNat_lt, UInt8.toNat_ofNat'] at hb
    simp at hb
    omega
  unfold String.utf8EncodeChar at h
  dsimp only at h
  split at h
  · rename_i hc
    obtain rfl := List.mem_singleton.1 h
    refine Char.ext (UInt32.toNat_inj.1 ?_)
    have hsmall : c.val.toNat % 256 = c.val.toNat := Nat.mod_eq_of_lt (by omega)
    change c.val.toNat = (UInt8.ofNat c.val.toNat).toUInt32.toNat
    rw [UInt8.toNat_toUInt32, UInt8.toNat_ofNat', hsmall]
  split at h
  · simp only [List.mem_cons, List.not_mem_nil, or_false] at h
    rcases h with h | h
    · exact absurd h (hwide _ (by omega))
    · exact absurd h (hwide _ (by omega))
  split at h
  · simp only [List.mem_cons, List.not_mem_nil, or_false] at h
    rcases h with h | h | h
    · exact absurd h (hwide _ (by omega))
    · exact absurd h (hwide _ (by omega))
    · exact absurd h (hwide _ (by omega))
  · simp only [List.mem_cons, List.not_mem_nil, or_false] at h
    rcases h with h | h | h | h
    · exact absurd h (hwide _ (by omega))
    · exact absurd h (hwide _ (by omega))
    · exact absurd h (hwide _ (by omega))
    · exact absurd h (hwide _ (by omega))

theorem mem_ofString {s : String} (hb : b < 0x80) (h : b ∈ ofString s) :
    Char.ofUInt8 b ∈ s.toList := by
  obtain ⟨c, hc, hmem⟩ := List.mem_flatMap.1 h
  exact eq_of_mem_encode hb hmem ▸ hc

/-- A text whose beginning goes on with nothing before it. -/
def Restarts (text : OsText) : Prop := ∀ b ∈ text.head?, b.IsUTF8FirstByte

theorem restarts_ofString (s : String) : Restarts (ofString s) := by
  intro b hb
  unfold ofString at hb
  cases hs : s.toList with
  | nil => simp [hs] at hb
  | cons c chars =>
    have hne := String.utf8EncodeChar_ne_nil (c := c)
    have hlt : 0 < (String.utf8EncodeChar c).length := List.length_pos_iff.2 hne
    have hfirst : ((String.utf8EncodeChar c)[0]).IsUTF8FirstByte :=
      UInt8.isUTF8FirstByte_getElem_utf8EncodeChar.2 rfl
    rw [hs, List.flatMap_cons, List.head?_append_of_ne_nil _ hne, List.head?_eq_getElem?,
      List.getElem?_eq_getElem hlt] at hb
    exact Option.some.inj hb ▸ hfirst

/-- What a text begins with does not depend on a part behind it that begins anew. -/
theorem firstChar?_append_restarts (hrest : Restarts rest) (htext : text ≠ []) :
    firstChar? (text ++ rest) = firstChar? text := by
  refine Option.ext fun c => ?_
  rw [firstChar?_eq_some, firstChar?_eq_some]
  constructor
  · rintro ⟨behind, h⟩
    obtain ⟨_ | ⟨b, more⟩, hmore, hbehind⟩ | ⟨more, hmore, -⟩ := List.append_eq_append_iff.1 h
    · exact ⟨[], by simp [hmore]⟩
    · exact absurd (hrest b (by simp [hbehind])) (not_isUTF8FirstByte_of_encode htext hmore)
    · exact ⟨more, hmore⟩
  · rintro ⟨behind, rfl⟩
    exact ⟨behind ++ rest, List.append_assoc _ _ _⟩

/-- No byte that begins a character may follow another one. -/
theorem not_second_of_isUTF8FirstByte (first : UInt8) (hb : b.IsUTF8FirstByte) :
    b < (seconds first).1 ∨ (seconds first).2 < b := by
  have hwide := lt_or_lt_of_isUTF8FirstByte hb
  simp only [UInt8.lt_iff_toNat_lt] at hwide ⊢
  unfold seconds
  split
  · simp at hwide ⊢; omega
  split
  · simp at hwide ⊢; omega
  split
  · simp at hwide ⊢; omega
  split
  · simp at hwide ⊢; omega
  · exact hwide

theorem brokenSize_append_restarts (hrest : Restarts rest) (htext : text ≠ []) :
    brokenSize (text ++ rest) = brokenSize text := by
  match text, rest with
  | _, [] => rw [List.append_nil]
  | [], _ => exact absurd rfl htext
  | [first], b :: rest =>
    have hb := not_second_of_isUTF8FirstByte first (hrest b rfl)
    simp only [List.cons_append, List.nil_append, brokenSize]
    rw [if_pos (by rcases hb with hb | hb <;> simp [hb])]
  | [first, second], b :: rest =>
    have hb : ¬ (0x80 ≤ b ∧ b ≤ 0xBF) := by
      rw [not_and_or, UInt8.not_le, UInt8.not_le]
      exact lt_or_lt_of_isUTF8FirstByte (hrest b rfl)
    have hthird : ¬ (0xF0 ≤ first && 0x80 ≤ b && b ≤ 0xBF) := by
      simpa [and_assoc] using fun _ => hb
    simp only [List.cons_append, List.nil_append, brokenSize, if_neg hthird]
  | _ :: _ :: _ :: _, _ => rfl

theorem brokenSize_le (htext : text ≠ []) : brokenSize text ≤ text.length := by
  match text with
  | [] => exact absurd rfl htext
  | [_] => exact Nat.le_refl 1
  | [_, _] =>
    simp only [brokenSize, List.length_cons, List.length_nil]
    split <;> omega
  | _ :: _ :: _ :: _ =>
    simp only [brokenSize, List.length_cons]
    split
    · omega
    · split <;> omega

theorem shownFrom_append_restarts (hrest : Restarts rest) {skip : Nat}
    (hskip : skip ≤ text.length) :
    shownFrom skip (text ++ rest) = shownFrom skip text ++ shownFrom 0 rest := by
  induction text generalizing skip with
  | nil =>
    obtain rfl := Nat.le_zero.1 hskip
    cases rest <;> rfl
  | cons first text ih =>
    cases skip with
    | succ skip => exact ih (Nat.le_of_succ_le_succ hskip)
    | zero =>
      have hne : first :: text ≠ [] := List.cons_ne_nil _ _
      rw [List.cons_append, shownFrom, shownFrom, ← List.cons_append,
        firstChar?_append_restarts hrest hne, brokenSize_append_restarts hrest hne]
      cases hc : firstChar? (first :: text) with
      | some c =>
        obtain ⟨behind, hbehind⟩ := firstChar?_eq_some.1 hc
        have hsize : c.utf8Size ≤ (first :: text).length := by
          rw [hbehind, List.length_append, String.length_utf8EncodeChar]
          omega
        exact congrArg (c :: ·) (ih (Nat.sub_le_of_le_add hsize))
      | none => exact congrArg (_ :: ·) (ih (Nat.sub_le_of_le_add (brokenSize_le hne)))

theorem shown_append_restarts (hrest : Restarts rest) :
    shown (text ++ rest) = shown text ++ shown rest := by
  rw [shown, shownFrom_append_restarts hrest (Nat.zero_le _), String.ofList_append, shown, shown]

@[simp] theorem shown_append_ofString (text : OsText) (s : String) :
    shown (text ++ ofString s) = shown text ++ s := by
  rw [shown_append_restarts (restarts_ofString s), shown_ofString]

@[simp] theorem shown_ofString_append (s : String) (text : OsText) :
    shown (ofString s ++ text) = s ++ shown text := by
  have hall (chars : List Char) :
      shownFrom 0 (chars.flatMap String.utf8EncodeChar ++ text) = chars ++ shownFrom 0 text := by
    induction chars with
    | nil => rfl
    | cons c chars ih =>
      rw [List.flatMap_cons, List.append_assoc, shownFrom_encode, ih, List.cons_append]
  rw [shown, ofString, hall, String.ofList_append, String.ofList_toList, shown]

theorem mem_shownFrom {skip : Nat} (h : c ∈ shownFrom skip text) :
    c = '\uFFFD' ∨ String.utf8EncodeChar c ⊆ text := by
  induction text generalizing skip with
  | nil => cases skip <;> cases h
  | cons first text ih =>
    have hbehind {skip : Nat} (h : c ∈ shownFrom skip text) :
        c = '\uFFFD' ∨ String.utf8EncodeChar c ⊆ first :: text :=
      (ih h).imp_right fun hsub => List.Subset.trans hsub (List.subset_cons_self _ _)
    cases skip with
    | succ skip => exact hbehind h
    | zero =>
      rw [shownFrom] at h
      split at h
      · rename_i d hd
        rcases List.mem_cons.1 h with rfl | h
        · obtain ⟨rest, hrest⟩ := firstChar?_eq_some.1 hd
          exact .inr (hrest ▸ List.subset_append_left _ _)
        · exact hbehind h
      · rcases List.mem_cons.1 h with rfl | h
        · exact .inl rfl
        · exact hbehind h

/-- A character that is shown is encoded in the text, unless it replaces something. -/
theorem encode_of_mem_shown (h : c ∈ (shown text).toList) :
    c = '\uFFFD' ∨ String.utf8EncodeChar c ⊆ text := by
  rw [shown, String.toList_ofList] at h
  exact mem_shownFrom h

end Carving.OsText
