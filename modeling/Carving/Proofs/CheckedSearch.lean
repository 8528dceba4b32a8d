import Carving.Flash.Ubi
import Carving.Proofs.FirstMode
import Carving.Proofs.MarkerSearch

/-!
# Searching with sums of 64 bits

The searches of a source come to the same with sums of 64 bits, as long as the source is not longer
than such a number tells: the offsets that a search forms lie within the source, a count is not
greater than the number of occurrences, and a walk leaves the source by one stride at most.
-/

namespace Carving

namespace Arithmetic

variable {a b : Nat}

theorem add_word (h : a + b < capacity 8) : word.add a b = .ok (a + b) := if_pos h

theorem mul_word (h : a * b < capacity 8) : word.mul a b = .ok (a * b) := if_pos h

end Arithmetic

namespace Checked

open Arithmetic (add_word word)

variable {s : Source}

theorem skipRun_eq (byte : UInt8) (h : s.content.size < capacity 8) :
    @Source.skipRun word byte s = Source.skipRun byte s := by
  unfold Source.skipRun
  fun_induction Source.skipRunFrom byte s with
  | case1 s e s1 hr =>
    rw [@Source.skipRunFrom.eq_def word]
    split <;> rename_i hf _ <;> cases hr.symm.trans hf
    rfl
  | case2 s s1 hr =>
    rw [@Source.skipRunFrom.eq_def word]
    split <;> rename_i hf _ <;> cases hr.symm.trans hf
    rfl
  | case3 s b bytes s1 hr _ i hi stop hstop =>
    rw [@Source.skipRunFrom.eq_def word]
    split <;> rename_i hf _ <;> cases hr.symm.trans hf
    cases hstop
    obtain ⟨-, -, -, h4, h5⟩ := Source.fill_ok hr
    have hle := h5 (List.cons_ne_nil _ _)
    have hlt : i < (b :: bytes).length := (List.findIdx?_eq_some_iff_findIdx_eq.1 hi).1
    simp only [hi]
    rw [add_word (by omega)]
  | case4 s b bytes s1 hr _ i hi e he => cases he
  | case5 s b bytes s1 hr _ hi ih =>
    rw [@Source.skipRunFrom.eq_def word]
    split <;> rename_i hf _ <;> cases hr.symm.trans hf
    obtain ⟨-, -, h3, -, -⟩ := Source.fill_ok hr
    simp only [hi]
    exact ih (by rwa [h3])

theorem mapM_add {offset : Nat} {offsets : List Nat} (h : ∀ i ∈ offsets, offset + i < capacity 8) :
    offsets.mapM (word.add offset) = .ok (offsets.map (offset + ·)) := by
  induction offsets with
  | nil => rfl
  | cons i offsets ih =>
    rw [List.mapM_cons, add_word (h i List.mem_cons_self),
      ih fun j hj => h j (List.mem_cons_of_mem _ hj)]
    rfl

/-- What lies in a window that ends before the greatest number has an offset before it, too. -/
theorem advanceWindow_eq (pattern : List UInt8) {window : List UInt8} {offset dropped : Nat}
    (hdropped : dropped ≤ window.length) (h : offset + window.length < capacity 8) :
    @Source.advanceWindow word pattern window offset dropped
      = Source.advanceWindow pattern window offset dropped := by
  have hsums : (occurrences pattern window).mapM (word.add offset)
      = .ok ((occurrences pattern window).map (offset + ·)) := mapM_add fun i hi => by
    have := (mem_occurrences.1 hi).lt_length
    omega
  rw [Source.advanceWindow_eq, @Source.advanceWindow.eq_def word, resumedFrom_zero, hsums,
    add_word (by omega)]
  rfl

/-- A window that ends at the position of its source keeps all offsets within the source. -/
theorem findFrom_eq {pattern window : List UInt8} {offset : Nat} (h : s.content.size < capacity 8)
    (hw : offset + window.length = s.position) :
    @Source.findFrom word pattern window offset s = Source.findFrom pattern window offset s := by
  fun_induction Source.findFrom pattern window offset s with
  | case1 window offset s e s1 hr =>
    rw [@Source.findFrom.eq_def word]
    split <;> rename_i hf _ <;> cases hr.symm.trans hf
    rfl
  | case2 window offset s s1 hr =>
    rw [@Source.findFrom.eq_def word]
    split <;> rename_i hf _ <;> cases hr.symm.trans hf
    rfl
  | case3 window offset s b bytes s1 hr _ window' dropped e =>
    rename_i hstep
    rw [Source.advanceWindow_eq] at hstep
    cases hstep
  | case4 window offset s b bytes s1 hr _ window' dropped found next hstep e s2 hrest
  | case5 window offset s b bytes s1 hr _ window' dropped found next hstep more s2 hrest =>
    rename_i ih
    rw [@Source.findFrom.eq_def word]
    split <;> rename_i hf _ <;> cases hr.symm.trans hf
    obtain ⟨-, -, h3, h4, h5⟩ := Source.fill_ok hr
    have hle := h5 (List.cons_ne_nil _ _)
    have hwindow : window'.length = window.length + (b :: bytes).length := List.length_append
    have hdropped : dropped ≤ window'.length := Nat.sub_le _ _
    have hsame := advanceWindow_eq pattern hdropped
      (show offset + window'.length < capacity 8 by omega)
    -- The window still ends where the source stands once its first bytes are dropped.
    have hkept : offset + dropped + (window'.drop dropped).length = s1.position := by
      rw [List.length_drop]
      omega
    have hnext : offset + dropped = next := by
      rw [Source.advanceWindow_eq] at hstep
      exact congrArg Prod.snd (Except.ok.inj hstep)
    rw [hnext] at hkept
    extract_lets
    rw [hsame, hstep]
    dsimp only
    rw [ih (by rwa [h3]) hkept, hrest]

theorem findAll_eq (pattern : List UInt8) (h : s.content.size < capacity 8) :
    @Source.findAll word pattern s = Source.findAll pattern s := by
  unfold Source.findAll
  split
  · rfl
  · exact findFrom_eq h rfl

theorem guessBlockSize_eq {data : List UInt8} {position : Nat} (hs : s.Serves data position)
    (h : data.length < capacity 8) : @Ubi.guessBlockSize word s = Ubi.guessBlockSize s := by
  obtain ⟨s', p, hfound, -⟩ := hs.findAll Ubi.marker
  have hgaps := length_gaps_le (occurrences Ubi.marker data)
  have hoccurrences := length_occurrences_le Ubi.marker data
  have hcount : tally (word.add · 1) (gaps (occurrences Ubi.marker data))
      = .ok (tally (m := Id) (· + 1) (gaps (occurrences Ubi.marker data))) :=
    tally_eq fun count hlt => add_word (by omega)
  have hcount' : tally (Arithmetic.add · 1) (gaps (occurrences Ubi.marker data))
      = .ok (tally (m := Id) (· + 1) (gaps (occurrences Ubi.marker data))) :=
    tally_eq fun _ _ => rfl
  have hinfer : @inferStride word Ubi.marker s = inferStride Ubi.marker s := by
    unfold inferStride
    rw [bind_of_ok hfound, bind_of_ok ((findAll_eq _ (hs.size_eq ▸ h)).trans hfound), hcount,
      hcount']
  unfold Ubi.guessBlockSize
  rw [hinfer]

/-- A walk is at most one stride behind the end of the source. -/
theorem walkBlocks_eq {stride offset : Nat} (h : s.content.size + stride < capacity 8) :
    @Ubi.walkBlocks word offset stride s = Ubi.walkBlocks offset stride s := by
  unfold Ubi.walkBlocks
  fun_induction Ubi.walk stride offset s with
  | case1 offset s e s1 hr =>
    rw [@Ubi.walk.eq_def word]
    split <;> rename_i hf _ <;> cases hr.symm.trans hf
    rfl
  | case2 offset s bytes s1 hr _ hc next hnext _ ih =>
    cases hnext
    rw [@Ubi.walk.eq_def word]
    split <;> rename_i hf _ <;> cases hr.symm.trans hf
    obtain ⟨h1, h2⟩ := Ubi.fillAt_marker (hc.1 ▸ hr)
    have hnext : word.add offset stride = .ok (offset + stride) := add_word (by omega)
    rw [if_pos hc]
    split <;> rename_i hadd _ <;> cases hnext.symm.trans hadd
    exact ih (by rwa [h1])
  | case3 offset s bytes s1 hr _ hc e hadd => cases hadd
  | case4 offset s bytes s1 hr _ hc =>
    rw [@Ubi.walk.eq_def word]
    split <;> rename_i hf _ <;> cases hr.symm.trans hf
    rw [if_neg hc]

end Checked

end Carving
