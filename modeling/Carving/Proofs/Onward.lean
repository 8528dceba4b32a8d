import Carving.Proofs.HeaderGrammar

/-!
# Steps that do not take a source back

Reading from a source leaves the device as it is and moves it onward, however it ends: each of the
steps that pass over a header does (`Gzip.forward_skipHeader`).
-/

namespace Carving

section Final

variable {ε σ α : Type}

/-- The state in which a step ends, also where it fails. -/
def final : EStateM.Result ε σ α → σ
  | .ok _ s => s
  | .error _ s => s

theorem final_ofReading (act : Reading α) (session : Session) :
    final (Probe.ofReading act session)
      = { session with source := final (act session.source) } := by
  unfold Probe.ofReading
  rcases act session.source with ⟨a, s⟩ | ⟨e, s⟩ <;> rfl

end Final

namespace Source

/-- The device is the same, with the same bytes behind it, and has not gone back. -/
structure Onward (s s' : Source) : Prop where
  content_eq : s'.content = s.content
  pace_eq : s'.pace = s.pace
  fault_eq : s'.fault = s.fault
  position_le : s.position ≤ s'.position

theorem Onward.refl (s : Source) : s.Onward s := ⟨rfl, rfl, rfl, Nat.le_refl _⟩

theorem Onward.trans {s t u : Source} (h : s.Onward t) (h' : t.Onward u) : s.Onward u :=
  ⟨h'.content_eq.trans h.content_eq, h'.pace_eq.trans h.pace_eq, h'.fault_eq.trans h.fault_eq,
    Nat.le_trans h.position_le h'.position_le⟩

theorem onward_read (s : Source) (count : Nat) : s.Onward (s.read count).2 := by
  unfold read
  split
  · exact ⟨rfl, rfl, rfl, Nat.le_refl _⟩
  · split
    · exact ⟨rfl, rfl, rfl, Nat.le_refl _⟩
    · exact ⟨rfl, rfl, rfl, Nat.le_add_right _ _⟩

theorem onward_fillFrom (got : Array UInt8) (count : Nat) (s : Source) :
    s.Onward (final (fillFrom got count s)) := by
  fun_induction fillFrom got count s with
  | case1 => exact .refl _
  | case2 got count s hc s' hr ih =>
    have hs := s.onward_read count
    rw [hr] at hs
    exact hs.trans ih
  | case3 got count s hc text s' hr =>
    have hs := s.onward_read count
    rwa [hr] at hs
  | case4 got count s hc bytes s' hr h0 =>
    have hs := s.onward_read count
    rwa [hr] at hs
  | case5 got count s hc bytes s' hr h0 ih =>
    have hs := s.onward_read count
    rw [hr] at hs
    exact hs.trans ih

end Source

/-- The step takes its source onward, also where it fails. -/
def Forward {α : Type} (act : Reading α) : Prop := ∀ s : Source, s.Onward (final (act s))

section Forward

variable {α β : Type}

theorem Forward.of_ok {act : Reading α} (h : Forward act) {s s' : Source} {a : α}
    (ha : act s = .ok a s') : s.Onward s' := by
  have hs := h s
  rwa [ha] at hs

theorem Forward.of_error {act : Reading α} (h : Forward act) {s s' : Source} {e : Error}
    (ha : act s = .error e s') : s.Onward s' := by
  have hs := h s
  rwa [ha] at hs

theorem forward_pure (a : α) : Forward (pure a) := fun s => .refl s

theorem forward_throw (e : Error) : Forward (throw e : Reading α) := fun s => .refl s

theorem Forward.bind {act : Reading α} {next : α → Reading β} (h : Forward act)
    (hn : ∀ a, Forward (next a)) : Forward (act >>= next) := by
  intro s
  rcases ha : act s with ⟨a, s'⟩ | ⟨e, s'⟩
  · rw [bind_of_ok ha]
    exact (h.of_ok ha).trans (hn a s')
  · rw [bind_of_error ha]
    exact h.of_error ha

theorem Forward.ite {p : Prop} [Decidable p] {act act' : Reading α} (h : Forward act)
    (h' : Forward act') : Forward (if p then act else act') := by
  split
  · exact h
  · exact h'

theorem forward_fill (count : Nat) : Forward (Source.fill count) := by
  intro s
  have hs := s.onward_fillFrom #[] count
  unfold Source.fill
  rcases hf : Source.fillFrom #[] count s with ⟨bytes, s'⟩ | ⟨e, s'⟩ <;> rw [hf] at hs
  · exact hs
  · exact hs

namespace Gzip

theorem forward_takeExactly (count : Nat) : Forward (takeExactly count) := by
  unfold takeExactly
  exact (forward_fill count).bind fun bytes => (forward_throw _).ite (forward_pure _)

theorem forward_skipText : Forward skipText := by
  intro s
  unfold skipText
  fun_induction skipTextFrom s with
  | case1 s e s' hf => exact (forward_fill 1).of_error hf
  | case2 s s' hf | case3 s s' bytes hf => exact (forward_fill 1).of_ok hf
  | case4 s b bytes s' hf _ hb ih => exact ((forward_fill 1).of_ok hf).trans ih

theorem forward_skipFields (flags : UInt8) : Forward (skipFields flags) := by
  rw [skipFields_eq]
  have hskip : ∀ p : Prop, [Decidable p] → Forward (if p then skipText else pure ()) :=
    fun p _ => forward_skipText.ite (forward_pure _)
  refine Forward.bind (Forward.ite ?_ (forward_pure _)) fun _ => (hskip _).bind fun _ =>
    (hskip _).bind fun _ => Forward.ite ?_ (forward_pure _)
  · exact (forward_takeExactly 2).bind fun _ => (forward_takeExactly _).bind fun _ =>
      forward_pure _
  · exact (forward_takeExactly 2).bind fun _ => forward_pure _

theorem forward_skipHeader : Forward skipHeader := by
  unfold skipHeader
  refine (forward_fill _).bind fun bytes => (forward_pure _).ite ?_
  split
  · refine (forward_throw _).ite ((forward_throw _).ite ((forward_throw _).ite ?_))
    exact (forward_skipFields _).bind fun _ => forward_pure _
  · exact forward_throw _

end Gzip

end Forward

end Carving
