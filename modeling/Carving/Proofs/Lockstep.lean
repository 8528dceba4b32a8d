import Carving.Flash.Ubi
import Carving.Proofs.Serving
import Carving.Record.Layout

/-!
# Reading with and without a fault

Two sources hold the same bytes and stand at one position; the first may meet a fault and the second
meets none. A step is steady if it fails with the fault of the first source, or else comes to the
same end from both and leaves them at one position again. Filling a buffer is steady however few
bytes a device delivers and however often it is interrupted (`steady_fill`), and whatever is
composed of steady steps is steady (`Steady.bind`): no step takes the bytes that came before a fault
for all that there are.
-/

namespace Carving

section Steady

variable {σ α β : Type} {fault : Option Fault} {R : σ → σ → Prop}

/-- A run that may meet the fault beside one that meets none: it fails with the text of the fault,
or both come to the same end in related states. -/
inductive SameEnd (fault : Option Fault) (R : σ → σ → Prop) :
    EStateM.Result Error σ α → EStateM.Result Error σ α → Prop
  | failed {f : Fault} (hf : fault = some f) (s : σ) (other : EStateM.Result Error σ α) :
    SameEnd fault R (.error (.io f.text) s) other
  | ok (a : α) {s t : σ} (h : R s t) : SameEnd fault R (.ok a s) (.ok a t)
  | error (e : Error) {s t : σ} (h : R s t) : SameEnd fault R (.error e s) (.error e t)

/-- From related states the step comes to the same end, unless it meets the fault. -/
def Steady (fault : Option Fault) (R : σ → σ → Prop) (act : EStateM Error σ α) : Prop :=
  ∀ s t, R s t → SameEnd fault R (act s) (act t)

variable {act : EStateM Error σ α} {next : α → EStateM Error σ β}

theorem steady_pure (a : α) : Steady fault R (pure a) := fun _ _ h => .ok a h

theorem steady_throw (e : Error) : Steady fault R (throw e : EStateM Error σ α) :=
  fun _ _ h => .error e h

/-- The steps that follow need to come to the same end only in states that the first step leads
to. -/
theorem SameEnd.bind {s t : σ} (h : SameEnd fault R (act s) (act t))
    (hn : ∀ a s' t', act s = .ok a s' → R s' t' → SameEnd fault R (next a s') (next a t')) :
    SameEnd fault R ((act >>= next) s) ((act >>= next) t) := by
  rcases hs : act s with ⟨a, s'⟩ | ⟨e, s'⟩ <;> rcases ht : act t with ⟨b, t'⟩ | ⟨e', t'⟩ <;>
    rw [hs, ht] at h
  · cases h with
    | ok _ h' =>
      rw [bind_of_ok hs, bind_of_ok ht]
      exact hn a s' t' hs h'
  · cases h
  · rw [bind_of_error hs]
    cases h with
    | failed hf => exact .failed hf _ _
  · rw [bind_of_error hs]
    cases h with
    | failed hf => exact .failed hf _ _
    | error _ h' =>
      rw [bind_of_error ht]
      exact .error _ h'

/-- What a step on a part of the state comes to in the whole. -/
def carry {τ : Type} (put : σ → τ) : EStateM.Result Error σ α → EStateM.Result Error τ α
  | .ok a s => .ok a (put s)
  | .error e s => .error e (put s)

theorem SameEnd.carry {τ : Type} {S : τ → τ → Prop} {r r' : EStateM.Result Error σ α}
    (h : SameEnd fault R r r') {put put' : σ → τ} (hput : ∀ s t, R s t → S (put s) (put' t)) :
    SameEnd fault S (Carving.carry put r) (Carving.carry put' r') := by
  cases h with
  | failed hf => exact .failed hf _ _
  | ok a h => exact .ok a (hput _ _ h)
  | error e h => exact .error e (hput _ _ h)

theorem Steady.bind (h : Steady fault R act) (hn : ∀ a, Steady fault R (next a)) :
    Steady fault R (act >>= next) :=
  fun s t hst => (h s t hst).bind fun a _ _ _ h' => hn a _ _ h'

theorem Steady.ite {p : Prop} [Decidable p] {act' : EStateM Error σ α}
    (h : Steady fault R act) (h' : Steady fault R act') :
    Steady fault R (if p then act else act') := by
  split
  · exact h
  · exact h'

end Steady

namespace Source

/-- The sources stand side by side on the data: the first offers, up to the fault, what the second
serves. -/
def Beside (data : List UInt8) (fault : Option Fault) (s t : Source) : Prop :=
  ∃ position, s.Offers data position fault ∧ t.Serves data position

variable {data : List UInt8} {fault : Option Fault} {s t : Source}

theorem Beside.position_eq (h : Beside data fault s t) : s.position = t.position := by
  obtain ⟨_, hs, ht⟩ := h
  rw [hs.position_eq, ht.position_eq]

theorem Beside.size_eq (h : Beside data fault s t) : s.content.size = t.content.size := by
  obtain ⟨_, hs, ht⟩ := h
  rw [hs.size_eq, ht.size_eq]

theorem Beside.seek (h : Beside data fault s t) (p : Nat) :
    Beside data fault { s with position := p } { t with position := p } := by
  obtain ⟨_, hs, ht⟩ := h
  exact ⟨_, hs.seek p, ht.seek p⟩

/-- However the devices deliver, a buffer is filled with the same bytes. -/
theorem steady_fill (count : Nat) : Steady fault (Beside data fault) (fill count) := by
  rintro s t ⟨position, hs, ht⟩
  obtain ⟨t', h2, ht'⟩ := ht.fill count
  rw [h2]
  rcases hs.fill count with ⟨f, s', hf, h1⟩ | ⟨s', h1, hs'⟩
  · rw [h1]
    exact .failed hf _ _
  · rw [h1]
    exact .ok _ ⟨_, hs', ht'⟩

theorem steady_seek (p : Nat) : Steady fault (Beside data fault) (seek p) :=
  fun _ _ h => .ok () (h.seek p)

theorem steady_rewind (count : Nat) : Steady fault (Beside data fault) (rewind count) := by
  intro s t h
  unfold rewind
  rw [h.position_eq]
  split
  · exact .ok () (h.seek _)
  · exact .error _ h

theorem steady_tell : Steady fault (Beside data fault) tell := by
  intro s t h
  unfold tell
  rw [h.position_eq]
  exact .ok _ h

theorem steady_length : Steady fault (Beside data fault) length := by
  intro s t h
  unfold length
  rw [h.size_eq]
  exact .ok _ h

theorem skipRun_eq (byte : UInt8) (s : Source) : skipRun byte s
    = (fill blockSize >>= fun bytes =>
        match bytes with
        | [] => pure s.position
        | b :: bytes =>
          match (b :: bytes).findIdx? (· != byte) with
          | some i => seek (s.position + i) >>= fun _ => pure (s.position + i)
          | none => skipRun byte) s := by
  rw [skipRun, skipRunFrom]
  split <;> rename_i hf _
  · exact (bind_of_error hf).symm
  · rw [bind_of_ok hf]
    rfl
  · rename_i b bytes _ _
    rw [bind_of_ok hf]
    dsimp only
    rcases (b :: bytes).findIdx? (· != byte) with _ | i <;> rfl

theorem sameEnd_skipRun (byte : UInt8) {s t : Source} (h : Beside data fault s t) :
    SameEnd fault (Beside data fault) (skipRun byte s) (skipRun byte t) := by
  rw [skipRun_eq byte s, skipRun_eq byte t, h.position_eq]
  refine (steady_fill blockSize s t h).bind fun bytes s' t' hs h' => ?_
  rcases bytes with _ | ⟨b, bytes⟩
  · exact .ok _ h'
  · dsimp only
    rcases (b :: bytes).findIdx? (· != byte) with _ | i
    · exact sameEnd_skipRun byte h'
    · exact .ok _ (h'.seek _)
termination_by s.remaining
decreasing_by exact fill_remaining_lt hs (by simp)

theorem steady_skipRun (byte : UInt8) : Steady fault (Beside data fault) (skipRun byte) :=
  fun _ _ h => sameEnd_skipRun byte h

theorem findFrom_eq (pattern window : List UInt8) (offset : Nat) (s : Source) :
    findFrom pattern window offset s
      = (fill blockSize >>= fun bytes =>
          match bytes with
          | [] => pure []
          | b :: bytes =>
            let window := window ++ b :: bytes
            let dropped := window.length - min (pattern.length - 1) window.length
            match advanceWindow pattern window offset dropped with
            | .error e => throw e
            | .ok (found, next) => findFrom pattern (window.drop dropped) next >>= fun more =>
              pure (found ++ more)) s := by
  rw [findFrom]
  split <;> rename_i hf _
  · exact (bind_of_error hf).symm
  · rw [bind_of_ok hf]
    rfl
  · rw [bind_of_ok hf]
    dsimp only
    generalize advanceWindow pattern _ offset _ = step
    rcases step with e | ⟨found, next⟩
    · rfl
    · dsimp only
      split <;> rename_i hr
      · exact (bind_of_error hr).symm
      · rw [bind_of_ok hr]
        rfl

theorem sameEnd_findFrom (pattern window : List UInt8) (offset : Nat) {s t : Source}
    (h : Beside data fault s t) : SameEnd fault (Beside data fault)
      (findFrom pattern window offset s) (findFrom pattern window offset t) := by
  rw [findFrom_eq pattern window offset s, findFrom_eq pattern window offset t]
  refine (steady_fill blockSize s t h).bind fun bytes s' t' hs h' => ?_
  rcases bytes with _ | ⟨b, bytes⟩
  · exact .ok _ h'
  · dsimp only
    generalize advanceWindow pattern _ offset _ = step
    rcases step with e | ⟨found, next⟩
    · exact .error _ h'
    · exact (sameEnd_findFrom pattern _ _ h').bind fun _ _ _ _ h'' => .ok _ h''
termination_by s.remaining
decreasing_by exact fill_remaining_lt hs (by simp)

theorem steady_findAll (pattern : List UInt8) :
    Steady fault (Beside data fault) (findAll pattern) := by
  unfold findAll
  refine Steady.ite (steady_pure _) ((steady_seek 0).bind fun _ => ?_)
  exact fun _ _ h => sameEnd_findFrom pattern [] 0 h

end Source

open Source (Beside)

variable {data : List UInt8} {fault : Option Fault}

theorem Layout.steady_parse (l : Layout) (e : Endian) :
    Steady fault (Beside data fault) (l.parse e) := by
  unfold Layout.parse
  refine Source.steady_tell.bind fun offset => (Source.steady_fill _).bind fun bytes => ?_
  refine Steady.ite (steady_throw _) ?_
  split
  · exact steady_pure _
  · exact steady_throw _

theorem steady_inferStride (marker : List UInt8) :
    Steady fault (Beside data fault) (inferStride marker) := by
  unfold inferStride
  refine (Source.steady_findAll marker).bind fun offsets => ?_
  split
  · split
    · exact steady_pure _
    · exact steady_throw _
  · exact steady_throw _

namespace Ubi

theorem steady_fillAt (offset : Nat) : Steady fault (Beside data fault) (fillAt offset) :=
  fun _ _ h => Source.steady_fill marker.length _ _ (h.seek offset)

theorem walkBlocks_eq (start stride : Nat) (s : Source) : walkBlocks start stride s
    = (fillAt start >>= fun bytes =>
        if bytes = marker ∧ stride ≠ 0 then walkBlocks (start + stride) stride
        else pure start) s := by
  rw [walkBlocks, walk]
  split <;> rename_i hf _
  · exact (bind_of_error hf).symm
  · rw [bind_of_ok hf]
    split <;> rfl

theorem sameEnd_walkBlocks (start stride : Nat) {s t : Source} (h : Beside data fault s t) :
    SameEnd fault (Beside data fault) (walkBlocks start stride s) (walkBlocks start stride t) := by
  rw [walkBlocks_eq start stride s, walkBlocks_eq start stride t]
  refine (steady_fillAt start s t h).bind fun bytes s' t' hs h' => ?_
  by_cases hc : bytes = marker ∧ stride ≠ 0
  · rw [if_pos hc]
    exact sameEnd_walkBlocks (start + stride) stride h'
  · rw [if_neg hc]
    exact .ok _ h'
termination_by s.content.size - start
decreasing_by
  obtain ⟨h1, h2⟩ := fillAt_marker (hc.1 ▸ hs)
  have : marker.length = 4 := rfl
  rw [h1]
  omega

theorem steady_walkBlocks (start stride : Nat) :
    Steady fault (Beside data fault) (walkBlocks start stride) :=
  fun _ _ h => sameEnd_walkBlocks start stride h

theorem steady_guessBlockSize : Steady fault (Beside data fault) guessBlockSize := by
  intro s t h
  have hend := steady_inferStride marker s t h
  unfold guessBlockSize
  generalize inferStride marker s = r at hend
  generalize inferStride marker t = r' at hend
  cases hend with
  | failed hf => exact .failed hf _ _
  | ok _ h' => exact .ok _ h'
  | error e h' =>
    cases e with
    | strideNotFound => exact .ok _ h'
    | _ => exact .error _ h'

end Ubi

end Carving
