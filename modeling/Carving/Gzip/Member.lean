import Carving.Arithmetic
import Carving.Checksum.Crc32
import Carving.Deflate.Progress
import Carving.Event
import Carving.Gzip.Header

/-!
# Decoding one member

A member reader takes compressed bytes from a source in blocks, and so holds more of them than the
member needs when it comes to the member's end. The bytes that it holds stand just before the
position of the source, and the trailer begins with the first of them.
-/

namespace Carving.Gzip

def inputSize : Nat := 8192

/-- The number of bytes in a trailer: the check value and the size. -/
def trailerSize : Nat := 8

/-- A member that has been decoded in part. -/
structure Member where
  session : Session
  /-- The bytes that have been read and not been decoded. -/
  unused : List UInt8
  decoder : Deflate.Decoder
  register : UInt32
  size : Nat

abbrev Decoding (α : Type) := EStateM Error Member α

namespace Member

variable {α : Type}

def ofSession (session : Session) : Member := ⟨session, [], .start, Crc32.start, 0⟩

def checksum (m : Member) : UInt32 := Crc32.close m.register

/-- The size of all output so far, as far as the four bytes in a trailer hold it. -/
def storedSize (m : Member) : Nat := m.size % capacity 4

/-- How many bytes may still come to be decoded. -/
def supply (m : Member) : Nat := m.session.source.remaining + m.unused.length

def onSession (act : Probe α) : Decoding α := fun m =>
  let ⟨session, unused, decoder, register, size⟩ := m
  match act session with
  | .ok a session => .ok a ⟨session, unused, decoder, register, size⟩
  | .error e session => .error e ⟨session, unused, decoder, register, size⟩

def readHeader : Decoding Bool := onSession (Probe.ofReading skipHeader)

/-- Reads the next block of bytes when none is left to decode. -/
def refill (m : Member) : EStateM.Result Error Member Unit :=
  let ⟨session, unused, decoder, register, size⟩ := m
  match unused with
  | b :: rest => .ok () ⟨session, b :: rest, decoder, register, size⟩
  | [] =>
    match Probe.ofReading (Source.fill inputSize) session with
    | .error e session => .error e ⟨session, [], decoder, register, size⟩
    | .ok [] session => .error Defect.dataEnded.error ⟨session, [], decoder, register, size⟩
    | .ok (b :: rest) session => .ok () ⟨session, b :: rest, decoder, register, size⟩

theorem refill_ok {m m' : Member} {u : Unit} (h : m.refill = .ok u m') :
    m'.supply = m.supply ∧ m'.unused ≠ [] ∧ m'.decoder = m.decoder := by
  obtain ⟨session, _ | ⟨b, rest⟩, decoder, register, size⟩ := m
  · simp only [refill, Probe.ofReading] at h
    split at h
    · cases h
    · cases h
    · rename_i hf
      split at hf
      · rename_i hs
        cases hf
        cases h
        obtain ⟨-, -, h1, h2, h3⟩ := Source.fill_ok hs
        have h4 := h3 (by simp)
        refine ⟨?_, by simp, rfl⟩
        simp only [supply, Source.remaining, h1, List.length_nil]
        omega
      · cases hf
  · cases h
    exact ⟨rfl, by simp, rfl⟩

/-- Calls the decoder once on the bytes that are held, and tells whether the compressed data has
ended. -/
def decodeHeld [Arithmetic] : Decoding Bool := fun m =>
  let ⟨session, unused, decoder, register, size⟩ := m
  match decoder.decode unused with
  | (none, decoder) => .error Defect.dataCorrupt.error ⟨session, unused, decoder, register, size⟩
  | (some progress, decoder) =>
    let unused := unused.drop progress.consumed
    let register := Crc32.feedAll register progress.produced
    match Arithmetic.add size progress.produced.length with
    | .error e => .error e ⟨session, unused, decoder, register, size⟩
    | .ok size =>
      if progress.ended then
        let event := Event.memberInflated decoder.taken size unused.length
        let session := { session with log := session.log ++ [event] }
        .ok true ⟨session, unused, decoder, register, size⟩
      else if progress.consumed = 0 ∧ progress.produced = [] then
        .error Defect.noProgress.error ⟨session, unused, decoder, register, size⟩
      else .ok false ⟨session, unused, decoder, register, size⟩

/-- Calls the decoder once, on the next block of bytes if none is left. -/
def decodeNext [Arithmetic] : Decoding Bool := fun m =>
  match m.refill with
  | .error e m => .error e m
  | .ok () m => m.decodeHeld

/-- The order on what members have left to decode. -/
def Less (m' m : Member) : Prop :=
  Prod.Lex (· < ·) Deflate.Decoder.effortLt (m'.supply, m'.decoder.effort)
    (m.supply, m.decoder.effort)

theorem decodeHeld_false [Arithmetic] {m m' : Member} (h : m.decodeHeld = .ok false m')
    (hu : m.unused ≠ []) : m'.Less m := by
  obtain ⟨session, unused, decoder, register, size⟩ := m
  have hl := List.length_pos_iff.2 hu
  simp only [decodeHeld] at h
  split at h
  · cases h
  · rename_i progress decoder' hd
    split at h
    · cases h
    split at h
    · cases h
    split at h
    · cases h
    · rename_i hn
      cases h
      simp only at hu hl
      by_cases hc : 0 < progress.consumed
      · refine .left _ _ ?_
        simp only [supply, List.length_drop]
        omega
      · have hc0 : progress.consumed = 0 := by omega
        rcases Deflate.Decoder.decode_progress hd hu with h | h | h
        · exact absurd h hc
        · rw [Less, hc0, List.drop_zero]
          exact .right _ h
        · exact absurd ⟨hc0, h⟩ hn

/-- A call that does not end the data takes bytes, or leaves the decoder less to do. -/
theorem decodeNext_false [Arithmetic] {m m' : Member} (h : m.decodeNext = .ok false m') :
    m'.Less m := by
  unfold decodeNext at h
  split at h
  · cases h
  · rename_i m1 hr
    obtain ⟨h1, h2, h3⟩ := refill_ok hr
    have := decodeHeld_false h h2
    rwa [Less, h1, h3] at this

def readData [Arithmetic] (m : Member) : EStateM.Result Error Member Unit :=
  match (⟨m.decodeNext, rfl⟩ : { r // m.decodeNext = r }) with
  | ⟨.error e m, _⟩ => .error e m
  | ⟨.ok true m, _⟩ => .ok () m
  | ⟨.ok false m, _h⟩ => readData m
termination_by (m.supply, m.decoder.effort)
decreasing_by exact decodeNext_false _h

/-- Reads the trailer, which must fit the output. The bytes that are held are given back first,
which is told by `rewind`, so that the source then stands behind the member. -/
def verifyTrailerBy (rewind : Nat → Reading Unit) : Decoding Unit := do
  let held := (← get).unused
  onSession (Probe.ofReading (rewind held.length))
  modify fun m => { m with unused := [] }
  let trailer ← onSession (Probe.ofReading (Source.fill trailerSize))
  if trailer.length < trailerSize then throw Defect.trailerTruncated.error
  let checksum := Endian.ofLittle (trailer.take 4)
  let size := Endian.ofLittle (trailer.drop 4)
  let m ← get
  if checksum ≠ m.checksum.toNat then
    throw (Defect.checksumMismatch checksum m.checksum.toNat).error
  if size ≠ m.storedSize then throw (Defect.sizeMismatch size m.storedSize).error

def verifyTrailer : Decoding Unit := verifyTrailerBy Source.rewind

end Member

end Carving.Gzip
