import Carving.Format
import Carving.Proofs.Lockstep
import Carving.Proofs.MemberBoundary

/-!
# Calculations are steady

A session is steady in what it reads and in what it reports, and a member reader in what it holds
as well. Each calculation is composed of such steps, so that it is steady itself
(`Format.steady_boundary`), and it puts its source to an offset of its own before it reads
(`Format.boundary_seekTo`).
-/

namespace Carving

open Source (Beside)

section Session

variable {data : List UInt8} {fault : Option Fault} {α : Type}

/-- The sessions have reported the same, on sources side by side. -/
structure Session.Beside (data : List UInt8) (fault : Option Fault) (s t : Session) : Prop where
  source : Source.Beside data fault s.source t.source
  log_eq : s.log = t.log

theorem ofReading_eq_carry (act : Reading α) (session : Session) : Probe.ofReading act session
    = carry (fun source => { session with source := source }) (act session.source) := by
  unfold Probe.ofReading
  cases act session.source <;> rfl

theorem Steady.ofReading {act : Reading α} (h : Steady fault (Source.Beside data fault) act) :
    Steady fault (Session.Beside data fault) (Probe.ofReading act) := by
  intro s t hst
  rw [ofReading_eq_carry, ofReading_eq_carry]
  exact (h _ _ hst.source).carry fun _ _ h' => ⟨h', hst.log_eq⟩

theorem steady_report (event : Event) :
    Steady fault (Session.Beside data fault) (Probe.report event) :=
  fun _ _ h => .ok () ⟨h.source, by rw [h.log_eq]⟩

theorem steady_ofExcept (answer : Except Error α) :
    Steady fault (Session.Beside data fault) (Probe.ofExcept answer) := by
  rcases answer with e | a
  · exact steady_throw e
  · exact steady_pure a

end Session

section Formats

variable {data : List UInt8} {fault : Option Fault}

theorem Lzh.steady_boundary (start : Nat) :
    Steady fault (Session.Beside data fault) (Lzh.boundary start) := by
  unfold Lzh.boundary
  refine (Source.steady_seek _).ofReading.bind fun _ => ?_
  refine (Layout.steady_parse _ _).ofReading.bind fun record => ?_
  refine (steady_ofExcept _).bind fun level => ?_
  refine Steady.ite (steady_throw _) ?_
  refine (steady_ofExcept _).bind fun first => ?_
  refine (steady_ofExcept _).bind fun second => ?_
  refine (steady_ofExcept _).bind fun size => ?_
  refine (steady_ofExcept _).bind fun headerEnd => ?_
  refine (steady_ofExcept _).bind fun dataSize => ?_
  refine (steady_ofExcept _).bind fun declared => ?_
  refine Source.steady_length.ofReading.bind fun length => ?_
  exact Steady.ite ((steady_report _).bind fun _ => steady_ofExcept _) (steady_ofExcept _)

theorem Ntfs.steady_boundary (start : Nat) :
    Steady fault (Session.Beside data fault) (Ntfs.boundary start) := by
  unfold Ntfs.boundary
  refine (Source.steady_seek _).ofReading.bind fun _ => ?_
  refine (Layout.steady_parse _ _).ofReading.bind fun record => ?_
  refine (steady_ofExcept _).bind fun sectors => ?_
  refine (steady_ofExcept _).bind fun sectorSize => ?_
  refine Steady.ite ((steady_report _).bind fun _ => steady_pure _) ?_
  exact Source.steady_length.ofReading.bind fun length => steady_ofExcept _

theorem Ubifs.steady_boundary (start : Nat) :
    Steady fault (Session.Beside data fault) (Ubifs.boundary start) := by
  unfold Ubifs.boundary
  refine (Source.steady_seek _).ofReading.bind fun _ => ?_
  refine (Source.steady_fill _).ofReading.bind fun magic => ?_
  refine Steady.ite (steady_pure _) ?_
  split
  · exact steady_pure _
  refine (Source.steady_seek _).ofReading.bind fun _ => ?_
  refine (Layout.steady_parse _ _).ofReading.bind fun record => ?_
  refine (steady_ofExcept _).bind fun blockSize => ?_
  refine (steady_ofExcept _).bind fun blocks => ?_
  refine (steady_report _).bind fun _ => ?_
  refine (steady_ofExcept _).bind fun imageSize => Steady.ite (steady_pure _) ?_
  refine (steady_ofExcept _).bind fun stop => ?_
  exact Source.steady_length.ofReading.bind fun length => steady_ofExcept _

theorem Ubi.steady_boundary (start : Nat) :
    Steady fault (Session.Beside data fault) (Ubi.boundary start) := by
  unfold Ubi.boundary
  refine Ubi.steady_guessBlockSize.ofReading.bind fun blockSize => ?_
  split
  · exact (steady_report _).bind fun _ => steady_pure _
  refine (steady_report _).bind fun _ => Source.steady_length.ofReading.bind fun length => ?_
  refine (Ubi.steady_walkBlocks _ _).ofReading.bind fun stop => ?_
  exact Steady.ite (steady_pure _) (steady_ofExcept _)

end Formats

namespace Gzip

variable {data : List UInt8} {fault : Option Fault}

theorem steady_takeExactly (count : Nat) :
    Steady fault (Beside data fault) (takeExactly count) := by
  unfold takeExactly
  exact (Source.steady_fill _).bind fun bytes => Steady.ite (steady_throw _) (steady_pure _)

theorem skipText_eq (s : Source) : skipText s
    = (Source.fill 1 >>= fun bytes =>
        match bytes with
        | [] => throw Defect.headerTruncated.error
        | b :: _ => if b = 0 then pure () else skipText) s := by
  change skipTextFrom s = _
  rw [skipTextFrom]
  split <;> rename_i hf _
  · exact (bind_of_error hf).symm
  · rw [bind_of_ok hf]
    rfl
  · rw [bind_of_ok hf]
    dsimp only
    split <;> rfl

theorem sameEnd_skipText {s t : Source} (h : Beside data fault s t) :
    SameEnd fault (Beside data fault) (skipText s) (skipText t) := by
  rw [skipText_eq s, skipText_eq t]
  refine (Source.steady_fill 1 s t h).bind fun bytes s' t' hs h' => ?_
  rcases bytes with _ | ⟨b, bytes⟩
  · exact .error _ h'
  · dsimp only
    by_cases hb : b = 0
    · rw [if_pos hb]
      exact .ok _ h'
    · rw [if_neg hb]
      exact sameEnd_skipText h'
termination_by s.remaining
decreasing_by exact Source.fill_remaining_lt hs (by simp)

theorem steady_skipText : Steady fault (Beside data fault) skipText :=
  fun _ _ h => sameEnd_skipText h

theorem steady_skipFields (flags : UInt8) :
    Steady fault (Beside data fault) (skipFields flags) := by
  have hskip : ∀ p : Prop, [Decidable p] →
      Steady fault (Beside data fault) (if p then skipText else pure ()) :=
    fun p _ => Steady.ite steady_skipText (steady_pure _)
  rw [skipFields_eq]
  refine Steady.bind (Steady.ite ?_ (steady_pure _)) fun _ => (hskip _).bind fun _ =>
    (hskip _).bind fun _ => Steady.ite ?_ (steady_pure _)
  · exact (steady_takeExactly 2).bind fun length => (steady_takeExactly _).bind fun _ =>
      steady_pure _
  · exact (steady_takeExactly 2).bind fun _ => steady_pure _

theorem steady_skipHeader : Steady fault (Beside data fault) skipHeader := by
  unfold skipHeader
  refine (Source.steady_fill _).bind fun bytes => Steady.ite (steady_pure _) ?_
  split
  · refine Steady.ite (steady_throw _) (Steady.ite (steady_throw _) ?_)
    refine Steady.ite (steady_throw _) ?_
    exact (steady_skipFields _).bind fun _ => steady_pure _
  · exact steady_throw _

namespace Member

/-- The members have come equally far, in sessions side by side. -/
structure Beside (data : List UInt8) (fault : Option Fault) (m n : Member) : Prop where
  session : m.session.Beside data fault n.session
  unused_eq : m.unused = n.unused
  decoder_eq : m.decoder = n.decoder
  register_eq : m.register = n.register
  size_eq : m.size = n.size

variable {α : Type} {m n : Member}

theorem onSession_eq_carry (act : Probe α) (m : Member) : onSession act m
    = carry (fun session => { m with session := session }) (act m.session) := by
  unfold onSession
  dsimp only
  cases act m.session <;> rfl

theorem steady_onSession {act : Probe α} (h : Steady fault (Session.Beside data fault) act) :
    Steady fault (Beside data fault) (onSession act) := by
  intro m n hmn
  rw [onSession_eq_carry, onSession_eq_carry]
  exact (h _ _ hmn.session).carry fun _ _ h' =>
    ⟨h', hmn.unused_eq, hmn.decoder_eq, hmn.register_eq, hmn.size_eq⟩

/-- What follows may use of a member what members that have come equally far share. -/
theorem steady_get_bind {next : Member → Decoding α}
    (hn : ∀ m n, Beside data fault m n → next m = next n)
    (h : ∀ m, Steady fault (Beside data fault) (next m)) :
    Steady fault (Beside data fault) (get >>= next) := by
  intro m n hb
  change SameEnd fault (Beside data fault) (next m m) (next n n)
  rw [hn m n hb]
  exact h n m n hb

theorem steady_hold (bytes : List UInt8) :
    Steady fault (Beside data fault) (modify fun m => { m with unused := bytes }) :=
  fun _ _ h => .ok () ⟨h.session, rfl, h.decoder_eq, h.register_eq, h.size_eq⟩

theorem refill_eq (m : Member) : refill m
    = (get >>= fun held : Member =>
        if held.unused = [] then
          onSession (Probe.ofReading (Source.fill inputSize)) >>= fun bytes =>
            if bytes = [] then throw Defect.dataEnded.error
            else modify fun m => { m with unused := bytes }
        else pure ()) m := by
  change _ = (if m.unused = [] then _ else pure () : Decoding Unit) m
  obtain ⟨session, _ | ⟨b, rest⟩, decoder, register, size⟩ := m
  · rw [if_pos rfl]
    unfold refill
    dsimp only
    rcases hr : Probe.ofReading (Source.fill inputSize) session with ⟨bytes, s⟩ | ⟨e, s⟩
    · rw [bind_of_ok (a := bytes) (onSession_of_ok hr)]
      cases bytes <;> rfl
    · rw [bind_of_error (onSession_of_error hr)]
  · rfl

theorem steady_refill : Steady fault (Beside data fault) refill := by
  intro m n h
  rw [refill_eq m, refill_eq n]
  refine steady_get_bind (fun m n h => by simp only [h.unused_eq]) (fun m => ?_) m n h
  refine Steady.ite ?_ (steady_pure _)
  refine (steady_onSession (Source.steady_fill _).ofReading).bind fun bytes => ?_
  exact Steady.ite (steady_throw _) (steady_hold bytes)

theorem steady_decodeHeld : Steady fault (Beside data fault) decodeHeld := by
  rintro ⟨⟨s, log⟩, unused, decoder, register, size⟩ ⟨⟨t, _⟩, _, _, _, _⟩
    ⟨⟨hst, rfl⟩, rfl, rfl, rfl, rfl⟩
  unfold decodeHeld
  simp only [Arithmetic.add_exact]
  split
  · exact .error _ ⟨⟨hst, rfl⟩, rfl, rfl, rfl, rfl⟩
  · split
    · exact .ok _ ⟨⟨hst, rfl⟩, rfl, rfl, rfl, rfl⟩
    · split
      · exact .error _ ⟨⟨hst, rfl⟩, rfl, rfl, rfl, rfl⟩
      · exact .ok _ ⟨⟨hst, rfl⟩, rfl, rfl, rfl, rfl⟩

theorem decodeNext_eq (m : Member) : decodeNext m = (refill >>= fun _ => decodeHeld) m := by
  unfold decodeNext
  split <;> rename_i h
  · exact (bind_of_error h).symm
  · rw [bind_of_ok h]

theorem steady_decodeNext : Steady fault (Beside data fault) decodeNext := by
  intro m n h
  rw [decodeNext_eq m, decodeNext_eq n]
  exact steady_refill.bind (fun _ => steady_decodeHeld) m n h

theorem readData_eq (m : Member) : readData m
    = (decodeNext >>= fun ended => if ended then pure () else readData) m := by
  rw [readData]
  split <;> rename_i hf _
  · exact (bind_of_error hf).symm
  · rw [bind_of_ok hf]
    rfl
  · rw [bind_of_ok hf]
    rfl

theorem sameEnd_readData {m n : Member} (h : Beside data fault m n) :
    SameEnd fault (Beside data fault) (readData m) (readData n) := by
  rw [readData_eq m, readData_eq n]
  refine (steady_decodeNext m n h).bind fun ended m' n' hm h' => ?_
  cases ended with
  | true => exact .ok _ h'
  | false => exact sameEnd_readData h'
termination_by (m.supply, m.decoder.effort)
decreasing_by exact decodeNext_false hm

theorem steady_readData : Steady fault (Beside data fault) readData :=
  fun _ _ h => sameEnd_readData h

theorem steady_readHeader : Steady fault (Beside data fault) readHeader :=
  steady_onSession steady_skipHeader.ofReading

theorem Beside.checksum_eq (h : Beside data fault m n) : m.checksum = n.checksum := by
  rw [checksum, checksum, h.register_eq]

theorem Beside.storedSize_eq (h : Beside data fault m n) : m.storedSize = n.storedSize := by
  rw [storedSize, storedSize, h.size_eq]

theorem steady_verifyTrailer : Steady fault (Beside data fault) verifyTrailer := by
  unfold verifyTrailer verifyTrailerBy
  refine steady_get_bind (fun m n h => by simp only [h.unused_eq]) fun m => ?_
  refine (steady_onSession (Source.steady_rewind _).ofReading).bind fun _ => ?_
  refine (steady_hold []).bind fun _ => ?_
  refine (steady_onSession (Source.steady_fill _).ofReading).bind fun trailer => ?_
  refine Steady.ite (steady_throw _) ?_
  refine steady_get_bind (fun m n h => by simp only [h.checksum_eq, h.storedSize_eq]) fun m => ?_
  exact Steady.ite (steady_throw _) (Steady.ite (steady_throw _) (steady_pure _))

end Member

theorem steady_readMember : Steady fault (Member.Beside data fault) readMember := by
  unfold readMember
  refine Member.steady_readHeader.bind fun found => Steady.ite (steady_pure _) ?_
  exact Member.steady_readData.bind fun _ => Member.steady_verifyTrailer.bind fun _ =>
    steady_pure _

theorem withMember_eq_carry {α : Type} (act : Decoding α) (session : Session) :
    withMember act session = carry Member.session (act (.ofSession session)) := by
  unfold Gzip.withMember
  cases act (.ofSession session) <;> rfl

theorem steady_withMember {α : Type} {act : Decoding α}
    (h : Steady fault (Member.Beside data fault) act) :
    Steady fault (Session.Beside data fault) (withMember act) := by
  intro s t hst
  rw [withMember_eq_carry, withMember_eq_carry]
  exact (h (.ofSession s) (.ofSession t) ⟨hst, rfl, rfl, rfl, rfl⟩).carry fun _ _ h' => h'.session

theorem steady_boundary (start : Nat) :
    Steady fault (Session.Beside data fault) (boundary start) := by
  unfold boundary
  refine (Source.steady_seek _).ofReading.bind fun _ => ?_
  refine (steady_withMember steady_readMember).bind fun found => Steady.ite (steady_pure _) ?_
  refine Source.steady_tell.ofReading.bind fun memberEnd => ?_
  refine (Source.steady_skipRun 0).ofReading.bind fun stop => ?_
  have hlast : Steady fault (Session.Beside data fault)
      ((Source.length : Reading Nat) >>= fun length =>
        Probe.ofExcept ((Chunk.within start stop length).map some) : Probe (Option Chunk)) :=
    Source.steady_length.ofReading.bind fun length => steady_ofExcept _
  exact Steady.ite ((steady_report _).bind fun _ => hlast) hlast

end Gzip

namespace Format

variable {data : List UInt8} {fault : Option Fault}

/-- Every calculation comes to the same answer, unless it meets the fault. -/
theorem steady_boundary (format : Format) (start : Nat) :
    Steady fault (Session.Beside data fault) (format.boundary start) := by
  cases format with
  | gzip => exact Gzip.steady_boundary start
  | lzh => exact Lzh.steady_boundary start
  | ntfs => exact Ntfs.steady_boundary start
  | ubifs => exact Ubifs.steady_boundary start
  | ubi => exact Ubi.steady_boundary start

/-- Where the source stands before makes no difference. -/
theorem boundary_seekTo (format : Format) (start p : Nat) (session : Session) :
    format.boundary start (session.seekTo p) = format.boundary start session := by
  cases format <;> rfl

end Format

end Carving
