import PrefixCache.Proofs.Connection.Turning
/-!
# What a stream comes to

A whole stream of requests can be cut into frames before any of them is
answered: lengths with so many bytes after each, up to a tail that is no
frame (`frames`). Answering the bodies one after the other then gives the
requests, the bytes that are written, the store that is left and the ending
(`Transcript.ofStream`). No buffer, phase or moment of arrival occurs in
this. It is what connections have to come to.
-/

namespace PrefixCache

/-! ## Frames -/

/-- What is left of a stream after its last frame. -/
inductive Tail where
  /-- Less than a length. -/
  | short
  /-- A length that is out of bounds. -/
  | badLength (length : Int)
  /-- A length with fewer bytes after it. -/
  | brokenOff
  deriving Repr, DecidableEq

/-- How a connection ends at a tail. -/
def Tail.ending (most : Nat) : Tail → Ending
  | short => .ok ()
  | badLength length => .error (.badLength length most)
  | brokenOff => .error .unexpectedEnd

/-- Cuts the first body off a stream, with the length before it. -/
def frame? (most : Nat) (stream : Bytes) : Except Tail (Bytes × Bytes) :=
  match Bytes.cut? 4 stream with
  | none => .error .short
  | some (word, rest) =>
    let length := Bytes.signedValue 4 word
    if length < 2 ∨ (most : Int) < length then .error (.badLength length)
    else
      match Bytes.cut? length.toNat rest with
      | none => .error .brokenOff
      | some (body, rest) => .ok (body, rest)

/-- A frame has a length and a body of at least two bytes, and what follows
it is shorter. -/
theorem frame?_eq_ok {most : Nat} {stream body rest : Bytes}
    (h : frame? most stream = .ok (body, rest)) :
    2 ≤ body.length ∧ rest.length < stream.length := by
  unfold frame? at h
  split at h
  · cases h
  · next word after hword =>
    obtain ⟨rfl, hlen⟩ := Bytes.cut?_eq_some.1 hword
    simp only at h
    split at h
    · cases h
    · next hallowed =>
      split at h
      · cases h
      · next body' rest' hbody =>
        obtain ⟨rfl, hlength⟩ := Bytes.cut?_eq_some.1 hbody
        obtain ⟨rfl, rfl⟩ := Prod.mk.inj (Except.ok.inj h)
        simp only [List.length_append]
        omega

/-- Cuts a stream into bodies, up to its tail. -/
def frames (most : Nat) (stream : Bytes) : List Bytes × Tail :=
  match _h : frame? most stream with
  | .error tail => ([], tail)
  | .ok (body, rest) =>
    let (bodies, tail) := frames most rest
    (body :: bodies, tail)
termination_by stream.length
decreasing_by exact (frame?_eq_ok ‹_›).2

theorem frames_of_error {most : Nat} {stream : Bytes} {tail : Tail}
    (h : frame? most stream = .error tail) : frames most stream = ([], tail) := by
  rw [frames]
  split
  · next tail' h' =>
    rw [h] at h'
    cases h'
    rfl
  · next h' =>
    rw [h] at h'
    cases h'

theorem frames_of_ok {most : Nat} {stream body rest : Bytes}
    (h : frame? most stream = .ok (body, rest)) :
    frames most stream = (body :: (frames most rest).1, (frames most rest).2) := by
  rw [frames]
  split
  · next h' =>
    rw [h] at h'
    cases h'
  · next h' =>
    rw [h] at h'
    cases h'
    rfl

theorem two_le_length_of_mem_frames {most : Nat} {stream body : Bytes}
    (h : body ∈ (frames most stream).1) : 2 ≤ body.length := by
  induction stream using frames.induct most with
  | case1 stream tail hframe =>
    rw [frames_of_error hframe] at h
    cases h
  | case2 stream first rest hframe bodies tail _ ih =>
    rw [frames_of_ok hframe] at h
    rcases List.mem_cons.1 h with rfl | hlater
    · exact (frame?_eq_ok hframe).1
    · exact ih hlater

/-- Cuts a stream into bodies that begins where a connection is between two
requests. After the last reply nothing is cut any more. -/
def framesFrom (most : Nat) : Phase → Bytes → List Bytes × Tail
  | .awaitingLength, stream => frames most stream
  | .awaitingBody length, stream =>
    match Bytes.cut? length stream with
    | none => ([], .brokenOff)
    | some (body, rest) => (body :: (frames most rest).1, (frames most rest).2)
  | .sending false, stream => frames most stream
  | .sending true, _ => ([], .short)

section Frames

variable {most : Nat} {word body rest : Bytes} {length : Int}

theorem frames_of_short (h : rest.length < Connection.lengthWidth) :
    frames most rest = ([], .short) := by
  have hcut : Bytes.cut? 4 rest = none := Bytes.cut?_eq_none.2 h
  refine frames_of_error ?_
  rw [frame?, hcut]

theorem frames_of_badLength (hmost : most < 9223372036854775808)
    (hword : word.length = Connection.lengthWidth)
    (hlength : Bytes.signedValue Connection.lengthWidth word = length)
    (hrefused : ¬ (Connection.shortestRequest ≤ length ∧ length ≤ signed64 most)) :
    frames most (word ++ rest) = ([], .badLength length) := by
  rw [signed64_of_lt hmost] at hrefused
  have hcut : Bytes.cut? 4 (word ++ rest) = some (word, rest) := Bytes.cut?_append hword rest
  have hout : length < 2 ∨ (most : Int) < length := by
    simp only [Connection.shortestRequest] at hrefused
    omega
  rw [Connection.lengthWidth] at hlength
  refine frames_of_error ?_
  simp only [frame?, hcut, hlength, if_pos hout]

theorem framesFrom_of_body {length : Nat} (hbody : body.length = length) :
    framesFrom most (.awaitingBody length) (body ++ rest) =
      (body :: (frames most rest).1, (frames most rest).2) := by
  simp only [framesFrom, Bytes.cut?_append hbody]

theorem framesFrom_of_short {length : Nat} (h : rest.length < length) :
    framesFrom most (.awaitingBody length) rest = ([], .brokenOff) := by
  simp only [framesFrom, Bytes.cut?_eq_none.2 h]

/-- **After an allowed length a stream begins within a frame.** -/
theorem frames_of_length (hmost : most < 9223372036854775808)
    (hword : word.length = Connection.lengthWidth)
    (hlength : Bytes.signedValue Connection.lengthWidth word = length)
    (hleast : Connection.shortestRequest ≤ length) (hbound : length ≤ signed64 most) :
    frames most (word ++ rest) = framesFrom most (.awaitingBody length.toNat) rest := by
  rw [signed64_of_lt hmost] at hbound
  have hcut : Bytes.cut? 4 (word ++ rest) = some (word, rest) := Bytes.cut?_append hword rest
  have hallowed : ¬ (length < 2 ∨ (most : Int) < length) := by
    simp only [Connection.shortestRequest] at hleast
    omega
  rw [Connection.lengthWidth] at hlength
  cases hbody : Bytes.cut? length.toNat rest with
  | none =>
    have hframe : frame? most (word ++ rest) = .error .brokenOff := by
      simp only [frame?, hcut, hlength, if_neg hallowed, hbody]
    rw [framesFrom_of_short (Bytes.cut?_eq_none.1 hbody), frames_of_error hframe]
  | some pair =>
    have hframe : frame? most (word ++ rest) = .ok pair := by
      simp only [frame?, hcut, hlength, if_neg hallowed, hbody]
    obtain ⟨hrest, hlen⟩ := Bytes.cut?_eq_some.1 hbody
    rw [frames_of_ok hframe, hrest, framesFrom_of_body hlen]

end Frames

/-! ## Transcripts -/

/-- What a stream comes to: the requests that are answered, the bytes that
are written, the store that is left, and the ending. -/
structure Transcript where
  requests : List Request
  written : Bytes
  store : Store
  ending : Ending

namespace Transcript

/-- The transcript after some requests and bytes. -/
def after (t : Transcript) (requests : List Request) (written : Bytes) : Transcript :=
  { t with requests := requests ++ t.requests, written := written ++ t.written }

theorem after_after (t : Transcript) (requests more : List Request) (written further : Bytes) :
    (t.after more further).after requests written =
      t.after (requests ++ more) (written ++ further) := by
  simp [after]

variable (limits : ConnectionLimits) (fields : FieldLimits) (clock : Nat → Int) (last : Ending)

/-- Answers bodies one after the other, the first one at the reading
`clock count`. A body that is no request ends it, so does a reply that is
too large, and so does the last request a client makes; `last` is how it
ends after all of them. -/
def ofBodies : (count : Nat) → Store → List Bytes → Transcript
  | _, store, [] => { requests := [], written := [], store, ending := last }
  | count, store, body :: bodies =>
    match Request.ofBody body with
    | .error e => { requests := [], written := [], store, ending := .error (.badBody e) }
    | .ok r =>
      let (reply, store) := store.answer fields (clock count) r
      if limits.maxResponse < reply.encodedLength then
        { requests := [r]
          written := []
          store
          ending := .error (.replyTooLarge reply.encodedLength limits.maxResponse) }
      else if r.opcode = .finish then
        { requests := [r], written := reply.write, store, ending := .ok () }
      else (ofBodies (count + 1) store bodies).after [r] reply.write

/-- What a whole stream comes to. -/
def ofStream (store : Store) (stream : Bytes) : Transcript :=
  let (bodies, tail) := frames limits.maxRequest stream
  ofBodies limits fields clock (tail.ending limits.maxRequest) 0 store bodies

variable {limits fields clock last} {count : Nat} {store : Store} {body : Bytes}
variable {bodies : List Bytes} {r : Request}

theorem ofBodies_of_badBody {e : BodyError} (h : Request.ofBody body = .error e) :
    ofBodies limits fields clock last count store (body :: bodies) =
      { requests := [], written := [], store, ending := .error (.badBody e) } := by
  simp only [ofBodies, h]

theorem ofBodies_of_tooLarge (h : Request.ofBody body = .ok r)
    (hlarge : limits.maxResponse < (store.answer fields (clock count) r).1.encodedLength) :
    ofBodies limits fields clock last count store (body :: bodies) =
      { requests := [r]
        written := []
        store := (store.answer fields (clock count) r).2
        ending := .error (.replyTooLarge (store.answer fields (clock count) r).1.encodedLength
          limits.maxResponse) } := by
  simp only [ofBodies, h, if_pos hlarge]

theorem ofBodies_of_finish (h : Request.ofBody body = .ok r)
    (hfits : (store.answer fields (clock count) r).1.encodedLength ≤ limits.maxResponse)
    (hfinish : r.opcode = .finish) :
    ofBodies limits fields clock last count store (body :: bodies) =
      { requests := [r]
        written := (store.answer fields (clock count) r).1.write
        store := (store.answer fields (clock count) r).2
        ending := .ok () } := by
  simp only [ofBodies, h, if_neg (Nat.not_lt.2 hfits), if_pos hfinish]

theorem ofBodies_of_answered (h : Request.ofBody body = .ok r)
    (hfits : (store.answer fields (clock count) r).1.encodedLength ≤ limits.maxResponse)
    (hmore : r.opcode ≠ .finish) :
    ofBodies limits fields clock last count store (body :: bodies) =
      (ofBodies limits fields clock last (count + 1) (store.answer fields (clock count) r).2
        bodies).after [r] (store.answer fields (clock count) r).1.write := by
  simp only [ofBodies, h, if_neg (Nat.not_lt.2 hfits), if_neg hmore]

/-- **A body of a frame is no request only by its opcode**, since it is long
enough to have one. -/
theorem unknownOpcode_of_badBody {stream : Bytes} {e : BodyError}
    (h : (ofStream limits fields clock store stream).ending = .error (.badBody e)) :
    ∃ code, e = .unknownOpcode code := by
  have hlong : ∀ body ∈ (frames limits.maxRequest stream).1, 2 ≤ body.length := fun _ =>
    two_le_length_of_mem_frames
  have hlast : (frames limits.maxRequest stream).2.ending limits.maxRequest ≠
      .error (.badBody e) := by
    cases (frames limits.maxRequest stream).2 <;> nofun
  unfold ofStream at h
  simp only at h
  generalize (frames limits.maxRequest stream).1 = bodies at h hlong
  generalize 0 = count at h
  induction bodies generalizing count store with
  | nil => exact absurd h hlast
  | cons body bodies ih =>
    obtain ⟨hfirst, hrest⟩ := List.forall_mem_cons.1 hlong
    cases hbody : Request.ofBody body with
    | error e' =>
      rw [ofBodies_of_badBody hbody] at h
      cases h
      unfold Request.ofBody at hbody
      split at hbody
      · next hcut => exact absurd (Bytes.cut?_eq_none.1 hcut) (Nat.not_lt.2 hfirst)
      · split at hbody
        · cases hbody
          exact ⟨_, rfl⟩
        · cases hbody
    | ok r =>
      by_cases hfits : (store.answer fields (clock count) r).1.encodedLength ≤ limits.maxResponse
      · by_cases hfinish : r.opcode = .finish
        · rw [ofBodies_of_finish hbody hfits hfinish] at h
          cases h
        · rw [ofBodies_of_answered hbody hfits hfinish] at h
          exact ih hrest _ h
      · rw [ofBodies_of_tooLarge hbody (Nat.lt_of_not_le hfits)] at h
        cases h

end Transcript

end PrefixCache
