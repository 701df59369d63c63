import Bypass.Foundations.Reader

/-!
# Frames

The browser and the messaging host exchange bodies of JSON over a pipe. Each is a frame: the length
of the body in four bytes, then the body (`messaging_host.rs`).

* `writeFrame_ok`: what a frame looks like.
* `readFrame_frame`, `readFrame_eof`, `readFrame_tooLarge`: what is read of a stream.
* `framing_round_trips`: what was written is read, however it is delivered.
* `end_told_apart_iff`: **when the end of a stream is told apart from a frame that is cut**.
-/

namespace Bypass

/-- `MAX_REPLY_BYTES`. -/
def maxReplyBytes : ℕ := 512 * 1024

/-- `u32::to_le_bytes`. -/
def toLeBytes (n : ℕ) : Bytes :=
  [UInt8.ofNat n, UInt8.ofNat (n / 2 ^ 8), UInt8.ofNat (n / 2 ^ 16), UInt8.ofNat (n / 2 ^ 24)]

/-- `u32::from_le_bytes`. -/
def fromLeBytes (b : Bytes) : ℕ := Nat.ofDigits 256 (b.map UInt8.toNat)

/-- The number reads back, as long as it fits. -/
theorem fromLeBytes_toLeBytes {n : ℕ} (h : n < 2 ^ 32) : fromLeBytes (toLeBytes n) = n := by
  simp only [fromLeBytes, toLeBytes, List.map_cons, List.map_nil, Nat.ofDigits_cons,
    Nat.ofDigits_nil, UInt8.toNat_ofNat']
  omega

/-- The errors of reading and writing a frame. -/
inductive FrameError (IE : Type) where
  | readLengthPrefix (e : IE)
  | requestTooLarge (len : ℕ)
  | readRequestBody (e : ReadError IE)
  | replyTooLarge
  deriving DecidableEq

/-- The message of a `FrameError`. -/
def FrameError.message {IE : Type} : FrameError IE → Str
  | readLengthPrefix _ => "read length prefix".toList
  | requestTooLarge len =>
    "request frame too large: ".toList ++ Nat.toDigits 10 len ++ " bytes".toList
  | readRequestBody _ => "read request body".toList
  | replyTooLarge => "reply too large for u32 length prefix".toList

variable {IE : Type}

/-- `read_frame`: nothing at the end of the stream, also if it ends in the prefix. -/
def readFrame (ds : List (Delivery IE)) :
    Except (FrameError IE) (Option Bytes) × List (Delivery IE) :=
  match readExact 4 ds with
  | (.error .unexpectedEof, ds) => (.ok none, ds)
  | (.error (.io e), ds) => (.error (.readLengthPrefix e), ds)
  | (.ok lenBuf, ds) =>
    let len := fromLeBytes lenBuf
    if maxReplyBytes < len then (.error (.requestTooLarge len), ds)
    else
      match readExact len ds with
      | (.error e, ds) => (.error (.readRequestBody e), ds)
      | (.ok buf, ds) => (.ok (some buf), ds)

/-- `write_frame`: the bytes that it writes. -/
def writeFrame (body : Bytes) : Except (FrameError IE) Bytes :=
  if body.length < 2 ^ 32 then .ok (toLeBytes body.length ++ body) else .error .replyTooLarge

/-- Read `n` frames, one after the other. -/
def readFrames : ℕ → List (Delivery IE) → List (Except (FrameError IE) (Option Bytes))
  | 0, _ => []
  | n + 1, ds => (readFrame ds).1 :: readFrames n (readFrame ds).2

/-! ## One frame -/

theorem writeFrame_ok {body : Bytes} (h : body.length ≤ maxReplyBytes) :
    (writeFrame body : Except (FrameError IE) Bytes) = .ok (toLeBytes body.length ++ body) := by
  have hfits : body.length < 2 ^ 32 := lt_of_le_of_lt h (by decide)
  rw [writeFrame, if_pos hfits]

section Read

variable {ds : List (Delivery IE)}

/-- The next frame of a stream. -/
theorem readFrame_frame {body rest : Bytes} (hbody : body.length ≤ maxReplyBytes)
    (h : Delivers ds (toLeBytes body.length ++ body ++ rest)) :
    ∃ ds', readFrame ds = (.ok (some body), ds') ∧ Delivers ds' rest := by
  rw [List.append_assoc] at h
  obtain ⟨ds₁, hprefix, h₁⟩ := h.read_next
  obtain ⟨ds₂, hread, h₂⟩ := h₁.read_next
  have hlen : fromLeBytes (toLeBytes body.length) = body.length :=
    fromLeBytes_toLeBytes (lt_of_le_of_lt hbody (by decide))
  have hprefix₄ : readExact 4 ds = (.ok (toLeBytes body.length), ds₁) := hprefix
  refine ⟨ds₂, ?_, h₂⟩
  rw [readFrame, hprefix₄]
  simp only [hlen, not_lt.2 hbody, if_false, hread]

/-- The end of the stream, and also of one that ends inside the prefix. -/
theorem readFrame_eof {stream : Bytes} (h : Delivers ds stream) (hlen : stream.length < 4) :
    (readFrame ds).1 = .ok none := by
  have heof : (readExact 4 ds).1 = .error .unexpectedEof := h.read_eof hlen
  rw [readFrame]
  generalize readExact 4 ds = read at heof
  obtain ⟨r, ds'⟩ := read
  subst heof
  rfl

/-- **A frame that is announced too large** is refused, and nothing is read of it but its prefix. -/
theorem readFrame_tooLarge {lenBuf rest : Bytes} (hlen : lenBuf.length = 4)
    (hlarge : maxReplyBytes < fromLeBytes lenBuf) (h : Delivers ds (lenBuf ++ rest)) :
    ∃ ds', readFrame ds = (.error (.requestTooLarge (fromLeBytes lenBuf)), ds') ∧
      Delivers ds' rest := by
  obtain ⟨ds', hprefix, hrest⟩ := h.read_next
  rw [hlen] at hprefix
  refine ⟨ds', ?_, hrest⟩
  rw [readFrame, hprefix]
  simp only [hlarge, if_true]

end Read

/-! ## Many frames -/

/-- The stream of a list of frames. -/
def framed (bodies : List Bytes) : Bytes := bodies.flatMap fun b => toLeBytes b.length ++ b

theorem mapM_writeFrame {bodies : List Bytes} (h : ∀ b ∈ bodies, b.length ≤ maxReplyBytes) :
    (bodies.mapM writeFrame : Except (FrameError IE) (List Bytes)) =
      .ok (bodies.map fun b => toLeBytes b.length ++ b) := by
  induction bodies with
  | nil => rfl
  | cons b bodies ih =>
    obtain ⟨hb, hbodies⟩ := List.forall_mem_cons.1 h
    rw [List.mapM_cons, writeFrame_ok hb, ih hbodies]
    rfl

/-- **What was written is read**, and then the end. -/
theorem readFrames_framed {bodies : List Bytes} (hbodies : ∀ b ∈ bodies, b.length ≤ maxReplyBytes)
    {ds : List (Delivery IE)} (h : Delivers ds (framed bodies)) :
    readFrames (bodies.length + 1) ds = bodies.map (fun b => .ok (some b)) ++ [.ok none] := by
  induction bodies generalizing ds with
  | nil =>
    rw [readFrames, readFrame_eof h (by decide), List.length_nil, readFrames, List.map_nil,
      List.nil_append]
  | cons b bodies ih =>
    obtain ⟨hb, hbodies⟩ := List.forall_mem_cons.1 hbodies
    rw [framed, List.flatMap_cons] at h
    obtain ⟨ds', hread, hrest⟩ := readFrame_frame hb h
    rw [List.length_cons, readFrames, hread, ih hbodies hrest, List.map_cons, List.cons_append]

/-- **Framing round-trips.** A list of bodies that are not too long is written as frames; read one
by one from what was written, however it is delivered, they are those bodies in order, and then
there is none. A frame that is announced too large is refused, and only its prefix is read. -/
theorem framing_round_trips :
    (∀ bodies : List Bytes, (∀ b ∈ bodies, b.length ≤ maxReplyBytes) →
      ∃ frames, (bodies.mapM writeFrame : Except (FrameError IE) _) = .ok frames ∧
        ∀ ds : List (Delivery IE), Delivers ds frames.flatten →
          readFrames (bodies.length + 1) ds = bodies.map (fun b => .ok (some b)) ++ [.ok none]) ∧
    ∀ (ds : List (Delivery IE)) (lenBuf rest : Bytes), lenBuf.length = 4 →
      maxReplyBytes < fromLeBytes lenBuf → Delivers ds (lenBuf ++ rest) →
        ∃ ds', readFrame ds = (.error (.requestTooLarge (fromLeBytes lenBuf)), ds') ∧
          Delivers ds' rest := by
  refine ⟨fun bodies hbodies => ⟨_, mapM_writeFrame hbodies, fun ds h => ?_⟩, ?_⟩
  · refine readFrames_framed hbodies ?_
    rwa [framed, List.flatMap_def]
  · intro ds lenBuf rest hlen hlarge h
    exact readFrame_tooLarge hlen hlarge h

/-- Two frames, the second of them empty, cut in the first prefix and in the first body. -/
def cutFrames : List (Delivery Empty) :=
  [.chunk [3, 0], .interrupted, .chunk [0, 0, 97, 98], .chunk [99, 0, 0, 0, 0]]

theorem framing_round_trips_cut :
    readFrames 3 cutFrames = [.ok (some [97, 98, 99]), .ok (some []), .ok none] := by
  obtain ⟨frames, hframes, hread⟩ :=
    (@framing_round_trips Empty).1 [[97, 98, 99], []] (by decide)
  obtain rfl : [[3, 0, 0, 0, 97, 98, 99], [0, 0, 0, 0]] = frames := Except.ok.inj hframes
  exact hread cutFrames (.chunk (by decide) (.interrupted (.chunk (by decide)
    (.chunk (by decide) .nil))))

/-! ## Streams that are cut -/

section Cut

variable {ds : List (Delivery IE)} {stream : Bytes}

/-- **No frame is read** of a stream that has no whole prefix. -/
theorem readFrame_eq_none (h : Delivers ds stream) :
    (readFrame ds).1 = .ok none ↔ stream.length < 4 := by
  constructor
  · intro hnone
    by_contra hlen
    obtain ⟨lenBuf, rest, rfl, hfour⟩ : ∃ lenBuf rest, stream = lenBuf ++ rest ∧ lenBuf.length = 4 :=
      ⟨stream.take 4, stream.drop 4, (List.take_append_drop 4 stream).symm,
        List.length_take_of_le (not_lt.1 hlen)⟩
    obtain ⟨ds₁, hprefix, -⟩ := h.read_next
    rw [hfour] at hprefix
    rw [readFrame, hprefix] at hnone
    dsimp only at hnone
    split_ifs at hnone
    generalize readExact (fromLeBytes lenBuf) ds₁ = read at hnone
    obtain ⟨_ | _, _⟩ := read <;> cases hnone
  · exact readFrame_eof h

/-- A stream that ends in the body of a frame is refused. -/
theorem readFrame_cutBody {lenBuf body : Bytes} (hlen : lenBuf.length = 4)
    (hcut : body.length < fromLeBytes lenBuf) (h : Delivers ds (lenBuf ++ body)) :
    ∃ e, (readFrame ds).1 = .error e := by
  obtain ⟨ds₁, hprefix, hbody⟩ := h.read_next
  rw [hlen] at hprefix
  rw [readFrame, hprefix]
  dsimp only
  split_ifs
  · exact ⟨_, rfl⟩
  · have heof : (readExact (fromLeBytes lenBuf) ds₁).1 = .error .unexpectedEof := hbody.read_eof hcut
    generalize readExact (fromLeBytes lenBuf) ds₁ = read at heof
    obtain ⟨r, ds'⟩ := read
    subst heof
    exact ⟨_, rfl⟩

/-- The stream ends inside its first frame: in the prefix, or in the body that it announces. -/
def EndsInside (stream : Bytes) : Prop :=
  stream ≠ [] ∧ stream.length < 4 ∨
    ∃ lenBuf body, stream = lenBuf ++ body ∧ lenBuf.length = 4 ∧ body.length < fromLeBytes lenBuf

/-- **When the end of a stream is told apart from a frame that is cut**: when the stream does not
end inside the prefix. -/
theorem end_told_apart_iff (h : Delivers ds stream) :
    (((readFrame ds).1 = .ok none ↔ stream = []) ∧
        (EndsInside stream → ∃ e, (readFrame ds).1 = .error e)) ↔
      stream = [] ∨ 4 ≤ stream.length := by
  constructor
  · rintro ⟨hnone, -⟩
    by_contra hnot
    push Not at hnot
    exact hnot.1 (hnone.1 ((readFrame_eq_none h).2 hnot.2))
  · intro hcond
    refine ⟨?_, ?_⟩
    · rw [readFrame_eq_none h]
      constructor
      · intro hlen
        exact hcond.resolve_right (by omega)
      · rintro rfl
        decide
    · rintro (⟨hne, hlen⟩ | ⟨lenBuf, body, rfl, hlen, hcut⟩)
      · rcases hcond with hnil | hfour
        · exact absurd hnil hne
        · omega
      · exact readFrame_cutBody hlen hcut h

end Cut

/-- The first byte of a prefix, and then the end. -/
def cutPrefix : List (Delivery Empty) := [.chunk [3]]

/-- A frame that is cut in its prefix is taken for the end of the stream. -/
theorem cut_prefix_is_end :
    ¬∀ (ds : List (Delivery Empty)) (stream : Bytes), Delivers ds stream →
      ((readFrame ds).1 = .ok none ↔ stream = []) ∧
        (EndsInside stream → ∃ e, (readFrame ds).1 = .error e) := by
  intro h
  have hdelivers : Delivers cutPrefix ([3] ++ []) := .chunk (by decide) .nil
  have hone := (h cutPrefix _ hdelivers).1
  have hnone : (readFrame cutPrefix).1 = .ok none := by decide
  cases hone.1 hnone

theorem end_told_apart_frame :
    ((readFrame [(.chunk [1, 0, 0, 0, 97] : Delivery Empty)]).1 = .ok none ↔
          [1, 0, 0, 0, 97] ++ [] = ([] : Bytes)) ∧
        (EndsInside ([1, 0, 0, 0, 97] ++ []) →
          ∃ e, (readFrame [(.chunk [1, 0, 0, 0, 97] : Delivery Empty)]).1 = .error e) :=
  (end_told_apart_iff (.chunk (by decide) .nil)).2 (Or.inr (by decide))

end Bypass
