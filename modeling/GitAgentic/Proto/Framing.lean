import GitAgentic.Data.Chunks
import GitAgentic.Json.Value

/-! Length-prefixed frames over a byte stream: four bytes of length, the most significant first,
and then the payload. -/
namespace GitAgentic

namespace Framing

def maxFrameBytes : Nat := 16 * 1024 * 1024

inductive FrameError where
  | io
  | json
  | tooLarge (bytes : Nat)
  deriving DecidableEq, Repr

/-- `u32::to_be_bytes` -/
def toBeBytes (n : Nat) : Bytes :=
  [UInt8.ofNat (n / 2 ^ 24), UInt8.ofNat (n / 2 ^ 16), UInt8.ofNat (n / 2 ^ 8), UInt8.ofNat n]

def fromBeBytes (bytes : Bytes) : Nat := bytes.foldl (fun n b => n * 256 + b.toNat) 0

section

variable {T : Type} (toVec : T → Option Bytes)

/-- A message with its length before it. A length that is no `u32`, or too large, is refused before
anything is written. -/
def writeFrame (value : T) (sent : Bytes) : Except FrameError Unit × Bytes :=
  match toVec value with
  | none => (.error .json, sent)
  | some bytes =>
    if 2 ^ 32 ≤ bytes.length then (.error (.tooLarge (2 ^ 32 - 1)), sent)
    else if maxFrameBytes < bytes.length then (.error (.tooLarge bytes.length), sent)
    else (.ok (), sent ++ toBeBytes bytes.length ++ bytes)

/-- The payload of the next frame. Whatever ends the stream within the length counts as its end. -/
def readFrameBytes (c : Chunks UInt8) : Except FrameError (Option Bytes) × Chunks UInt8 :=
  match c.readExact 4 with
  | (none, c) => (.ok none, c)
  | (some lenBuf, c) =>
    let len := fromBeBytes lenBuf
    if maxFrameBytes < len then (.error (.tooLarge len), c)
    else match c.readExact len with
      | (none, c) => (.error .io, c)
      | (some buf, c) => (.ok (some buf), c)

def readFrame (fromSlice : Bytes → Option T) (c : Chunks UInt8) :
    Except FrameError (Option T) × Chunks UInt8 :=
  match readFrameBytes c with
  | (.error e, c) => (.error e, c)
  | (.ok none, c) => (.ok none, c)
  | (.ok (some bytes), c) =>
    match fromSlice bytes with
    | none => (.error .json, c)
    | some value => (.ok (some value), c)

def writeFrames : List T → Bytes → Except FrameError Unit × Bytes
  | [], sent => (.ok (), sent)
  | value :: values, sent =>
    match writeFrame toVec value sent with
    | (.error e, sent) => (.error e, sent)
    | (.ok (), sent) => writeFrames values sent

def readFrames : Nat → Chunks UInt8 → List (Except FrameError (Option Bytes))
  | 0, _ => []
  | n + 1, c => (readFrameBytes c).1 :: readFrames n (readFrameBytes c).2

end

theorem toBeBytes_length (n : Nat) : (toBeBytes n).length = 4 := rfl

theorem fromBeBytes_toBeBytes {n : Nat} (small : n < 2 ^ 32) : fromBeBytes (toBeBytes n) = n := by
  simp only [fromBeBytes, toBeBytes, List.foldl_cons, List.foldl_nil, UInt8.toNat_ofNat']
  omega

theorem readFrameBytes_eq (c : Chunks UInt8) :
    (readFrameBytes c).1 =
      if c.left.length < 4 then .ok none
      else if maxFrameBytes < fromBeBytes (c.left.take 4) then .error (.tooLarge (fromBeBytes (c.left.take 4)))
      else if fromBeBytes (c.left.take 4) ≤ (c.left.drop 4).length then
        .ok (some ((c.left.drop 4).take (fromBeBytes (c.left.take 4))))
      else .error .io := by
  have head := c.readExact_given 4
  have rest := c.readExact_left 4
  unfold readFrameBytes
  rcases first : c.readExact 4 with ⟨given, c'⟩
  rw [first] at head rest
  dsimp only at head rest
  subst head
  by_cases short : c.left.length < 4
  · rw [if_neg (by omega), if_pos short]
  · rw [if_pos (by omega), if_neg short]
    dsimp only
    have body := c'.readExact_given (fromBeBytes (c.left.take 4))
    rcases second : c'.readExact (fromBeBytes (c.left.take 4)) with ⟨given, c''⟩
    rw [second] at body
    dsimp only at body
    rw [rest] at body
    subst body
    split
    · rfl
    · by_cases whole : fromBeBytes (c.left.take 4) ≤ (c.left.drop 4).length
      · rw [if_pos whole, if_pos whole]
      · rw [if_neg whole, if_neg whole]

theorem readFrameBytes_frame {c : Chunks UInt8} {bytes rest : Bytes} (fits : bytes.length ≤ maxFrameBytes)
    (front : c.left = toBeBytes bytes.length ++ bytes ++ rest) :
    (readFrameBytes c).1 = .ok (some bytes) ∧ (readFrameBytes c).2.left = rest := by
  have small : bytes.length < 2 ^ 32 := lt_of_le_of_lt fits (by decide)
  have len : c.left.take 4 = toBeBytes bytes.length := by
    rw [front, List.append_assoc]
    exact List.take_left' (toBeBytes_length _)
  have payload : c.left.drop 4 = bytes ++ rest := by
    rw [front, List.append_assoc]
    exact List.drop_left' (toBeBytes_length _)
  have enough : 4 ≤ c.left.length := by
    rw [front, List.length_append, List.length_append, toBeBytes_length]
    omega
  have first := c.readExact_given 4
  rw [if_pos enough, len] at first
  have after := c.readExact_left 4
  rw [payload] at after
  rcases head : c.readExact 4 with ⟨given, c'⟩
  rw [head] at first after
  dsimp only at first after
  subst first
  have body := c'.readExact_given bytes.length
  rw [after, if_pos (by rw [List.length_append]; omega), List.take_left] at body
  have left := c'.readExact_left bytes.length
  rw [after, List.drop_left] at left
  rcases second : c'.readExact bytes.length with ⟨given, c''⟩
  rw [second] at body left
  dsimp only at body left
  subst body
  simp only [readFrameBytes, head, fromBeBytes_toBeBytes small, if_neg (Nat.not_lt.mpr fits), second]
  exact ⟨trivial, left⟩

theorem toBeBytes_fromBeBytes {bytes : Bytes} (four : bytes.length = 4) : toBeBytes (fromBeBytes bytes) = bytes := by
  obtain ⟨a, rest, rfl⟩ := List.exists_of_length_succ bytes four
  obtain ⟨b, c, d, rfl⟩ := List.length_eq_three.mp (Nat.succ.inj four)
  have ha := a.toNat_lt
  have hb := b.toNat_lt
  have hc := c.toNat_lt
  have hd := d.toNat_lt
  simp only [toBeBytes, fromBeBytes, List.foldl_cons, List.foldl_nil, List.cons.injEq, and_true]
  refine ⟨?_, ?_, ?_, ?_⟩ <;>
    · apply UInt8.toNat_inj.mp
      rw [UInt8.toNat_ofNat']
      omega

theorem readFrameBytes_some {c : Chunks UInt8} {bytes : Bytes} (read : (readFrameBytes c).1 = .ok (some bytes)) :
    c.left = toBeBytes bytes.length ++ bytes ++ (readFrameBytes c).2.left ∧ bytes.length ≤ maxFrameBytes := by
  rw [readFrameBytes_eq] at read
  split_ifs at read with short large whole
  · cases read
  have four : (c.left.take 4).length = 4 := by
    rw [List.length_take, Nat.min_eq_left (Nat.not_lt.mp short)]
  have payload : bytes = (c.left.drop 4).take (fromBeBytes (c.left.take 4)) := by
    cases read
    rfl
  have size : bytes.length = fromBeBytes (c.left.take 4) := by
    rw [payload, List.length_take, Nat.min_eq_left whole]
  have front : c.left = toBeBytes bytes.length ++ bytes ++ (c.left.drop 4).drop bytes.length := by
    rw [size, toBeBytes_fromBeBytes four, payload, List.append_assoc, List.take_append_drop,
      List.take_append_drop]
  have fits : bytes.length ≤ maxFrameBytes := size ▸ Nat.not_lt.mp large
  have after := (readFrameBytes_frame fits front).2
  rw [after]
  exact ⟨front, fits⟩

theorem readFrameBytes_nothing {c : Chunks UInt8} (nothing : c.left = []) :
    (readFrameBytes c).1 = .ok none ∧ (readFrameBytes c).2.left = [] := by
  have first := c.readExact_given 4
  have after := c.readExact_left 4
  rw [nothing] at first after
  rcases head : c.readExact 4 with ⟨given, c'⟩
  rw [head] at first after
  dsimp only at first after
  subst first
  simp only [readFrameBytes, head]
  exact ⟨rfl, after⟩

theorem readFrameBytes_cut {c : Chunks UInt8} {bytes : Bytes} {n : Nat} (fits : bytes.length ≤ maxFrameBytes)
    (short : n < 4 + bytes.length) (front : c.left = (toBeBytes bytes.length ++ bytes).take n) :
    (readFrameBytes c).1 = .ok none ∨ (readFrameBytes c).1 = .error .io := by
  have size : c.left.length = n := by
    rw [front, List.length_take, List.length_append, toBeBytes_length]
    omega
  rw [readFrameBytes_eq, size]
  by_cases header : n < 4
  · exact Or.inl (if_pos header)
  · have len : c.left.take 4 = toBeBytes bytes.length := by
      rw [front, List.take_take, Nat.min_eq_left (Nat.not_lt.mp header)]
      exact List.take_left' (toBeBytes_length _)
    have missing : ¬ bytes.length ≤ (c.left.drop 4).length := by
      rw [List.length_drop, size]
      omega
    refine Or.inr ?_
    rw [if_neg header, len, fromBeBytes_toBeBytes (lt_of_le_of_lt fits (by decide)),
      if_neg (Nat.not_lt.mpr fits), if_neg missing]

/- Whole streams. -/

variable {T : Type} {toVec : T → Option Bytes}

def Encodes (toVec : T → Option Bytes) (value : T) (bytes : Bytes) : Prop :=
  toVec value = some bytes ∧ bytes.length ≤ maxFrameBytes

theorem writeFrame_encodes {value : T} {bytes : Bytes} (encodes : Encodes toVec value bytes) (sent : Bytes) :
    writeFrame toVec value sent = (.ok (), sent ++ toBeBytes bytes.length ++ bytes) := by
  have small : ¬ 2 ^ 32 ≤ bytes.length := Nat.not_le.mpr (lt_of_le_of_lt encodes.2 (by decide))
  simp only [writeFrame, encodes.1, if_neg small, if_neg (Nat.not_lt.mpr encodes.2)]

theorem writeFrame_ok_iff {value : T} {bytes : Bytes} (encoded : toVec value = some bytes) (sent : Bytes) :
    (writeFrame toVec value sent).1 = .ok () ↔ bytes.length ≤ maxFrameBytes := by
  constructor
  · intro written
    unfold writeFrame at written
    rw [encoded] at written
    dsimp only at written
    split_ifs at written with huge large
    exact Nat.not_lt.mp large
  · intro fits
    rw [writeFrame_encodes ⟨encoded, fits⟩]

def frames (encodings : List Bytes) : Bytes := encodings.flatMap (fun bytes => toBeBytes bytes.length ++ bytes)

theorem writeFrames_encodes {values : List T} {encodings : List Bytes}
    (encode : List.Forall₂ (Encodes toVec) values encodings) (sent : Bytes) :
    writeFrames toVec values sent = (.ok (), sent ++ frames encodings) := by
  induction encode generalizing sent with
  | nil =>
    rw [writeFrames, frames, List.flatMap_nil, List.append_nil]
  | cons encodes _ ih =>
    rw [writeFrames, writeFrame_encodes encodes]
    dsimp only
    rw [ih, frames, frames, List.flatMap_cons]
    simp only [List.append_assoc]

theorem readFrames_nothing {c : Chunks UInt8} (nothing : c.left = []) (n : Nat) :
    readFrames n c = List.replicate n (.ok none) := by
  induction n generalizing c with
  | zero => rfl
  | succ n ih =>
    obtain ⟨read, left⟩ := readFrameBytes_nothing nothing
    rw [readFrames, read, ih left]
    rfl

theorem readFrames_frames {encodings : List Bytes} (fit : ∀ bytes ∈ encodings, bytes.length ≤ maxFrameBytes)
    {c : Chunks UInt8} (stream : c.left = frames encodings) (n : Nat) :
    readFrames (encodings.length + n) c =
      encodings.map (fun bytes => .ok (some bytes)) ++ List.replicate n (.ok none) := by
  induction encodings generalizing c with
  | nil =>
    rw [List.length_nil, Nat.zero_add]
    exact readFrames_nothing stream n
  | cons bytes encodings ih =>
    rw [frames, List.flatMap_cons] at stream
    obtain ⟨read, left⟩ := readFrameBytes_frame (fit bytes List.mem_cons_self) stream
    rw [List.length_cons, Nat.add_right_comm, readFrames, read,
      ih (fun other mem => fit other (List.mem_cons_of_mem bytes mem)) left]
    rfl

/-- The messages come out as they were written, in their order, and after them the end. -/
def RoundTrips (toVec : T → Option Bytes) : Prop :=
  ∀ (values : List T) (encodings : List Bytes), List.Forall₂ (Encodes toVec) values encodings →
    ∃ stream, writeFrames toVec values [] = (.ok (), stream) ∧
      ∀ (c : Chunks UInt8) (n : Nat), c.left = stream →
        readFrames (encodings.length + n) c =
          encodings.map (fun bytes => .ok (some bytes)) ++ List.replicate n (.ok none)

/-- A message that is too large is refused, and nothing is written. -/
def RefusesLarge (toVec : T → Option Bytes) : Prop :=
  ∀ value bytes sent, toVec value = some bytes → maxFrameBytes < bytes.length →
    ∃ n, writeFrame toVec value sent = (.error (.tooLarge n), sent)

def EndsInside (c : Chunks UInt8) : Prop :=
  c.left ≠ [] ∧ (c.left.length < 4 ∨ c.left.length < 4 + fromBeBytes (c.left.take 4))

/-- Only a stream with nothing left is at its end; one that ends inside a frame is an error. -/
def ReportsEnd (c : Chunks UInt8) : Prop :=
  ((readFrameBytes c).1 = .ok none → c.left = []) ∧ (EndsInside c → ∃ e, (readFrameBytes c).1 = .error e)

theorem roundTrips : RoundTrips toVec := by
  intro values encodings encode
  refine ⟨frames encodings, by simpa using writeFrames_encodes encode [], fun c n stream => ?_⟩
  refine readFrames_frames (fun bytes mem => ?_) stream n
  obtain ⟨i, bound, rfl⟩ := List.mem_iff_getElem.mp mem
  exact (List.forall₂_iff_get.mp encode).2 i (by rw [encode.length_eq]; exact bound) bound |>.2

theorem refusesLarge : RefusesLarge toVec := by
  intro value bytes sent encoded large
  unfold writeFrame
  rw [encoded]
  dsimp only
  by_cases huge : 2 ^ 32 ≤ bytes.length
  · rw [if_pos huge]
    exact ⟨_, rfl⟩
  · rw [if_neg huge, if_pos large]
    exact ⟨_, rfl⟩

theorem reportsEnd_iff (c : Chunks UInt8) : ReportsEnd c ↔ ¬ (0 < c.left.length ∧ c.left.length < 4) := by
  rw [ReportsEnd, readFrameBytes_eq]
  constructor
  · rintro ⟨atEnd, _⟩ ⟨some_, short⟩
    rw [if_pos short] at atEnd
    rw [atEnd rfl] at some_
    exact absurd some_ (lt_irrefl 0)
  · intro outside
    by_cases short : c.left.length < 4
    · have nothing : c.left = [] := by
        refine List.length_eq_zero_iff.mp ?_
        omega
      exact ⟨fun _ => nothing, fun inside => absurd nothing inside.1⟩
    · rw [if_neg short]
      refine ⟨fun ended => ?_, fun inside => ?_⟩
      · split at ended
        · cases ended
        · split at ended <;> cases ended
      · split
        · exact ⟨_, rfl⟩
        · have missing : ¬ fromBeBytes (c.left.take 4) ≤ (c.left.drop 4).length := by
            rw [List.length_drop]
            rcases inside.2 with header | body <;> omega
          rw [if_neg missing]
          exact ⟨_, rfl⟩

/-- Frames round-trip over any pieces and large ones are refused; the end of a stream is reported
as it should be exactly when the stream does not end inside a length. -/
theorem frames_reported (c : Chunks UInt8) :
    RoundTrips toVec ∧ RefusesLarge toVec ∧
      (ReportsEnd c ↔ ¬ (0 < c.left.length ∧ c.left.length < 4)) :=
  ⟨roundTrips, refusesLarge, reportsEnd_iff c⟩

/-- One byte of a length, and then the end. -/
theorem half_header_unreported : ¬ ∀ c : Chunks UInt8, ReportsEnd c := by
  intro all
  have ended := (all ⟨[[0]], by decide⟩).1 (by decide)
  cases ended

end Framing

end GitAgentic
