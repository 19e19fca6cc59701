import GitAgentic.Daemon.Connection
import GitAgentic.Daemon.Deliverable
import GitAgentic.Proto.Responses

/-! The client of the command line: a connection for every request, and one reply on it. -/
namespace GitAgentic

namespace Client

open Framing

/-- Bytes on their way arrive as they are, in any pieces. -/
abbrev Transit := { carry : Bytes → Chunks UInt8 // ∀ bytes, (carry bytes).left = bytes }

section

variable {Hash M : Type} [DecidableEq Hash] (P : Platform Hash) (hmac : Hmac)
  (config : DaemonConfig Hash M) (w : Words) (codec : WireCodec) (deadlines : Deadlines)

def requestEnvelope (correlationId : String) (request : Wire.Request) : Json :=
  envelopeJson correlationId (some protocolVersion) (request.toJson codec)

/-- `read_frame` of an `Envelope<Response>`. -/
def readEnvelopeFrame (c : Chunks UInt8) : Except FrameError (Option (String × Response)) × Chunks UInt8 :=
  readFrame (fun bytes => (P.fromSlice bytes).bind (readReply codec)) c

def receive (correlationId : String) (c : Chunks UInt8) : Except ConnectionError Response :=
  match (readEnvelopeFrame P codec c).1 with
  | .error e => .error (.frame e)
  | .ok none => .error (.text "daemon closed connection without reply")
  | .ok (some (got, response)) =>
    if got ≠ correlationId then
      .error (.text ("correlation id mismatch: sent " ++ correlationId ++ " got " ++ got))
    else .ok response

/-- `round_trip`, with the daemon at the other end of the socket, and what is then left of it. -/
def roundTrip (there back : Transit) (turns : List (Pass Hash M)) (correlationId : String)
    (request : Wire.Request) (d : Daemon M) : Except ConnectionError Response × Daemon M :=
  match writeFrame (fun envelope => some (P.toVec envelope)) (requestEnvelope codec correlationId request) [] with
  | (.error e, _) => (.error (.frame e), d)
  | (.ok (), sent) =>
    let served := (Connection.handle P hmac config w codec deadlines turns
      { input := there.1 sent, sent := [], daemon := d }).2
    (receive P codec correlationId (back.1 served.sent), served.daemon)

/-- What the daemon answers when the request comes to it in a turn. -/
def outcome (turn : Pass Hash M) (request : Wire.Request) (d : Daemon M) : Response × Daemon M :=
  let ended := (answer P hmac config turn.moment w request).run (turn.elsewhere d)
  (respond P w ended.1, ended.2)

end

variable {Hash M : Type} [DecidableEq Hash] {P : Platform Hash} {hmac : Hmac}
  {config : DaemonConfig Hash M} {w : Words} {codec : WireCodec} {deadlines : Deadlines}

theorem reply_request {moment : Moment Hash} {request : Wire.Request} (fits : request.Fits) (correlationId : String)
    (d : Daemon M) :
    Connection.reply P hmac config w codec moment (P.toVec (requestEnvelope codec correlationId request)) d =
      .ok ((correlationId, respond P w ((answer P hmac config moment w request).run d).1),
        ((answer P hmac config moment w request).run d).2) := by
  rw [Connection.reply, requestEnvelope, parseEnvelope_v1 P codec fits]

variable (P hmac config w codec deadlines) in
theorem handle_nothing (turns : List (Pass Hash M)) {c : Connection M} (nothing : c.input.left = []) :
    (Connection.handle P hmac config w codec deadlines turns c).2.sent = c.sent ∧
      (Connection.handle P hmac config w codec deadlines turns c).2.daemon = c.daemon := by
  cases turns with
  | nil => exact ⟨rfl, rfl⟩
  | cons turn turns =>
    rw [Connection.handle]
    rcases passed : Connection.pass P hmac config w codec deadlines turn c with ⟨ended, c'⟩
    rcases Connection.pass_spec turn c passed with ⟨e, answered⟩ | ⟨stopped, same, kept, _⟩
    · have front := answered.front
      rw [nothing] at front
      simp [frames, toBeBytes] at front
    · cases ended with
      | none => exact absurd rfl stopped
      | some ended => exact ⟨same, kept⟩

variable (P hmac config w codec deadlines) in
theorem handle_request {turn : Pass Hash M} (awake : turn.idle = false) (turns : List (Pass Hash M))
    {request : Wire.Request} (fits : request.Fits) (correlationId : String) {c : Connection M}
    (small : (P.toVec (requestEnvelope codec correlationId request)).length ≤ maxFrameBytes)
    (front : c.input.left = frames [P.toVec (requestEnvelope codec correlationId request)]) :
    let reply := outcome P hmac config w turn request c.daemon
    let frame := frames [Connection.Exchange.encoded P codec ⟨[], correlationId, reply.1⟩]
    (Connection.handle P hmac config w codec deadlines (turn :: turns) c).2.daemon = reply.2 ∧
      (Connection.handle P hmac config w codec deadlines (turn :: turns) c).2.sent = c.sent ++
        if Room correlationId (reply.1.size codec) then frame.take (turn.delivery.reach frame.length) else [] := by
  intro reply frame
  have whole : c.input.left = frames [P.toVec (requestEnvelope codec correlationId request)] ++ [] := by
    rw [front, List.append_nil]
  obtain ⟨input, left, passed⟩ := Connection.pass_reply (c := c)
    (e := ⟨_, correlationId, reply.1⟩) (d := reply.2) deadlines awake small whole (reply_request fits correlationId _)
  have sent := Connection.deliver_sent P codec deadlines turn.delivery ⟨[], correlationId, reply.1⟩ c.sent
  rw [Connection.handle, passed]
  rcases delivered : Connection.deliver P codec deadlines turn.delivery correlationId reply.1 c.sent with ⟨r, all⟩
  rw [delivered] at sent
  cases r with
  | ok u =>
    obtain ⟨same, kept⟩ := handle_nothing P hmac config w codec deadlines turns
      (c := { input, sent := all, daemon := reply.2 }) left
    exact ⟨kept, same.trans sent⟩
  | error e => exact ⟨rfl, sent⟩

omit [DecidableEq Hash] in
theorem receive_reply {correlationId : String} {response : Response} {c : Chunks UInt8}
    (room : Room correlationId (response.size codec))
    (front : c.left = frames [Connection.Exchange.encoded P codec ⟨[], correlationId, response⟩]) :
    receive P codec correlationId c = .ok response := by
  have stream : c.left = toBeBytes (P.toVec (envelopeJson correlationId (some protocolVersion)
      (response.toJson codec))).length ++ P.toVec (envelopeJson correlationId (some protocolVersion)
      (response.toJson codec)) ++ [] := by
    rw [front]
    simp [frames, Connection.Exchange.encoded]
  have read := (readFrameBytes_frame (Connection.fits_of_room room) stream).1
  rcases taken : readFrameBytes c with ⟨outcome, rest⟩
  rw [taken] at read
  dsimp only at read
  subst read
  simp only [receive, readEnvelopeFrame, readFrame, taken, P.fromSlice_toVec, Option.bind_some,
    readReply_envelopeJson, ne_eq, not_true_eq_false, if_false]

variable (P codec) in
omit [DecidableEq Hash] in
theorem receive_cut (correlationId : String) {bytes : Bytes} {c : Chunks UInt8} {n : Nat}
    (fits : bytes.length ≤ maxFrameBytes) (short : n < (frames [bytes]).length)
    (front : c.left = (frames [bytes]).take n) :
    ∃ e, receive P codec correlationId c = .error e := by
  have frame : frames [bytes] = toBeBytes bytes.length ++ bytes := by simp [frames]
  rw [frame, List.length_append, toBeBytes_length] at short
  rw [frame] at front
  have read := readFrameBytes_cut fits short front
  rcases taken : readFrameBytes c with ⟨outcome, rest⟩
  rw [taken] at read
  rcases read with read | read
  · dsimp only at read
    subst read
    exact ⟨.text "daemon closed connection without reply", by simp only [receive, readEnvelopeFrame, readFrame, taken]⟩
  · dsimp only at read
    subst read
    exact ⟨.frame .io, by simp only [receive, readEnvelopeFrame, readFrame, taken]⟩

variable (P codec) in
omit [DecidableEq Hash] in
theorem receive_nothing (correlationId : String) {c : Chunks UInt8} (nothing : c.left = []) :
    ∃ e, receive P codec correlationId c = .error e :=
  @receive_cut _ P codec correlationId [] c 0 (by decide) (by decide) nothing

omit [DecidableEq Hash] in
theorem receive_ok_iff {correlationId : String} {sent response : Response} {c : Chunks UInt8} {reach : ℕ}
    (front : c.left =
      if Room correlationId (sent.size codec) then
        (frames [Connection.Exchange.encoded P codec ⟨[], correlationId, sent⟩]).take reach else []) :
    receive P codec correlationId c = .ok response ↔ response = sent ∧ Room correlationId (response.size codec) ∧
      (frames [Connection.Exchange.encoded P codec ⟨[], correlationId, response⟩]).length ≤ reach := by
  by_cases room : Room correlationId (sent.size codec)
  · rw [if_pos room] at front
    by_cases long : (frames [Connection.Exchange.encoded P codec ⟨[], correlationId, sent⟩]).length ≤ reach
    · rw [List.take_of_length_le long] at front
      rw [receive_reply room front]
      constructor
      · rintro ⟨⟩
        exact ⟨rfl, room, long⟩
      · rintro ⟨rfl, _, _⟩
        rfl
    · obtain ⟨e, failed⟩ := receive_cut P codec correlationId (Connection.fits_of_room room)
        (Nat.not_le.mp long) front
      rw [failed]
      constructor
      · rintro ⟨⟩
      · rintro ⟨rfl, _, whole⟩
        exact absurd whole long
  · rw [if_neg room] at front
    obtain ⟨e, failed⟩ := receive_nothing P codec correlationId front
    rw [failed]
    constructor
    · rintro ⟨⟩
    · rintro ⟨rfl, small, _⟩
      exact absurd small room

theorem roundTrip_large {there back : Transit} {turns : List (Pass Hash M)} {correlationId : String}
    {request : Wire.Request} {d : Daemon M}
    (large : ¬ (P.toVec (requestEnvelope codec correlationId request)).length ≤ maxFrameBytes) :
    ∃ e, roundTrip P hmac config w codec deadlines there back turns correlationId request d = (.error e, d) := by
  have refused := mt (@writeFrame_ok_iff _ (fun envelope => some (P.toVec envelope))
    (requestEnvelope codec correlationId request) _ rfl []).mp large
  rcases written : writeFrame (fun envelope => some (P.toVec envelope))
    (requestEnvelope codec correlationId request) [] with ⟨r, sent⟩
  cases r with
  | ok u => exact absurd (by rw [written]) refused
  | error e => exact ⟨.frame e, by rw [roundTrip, written]⟩

variable (P hmac config w codec deadlines) in
theorem roundTrip_small (there back : Transit) (turns : List (Pass Hash M)) {correlationId : String}
    {request : Wire.Request} (d : Daemon M)
    (small : (P.toVec (requestEnvelope codec correlationId request)).length ≤ maxFrameBytes) :
    ∃ input, input.left = frames [P.toVec (requestEnvelope codec correlationId request)] ∧
      roundTrip P hmac config w codec deadlines there back turns correlationId request d =
        let served := (Connection.handle P hmac config w codec deadlines turns { input, sent := [], daemon := d }).2
        (receive P codec correlationId (back.1 served.sent), served.daemon) := by
  have encodes : Encodes (fun envelope => some (P.toVec envelope)) (requestEnvelope codec correlationId request)
      (P.toVec (requestEnvelope codec correlationId request)) := ⟨rfl, small⟩
  have written := writeFrame_encodes encodes []
  refine ⟨_, (there.2 _).trans ?_, by rw [roundTrip, written]⟩
  simp [frames]

/-- The client has a response exactly when the request fits in a frame, the daemon reads it in time,
the reply fits in a frame and the whole frame goes out; the response is then what the request comes to
in the daemon. Whether there is a response or not, the request has been carried out at most once. -/
theorem roundTrip_exact (there back : Transit) (turns : List (Pass Hash M)) {request : Wire.Request}
    (fits : request.Fits) (correlationId : String) (d : Daemon M) :
    let ended := roundTrip P hmac config w codec deadlines there back turns correlationId request d
    (∀ response, ended.1 = .ok response ↔
      (P.toVec (requestEnvelope codec correlationId request)).length ≤ maxFrameBytes ∧
        ∃ turn later, turns = turn :: later ∧ turn.idle = false ∧
          response = (outcome P hmac config w turn request d).1 ∧ Room correlationId (response.size codec) ∧
          (frames [Connection.Exchange.encoded P codec ⟨[], correlationId, response⟩]).length ≤
            turn.delivery.reach (frames [Connection.Exchange.encoded P codec ⟨[], correlationId, response⟩]).length) ∧
      (ended.2 = d ∨ ∃ turn later, turns = turn :: later ∧ ended.2 = (outcome P hmac config w turn request d).2) := by
  intro ended
  by_cases small : (P.toVec (requestEnvelope codec correlationId request)).length ≤ maxFrameBytes
  swap
  · obtain ⟨e, unsent⟩ : ∃ e, ended = (.error e, d) := roundTrip_large small
    rw [unsent]
    refine ⟨fun response => ⟨by rintro ⟨⟩, ?_⟩, Or.inl rfl⟩
    rintro ⟨fits, _⟩
    exact absurd fits small
  obtain ⟨input, stream, sent⟩ := roundTrip_small P hmac config w codec deadlines there back turns d small
  rw [show ended = _ from sent]
  have silent : ∀ response (sent : Bytes), sent = [] → receive P codec correlationId (back.1 sent) ≠ .ok response := by
    rintro response _ rfl received
    obtain ⟨e, failed⟩ := receive_nothing P codec correlationId (back.2 [])
    rw [failed] at received
    cases received
  cases turns with
  | nil =>
    refine ⟨fun response => ⟨fun received => absurd received (silent response _ rfl), ?_⟩, Or.inl rfl⟩
    rintro ⟨_, turn, later, none_, _⟩
    cases none_
  | cons turn later =>
    cases awake : turn.idle with
    | true =>
      have nothing : (Connection.handle P hmac config w codec deadlines (turn :: later)
          { input, sent := [], daemon := d }).2 = { input, sent := [], daemon := d } := by
        rw [Connection.handle, Connection.pass, if_pos awake]
      rw [nothing]
      refine ⟨fun response => ⟨fun received => absurd received (silent response _ rfl), ?_⟩, Or.inl rfl⟩
      rintro ⟨_, turn', later', same, woken, _⟩
      cases same
      rw [awake] at woken
      cases woken
    | false =>
      obtain ⟨after, sent⟩ := handle_request P hmac config w codec deadlines awake later fits correlationId
        (c := { input, sent := [], daemon := d }) small stream
      have front := (back.2 _).trans sent
      rw [List.nil_append] at front
      refine ⟨fun response => ?_, Or.inr ⟨turn, later, rfl, after⟩⟩
      rw [receive_ok_iff front]
      constructor
      · rintro ⟨rfl, room, long⟩
        exact ⟨small, turn, later, rfl, awake, rfl, room, long⟩
      · rintro ⟨_, turn', later', same, _, told, room, long⟩
        cases same
        exact ⟨told, room, told ▸ long⟩

/-- Byte by byte. -/
def bytewise : Transit :=
  ⟨fun bytes => ⟨bytes.map ([·]), by simp⟩, fun bytes => by
    induction bytes with
    | nil => rfl
    | cons b bytes ih => exact congrArg (b :: ·) ih⟩

theorem roundTrip_exact_ping :
    (roundTrip Platform.sample (fun _ _ => []) Daemon.quiet wordless Daemon.hexCodec ⟨60, 30⟩ bytewise bytewise
      [⟨false, id, idle, .whole⟩] "cli-1-1" .ping Daemon.start).1 = .ok .pong := by
  have exact_ := @roundTrip_exact _ _ _ Platform.sample (fun _ _ => []) Daemon.quiet wordless Daemon.hexCodec ⟨60, 30⟩
    bytewise bytewise [⟨false, id, idle, .whole⟩] .ping trivial "cli-1-1" Daemon.start
  exact (exact_.1 .pong).mpr ⟨by decide +kernel, _, _, rfl, rfl, rfl, by decide +kernel, le_refl _⟩

/- Many requests on one connection. -/

section

variable (P hmac config w)

/-- Requests carried out one after another, each in its turn. -/
def outcomes : List (Pass Hash M × String × Wire.Request) → Daemon M → List (String × Response) × Daemon M
  | [], d => ([], d)
  | (turn, correlationId, request) :: calls, d =>
    let first := outcome P hmac config w turn request d
    let others := outcomes calls first.2
    ((correlationId, first.1) :: others.1, others.2)

variable (codec)

def readReplies : Nat → Chunks UInt8 → List (Except FrameError (Option (String × Response)))
  | 0, _ => []
  | n + 1, c => (readEnvelopeFrame P codec c).1 :: readReplies n (readEnvelopeFrame P codec c).2

end

variable (P hmac config w codec) in
theorem outcomes_served (calls : List (Pass Hash M × String × Wire.Request))
    (fit : ∀ call ∈ calls, call.2.2.Fits) (d : Daemon M) :
    ∃ es, Connection.Served P hmac config w codec (calls.map Prod.fst) d es (outcomes P hmac config w calls d).2 ∧
      es.map Connection.Exchange.payload =
        calls.map (fun call => P.toVec (requestEnvelope codec call.2.1 call.2.2)) ∧
      es.map (fun e => (e.correlationId, e.response)) = (outcomes P hmac config w calls d).1 := by
  induction calls generalizing d with
  | nil => exact ⟨[], .none d, rfl, rfl⟩
  | cons call calls ih =>
    obtain ⟨turn, correlationId, request⟩ := call
    obtain ⟨es, served, payloads, replies⟩ := ih (fun call mem => fit call (List.mem_cons_of_mem _ mem))
      (outcome P hmac config w turn request d).2
    refine ⟨⟨P.toVec (requestEnvelope codec correlationId request), correlationId,
      (outcome P hmac config w turn request d).1⟩ :: es, .next ?_ served, ?_, ?_⟩
    · exact reply_request (fit _ List.mem_cons_self) correlationId _
    · rw [List.map_cons, payloads, List.map_cons]
    · rw [List.map_cons, replies, outcomes]

omit [DecidableEq Hash] in
theorem readReplies_frames {replies : List (String × Response)}
    (room : ∀ reply ∈ replies, Room reply.1 (reply.2.size codec)) {c : Chunks UInt8}
    (stream : c.left = frames (replies.map
      (fun reply => P.toVec (envelopeJson reply.1 (some protocolVersion) (reply.2.toJson codec))))) (n : ℕ) :
    readReplies P codec (replies.length + n) c =
      replies.map (fun reply => .ok (some reply)) ++ List.replicate n (.ok none) := by
  induction replies generalizing c with
  | nil =>
    have nothing : ∀ n (c : Chunks UInt8), c.left = [] →
        readReplies P codec n c = List.replicate n (.ok none) := by
      intro n
      induction n with
      | zero => exact fun _ _ => rfl
      | succ n ih =>
        intro c none_
        obtain ⟨read, left⟩ := readFrameBytes_nothing none_
        rcases taken : readFrameBytes c with ⟨outcome, rest⟩
        rw [taken] at read left
        dsimp only at read left
        subst read
        simp only [readReplies, readEnvelopeFrame, readFrame, taken, ih rest left]
        rfl
    rw [List.length_nil, Nat.zero_add]
    exact nothing n c stream
  | cons reply replies ih =>
    have fits := @Connection.fits_of_room _ P codec _ _ (room reply List.mem_cons_self)
    rw [List.map_cons, frames, List.flatMap_cons] at stream
    obtain ⟨read, left⟩ := readFrameBytes_frame fits stream
    have rest := ih (fun other mem => room other (List.mem_cons_of_mem _ mem)) left
    rcases taken : readFrameBytes c with ⟨outcome, c'⟩
    rw [taken] at read rest
    dsimp only at read rest
    subst read
    rw [List.length_cons, Nat.add_right_comm]
    simp only [readReplies, readEnvelopeFrame, readFrame, taken, P.fromSlice_toVec, Option.bind_some,
      readReply_envelopeJson, rest]
    rfl

/-- Requests that are sent together, in whatever pieces they arrive, come to what they come to one
after another; the replies come back in the order of the requests, each under its own correlation id,
and in whatever pieces. -/
theorem pipelined (calls : List (Pass Hash M × String × Wire.Request)) (d : Daemon M)
    (fair : ∀ call ∈ calls, call.1.Fair) (fit : ∀ call ∈ calls, call.2.2.Fits)
    (small : ∀ call ∈ calls, (P.toVec (requestEnvelope codec call.2.1 call.2.2)).length ≤ maxFrameBytes)
    (room : ∀ reply ∈ (outcomes P hmac config w calls d).1, Room reply.1 (reply.2.size codec))
    (input : Chunks UInt8)
    (stream : input.left = frames (calls.map (fun call => P.toVec (requestEnvelope codec call.2.1 call.2.2)))) :
    let ended := Connection.handle P hmac config w codec deadlines (calls.map Prod.fst)
      { input, sent := [], daemon := d }
    let replies := outcomes P hmac config w calls d
    ended.1 = none ∧ ended.2.daemon = replies.2 ∧ ended.2.input.left = [] ∧
      ∀ (out : Chunks UInt8) (n : ℕ), out.left = ended.2.sent →
        readReplies P codec (replies.1.length + n) out =
          replies.1.map (fun reply => .ok (some reply)) ++ List.replicate n (.ok none) := by
  intro ended replies
  obtain ⟨es, served, payloads, told⟩ := outcomes_served P hmac config w codec calls fit d
  have fits : ∀ e ∈ es, e.payload.length ≤ maxFrameBytes := by
    intro e mem
    have listed := List.mem_map_of_mem (f := Connection.Exchange.payload) mem
    rw [payloads] at listed
    obtain ⟨call, mem, same⟩ := List.mem_map.mp listed
    rw [← same]
    exact small call mem
  have roomy : ∀ e ∈ es, Room e.correlationId (e.response.size codec) := by
    intro e mem
    have listed := List.mem_map_of_mem (f := fun e : Connection.Exchange => (e.correlationId, e.response)) mem
    rw [told] at listed
    exact room (e.correlationId, e.response) listed
  have awake : ∀ turn ∈ calls.map Prod.fst, turn.Fair := by
    intro turn mem
    obtain ⟨call, listed, rfl⟩ := List.mem_map.mp mem
    exact fair call listed
  have whole : input.left = frames (es.map Connection.Exchange.payload) ++ [] := by
    rw [payloads, List.append_nil]
    exact stream
  obtain ⟨rest, left, handled⟩ := Connection.handle_served deadlines awake
    (c := { input, sent := [], daemon := d }) served fits roomy whole
  have stop : ended = (none, _) := handled
  rw [stop]
  refine ⟨rfl, rfl, left, fun out n same => readReplies_frames room ?_ n⟩
  rw [same, List.nil_append, ← told, List.map_map]
  rfl

def pingThenLog : List (Pass Bytes Unit × String × Wire.Request) :=
  [(⟨false, id, idle, .whole⟩, "a", .ping), (⟨false, id, idle, .whole⟩, "b", .log 3)]

def servedPingThenLog : Connection Unit :=
  (Connection.handle Platform.sample (fun _ _ => []) Daemon.quiet wordless Daemon.hexCodec ⟨60, 30⟩
    (pingThenLog.map Prod.fst) { input := bytewise.1 (frames (pingThenLog.map (fun call =>
      Platform.sample.toVec (requestEnvelope Daemon.hexCodec call.2.1 call.2.2)))), sent := [], daemon := Daemon.start }).2

theorem pipelined_two :
    readReplies Platform.sample Daemon.hexCodec 3 (bytewise.1 servedPingThenLog.sent) =
      [.ok (some ("a", .pong)), .ok (some ("b", .log [])), .ok none] := by
  have fair : ∀ call ∈ pingThenLog, call.1.Fair := by
    intro call mem
    rcases List.mem_pair.mp mem with rfl | rfl
    · exact ⟨rfl, rfl⟩
    · exact ⟨rfl, rfl⟩
  have told : (outcomes Platform.sample (fun _ _ => []) Daemon.quiet wordless pingThenLog Daemon.start).1 =
      [("a", .pong), ("b", .log [])] := by rfl
  have both := @pipelined _ _ _ Platform.sample (fun _ _ => []) Daemon.quiet wordless Daemon.hexCodec ⟨60, 30⟩
    pingThenLog Daemon.start fair ?_ ?_ ?_ _ (bytewise.2 _)
  · have read : ∀ out : Chunks UInt8, out.left = servedPingThenLog.sent →
        readReplies Platform.sample Daemon.hexCodec 3 out =
          [.ok (some ("a", .pong)), .ok (some ("b", .log [])), .ok none] := by
      intro out same
      unfold servedPingThenLog at same
      have read := both.2.2.2 out 1 same
      rw [told] at read
      exact read
    generalize servedPingThenLog.sent = sent at read ⊢
    exact read (bytewise.1 sent) (bytewise.2 sent)
  · intro call mem
    rcases List.mem_pair.mp mem with rfl | rfl
    · trivial
    · exact (by decide : 3 < 2 ^ 64)
  · intro call mem
    rcases List.mem_pair.mp mem with rfl | rfl
    · decide +kernel
    · decide +kernel
  · rw [told]
    intro reply mem
    rcases List.mem_pair.mp mem with rfl | rfl
    · decide +kernel
    · decide +kernel

end Client

end GitAgentic
