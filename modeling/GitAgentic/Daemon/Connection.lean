import GitAgentic.Daemon.Replies

/-! A connection: the loop that reads a frame, answers it and writes the reply, until the peer
closes, a deadline passes or something cannot be answered. -/
namespace GitAgentic

/-- What becomes of a frame that is written. The peer stops reading, or the socket fails, after so
many bytes. -/
inductive Delivery where
  | whole
  | stalled (bytes : Nat)
  | failed (bytes : Nat)

/-- What one pass of the loop meets: whether the deadline passes before a frame is there, what other
connections have done to the daemon by then, the moment of the request, and what becomes of the
reply. -/
structure Pass (Hash M : Type) where
  idle : Bool
  elsewhere : Daemon M → Daemon M
  moment : Moment Hash
  delivery : Delivery

/-- A turn in which nothing goes wrong outside. -/
structure Pass.Fair {Hash M : Type} (turn : Pass Hash M) : Prop where
  awake : turn.idle = false
  whole : turn.delivery = .whole

/-- How much of so many bytes goes out. -/
def Delivery.reach (bytes : Nat) : Delivery → Nat
  | .whole => bytes
  | .stalled sent => sent
  | .failed sent => sent

inductive ConnectionError where
  | frame (cause : Framing.FrameError)
  | text (message : String)
  deriving DecidableEq

structure Deadlines where
  readIdle : Nat
  writeIdle : Nat

structure Connection (M : Type) where
  input : Chunks UInt8
  sent : Bytes
  daemon : Daemon M

namespace Connection

section

variable {Hash M : Type} [DecidableEq Hash] (P : Platform Hash) (hmac : Hmac)
  (config : DaemonConfig Hash M) (w : Words) (codec : WireCodec) (deadlines : Deadlines)

/-- What a payload is answered with, under which correlation id, and what is then left of the
daemon; or why the connection is closed instead. -/
def reply (moment : Moment Hash) (bytes : Bytes) (d : Daemon M) :
    Except ConnectionError ((String × Response) × Daemon M) :=
  match parseEnvelopeWithV0Shim codec P bytes with
  | .ok (correlationId, request) =>
    let ended := (answer P hmac config moment w request).run d
    .ok ((correlationId, respond P w ended.1), ended.2)
  | .error (.attributable correlationId response) =>
    if moment.granted then .ok ((correlationId, .error response), d)
    else .error (.text "rate budget exhausted by malformed envelopes; closing")
  | .error (.unattributable message) => .error (.text ("malformed envelope: " ++ message))

def writeStalled : ConnectionError :=
  .text ("response write stalled beyond " ++ decimal deadlines.writeIdle ++ "s write-idle deadline")

/-- `write_reply`: a reply that is too large is refused before anything is written. -/
def deliver (delivery : Delivery) (correlationId : String) (response : Response) (sent : Bytes) :
    Except ConnectionError Unit × Bytes :=
  match writeReply P codec correlationId response sent with
  | (.error e, sent) => (.error (.frame e), sent)
  | (.ok (), all) =>
    match delivery with
    | .whole => (.ok (), all)
    | .stalled bytes => (.error (writeStalled deadlines), all.take (sent.length + bytes))
    | .failed bytes => (.error (.frame .io), all.take (sent.length + bytes))

/-- One pass of the loop, and how the connection ends where it does. -/
def pass (turn : Pass Hash M) (c : Connection M) :
    Option (Except ConnectionError Unit) × Connection M :=
  if turn.idle then
    (some (.error (.text ("connection idle beyond " ++ decimal deadlines.readIdle ++
      "s read deadline; closing"))), c)
  else
    match Framing.readFrameBytes c.input with
    | (.ok none, input) => (some (.ok ()), { c with input })
    | (.error (.tooLarge n), input) =>
      (some (.error (.text ("inbound frame exceeds MAX_FRAME_BYTES (" ++ decimal n ++ " bytes)"))),
        { c with input })
    | (.error e, input) => (some (.error (.frame e)), { c with input })
    | (.ok (some bytes), input) =>
      match reply P hmac config w codec turn.moment bytes (turn.elsewhere c.daemon) with
      | .error e => (some (.error e), { c with input })
      | .ok ((correlationId, response), daemon) =>
        match deliver P codec deadlines turn.delivery correlationId response c.sent with
        | (.ok (), sent) => (none, { input, sent, daemon })
        | (.error e, sent) => (some (.error e), { input, sent, daemon })

/-- `handle_connection_with_deadlines`, for as many passes as there are turns. -/
def handle : List (Pass Hash M) → Connection M → Option (Except ConnectionError Unit) × Connection M
  | [], c => (none, c)
  | turn :: turns, c =>
    match pass P hmac config w codec deadlines turn c with
    | (none, c) => handle turns c
    | (some ended, c) => (some ended, c)

end

/- What the loop amounts to. -/

structure Exchange where
  payload : Bytes
  correlationId : String
  response : Response

variable {Hash M : Type} [DecidableEq Hash] {P : Platform Hash} {hmac : Hmac}
  {config : DaemonConfig Hash M} {w : Words} {codec : WireCodec} {deadlines : Deadlines}

section

variable (P hmac config w codec)

/-- One payload after another is answered, each once. -/
inductive Served : List (Pass Hash M) → Daemon M → List Exchange → Daemon M → Prop
  | none (d : Daemon M) : Served [] d [] d
  | next {turn : Pass Hash M} {turns : List (Pass Hash M)} {d d₁ d₂ : Daemon M} {e : Exchange}
      {es : List Exchange}
      (answered : reply P hmac config w codec turn.moment e.payload (turn.elsewhere d) =
        .ok ((e.correlationId, e.response), d₁))
      (rest : Served turns d₁ es d₂) : Served (turn :: turns) d (e :: es) d₂

/-- The frame that a reply goes out in. -/
def Exchange.encoded (e : Exchange) : Bytes :=
  P.toVec (envelopeJson e.correlationId (some protocolVersion) (e.response.toJson codec))

end

instance (correlationId : String) (payload : Nat) : Decidable (Room correlationId payload) :=
  inferInstanceAs (Decidable (_ ≤ _))

section

open Framing

theorem frames_cons (bytes : Bytes) (encodings : List Bytes) :
    frames (bytes :: encodings) = frames [bytes] ++ frames encodings := by
  simp [frames]

omit [DecidableEq Hash] in
theorem parseEnvelope_named {bytes : Bytes} {correlationId : String} (response : ErrorReply) (request : Wire.Request)
    (parsed : parseEnvelopeWithV0Shim codec P bytes = .ok (correlationId, request) ∨
      parseEnvelopeWithV0Shim codec P bytes = .error (.attributable correlationId response)) :
    HasCorrelationId codec bytes correlationId := by
  by_cases named : ∃ id, HasCorrelationId codec bytes id
  · obtain ⟨id, named⟩ := named
    rcases parseEnvelope_attributed P codec named with ⟨request', ok⟩ | ⟨response', error⟩
    · rcases parsed with parsed | parsed
      · rw [parsed] at ok
        cases ok
        exact named
      · rw [parsed] at ok
        cases ok
    · rcases parsed with parsed | parsed
      · rw [parsed] at error
        cases error
      · rw [parsed] at error
        cases error
        exact named
  · obtain ⟨message, refused⟩ := parseEnvelope_unattributed P codec named
    rcases parsed with parsed | parsed
    · rw [parsed] at refused
      cases refused
    · rw [parsed] at refused
      cases refused

theorem reply_named {moment : Moment Hash} {bytes : Bytes} {d d' : Daemon M} {correlationId : String}
    {response : Response} (replied : reply P hmac config w codec moment bytes d = .ok ((correlationId, response), d')) :
    HasCorrelationId codec bytes correlationId := by
  unfold reply at replied
  split at replied
  · rename_i id request parsed
    cases replied
    exact parseEnvelope_named ⟨.unknown, "", "", false⟩ request (Or.inl parsed)
  · rename_i id refusal parsed
    split at replied
    · cases replied
      exact parseEnvelope_named refusal .ping (Or.inr parsed)
    · cases replied
  · cases replied

omit [DecidableEq Hash] in
theorem fits_of_room {correlationId : String} {response : Response}
    (room : Room correlationId (response.size codec)) :
    (P.toVec (envelopeJson correlationId (some protocolVersion) (response.toJson codec))).length ≤ maxFrameBytes :=
  (@writeFrame_ok_iff _ (fun reply => some (P.toVec reply)) _ _ rfl []).mp
    ((writeReply_ok_iff P codec correlationId response []).mpr room)

variable (P codec) in
omit [DecidableEq Hash] in
theorem writeReply_spec (e : Exchange) (sent : Bytes) :
    (Room e.correlationId (e.response.size codec) ∧
      writeReply P codec e.correlationId e.response sent = (.ok (), sent ++ frames [e.encoded P codec])) ∨
    ¬ Room e.correlationId (e.response.size codec) ∧
      ∃ cause, writeReply P codec e.correlationId e.response sent = (.error cause, sent) := by
  by_cases room : Room e.correlationId (e.response.size codec)
  · have encodes : Encodes (fun reply => some (P.toVec reply)) (envelopeJson e.correlationId (some protocolVersion)
        (e.response.toJson codec)) (e.encoded P codec) := ⟨rfl, fits_of_room room⟩
    refine Or.inl ⟨room, ?_⟩
    rw [writeReply, writeFrame_encodes encodes sent]
    simp only [frames, List.flatMap_cons, List.flatMap_nil, List.append_nil, List.append_assoc]
  · refine Or.inr ⟨room, ?_⟩
    have refused := mt (writeReply_ok_iff P codec e.correlationId e.response sent).mp room
    unfold writeReply writeFrame at refused ⊢
    dsimp only at refused ⊢
    split_ifs at refused ⊢
    · exact ⟨_, rfl⟩
    · exact ⟨_, rfl⟩
    · exact absurd rfl refused

variable (P codec deadlines) in
omit [DecidableEq Hash] in
theorem deliver_sent (delivery : Delivery) (e : Exchange) (sent : Bytes) :
    (deliver P codec deadlines delivery e.correlationId e.response sent).2 = sent ++
      (if Room e.correlationId (e.response.size codec) then
        (frames [e.encoded P codec]).take (delivery.reach (frames [e.encoded P codec]).length) else []) := by
  unfold deliver
  rcases writeReply_spec P codec e sent with ⟨room, written⟩ | ⟨large, cause, written⟩
  · rw [written, if_pos room]
    cases delivery with
    | whole =>
      rw [Delivery.reach, List.take_length]
    | stalled bytes =>
      show (sent ++ frames [e.encoded P codec]).take (sent.length + bytes) = _
      rw [List.take_append]
      simp [Delivery.reach]
    | failed bytes =>
      show (sent ++ frames [e.encoded P codec]).take (sent.length + bytes) = _
      rw [List.take_append]
      simp [Delivery.reach]
  · rw [written, if_neg large, List.append_nil]

variable (P codec deadlines) in
omit [DecidableEq Hash] in
theorem deliver_ok_iff (delivery : Delivery) (e : Exchange) (sent : Bytes) :
    (deliver P codec deadlines delivery e.correlationId e.response sent).1 = .ok () ↔
      Room e.correlationId (e.response.size codec) ∧ delivery = .whole := by
  unfold deliver
  rcases writeReply_spec P codec e sent with ⟨room, written⟩ | ⟨large, cause, written⟩
  · rw [written]
    cases delivery <;> simp [room]
  · rw [written]
    simp [large]

variable (P hmac config w codec) in
/-- A pass answers a payload, which it has taken from the front of the stream. -/
structure Answered (turn : Pass Hash M) (c c' : Connection M) (ended : Option (Except ConnectionError Unit))
    (e : Exchange) : Prop where
  replied : reply P hmac config w codec turn.moment e.payload (turn.elsewhere c.daemon) =
    .ok ((e.correlationId, e.response), c'.daemon)
  front : c.input.left = frames [e.payload] ++ c'.input.left
  written : ∃ part, c'.sent = c.sent ++ part ∧ part <+: frames [e.encoded P codec] ∧
    (ended = none → part = frames [e.encoded P codec])
  failed : ended ≠ some (.ok ())

/-- A pass answers a payload, or it ends the connection without a reply. -/
theorem pass_spec (turn : Pass Hash M) (c : Connection M) {ended : Option (Except ConnectionError Unit)}
    {c' : Connection M} (passed : pass P hmac config w codec deadlines turn c = (ended, c')) :
    (∃ e, Answered P hmac config w codec turn c c' ended e) ∨
      (ended ≠ none ∧ c'.sent = c.sent ∧ c'.daemon = c.daemon ∧
        (ended = some (.ok ()) → c.input.left.length < 4)) := by
  unfold pass at passed
  split at passed
  · cases passed
    exact Or.inr ⟨by rintro ⟨⟩, rfl, rfl, by rintro ⟨⟩⟩
  split at passed
  · rename_i input read
    cases passed
    refine Or.inr ⟨by rintro ⟨⟩, rfl, rfl, fun _ => ?_⟩
    have outcome := readFrameBytes_eq c.input
    rw [read] at outcome
    dsimp only at outcome
    by_contra long
    rw [if_neg long] at outcome
    split_ifs at outcome
    cases outcome
  · cases passed
    exact Or.inr ⟨by rintro ⟨⟩, rfl, rfl, by rintro ⟨⟩⟩
  · cases passed
    exact Or.inr ⟨by rintro ⟨⟩, rfl, rfl, by rintro ⟨⟩⟩
  · rename_i bytes input read
    have some_ : (readFrameBytes c.input).1 = .ok (some bytes) := by rw [read]
    have taken := readFrameBytes_some some_
    rw [read] at taken
    have front : c.input.left = frames [bytes] ++ input.left := by
      rw [taken.1]
      simp [frames]
    split at passed
    · cases passed
      exact Or.inr ⟨by rintro ⟨⟩, rfl, rfl, by rintro ⟨⟩⟩
    · rename_i correlationId response daemon replied
      have all := deliver_sent P codec deadlines turn.delivery ⟨bytes, correlationId, response⟩ c.sent
      have done := deliver_ok_iff P codec deadlines turn.delivery ⟨bytes, correlationId, response⟩ c.sent
      refine Or.inl ⟨⟨bytes, correlationId, response⟩, ?_⟩
      split at passed
      · rename_i sent delivered
        cases passed
        rw [delivered] at all done
        obtain ⟨room, whole⟩ := done.mp rfl
        rw [if_pos room, whole, Delivery.reach, List.take_length] at all
        exact ⟨replied, front, ⟨_, all, List.prefix_rfl, fun _ => rfl⟩, by rintro ⟨⟩⟩
      · rename_i error sent delivered
        cases passed
        rw [delivered] at all
        refine ⟨replied, front, ⟨_, all, ?_, by rintro ⟨⟩⟩, by rintro ⟨⟩⟩
        split
        · exact List.take_prefix _ _
        · exact List.nil_prefix

variable (P hmac config w codec) in
/-- What the loop has done with the stream: the payloads at its front are answered in their order, each
under its own correlation id, and the replies have gone out in their order. -/
structure Answers (turns : List (Pass Hash M)) (c c' : Connection M)
    (ended : Option (Except ConnectionError Unit)) (es : List Exchange) : Prop where
  served : Served P hmac config w codec (turns.take es.length) c.daemon es c'.daemon
  named : ∀ e ∈ es, HasCorrelationId codec e.payload e.correlationId
  read : ∃ rest, c.input.left = frames (es.map Exchange.payload) ++ rest ∧
    (ended = some (.ok ()) → rest.length < 4)
  written : ∃ out, c'.sent = c.sent ++ out ∧ out <+: frames (es.map (Exchange.encoded P codec)) ∧
    frames (es.dropLast.map (Exchange.encoded P codec)) <+: out ∧
    ((∀ error, ended ≠ some (.error error)) → out = frames (es.map (Exchange.encoded P codec)))
  all : ended = none → es.length = turns.length

theorem Answered.alone {turn : Pass Hash M} {turns : List (Pass Hash M)} {c c' : Connection M}
    {ended : Except ConnectionError Unit} {e : Exchange}
    (answered : Answered P hmac config w codec turn c c' (some ended) e) :
    Answers P hmac config w codec (turn :: turns) c c' (some ended) [e] where
  served := .next answered.replied (.none _)
  named := by
    intro other mem
    obtain rfl := List.mem_singleton.mp mem
    exact reply_named answered.replied
  read := ⟨c'.input.left, answered.front, fun well => absurd well answered.failed⟩
  written := by
    obtain ⟨part, all, cut, _⟩ := answered.written
    refine ⟨part, all, cut, List.nil_prefix, fun well => ?_⟩
    cases ended with
    | ok u => exact absurd rfl answered.failed
    | error error => exact absurd rfl (well error)
  all := by rintro ⟨⟩

theorem Answered.cons {turn : Pass Hash M} {turns : List (Pass Hash M)} {c c₁ c' : Connection M}
    {ended : Option (Except ConnectionError Unit)} {e : Exchange} {es : List Exchange}
    (answered : Answered P hmac config w codec turn c c₁ none e)
    (rest : Answers P hmac config w codec turns c₁ c' ended es) :
    Answers P hmac config w codec (turn :: turns) c c' ended (e :: es) where
  served := .next answered.replied rest.served
  named := by
    intro other mem
    rcases List.mem_cons.mp mem with rfl | mem
    · exact reply_named answered.replied
    · exact rest.named other mem
  read := by
    obtain ⟨unread, front, well⟩ := rest.read
    refine ⟨unread, ?_, well⟩
    rw [answered.front, front, List.map_cons, frames_cons e.payload (es.map _), List.append_assoc]
  written := by
    obtain ⟨part, first, _, whole⟩ := answered.written
    obtain ⟨out, later, cut, but, all⟩ := rest.written
    obtain rfl := whole rfl
    refine ⟨frames [e.encoded P codec] ++ out, ?_, ?_, ?_, fun well => ?_⟩
    · rw [later, first, List.append_assoc]
    · rw [List.map_cons, frames_cons _ (es.map _)]
      exact (List.prefix_append_right_inj _).mpr cut
    · cases es with
      | nil => exact List.nil_prefix
      | cons e' es =>
        rw [List.dropLast_cons_of_ne_nil (List.cons_ne_nil e' es), List.map_cons,
          frames_cons _ (List.map _ (e' :: es).dropLast)]
        exact (List.prefix_append_right_inj _).mpr but
    · rw [all well, List.map_cons, ← frames_cons]
  all := by
    intro on
    rw [List.length_cons, List.length_cons, rest.all on]

/-- Whatever arrives in whatever pieces, whatever the deadlines and the socket do, and whatever other
connections do between the requests: the payloads at the front of the stream are answered one after
another, each once and under its own correlation id. The replies go out in that order, each in a frame
of its own. Only the last one can be cut, when the connection ends with an error. Where the connection
ends well, no frame is left unanswered. -/
theorem handle_answers (turns : List (Pass Hash M)) (c : Connection M) :
    ∃ es, Answers P hmac config w codec turns c (handle P hmac config w codec deadlines turns c).2
      (handle P hmac config w codec deadlines turns c).1 es := by
  induction turns generalizing c with
  | nil =>
    refine ⟨[], .none _, by rintro e ⟨⟩, ⟨c.input.left, rfl, by rintro ⟨⟩⟩, ?_, fun _ => rfl⟩
    exact ⟨[], (List.append_nil _).symm, List.nil_prefix, List.nil_prefix, fun _ => rfl⟩
  | cons turn turns ih =>
    rw [handle]
    rcases passed : pass P hmac config w codec deadlines turn c with ⟨ended, c₁⟩
    rcases pass_spec turn c passed with ⟨e, answered⟩ | ⟨stopped, same, kept, well⟩
    · cases ended with
      | none =>
        obtain ⟨es, rest⟩ := ih c₁
        exact ⟨e :: es, answered.cons rest⟩
      | some ended => exact ⟨[e], answered.alone⟩
    · cases ended with
      | none => exact absurd rfl stopped
      | some ended =>
        refine ⟨[], ?_, by rintro e ⟨⟩, ⟨c.input.left, rfl, well⟩, ?_, by rintro ⟨⟩⟩
        · rw [show c₁.daemon = c.daemon from kept]
          exact .none _
        · exact ⟨[], by rw [same, List.append_nil], List.nil_prefix, List.nil_prefix, fun _ => rfl⟩

/- A stream of whole frames, to a peer that reads. -/

variable (deadlines) in
theorem pass_reply {turn : Pass Hash M} (awake : turn.idle = false) {c : Connection M} {e : Exchange} {d : Daemon M}
    {rest : Bytes} (fits : e.payload.length ≤ maxFrameBytes) (front : c.input.left = frames [e.payload] ++ rest)
    (replied : reply P hmac config w codec turn.moment e.payload (turn.elsewhere c.daemon) =
      .ok ((e.correlationId, e.response), d)) :
    ∃ input, input.left = rest ∧ pass P hmac config w codec deadlines turn c =
      (match deliver P codec deadlines turn.delivery e.correlationId e.response c.sent with
        | (.ok (), sent) => (none, { input, sent, daemon := d })
        | (.error error, sent) => (some (.error error), { input, sent, daemon := d })) := by
  have stream : c.input.left = toBeBytes e.payload.length ++ e.payload ++ rest := by
    rw [front]
    simp [frames]
  obtain ⟨read, left⟩ := readFrameBytes_frame fits stream
  refine ⟨_, left, ?_⟩
  rcases taken : readFrameBytes c.input with ⟨outcome, input⟩
  rw [taken] at read
  dsimp only at read
  subst read
  simp only [pass, awake, taken, replied, Bool.false_eq_true, if_false]

variable (deadlines) in
theorem handle_served {turns : List (Pass Hash M)} (fair : ∀ turn ∈ turns, turn.Fair) {c : Connection M}
    {es : List Exchange} {d : Daemon M} {rest : Bytes} (served : Served P hmac config w codec turns c.daemon es d)
    (fits : ∀ e ∈ es, e.payload.length ≤ maxFrameBytes)
    (room : ∀ e ∈ es, Room e.correlationId (e.response.size codec))
    (front : c.input.left = frames (es.map Exchange.payload) ++ rest) :
    ∃ input, input.left = rest ∧ handle P hmac config w codec deadlines turns c =
      (none, { input, sent := c.sent ++ frames (es.map (Exchange.encoded P codec)), daemon := d }) := by
  induction turns generalizing c es with
  | nil =>
    cases served
    refine ⟨c.input, front, ?_⟩
    rw [handle, List.map_nil, frames, List.flatMap_nil, List.append_nil]
  | cons turn turns ih =>
    cases served with
    | @next _ _ _ d₁ _ e es replied served =>
      have first := fair turn List.mem_cons_self
      rw [List.map_cons, frames_cons _ (es.map _), List.append_assoc] at front
      obtain ⟨input, left, passed⟩ := pass_reply deadlines first.awake
        (fits e List.mem_cons_self) front replied
      have roomy := room e List.mem_cons_self
      have delivered : deliver P codec deadlines turn.delivery e.correlationId e.response c.sent =
          (.ok (), c.sent ++ frames [e.encoded P codec]) := by
        refine Prod.ext ((deliver_ok_iff P codec deadlines _ e _).mpr ⟨roomy, first.whole⟩) ?_
        rw [deliver_sent, if_pos roomy, first.whole, Delivery.reach, List.take_length]
      rw [delivered] at passed
      obtain ⟨input', left', handled⟩ := ih (fun turn mem => fair turn (List.mem_cons_of_mem _ mem))
        (c := { input, sent := c.sent ++ frames [e.encoded P codec], daemon := d₁ }) served
        (fun e mem => fits e (List.mem_cons_of_mem _ mem)) (fun e mem => room e (List.mem_cons_of_mem _ mem)) left
      refine ⟨input', left', ?_⟩
      rw [handle, passed]
      dsimp only
      rw [handled, List.map_cons, frames_cons _ (es.map _), List.append_assoc]

end

end Connection

end GitAgentic
