import Ruvia.Http.QuicVarint

/-!
# `Http.CapsuleDecoder` — the incremental capsule decoder

`http_capsule_decoder` of `http_datagram.cpp`. A header and a context identifier are taken byte by byte, a value
in whatever pieces the input has. What the callbacks see is collated to capsules (`CapsuleDelivery`), and up to
that a turn of the loop does what its bytes do one at a time (`turn_bytes`). So `feed` and `feed_one` are folds of
one step over the bytes they consume (`feedImpl_spec`), which no cut of the input shows in.
-/

namespace Ruvia.Http

open Library

/-! ## State -/

/-- The constructor of the decoder refuses a larger limit. -/
structure HttpCapsuleConfig where
  maxCapsuleLength : Nat
  inRange : maxCapsuleLength ≤ quicVarintMax

inductive HttpCapsuleStatus where
  | needMoreData
  | ended
  | truncated
  | limit
  deriving DecidableEq, Repr

inductive HttpCapsuleRetention where
  | all
  | datagrams
  | udpPayloads
  deriving DecidableEq, Repr

inductive PayloadMode where
  | deliver
  | skip
  | contextId
  deriving DecidableEq, Repr

structure HttpCapsuleEvent where
  type : Nat
  payload : Bytes
  endCapsule : Bool
  deriving DecidableEq, Repr

/-- `header` and `contextId` hold the bytes of the arrays that are in use. -/
structure HttpCapsuleDecoder where
  header : Bytes := []
  typeSize : Nat := 0
  contextId : Bytes := []
  type : Nat := 0
  remaining : Nat := 0
  mode : PayloadMode := .deliver
  payload : Bool := false
  status : HttpCapsuleStatus := .needMoreData
  deriving DecidableEq, Repr

structure HttpCapsuleFeedResult where
  status : HttpCapsuleStatus
  consumedBytes : Nat := 0
  capsuleComplete : Bool := false
  deriving DecidableEq, Repr

/-! ## What the callbacks see -/

structure HttpCapsule where
  type : Nat
  payload : Bytes
  deriving DecidableEq, Repr

/-- The capsules delivered so far, and the one that has not ended. -/
structure CapsuleDelivery where
  capsules : List HttpCapsule := []
  current : Option HttpCapsule := none
  deriving DecidableEq, Repr

namespace CapsuleDelivery

def receive (delivery : CapsuleDelivery) (event : HttpCapsuleEvent) : CapsuleDelivery :=
  let capsule : HttpCapsule :=
    { type := event.type, payload := ((delivery.current.map (·.payload)).getD []) ++ event.payload }
  if event.endCapsule then { capsules := delivery.capsules ++ [capsule], current := none }
  else { delivery with current := some capsule }

end CapsuleDelivery

/-! ## The loop -/

/-- One turn of the loop: what it leaves, what it takes of the input, and the event of the callback. -/
structure CapsuleTurn where
  decoder : HttpCapsuleDecoder
  taken : Nat
  event : Option HttpCapsuleEvent := none
  completed : Bool := false

namespace HttpCapsuleDecoder

variable (config : HttpCapsuleConfig) (retention : HttpCapsuleRetention)

/-- The header is complete: the value is skipped, inspected or delivered. -/
def startPayload (decoder : HttpCapsuleDecoder) (length : Nat) : CapsuleTurn :=
  let started := { decoder with remaining := length, header := [], typeSize := 0 }
  let keptType := retention = .all ∨ decoder.type = httpDatagramCapsuleType
  if ¬ keptType then
    { decoder := { started with mode := .skip, payload := decide (length ≠ 0) }, taken := 1 }
  else if retention = .udpPayloads ∧ length ≠ 0 then
    { decoder := { started with mode := .contextId, contextId := [], payload := true }, taken := 1 }
  else if length > config.maxCapsuleLength then
    { decoder := { started with status := .limit }, taken := 1 }
  else if length ≠ 0 then { decoder := { started with mode := .deliver, payload := true }, taken := 1 }
  else
    { decoder := { started with mode := .deliver, payload := false }, taken := 1
      event := some { type := decoder.type, payload := [], endCapsule := true }, completed := true }

/-- The type is kept as soon as its bytes are complete. -/
def typedHeader (decoder : HttpCapsuleDecoder) (header : Bytes) : Option HttpCapsuleDecoder :=
  if decoder.typeSize = 0 then
    match decodeQuicVarint header with
    | .error _ => none
    | .ok type => some { decoder with header := header, type := type.value, typeSize := type.encodedBytes }
  else some { decoder with header := header }

def headerTurn (decoder : HttpCapsuleDecoder) (byte : UInt8) : CapsuleTurn :=
  let header := decoder.header ++ [byte]
  match decoder.typedHeader header with
  | none => { decoder := { decoder with header := header }, taken := 1 }
  | some decoder =>
    match decodeQuicVarint (header.drop decoder.typeSize) with
    | .error _ => { decoder := decoder, taken := 1 }
    | .ok length => startPayload config retention decoder length.value

def skipTurn (decoder : HttpCapsuleDecoder) (input : Bytes) : CapsuleTurn :=
  let count := min input.length decoder.remaining
  { decoder := { decoder with
      remaining := decoder.remaining - count, payload := decide (decoder.remaining - count ≠ 0) }
    taken := count }

/-- `context_id.index() != 0`. -/
def isIncomplete (context : Except HttpCapsuleCodecError QuicVarint) : Prop := ∀ varint, context ≠ .ok varint

instance (context : Except HttpCapsuleCodecError QuicVarint) : Decidable (isIncomplete context) :=
  match context with
  | .error _ => isTrue nofun
  | .ok varint => isFalse fun h => h varint rfl

/-- A context identifier other than 0. -/
def isUnknown : Except HttpCapsuleCodecError QuicVarint → Bool
  | .ok varint => decide (varint.value ≠ 0)
  | .error _ => false

def contextTurn (decoder : HttpCapsuleDecoder) (byte : UInt8) : CapsuleTurn :=
  let contextId := decoder.contextId ++ [byte]
  let remaining := decoder.remaining - 1
  let inspected := { decoder with contextId := contextId, remaining := remaining }
  let context := decodeQuicVarint contextId
  let more := decide (remaining ≠ 0)
  if isIncomplete context ∧ remaining ≠ 0 then { decoder := inspected, taken := 1 }
  else if isUnknown context then { decoder := { inspected with payload := more, mode := .skip }, taken := 1 }
  -- context identifier 0, or a value too short to hold its context identifier
  else if contextId.length + remaining > config.maxCapsuleLength then
    { decoder := { inspected with payload := more, status := .limit }, taken := 1 }
  else
    { decoder := { inspected with payload := more, mode := .deliver }, taken := 1
      event := some { type := decoder.type, payload := contextId, endCapsule := !more }, completed := !more }

def deliverTurn (decoder : HttpCapsuleDecoder) (input : Bytes) : CapsuleTurn :=
  let count := min input.length decoder.remaining
  let more := decide (decoder.remaining - count ≠ 0)
  { decoder := { decoder with remaining := decoder.remaining - count, payload := more }
    taken := count
    event := some { type := decoder.type, payload := input.take count, endCapsule := !more }
    completed := !more }

/-- One turn, on input that starts with `byte`. -/
def turn (decoder : HttpCapsuleDecoder) (byte : UInt8) (tail : Bytes) : CapsuleTurn :=
  if !decoder.payload then decoder.headerTurn config retention byte
  else
    match decoder.mode with
    | .skip => decoder.skipTurn (byte :: tail)
    | .contextId => decoder.contextTurn config byte
    | .deliver => decoder.deliverTurn (byte :: tail)

end HttpCapsuleDecoder

/-- A decoder with what its callbacks have seen. -/
structure CapsuleReceiver where
  decoder : HttpCapsuleDecoder := {}
  delivery : CapsuleDelivery := {}
  deriving DecidableEq, Repr

namespace CapsuleReceiver

variable (config : HttpCapsuleConfig) (retention : HttpCapsuleRetention)

def take (receiver : CapsuleReceiver) (turn : CapsuleTurn) : CapsuleReceiver where
  decoder := turn.decoder
  delivery := (turn.event.map receiver.delivery.receive).getD receiver.delivery

/-- What the loop leaves: the receiver, the input it did not consume, and whether a capsule was completed. -/
structure Looped where
  receiver : CapsuleReceiver
  input : Bytes
  completed : Bool
  deriving DecidableEq, Repr

/-- `while (!input.empty())`. A turn takes at least a byte, so the size of the input bounds the turns. -/
def loop (one : Bool) : Nat → CapsuleReceiver → Bytes → Bool → Looped
  | 0, receiver, input, completed => { receiver := receiver, input := input, completed := completed }
  | _, receiver, [], completed => { receiver := receiver, input := [], completed := completed }
  | fuel + 1, receiver, byte :: tail, completed =>
    let turn := receiver.decoder.turn config retention byte tail
    let next := receiver.take turn
    let input := (byte :: tail).drop turn.taken
    if next.decoder.status = .limit then { receiver := next, input := input, completed := false }
    else if turn.completed then
      if one then { receiver := next, input := input, completed := true } else loop one fuel next input true
    else loop one fuel next input completed

/-- `fin && input.empty()`. -/
def finish (receiver : CapsuleReceiver) : CapsuleReceiver :=
  { receiver with decoder := { receiver.decoder with
      status := if receiver.decoder.payload || !receiver.decoder.header.isEmpty then .truncated else .ended } }

/-- `feed_impl`. -/
def feedImpl (receiver : CapsuleReceiver) (input : Bytes) (fin one : Bool) :
    CapsuleReceiver × HttpCapsuleFeedResult :=
  if receiver.decoder.status ≠ .needMoreData then (receiver, { status := receiver.decoder.status })
  else
    let looped := loop config retention one input.length receiver input false
    let consumed := input.length - looped.input.length
    if looped.receiver.decoder.status = .limit then
      (looped.receiver, { status := .limit, consumedBytes := consumed })
    else
      let ended := if fin && looped.input.isEmpty then looped.receiver.finish else looped.receiver
      (ended, { status := ended.decoder.status, consumedBytes := consumed, capsuleComplete := looped.completed })

/-- `feed`. -/
def feed (receiver : CapsuleReceiver) (input : Bytes) (fin : Bool) : CapsuleReceiver × HttpCapsuleStatus :=
  let (receiver, result) := receiver.feedImpl config retention input fin false
  (receiver, result.status)

/-- `feed_one`. -/
def feedOne (receiver : CapsuleReceiver) (input : Bytes) (fin : Bool) : CapsuleReceiver × HttpCapsuleFeedResult :=
  receiver.feedImpl config retention input fin true

/-! ## One byte at a time -/

/-- What a byte does to a receiver; a decoder that has stopped takes none. -/
def step (receiver : CapsuleReceiver) (byte : UInt8) : CapsuleReceiver :=
  if receiver.decoder.status = .needMoreData then receiver.take (receiver.decoder.turn config retention byte [])
  else receiver

/-- A value that is being taken has bytes to come. -/
def Wf (receiver : CapsuleReceiver) : Prop := receiver.decoder.payload = true → receiver.decoder.remaining ≠ 0

variable {config retention} {receiver : CapsuleReceiver} {byte : UInt8} {tail input : Bytes}

theorem step_of_status (h : receiver.decoder.status = .needMoreData) :
    receiver.step config retention byte = receiver.take (receiver.decoder.turn config retention byte []) := if_pos h

theorem foldl_step_of_status (h : receiver.decoder.status ≠ .needMoreData) (input : Bytes) :
    input.foldl (step config retention) receiver = receiver := by
  induction input with
  | nil => rfl
  | cons byte tail ih => rw [List.foldl_cons, show step config retention receiver byte = receiver from if_neg h, ih]

/-! ### Skipping and delivering -/

/-- A decoder behind `count` bytes of its value. -/
def advance (decoder : HttpCapsuleDecoder) (count : Nat) : HttpCapsuleDecoder :=
  { decoder with remaining := decoder.remaining - count, payload := decide (decoder.remaining - count ≠ 0) }

theorem turn_skip (hpayload : receiver.decoder.payload = true) (hmode : receiver.decoder.mode = .skip) :
    receiver.decoder.turn config retention byte tail =
      { decoder := advance receiver.decoder (min (tail.length + 1) receiver.decoder.remaining)
        taken := min (tail.length + 1) receiver.decoder.remaining } := by
  rw [HttpCapsuleDecoder.turn, hpayload, hmode]
  rfl

theorem turn_deliver (hpayload : receiver.decoder.payload = true) (hmode : receiver.decoder.mode = .deliver) :
    receiver.decoder.turn config retention byte tail =
      let count := min (tail.length + 1) receiver.decoder.remaining
      { decoder := advance receiver.decoder count
        taken := count
        event := some { type := receiver.decoder.type, payload := (byte :: tail).take count,
                        endCapsule := !decide (receiver.decoder.remaining - count ≠ 0) }
        completed := !decide (receiver.decoder.remaining - count ≠ 0) } := by
  rw [HttpCapsuleDecoder.turn, hpayload, hmode]
  rfl

/-- The bytes of a skipped value, one at a time. -/
theorem foldl_skip (hstatus : receiver.decoder.status = .needMoreData) (hpayload : receiver.decoder.payload = true)
    (hmode : receiver.decoder.mode = .skip) (hle : tail.length + 1 ≤ receiver.decoder.remaining) :
    (byte :: tail).foldl (step config retention) receiver =
      { receiver with decoder := advance receiver.decoder (tail.length + 1) } := by
  induction tail generalizing receiver byte with
  | nil =>
    rw [List.foldl_cons, List.foldl_nil, step_of_status hstatus, turn_skip hpayload hmode, List.length_nil,
      Nat.min_eq_left (by simpa using hle)]
    rfl
  | cons next tail ih =>
    rw [List.length_cons] at hle
    have hfirst : step config retention receiver byte = { receiver with decoder := advance receiver.decoder 1 } := by
      rw [step_of_status hstatus, turn_skip hpayload hmode, List.length_nil, Nat.min_eq_left (by omega)]
      rfl
    have hmore : (advance receiver.decoder 1).payload = true := decide_eq_true (by omega)
    have hleft : tail.length + 1 ≤ (advance receiver.decoder 1).remaining := by
      show tail.length + 1 ≤ receiver.decoder.remaining - 1
      omega
    rw [List.foldl_cons, hfirst]
    refine (@ih { receiver with decoder := advance receiver.decoder 1 } next hstatus hmore hmode hleft).trans ?_
    simp only [advance, List.length_cons, Nat.sub_sub, Nat.add_comm 1]

/-- Two parts of a value are one. -/
theorem receive_receive (delivery : CapsuleDelivery) (type : Nat) (first second : Bytes) (last : Bool) :
    (delivery.receive { type := type, payload := first, endCapsule := false }).receive
        { type := type, payload := second, endCapsule := last } =
      delivery.receive { type := type, payload := first ++ second, endCapsule := last } := by
  cases last <;> simp [CapsuleDelivery.receive]

/-- The bytes of a delivered value, one at a time. -/
theorem foldl_deliver (hstatus : receiver.decoder.status = .needMoreData)
    (hpayload : receiver.decoder.payload = true) (hmode : receiver.decoder.mode = .deliver)
    (hle : tail.length + 1 ≤ receiver.decoder.remaining) :
    (byte :: tail).foldl (step config retention) receiver =
      { decoder := advance receiver.decoder (tail.length + 1)
        delivery := receiver.delivery.receive
          { type := receiver.decoder.type, payload := byte :: tail
            endCapsule := !decide (receiver.decoder.remaining - (tail.length + 1) ≠ 0) } } := by
  induction tail generalizing receiver byte with
  | nil =>
    rw [List.foldl_cons, List.foldl_nil, step_of_status hstatus, turn_deliver hpayload hmode, List.length_nil,
      Nat.min_eq_left (by simpa using hle)]
    rfl
  | cons next tail ih =>
    rw [List.length_cons] at hle
    have hmore : receiver.decoder.remaining - 1 ≠ 0 := by omega
    have hfirst : step config retention receiver byte =
        { decoder := advance receiver.decoder 1
          delivery := receiver.delivery.receive
            { type := receiver.decoder.type, payload := [byte], endCapsule := false } } := by
      rw [step_of_status hstatus, turn_deliver hpayload hmode, List.length_nil, Nat.min_eq_left (by omega)]
      dsimp only
      rw [decide_eq_true hmore]
      rfl
    have hleft : tail.length + 1 ≤ (advance receiver.decoder 1).remaining := by
      show tail.length + 1 ≤ receiver.decoder.remaining - 1
      omega
    rw [List.foldl_cons, hfirst]
    refine (@ih { decoder := advance receiver.decoder 1, delivery := _ } next hstatus (decide_eq_true hmore) hmode
      hleft).trans ?_
    simp only [advance, List.length_cons, Nat.sub_sub, Nat.add_comm 1, receive_receive, List.singleton_append]

/-! ### Turns -/

theorem headerTurn_taken (decoder : HttpCapsuleDecoder) : (decoder.headerTurn config retention byte).taken = 1 := by
  rw [HttpCapsuleDecoder.headerTurn]
  split
  · rfl
  · split
    · rfl
    · rw [HttpCapsuleDecoder.startPayload]
      repeat' split
      all_goals rfl

theorem contextTurn_taken (decoder : HttpCapsuleDecoder) : (decoder.contextTurn config byte).taken = 1 := by
  rw [HttpCapsuleDecoder.contextTurn]
  split
  · rfl
  · split
    · rfl
    · split <;> rfl

/-- **A turn does what its bytes do one at a time**, and it takes at least one. -/
theorem turn_bytes (hwf : receiver.Wf) (hstatus : receiver.decoder.status = .needMoreData) :
    0 < (receiver.decoder.turn config retention byte tail).taken ∧
      (receiver.decoder.turn config retention byte tail).taken ≤ tail.length + 1 ∧
      receiver.take (receiver.decoder.turn config retention byte tail) =
        ((byte :: tail).take (receiver.decoder.turn config retention byte tail).taken).foldl
          (step config retention) receiver := by
  -- a header or a context identifier takes the byte whatever follows it
  by_cases hsingle : (receiver.decoder.turn config retention byte tail).taken = 1 ∧
      receiver.decoder.turn config retention byte tail = receiver.decoder.turn config retention byte []
  · obtain ⟨htaken, hsame⟩ := hsingle
    refine ⟨by omega, by omega, ?_⟩
    rw [htaken, List.take_succ_cons, List.take_zero, List.foldl_cons, List.foldl_nil, step_of_status hstatus, hsame]
  cases hpayload : receiver.decoder.payload with
  | false =>
    have hturn : ∀ tail, receiver.decoder.turn config retention byte tail =
        receiver.decoder.headerTurn config retention byte := by
      intro tail
      rw [HttpCapsuleDecoder.turn, hpayload]
      rfl
    exact absurd ⟨by rw [hturn, headerTurn_taken], by rw [hturn, hturn]⟩ hsingle
  | true =>
    have hremaining := hwf hpayload
    obtain ⟨count, hcount⟩ : ∃ count, min (tail.length + 1) receiver.decoder.remaining = count + 1 :=
      ⟨min (tail.length + 1) receiver.decoder.remaining - 1, by omega⟩
    have hlength : (tail.take count).length = count := List.length_take_of_le (by omega)
    cases hmode : receiver.decoder.mode with
    | contextId =>
      have hturn : ∀ tail, receiver.decoder.turn config retention byte tail =
          receiver.decoder.contextTurn config byte := by
        intro tail
        rw [HttpCapsuleDecoder.turn, hpayload, hmode]
        rfl
      exact absurd ⟨by rw [hturn, contextTurn_taken], by rw [hturn, hturn]⟩ hsingle
    | skip =>
      rw [turn_skip hpayload hmode, hcount]
      refine ⟨Nat.succ_pos _, by dsimp only; omega, ?_⟩
      rw [List.take_succ_cons, foldl_skip hstatus hpayload hmode (by omega), hlength]
      rfl
    | deliver =>
      rw [turn_deliver hpayload hmode, hcount]
      refine ⟨Nat.succ_pos _, by dsimp only; omega, ?_⟩
      rw [List.take_succ_cons, foldl_deliver hstatus hpayload hmode (by omega), hlength]
      rfl

/-! ### The loop -/

variable {decoder : HttpCapsuleDecoder} {length : Nat}

theorem typedHeader_kept {typed : HttpCapsuleDecoder} {header : Bytes} (h : decoder.typedHeader header = some typed) :
    typed.status = decoder.status ∧ typed.payload = decoder.payload := by
  rw [HttpCapsuleDecoder.typedHeader] at h
  split at h
  · split at h <;> cases h
    exact ⟨rfl, rfl⟩
  · cases h
    exact ⟨rfl, rfl⟩

theorem startPayload_wf (h : decoder.payload = false)
    (hpayload : (decoder.startPayload config retention length).decoder.payload = true) :
    (decoder.startPayload config retention length).decoder.remaining ≠ 0 := by
  rw [HttpCapsuleDecoder.startPayload] at hpayload ⊢
  split at hpayload
  · rename_i hkept
    rw [if_pos hkept]
    exact of_decide_eq_true hpayload
  · rename_i hkept
    rw [if_neg hkept]
    split at hpayload
    · rename_i hcontext
      rw [if_pos hcontext]
      exact hcontext.2
    · rename_i hcontext
      rw [if_neg hcontext]
      split at hpayload
      · rw [show decoder.payload = true from hpayload] at h
        cases h
      · rename_i hlimit
        rw [if_neg hlimit]
        split at hpayload
        · rename_i hlength
          rw [if_pos hlength]
          exact hlength
        · cases hpayload

theorem Wf.step (h : receiver.Wf) : (receiver.step config retention byte).Wf := by
  by_cases hstatus : receiver.decoder.status = .needMoreData
  · rw [step_of_status hstatus]
    intro hpayload
    cases hbefore : receiver.decoder.payload with
    | false =>
      have hturn : receiver.decoder.turn config retention byte [] =
          receiver.decoder.headerTurn config retention byte := by
        rw [HttpCapsuleDecoder.turn, hbefore]
        rfl
      rw [take, hturn, HttpCapsuleDecoder.headerTurn] at hpayload ⊢
      split at hpayload
      · rw [hbefore] at hpayload
        cases hpayload
      · rename_i typed htyped
        have htypedPayload : typed.payload = false := (typedHeader_kept htyped).2.trans hbefore
        split at hpayload
        · rw [htypedPayload] at hpayload
          cases hpayload
        · exact startPayload_wf htypedPayload hpayload
    | true =>
      cases hmode : receiver.decoder.mode with
      | skip =>
        rw [take, turn_skip hbefore hmode] at hpayload ⊢
        exact of_decide_eq_true hpayload
      | deliver =>
        rw [take, turn_deliver hbefore hmode] at hpayload ⊢
        exact of_decide_eq_true hpayload
      | contextId =>
        have hturn : receiver.decoder.turn config retention byte [] = receiver.decoder.contextTurn config byte := by
          rw [HttpCapsuleDecoder.turn, hbefore, hmode]
          rfl
        rw [take, hturn, HttpCapsuleDecoder.contextTurn] at hpayload ⊢
        split at hpayload
        · rename_i hmore
          rw [if_pos hmore]
          exact hmore.2
        · rename_i hmore
          rw [if_neg hmore]
          split at hpayload
          · rename_i hunknown
            rw [if_pos hunknown]
            exact of_decide_eq_true hpayload
          · rename_i hunknown
            rw [if_neg hunknown]
            split at hpayload
            · rename_i hlimit
              rw [if_pos hlimit]
              exact of_decide_eq_true hpayload
            · rename_i hlimit
              rw [if_neg hlimit]
              exact of_decide_eq_true hpayload
  · rw [show receiver.step config retention byte = receiver from if_neg hstatus]
    exact h

theorem Wf.foldl (h : receiver.Wf) (input : Bytes) :
    (input.foldl (CapsuleReceiver.step config retention) receiver).Wf := by
  induction input generalizing receiver with
  | nil => exact h
  | cons byte tail ih => exact ih h.step

/-- The loop stops a decoder only at the limit. -/
def Running (receiver : CapsuleReceiver) : Prop :=
  receiver.decoder.status = .needMoreData ∨ receiver.decoder.status = .limit

theorem startPayload_status (h : decoder.status = .needMoreData) :
    (decoder.startPayload config retention length).decoder.status = .needMoreData ∨
      (decoder.startPayload config retention length).decoder.status = .limit := by
  rw [HttpCapsuleDecoder.startPayload]
  split
  · exact .inl h
  · split
    · exact .inl h
    · split
      · exact .inr rfl
      · split <;> exact .inl h

theorem Running.step (h : receiver.Running) : (receiver.step config retention byte).Running := by
  rcases h with h | h
  · rw [step_of_status h]
    cases hpayload : receiver.decoder.payload with
    | false =>
      have hturn : receiver.decoder.turn config retention byte [] =
          receiver.decoder.headerTurn config retention byte := by
        rw [HttpCapsuleDecoder.turn, hpayload]
        rfl
      rw [take, hturn, HttpCapsuleDecoder.headerTurn]
      split
      · exact .inl h
      · rename_i typed htyped
        have hstatus : typed.status = .needMoreData := (typedHeader_kept htyped).1.trans h
        split
        · exact .inl hstatus
        · exact startPayload_status hstatus
    | true =>
      cases hmode : receiver.decoder.mode with
      | skip =>
        rw [take, turn_skip hpayload hmode]
        exact .inl h
      | deliver =>
        rw [take, turn_deliver hpayload hmode]
        exact .inl h
      | contextId =>
        have hturn : receiver.decoder.turn config retention byte [] = receiver.decoder.contextTurn config byte := by
          rw [HttpCapsuleDecoder.turn, hpayload, hmode]
          rfl
        rw [take, hturn, HttpCapsuleDecoder.contextTurn]
        split
        · exact .inl h
        · split
          · exact .inl h
          · split
            · exact .inr rfl
            · exact .inl h
  · rw [show receiver.step config retention byte = receiver from if_neg (by rw [h]; decide)]
    exact .inr h

theorem Running.foldl (h : receiver.Running) (input : Bytes) :
    (input.foldl (CapsuleReceiver.step config retention) receiver).Running := by
  induction input generalizing receiver with
  | nil => exact h
  | cons byte tail ih => exact ih h.step

/-- What the loop leaves is the fold over the input it consumed: all of it, unless it stopped at the limit or, in
`feed_one`, behind a capsule. -/
structure LoopSpec (config : HttpCapsuleConfig) (retention : HttpCapsuleRetention) (one : Bool)
    (receiver : CapsuleReceiver) (input : Bytes) (looped : Looped) (consumed : Nat) : Prop where
  le : consumed ≤ input.length
  input_eq : looped.input = input.drop consumed
  receiver_eq : looped.receiver = (input.take consumed).foldl (step config retention) receiver
  all : one = false → looped.receiver.decoder.status ≠ .limit → consumed = input.length
  pos : input ≠ [] → 0 < consumed

theorem loop_spec {one : Bool} {fuel : Nat} (hfuel : input.length ≤ fuel) (hwf : receiver.Wf)
    (hstatus : receiver.decoder.status = .needMoreData) (completed : Bool) :
    ∃ consumed, LoopSpec config retention one receiver input
      (loop config retention one fuel receiver input completed) consumed := by
  induction fuel generalizing receiver input completed with
  | zero =>
    have hnil : input = [] := List.length_eq_zero_iff.mp (by omega)
    subst hnil
    exact ⟨0, ⟨Nat.le_refl _, rfl, rfl, fun _ _ => rfl, fun h => absurd rfl h⟩⟩
  | succ fuel ih =>
    cases input with
    | nil => exact ⟨0, ⟨Nat.le_refl _, rfl, rfl, fun _ _ => rfl, fun h => absurd rfl h⟩⟩
    | cons byte tail =>
      obtain ⟨hpos, hle, hbytes⟩ := @turn_bytes config retention receiver byte tail hwf hstatus
      generalize hturn : receiver.decoder.turn config retention byte tail = turn at hpos hle hbytes
      have hstop : ∀ done, (one = false → (receiver.take turn).decoder.status = .limit) →
          LoopSpec config retention one receiver (byte :: tail)
            { receiver := receiver.take turn, input := (byte :: tail).drop turn.taken, completed := done }
            turn.taken := fun done hlimit =>
        ⟨hle, rfl, hbytes, fun hone hnot => absurd (hlimit hone) hnot, fun _ => hpos⟩
      have hgo : (receiver.take turn).decoder.status ≠ .limit → ∀ done, ∃ consumed,
          LoopSpec config retention one receiver (byte :: tail)
            (loop config retention one fuel (receiver.take turn) ((byte :: tail).drop turn.taken) done)
            consumed := by
        intro hlimit done
        have hnextWf : (receiver.take turn).Wf := by
          rw [hbytes]
          exact hwf.foldl _
        have hnextRunning : (receiver.take turn).Running := by
          rw [hbytes]
          exact Running.foldl (.inl hstatus) _
        have hnext : (receiver.take turn).decoder.status = .needMoreData := hnextRunning.resolve_right hlimit
        have hfuel' : ((byte :: tail).drop turn.taken).length ≤ fuel := by
          rw [List.length_drop, List.length_cons]
          rw [List.length_cons] at hfuel
          omega
        obtain ⟨consumed, hspec⟩ := ih hfuel' hnextWf hnext done
        have hdrop := hspec.le
        rw [List.length_drop] at hdrop
        refine ⟨turn.taken + consumed, ⟨?_, ?_, ?_, fun hone hnot => ?_, fun _ => by omega⟩⟩
        · rw [List.length_cons] at hdrop ⊢
          omega
        · rw [hspec.input_eq, List.drop_drop]
        · rw [hspec.receiver_eq, hbytes, ← List.foldl_append, List.take_add]
        · have hall := hspec.all hone hnot
          rw [List.length_drop] at hall
          rw [List.length_cons] at hall ⊢
          omega
      rw [loop, hturn]
      split
      · rename_i hlimit
        exact ⟨turn.taken, hstop false fun _ => hlimit⟩
      · rename_i hlimit
        split
        · split
          · rename_i hone
            exact ⟨turn.taken, hstop true fun hnot => by rw [hone] at hnot; cases hnot⟩
          · exact hgo hlimit true
        · exact hgo hlimit completed

/-! ### Feeding -/

/-- What a call leaves: the fold over the bytes it consumed, and the end of the stream when these were all. -/
structure FeedSpec (config : HttpCapsuleConfig) (retention : HttpCapsuleRetention) (fin one : Bool)
    (receiver : CapsuleReceiver) (input : Bytes) (fed : CapsuleReceiver × HttpCapsuleFeedResult) : Prop where
  le : fed.2.consumedBytes ≤ input.length
  receiver_eq : fed.1 =
    let folded := (input.take fed.2.consumedBytes).foldl (step config retention) receiver
    if fin = true ∧ fed.2.consumedBytes = input.length ∧ folded.decoder.status = .needMoreData then folded.finish
    else folded
  status_eq : fed.2.status = fed.1.decoder.status
  all : one = false → fed.1.decoder.status ≠ .limit → fed.2.consumedBytes = input.length
  pos : input ≠ [] → 0 < fed.2.consumedBytes

/-- **A call is the fold over the bytes it consumes.** -/
theorem feedImpl_spec (hwf : receiver.Wf) (hstatus : receiver.decoder.status = .needMoreData)
    (input : Bytes) (fin one : Bool) :
    FeedSpec config retention fin one receiver input (receiver.feedImpl config retention input fin one) := by
  obtain ⟨consumed, hspec⟩ :=
    @loop_spec config retention receiver input one input.length (Nat.le_refl _) hwf hstatus false
  rw [feedImpl, if_neg (by rw [hstatus]; decide)]
  generalize loop config retention one input.length receiver input false = looped at hspec
  have hlength : input.length - looped.input.length = consumed := by
    rw [hspec.input_eq, List.length_drop]
    have hle := hspec.le
    omega
  have hrunning : looped.receiver.Running := by
    rw [hspec.receiver_eq]
    exact Running.foldl (.inl hstatus) _
  have hempty : looped.input.isEmpty = true ↔ consumed = input.length := by
    rw [hspec.input_eq, List.isEmpty_iff, List.drop_eq_nil_iff]
    omega
  dsimp only
  rw [hlength]
  split
  · rename_i hlimit
    refine ⟨hspec.le, ?_, hlimit.symm, fun hone hnot => absurd hlimit hnot, hspec.pos⟩
    rw [← hspec.receiver_eq, if_neg]
    rintro ⟨-, -, hmore⟩
    rw [hlimit] at hmore
    cases hmore
  · rename_i hlimit
    have hmore : looped.receiver.decoder.status = .needMoreData := hrunning.resolve_right hlimit
    refine ⟨hspec.le, ?_, rfl, fun hone _ => hspec.all hone hlimit, hspec.pos⟩
    rw [← hspec.receiver_eq]
    have hiff : ((fin && looped.input.isEmpty) = true) ↔
        (fin = true ∧ consumed = input.length ∧ looped.receiver.decoder.status = .needMoreData) := by
      rw [Bool.and_eq_true, hempty, and_iff_left hmore]
    by_cases hfin : (fin && looped.input.isEmpty) = true
    · rw [if_pos hfin, if_pos (hiff.mp hfin)]
    · rw [if_neg hfin, if_neg fun h => hfin (hiff.mpr h)]

/-- The receiver behind all bytes of a stream, and its end. -/
def whole (config : HttpCapsuleConfig) (retention : HttpCapsuleRetention) (bytes : Bytes) (fin : Bool) :
    CapsuleReceiver :=
  let folded := bytes.foldl (step config retention) {}
  if fin = true ∧ folded.decoder.status = .needMoreData then folded.finish else folded

theorem wf_init : Wf {} := nofun

/-- **One feed of the whole string.** -/
theorem feed_whole (bytes : Bytes) (fin : Bool) :
    feed config retention {} bytes fin =
      (whole config retention bytes fin, (whole config retention bytes fin).decoder.status) := by
  have hspec := @feedImpl_spec config retention {} wf_init rfl bytes fin false
  rw [feed]
  generalize feedImpl config retention {} bytes fin false = fed at hspec
  obtain ⟨receiver, result⟩ := fed
  have hreceiver := hspec.receiver_eq
  dsimp only at hreceiver ⊢
  have hsame : receiver = whole config retention bytes fin := by
    rw [hreceiver, whole]
    by_cases hall : result.consumedBytes = bytes.length
    · rw [hall, List.take_length]
      simp only [true_and]
    · have hlimit : receiver.decoder.status = .limit := by
        by_contra hnot
        exact hall (hspec.all rfl hnot)
      rw [if_neg fun h => hall h.2.1] at hreceiver ⊢
      rw [hreceiver] at hlimit
      -- behind the limit nothing changes
      have hfold : bytes.foldl (step config retention) {} =
          (bytes.take result.consumedBytes).foldl (step config retention) {} := by
        rw [← List.take_append_drop result.consumedBytes bytes, List.foldl_append, List.take_append_drop,
          foldl_step_of_status (by rw [hlimit]; decide)]
      rw [hfold, if_neg]
      rintro ⟨-, hmore⟩
      rw [hlimit] at hmore
      cases hmore
  rw [hspec.status_eq, hsame]

end CapsuleReceiver

end Ruvia.Http
