import Ruvia.Http.CapsuleDecoder

/-!
# `Http.CapsuleStream` — what the capsule decoder makes of a stream

A stream is a list of capsules as their headers declare them (`declaredCapsules`), and each has a fate that its
type and context identifier decide (`DeclaredCapsule.fate`). The fold of `Http.CapsuleDecoder` delivers what the
fates say (`foldl_declared`). From this follow the round trip and when the limit is reached; that the cut of the
stream into calls does not matter is a fact about the fold alone (`drive_spec`).
-/

namespace Ruvia.Http

open Library
open HttpCapsuleDecoder

/-! ## Capsules as declared -/

/-- The type and the length at the front of a stream, and the bytes they take. -/
def readCapsuleHeader (bytes : Bytes) : Option (Nat × Nat × Nat) :=
  match decodeQuicVarint bytes with
  | .error _ => none
  | .ok type =>
    match decodeQuicVarint (bytes.drop type.encodedBytes) with
    | .error _ => none
    | .ok length => some (type.value, length.value, type.encodedBytes + length.encodedBytes)

/-- A capsule whose header is complete; `value` holds the bytes of its value that the stream has. -/
structure DeclaredCapsule where
  type : Nat
  length : Nat
  value : Bytes
  deriving DecidableEq, Repr

inductive CapsuleFate where
  | dropped
  | kept
  | undecided
  deriving DecidableEq, Repr

/-- A capsule of another type is dropped, and so is a UDP datagram of another context. -/
def DeclaredCapsule.fate (retention : HttpCapsuleRetention) (capsule : DeclaredCapsule) : CapsuleFate :=
  if ¬ (retention = .all ∨ capsule.type = httpDatagramCapsuleType) then .dropped
  else if retention = .udpPayloads ∧ capsule.length ≠ 0 then
    match decodeQuicVarint capsule.value with
    | .ok context => if context.value ≠ 0 then .dropped else .kept
    | .error _ => if capsule.value.length < capsule.length then .undecided else .kept
  else .kept

/-- A kept capsule declares more than the configured maximum. -/
def DeclaredCapsule.Over (config : HttpCapsuleConfig) (retention : HttpCapsuleRetention)
    (capsule : DeclaredCapsule) : Prop :=
  capsule.fate retention = .kept ∧ config.maxCapsuleLength < capsule.length

instance (config : HttpCapsuleConfig) (retention : HttpCapsuleRetention) (capsule : DeclaredCapsule) :
    Decidable (capsule.Over config retention) := inferInstanceAs (Decidable (_ ∧ _))

/-- The capsules of a stream, and the bytes of a header that is not complete. Every header takes a byte, so the
size of the stream bounds the capsules. -/
def declaredLoop : Nat → Bytes → List DeclaredCapsule × Bytes
  | 0, bytes => ([], bytes)
  | fuel + 1, bytes =>
    match readCapsuleHeader bytes with
    | none => ([], bytes)
    | some (type, length, size) =>
      let value := (bytes.drop size).take length
      if value.length < length then ([{ type, length, value }], [])
      else
        let (capsules, header) := declaredLoop fuel (bytes.drop (size + length))
        ({ type, length, value } :: capsules, header)

def declaredCapsules (bytes : Bytes) : List DeclaredCapsule × Bytes := declaredLoop bytes.length bytes

/-! ## Headers -/

section

variable {bytes front : Bytes} {type length size : Nat} {byte : UInt8}

section

variable (h : readCapsuleHeader bytes = some (type, length, size))
include h

theorem readCapsuleHeader_append (more : Bytes) : readCapsuleHeader (bytes ++ more) = some (type, length, size) := by
  rw [readCapsuleHeader] at h ⊢
  split at h
  · cases h
  · rename_i first hfirst
    split at h
    · cases h
    · rename_i second hsecond
      obtain ⟨-, hle, -⟩ := decode_ok hfirst
      rw [decode_append hfirst more]
      dsimp only
      rw [List.drop_append_of_le_length hle, decode_append hsecond more]
      exact h

theorem readCapsuleHeader_size : 2 ≤ size ∧ size ≤ bytes.length ∧ size ≤ 16 := by
  rw [readCapsuleHeader] at h
  split at h
  · cases h
  · rename_i first hfirst
    split at h
    · cases h
    · rename_i second hsecond
      obtain ⟨hpos₁, hle₁, hmax₁⟩ := decode_ok hfirst
      obtain ⟨hpos₂, hle₂, hmax₂⟩ := decode_ok hsecond
      rw [List.length_drop] at hle₂
      cases h
      omega

end

/-- A header that ends in front of some bytes does not need them. -/
theorem readCapsuleHeader_front {more : Bytes} (h : readCapsuleHeader (front ++ more) = some (type, length, size))
    (hsize : size ≤ front.length) : readCapsuleHeader front = some (type, length, size) := by
  rw [readCapsuleHeader] at h
  split at h
  · cases h
  · rename_i first hfirst
    split at h
    · cases h
    · rename_i second hsecond
      cases h
      have hfirst' : decodeQuicVarint front = .ok first := by
        have htake := decode_take hfirst
        rw [List.take_append_of_le_length (by omega)] at htake
        rw [← List.take_append_drop first.encodedBytes front]
        exact decode_append htake _
      have hsecond' : decodeQuicVarint (front.drop first.encodedBytes) = .ok second := by
        rw [List.drop_append_of_le_length (by omega)] at hsecond
        have htake := decode_take hsecond
        rw [List.take_append_of_le_length (by rw [List.length_drop]; omega)] at htake
        rw [← List.take_append_drop second.encodedBytes (front.drop first.encodedBytes)]
        exact decode_append htake _
      rw [readCapsuleHeader, hfirst']
      dsimp only
      rw [hsecond']

theorem readCapsuleHeader_lt {more : Bytes} (hnone : readCapsuleHeader front = none)
    (h : readCapsuleHeader (front ++ more) = some (type, length, size)) : front.length < size := by
  by_contra hnot
  rw [readCapsuleHeader_front h (by omega)] at hnone
  cases hnone

/-- An encoded header is read back, whatever follows it. -/
theorem readCapsuleHeader_encode (htype : type ≤ quicVarintMax) (hlength : length ≤ quicVarintMax) (rest : Bytes) :
    readCapsuleHeader (varintBytes type ++ varintBytes length ++ rest) =
      some (type, length, quicVarintSize type + quicVarintSize length) := by
  rw [readCapsuleHeader, List.append_assoc, decode_encode htype]
  dsimp only
  rw [← varintBytes_length type, List.drop_left, decode_encode hlength]

end

/-! ## The header phase -/

namespace CapsuleReceiver

variable {config : HttpCapsuleConfig} {retention : HttpCapsuleRetention} {receiver : CapsuleReceiver}
  {byte : UInt8} {bytes front : Bytes} {type length size : Nat}

/-- The decoder is inside a header and has taken these bytes of it. -/
structure InHeader (decoder : HttpCapsuleDecoder) (front : Bytes) : Prop where
  status : decoder.status = .needMoreData
  payload : decoder.payload = false
  header : decoder.header = front
  incomplete : readCapsuleHeader front = none
  typed : match decodeQuicVarint front with
    | .error _ => decoder.typeSize = 0
    | .ok varint => decoder.typeSize = varint.encodedBytes ∧ decoder.type = varint.value

/-- The decoder stands between two capsules. -/
abbrev Boundary (decoder : HttpCapsuleDecoder) : Prop := InHeader decoder []

theorem boundary_iff {decoder : HttpCapsuleDecoder} : Boundary decoder ↔
    decoder.status = .needMoreData ∧ decoder.payload = false ∧ decoder.header = [] ∧ decoder.typeSize = 0 :=
  ⟨fun h => ⟨h.status, h.payload, h.header, h.typed⟩, fun ⟨hstatus, hpayload, hheader, htyped⟩ =>
    ⟨hstatus, hpayload, hheader, rfl, htyped⟩⟩

section

variable (h : InHeader receiver.decoder front)
include h

theorem step_header : receiver.step config retention byte =
    receiver.take (receiver.decoder.headerTurn config retention byte) := by
  rw [step_of_status h.status, turn, h.payload]
  rfl

/-- The type is known as soon as the bytes taken hold it. -/
theorem typedHeader_eq (byte : UInt8) :
    receiver.decoder.typedHeader (front ++ [byte]) =
      match decodeQuicVarint (front ++ [byte]) with
      | .error _ => none
      | .ok type => some { receiver.decoder with
          header := front ++ [byte], type := type.value, typeSize := type.encodedBytes } := by
  have htyped := h.typed
  rw [typedHeader]
  split at htyped
  · refine (if_pos htyped).trans ?_
    cases decodeQuicVarint (front ++ [byte]) <;> rfl
  · rename_i varint hvarint
    obtain ⟨hpos, -, -⟩ := decode_ok hvarint
    rw [if_neg (by omega), decode_append hvarint]
    dsimp only
    rw [← htyped.1, ← htyped.2]

theorem step_header_none (hnone : readCapsuleHeader (front ++ [byte]) = none) :
    InHeader (receiver.step config retention byte).decoder (front ++ [byte]) ∧
      (receiver.step config retention byte).delivery = receiver.delivery := by
  rw [step_header h, headerTurn, h.header, typedHeader_eq h]
  cases hfirst : decodeQuicVarint (front ++ [byte]) with
  | error error =>
    refine ⟨⟨h.status, h.payload, rfl, hnone, ?_⟩, rfl⟩
    rw [hfirst]
    have hold := h.typed
    split at hold
    · exact hold
    · rename_i varint hvarint
      rw [decode_append hvarint] at hfirst
      cases hfirst
  | ok first =>
    rw [readCapsuleHeader, hfirst] at hnone
    dsimp only at hnone ⊢
    cases hsecond : decodeQuicVarint ((front ++ [byte]).drop first.encodedBytes) with
    | ok second =>
      rw [hsecond] at hnone
      cases hnone
    | error error =>
      refine ⟨⟨h.status, h.payload, rfl, ?_, ?_⟩, rfl⟩
      · rw [readCapsuleHeader, hfirst]
        dsimp only
        rw [hsecond]
      · rw [hfirst]
        exact ⟨rfl, rfl⟩

theorem step_header_some (hsome : readCapsuleHeader (front ++ [byte]) = some (type, length, size)) :
    ∃ decoder : HttpCapsuleDecoder, decoder.status = .needMoreData ∧ decoder.type = type ∧
      receiver.step config retention byte = receiver.take (decoder.startPayload config retention length) := by
  rw [readCapsuleHeader] at hsome
  split at hsome
  · cases hsome
  · rename_i first hfirst
    split at hsome
    · cases hsome
    · rename_i second hsecond
      cases hsome
      refine ⟨{ receiver.decoder with
        header := front ++ [byte], type := first.value, typeSize := first.encodedBytes }, h.status, rfl, ?_⟩
      rw [step_header h, headerTurn, h.header, typedHeader_eq h, hfirst]
      dsimp only
      rw [hsecond]

/-- **The bytes of a header**, one at a time. -/
theorem foldl_header (hsome : readCapsuleHeader (front ++ bytes) = some (type, length, size)) :
    ∃ decoder : HttpCapsuleDecoder, decoder.status = .needMoreData ∧
      decoder.type = type ∧ bytes.foldl (step config retention) receiver =
        (bytes.drop (size - front.length)).foldl (step config retention)
          (receiver.take (decoder.startPayload config retention length)) := by
  induction bytes generalizing receiver front with
  | nil =>
    rw [List.append_nil, h.incomplete] at hsome
    cases hsome
  | cons byte bytes ih =>
    rw [List.append_cons] at hsome
    rw [List.foldl_cons]
    cases hnext : readCapsuleHeader (front ++ [byte]) with
    | some header =>
      obtain ⟨type', length', size'⟩ := header
      have hsame := readCapsuleHeader_append hnext bytes
      rw [hsome] at hsame
      cases hsame
      obtain ⟨decoder, hstatus, htype, hstep⟩ :=
        @step_header_some config retention receiver byte front type length size h hnext
      have hlt := readCapsuleHeader_lt h.incomplete hnext
      obtain ⟨-, hle, -⟩ := readCapsuleHeader_size hnext
      rw [List.length_append, List.length_singleton] at hle
      refine ⟨decoder, hstatus, htype, ?_⟩
      rw [hstep, show size - front.length = 1 by omega, List.drop_one, List.tail_cons]
    | none =>
      obtain ⟨hinside, hdelivery⟩ := @step_header_none config retention receiver byte front h hnext
      obtain ⟨decoder, hstatus, htype, hfold⟩ := ih hinside hsome
      have hlt := readCapsuleHeader_lt hnext hsome
      rw [List.length_append, List.length_singleton] at hlt hfold
      refine ⟨decoder, hstatus, htype, ?_⟩
      rw [hfold, show size - front.length = size - (front.length + 1) + 1 by omega, List.drop_succ_cons, take, take,
        hdelivery]

/-- A header that is not complete is kept. -/
theorem foldl_header_none (hnone : readCapsuleHeader (front ++ bytes) = none) :
    InHeader (bytes.foldl (step config retention) receiver).decoder (front ++ bytes) ∧
      (bytes.foldl (step config retention) receiver).delivery = receiver.delivery := by
  induction bytes generalizing receiver front with
  | nil => exact ⟨by rwa [List.append_nil], rfl⟩
  | cons byte bytes ih =>
    rw [List.append_cons] at hnone ⊢
    have hnext : readCapsuleHeader (front ++ [byte]) = none := by
      by_contra hsome
      obtain ⟨header, hheader⟩ := Option.ne_none_iff_exists'.mp hsome
      rw [readCapsuleHeader_append hheader bytes] at hnone
      cases hnone
    obtain ⟨hinside, hdelivery⟩ := @step_header_none config retention receiver byte front h hnext
    obtain ⟨hrest, hsame⟩ := ih hinside hnone
    exact ⟨hrest, hsame.trans hdelivery⟩

end

/-! ## The value phase -/

/-- What a declared capsule adds to the delivery, and whether it reaches the limit. -/
def took (config : HttpCapsuleConfig) (retention : HttpCapsuleRetention) (delivery : CapsuleDelivery)
    (capsule : DeclaredCapsule) : CapsuleDelivery × Bool :=
  if capsule.Over config retention then (delivery, true)
  else if capsule.fate retention = .kept then
    if capsule.value.length = capsule.length then
      (delivery.receive { type := capsule.type, payload := capsule.value, endCapsule := true }, false)
    else if capsule.value = [] then (delivery, false)
    else (delivery.receive { type := capsule.type, payload := capsule.value, endCapsule := false }, false)
  else (delivery, false)

/-- No part of a header is taken, and so many bytes of a value are missing. -/
structure Rested (decoder : HttpCapsuleDecoder) (missing : Nat) : Prop where
  status : decoder.status = .needMoreData
  header : decoder.header = []
  typeSize : decoder.typeSize = 0
  payload : decoder.payload = decide (missing ≠ 0)

theorem Rested.boundary {decoder : HttpCapsuleDecoder} (h : Rested decoder 0) : Boundary decoder :=
  boundary_iff.mpr ⟨h.status, h.payload, h.header, h.typeSize⟩

variable {value : Bytes}

/-- The value of a dropped capsule. -/
theorem foldl_dropped (hrested : Rested receiver.decoder receiver.decoder.remaining)
    (hmode : receiver.decoder.mode = .skip) (hle : value.length ≤ receiver.decoder.remaining) :
    (value.foldl (step config retention) receiver).delivery = receiver.delivery ∧
      Rested (value.foldl (step config retention) receiver).decoder
        (receiver.decoder.remaining - value.length) := by
  cases value with
  | nil => exact ⟨rfl, hrested⟩
  | cons byte tail =>
    rw [List.length_cons] at hle
    have hpayload : receiver.decoder.payload = true := by
      rw [hrested.payload]
      exact decide_eq_true (by omega)
    rw [foldl_skip hrested.status hpayload hmode hle]
    exact ⟨rfl, ⟨hrested.status, hrested.header, hrested.typeSize, rfl⟩⟩

/-- The value of a delivered capsule. -/
theorem foldl_delivered (hrested : Rested receiver.decoder receiver.decoder.remaining)
    (hmode : receiver.decoder.mode = .deliver) (hle : value.length ≤ receiver.decoder.remaining) :
    (value.foldl (step config retention) receiver).delivery =
        (if value = [] then receiver.delivery
        else receiver.delivery.receive
          { type := receiver.decoder.type, payload := value
            endCapsule := !decide (receiver.decoder.remaining - value.length ≠ 0) }) ∧
      Rested (value.foldl (step config retention) receiver).decoder
        (receiver.decoder.remaining - value.length) := by
  cases value with
  | nil => exact ⟨rfl, hrested⟩
  | cons byte tail =>
    rw [List.length_cons] at hle
    have hpayload : receiver.decoder.payload = true := by
      rw [hrested.payload]
      exact decide_eq_true (by omega)
    rw [foldl_deliver hrested.status hpayload hmode hle, if_neg (List.cons_ne_nil _ _)]
    exact ⟨rfl, ⟨hrested.status, hrested.header, hrested.typeSize, rfl⟩⟩

/-- A receiver behind the value of a capsule. -/
structure Took (config : HttpCapsuleConfig) (retention : HttpCapsuleRetention) (delivery : CapsuleDelivery)
    (capsule : DeclaredCapsule) (receiver : CapsuleReceiver) : Prop where
  delivery_eq : receiver.delivery = (took config retention delivery capsule).1
  limit : (took config retention delivery capsule).2 = true → receiver.decoder.status = .limit
  rested : (took config retention delivery capsule).2 = false →
    Rested receiver.decoder (capsule.length - capsule.value.length)

variable {delivery : CapsuleDelivery} {capsule : DeclaredCapsule}

theorem took_over (h : capsule.Over config retention)
    (hlimit : receiver.decoder.status = .limit) (hdelivery : receiver.delivery = delivery) :
    Took config retention delivery capsule receiver := by
  have htook : took config retention delivery capsule = (delivery, true) := if_pos h
  exact ⟨by rw [htook]; exact hdelivery, fun _ => hlimit, by rw [htook]; exact nofun⟩

theorem took_other (h : capsule.fate retention ≠ .kept)
    (hrested : Rested receiver.decoder (capsule.length - capsule.value.length))
    (hdelivery : receiver.delivery = delivery) : Took config retention delivery capsule receiver := by
  have htook : took config retention delivery capsule = (delivery, false) := by
    rw [took, if_neg fun hover => h hover.1, if_neg h]
  exact ⟨by rw [htook]; exact hdelivery, by rw [htook]; exact nofun, fun _ => hrested⟩

/-- A kept capsule of which some bytes are there. -/
theorem took_kept (h : capsule.fate retention = .kept) (hover : ¬ capsule.Over config retention)
    (hle : capsule.value.length ≤ capsule.length)
    (hrested : Rested receiver.decoder (capsule.length - capsule.value.length))
    (hdelivery : receiver.delivery =
      if capsule.value = [] ∧ capsule.length ≠ 0 then delivery
      else delivery.receive { type := capsule.type, payload := capsule.value
                              endCapsule := !decide (capsule.length - capsule.value.length ≠ 0) }) :
    Took config retention delivery capsule receiver := by
  have htook : took config retention delivery capsule = (receiver.delivery, false) := by
    rw [took, if_neg hover, if_pos h, hdelivery]
    by_cases hall : capsule.value.length = capsule.length
    · have hnot : ¬ (capsule.value = [] ∧ capsule.length ≠ 0) := by
        rintro ⟨hnil, hlength⟩
        rw [hnil] at hall
        exact hlength hall.symm
      rw [if_pos hall, if_neg hnot, hall, Nat.sub_self]
      rfl
    · rw [if_neg hall]
      by_cases hnil : capsule.value = []
      · have hlength : capsule.length ≠ 0 := by
          rw [hnil] at hall
          exact fun hzero => hall hzero.symm
        rw [if_pos hnil, if_pos ⟨hnil, hlength⟩]
      · rw [if_neg hnil, if_neg fun hboth => hnil hboth.1, decide_eq_true (by omega)]
        rfl
  exact ⟨by rw [htook], by rw [htook]; exact nofun, fun _ => hrested⟩

/-- The fate of a UDP datagram with a value. -/
theorem fate_udp (htype : capsule.type = httpDatagramCapsuleType)
    (hlength : capsule.length ≠ 0) : capsule.fate .udpPayloads =
      match decodeQuicVarint capsule.value with
      | .ok context => if context.value ≠ 0 then .dropped else .kept
      | .error _ => if capsule.value.length < capsule.length then .undecided else .kept := by
  rw [DeclaredCapsule.fate, if_neg (not_not.mpr (.inr htype)), if_pos ⟨rfl, hlength⟩]

/-- **A UDP datagram**: the context identifier, and the rest as it decides. -/
theorem foldl_context {context : Bytes} (hrested : Rested receiver.decoder receiver.decoder.remaining)
    (hmode : receiver.decoder.mode = .contextId) (htype : receiver.decoder.type = httpDatagramCapsuleType)
    (hcontext : receiver.decoder.contextId = context) (hincomplete : isIncomplete (decodeQuicVarint context))
    (hremaining : receiver.decoder.remaining ≠ 0) (hle : value.length ≤ receiver.decoder.remaining) :
    Took config .udpPayloads receiver.delivery
      { type := receiver.decoder.type, length := context.length + receiver.decoder.remaining
        value := context ++ value }
      (value.foldl (step config .udpPayloads) receiver) := by
  induction value generalizing receiver context with
  | nil =>
    rw [List.append_nil, List.foldl_nil]
    refine took_other ?_ ?_ rfl
    · rw [fate_udp htype (by dsimp only; omega)]
      cases hdecode : decodeQuicVarint context with
      | ok varint => exact absurd hdecode (hincomplete varint)
      | error error =>
        dsimp only
        rw [if_pos (by omega)]
        decide
    · dsimp only
      rw [Nat.add_sub_cancel_left]
      exact hrested
  | cons byte tail ih =>
    rw [List.length_cons] at hle
    have hpayload : receiver.decoder.payload = true := by
      rw [hrested.payload]
      exact decide_eq_true hremaining
    have hturn : receiver.decoder.turn config .udpPayloads byte [] = receiver.decoder.contextTurn config byte := by
      rw [turn, hpayload, hmode]
      rfl
    have hlength : context.length + receiver.decoder.remaining ≠ 0 := by omega
    have hsum : (context ++ [byte]).length + (receiver.decoder.remaining - 1) =
        context.length + receiver.decoder.remaining := by
      rw [List.length_append, List.length_singleton]
      omega
    have hmissing : context.length + receiver.decoder.remaining - (context ++ [byte] ++ tail).length =
        receiver.decoder.remaining - 1 - tail.length := by
      simp only [List.length_append, List.length_singleton]
      omega
    rw [List.foldl_cons, step_of_status hrested.status, hturn, contextTurn, hcontext,
      List.append_cons]
    by_cases hmore : isIncomplete (decodeQuicVarint (context ++ [byte])) ∧
        receiver.decoder.remaining - 1 ≠ 0
    · rw [if_pos hmore, ← hsum]
      exact @ih
        { decoder := { receiver.decoder with
            contextId := context ++ [byte], remaining := receiver.decoder.remaining - 1 }
          delivery := receiver.delivery } (context ++ [byte])
        ⟨hrested.status, hrested.header, hrested.typeSize, hpayload.trans (decide_eq_true hmore.2).symm⟩
        hmode htype rfl hmore.1 hmore.2 (by dsimp only; omega)
    · rw [if_neg hmore]
      by_cases hunknown : isUnknown (decodeQuicVarint (context ++ [byte])) = true
      · rw [if_pos hunknown]
        cases hdecode : decodeQuicVarint (context ++ [byte]) with
        | error error =>
          rw [hdecode] at hunknown
          cases hunknown
        | ok varint =>
          rw [hdecode] at hunknown
          obtain ⟨hsame, hrest⟩ := @foldl_dropped config .udpPayloads
            { decoder := { receiver.decoder with
                contextId := context ++ [byte], remaining := receiver.decoder.remaining - 1
                payload := decide (receiver.decoder.remaining - 1 ≠ 0), mode := .skip }
              delivery := receiver.delivery } tail
            ⟨hrested.status, hrested.header, hrested.typeSize, rfl⟩ rfl (by dsimp only; omega)
          refine took_other ?_ ?_ hsame
          · rw [fate_udp htype hlength, decode_append hdecode]
            dsimp only
            rw [if_pos (of_decide_eq_true hunknown)]
            decide
          · rw [hmissing]
            exact hrest
      · rw [if_neg hunknown]
        -- context identifier 0, or the value ends inside it
        have hkept : DeclaredCapsule.fate .udpPayloads
            { type := receiver.decoder.type, length := context.length + receiver.decoder.remaining
              value := context ++ [byte] ++ tail } = .kept := by
          rw [fate_udp htype hlength]
          cases hdecode : decodeQuicVarint (context ++ [byte]) with
          | ok varint =>
            rw [hdecode] at hunknown
            rw [decode_append hdecode]
            dsimp only
            rw [if_neg fun hne => hunknown (decide_eq_true hne)]
          | error error =>
            have hzero : receiver.decoder.remaining - 1 = 0 := by
              by_contra hne
              refine hmore ⟨fun varint hok => ?_, hne⟩
              rw [hdecode] at hok
              cases hok
            have hnil : tail = [] := List.length_eq_zero_iff.mp (by omega)
            subst hnil
            rw [List.append_nil, hdecode]
            dsimp only
            rw [if_neg]
            rw [List.length_append, List.length_singleton]
            omega
        rw [hsum]
        by_cases hlimit : context.length + receiver.decoder.remaining > config.maxCapsuleLength
        · rw [if_pos hlimit, foldl_step_of_status (show HttpCapsuleStatus.limit ≠ .needMoreData by decide)]
          exact took_over ⟨hkept, hlimit⟩ rfl rfl
        · rw [if_neg hlimit]
          obtain ⟨hdelivered, hrest⟩ := @foldl_delivered config .udpPayloads
            { decoder := { receiver.decoder with
                contextId := context ++ [byte], remaining := receiver.decoder.remaining - 1
                payload := decide (receiver.decoder.remaining - 1 ≠ 0), mode := .deliver }
              delivery := receiver.delivery.receive
                { type := receiver.decoder.type, payload := context ++ [byte]
                  endCapsule := !decide (receiver.decoder.remaining - 1 ≠ 0) } } tail
            ⟨hrested.status, hrested.header, hrested.typeSize, rfl⟩ rfl (by dsimp only; omega)
          refine took_kept hkept (fun hover => hlimit hover.2) ?_ ?_ (hdelivered.trans ?_)
          · simp only [List.length_append, List.length_singleton]
            omega
          · rw [hmissing]
            exact hrest
          · have hne : ¬ (context ++ [byte] ++ tail = [] ∧ context.length + receiver.decoder.remaining ≠ 0) := by
              simp
            rw [hmissing, if_neg hne]
            by_cases hnil : tail = []
            · subst hnil
              rw [if_pos rfl, List.append_nil]
              rfl
            · rw [if_neg hnil]
              have hpos : 0 < tail.length := List.length_pos_of_ne_nil hnil
              rw [decide_eq_true (show receiver.decoder.remaining - 1 ≠ 0 by omega)]
              exact receive_receive _ _ _ _ _

/-- **The value of a capsule**, from the byte that completes its header. -/
theorem foldl_value {decoder : HttpCapsuleDecoder} {capsule : DeclaredCapsule}
    (hstatus : decoder.status = .needMoreData) (htype : decoder.type = capsule.type)
    (hle : capsule.value.length ≤ capsule.length) :
    Took config retention receiver.delivery capsule
      (capsule.value.foldl (step config retention)
        (receiver.take (decoder.startPayload config retention capsule.length))) := by
  obtain ⟨type, length, value⟩ := capsule
  dsimp only at htype hle ⊢
  subst htype
  rw [startPayload]
  by_cases hkept : retention = .all ∨ decoder.type = httpDatagramCapsuleType
  · rw [if_neg (not_not.mpr hkept)]
    by_cases hcontext : retention = .udpPayloads ∧ length ≠ 0
    · obtain ⟨rfl, hlength⟩ := hcontext
      have htype : decoder.type = httpDatagramCapsuleType := hkept.resolve_left (by decide)
      rw [if_pos ⟨rfl, hlength⟩]
      have htook := @foldl_context config
        { decoder := { decoder with
            remaining := length, header := [], typeSize := 0, mode := .contextId, contextId := [], payload := true }
          delivery := receiver.delivery } value []
        ⟨hstatus, rfl, rfl, (decide_eq_true hlength).symm⟩ rfl htype rfl (fun _ h => by cases h) hlength hle
      rw [List.length_nil, Nat.zero_add, List.nil_append] at htook
      exact htook
    · have hfate : DeclaredCapsule.fate retention { type := decoder.type, length, value } = .kept := by
        rw [DeclaredCapsule.fate, if_neg (not_not.mpr hkept), if_neg hcontext]
      rw [if_neg hcontext]
      by_cases hlimit : length > config.maxCapsuleLength
      · rw [if_pos hlimit, foldl_step_of_status (show HttpCapsuleStatus.limit ≠ .needMoreData by decide)]
        exact took_over ⟨hfate, hlimit⟩ rfl rfl
      · rw [if_neg hlimit]
        by_cases hlength : length ≠ 0
        · rw [if_pos hlength]
          obtain ⟨hdelivered, hrest⟩ := @foldl_delivered config retention
            { decoder := { decoder with
                remaining := length, header := [], typeSize := 0, mode := .deliver, payload := true }
              delivery := receiver.delivery } value
            ⟨hstatus, rfl, rfl, (decide_eq_true hlength).symm⟩ rfl hle
          refine took_kept hfate (fun hover => hlimit hover.2) hle hrest (hdelivered.trans ?_)
          by_cases hnil : value = []
          · rw [if_pos hnil, if_pos ⟨hnil, hlength⟩]
          · rw [if_neg hnil, if_neg fun h => hnil h.1]
        · rw [if_neg hlength]
          have hzero : length = 0 := not_not.mp hlength
          subst hzero
          have hnil : value = [] := List.length_eq_zero_iff.mp (by omega)
          subst hnil
          exact took_kept hfate (fun hover => hlimit hover.2) hle ⟨hstatus, rfl, rfl, rfl⟩ rfl
  · rw [if_pos hkept]
    obtain ⟨hsame, hrest⟩ := @foldl_dropped config retention
      { decoder := { decoder with
          remaining := length, header := [], typeSize := 0, mode := .skip, payload := decide (length ≠ 0) }
        delivery := receiver.delivery } value ⟨hstatus, rfl, rfl, rfl⟩ rfl hle
    refine took_other ?_ hrest hsame
    rw [DeclaredCapsule.fate, if_pos hkept]
    decide

/-! ## Streams -/

/-- What a list of declared capsules adds to the delivery, up to the limit. -/
def receiveAll (config : HttpCapsuleConfig) (retention : HttpCapsuleRetention) :
    CapsuleDelivery → List DeclaredCapsule → CapsuleDelivery × Bool
  | delivery, [] => (delivery, false)
  | delivery, capsule :: capsules =>
    if (took config retention delivery capsule).2 then took config retention delivery capsule
    else receiveAll config retention (took config retention delivery capsule).1 capsules

/-- No capsule and no header is cut short by the end of the stream. -/
def Whole (declared : List DeclaredCapsule × Bytes) : Prop :=
  declared.2 = [] ∧ ∀ capsule ∈ declared.1, capsule.value.length = capsule.length

instance (declared : List DeclaredCapsule × Bytes) : Decidable (Whole declared) :=
  inferInstanceAs (Decidable (_ ∧ _))

/-- A receiver behind a stream. -/
structure Received (config : HttpCapsuleConfig) (retention : HttpCapsuleRetention) (delivery : CapsuleDelivery)
    (declared : List DeclaredCapsule × Bytes) (receiver : CapsuleReceiver) : Prop where
  delivery_eq : receiver.delivery = (receiveAll config retention delivery declared.1).1
  limit : (receiveAll config retention delivery declared.1).2 = true → receiver.decoder.status = .limit
  more : (receiveAll config retention delivery declared.1).2 = false → receiver.decoder.status = .needMoreData ∧
    ((receiver.decoder.payload = false ∧ receiver.decoder.header = []) ↔ Whole declared)

/-- **The fold over a stream** is what its declared capsules say. -/
theorem foldl_declared {fuel : Nat} (hfuel : bytes.length ≤ fuel) (h : Boundary receiver.decoder) :
    Received config retention receiver.delivery (declaredLoop fuel bytes)
      (bytes.foldl (step config retention) receiver) := by
  induction fuel generalizing bytes receiver with
  | zero =>
    have hnil : bytes = [] := List.length_eq_zero_iff.mp (by omega)
    subst hnil
    refine ⟨rfl, nofun, fun _ => ⟨h.status, fun _ => ⟨rfl, ?_⟩, fun _ => ?_⟩⟩
    · exact nofun
    · exact ⟨h.payload, h.header⟩
  | succ fuel ih =>
    rw [declaredLoop]
    cases hheader : readCapsuleHeader bytes with
    | none =>
      obtain ⟨hinside, hdelivery⟩ := @foldl_header_none config retention receiver bytes [] h hheader
      refine ⟨hdelivery, nofun, fun _ => ⟨hinside.status, ?_⟩⟩
      refine ⟨fun hboth => ⟨?_, ?_⟩, fun hall => ?_⟩
      · rw [← hboth.2, hinside.header]
        rfl
      · exact nofun
      · exact ⟨hinside.payload, hinside.header.trans hall.1⟩
    | some header =>
      obtain ⟨type, length, size⟩ := header
      obtain ⟨hsize, hle, -⟩ := readCapsuleHeader_size hheader
      obtain ⟨decoder, hstatus, htype, hfold⟩ :=
        @foldl_header config retention receiver bytes [] type length size h hheader
      have htook := @foldl_value config retention receiver decoder
        { type, length, value := (bytes.drop size).take length } hstatus htype (List.length_take_le _ _)
      dsimp only at htook ⊢
      have hsplit : bytes.foldl (step config retention) receiver =
          (bytes.drop (size + length)).foldl (step config retention)
            (((bytes.drop size).take length).foldl (step config retention)
              (receiver.take (decoder.startPayload config retention length))) := by
        rw [hfold, List.length_nil, Nat.sub_zero, ← List.foldl_append, ← List.drop_drop, List.take_append_drop]
      rw [hsplit]
      generalize ((bytes.drop size).take length).foldl (step config retention)
        (receiver.take (decoder.startPayload config retention length)) = behind at htook
      generalize hvalue : (bytes.drop size).take length = value at htook ⊢
      -- at the limit the rest of the stream is not looked at
      cases hlimit : (took config retention receiver.delivery { type, length, value }).2 with
      | true =>
        have hstop := htook.limit hlimit
        have hall : ∀ capsules, receiveAll config retention receiver.delivery
            ({ type, length, value } :: capsules) =
            took config retention receiver.delivery { type, length, value } := by
          intro capsules
          rw [receiveAll, if_pos hlimit]
        rw [foldl_step_of_status (by rw [hstop]; decide)]
        split
        all_goals
          refine ⟨?_, fun _ => hstop, fun hmore => ?_⟩
          · rw [hall]
            exact htook.delivery_eq
          · rw [hall, hlimit] at hmore
            cases hmore
      | false =>
        have hrested := htook.rested hlimit
        have hall : ∀ capsules, receiveAll config retention receiver.delivery
            ({ type, length, value } :: capsules) =
            receiveAll config retention behind.delivery capsules := by
          intro capsules
          rw [receiveAll, if_neg (by rw [hlimit]; decide), htook.delivery_eq]
        dsimp only at hrested
        split
        · rename_i hshort
          have hnil : bytes.drop (size + length) = [] := by
            rw [← hvalue, List.length_take, List.length_drop] at hshort
            exact List.drop_eq_nil_of_le (by omega)
          have hpayload : behind.decoder.payload = true := by
            rw [hrested.payload]
            exact decide_eq_true (by omega)
          rw [hnil, List.foldl_nil]
          refine ⟨?_, fun hover => ?_, fun _ => ⟨hrested.status, fun hboth => ?_, fun hwhole => ?_⟩⟩
          · rw [hall]
            rfl
          · rw [hall] at hover
            cases hover
          · rw [hpayload] at hboth
            cases hboth.1
          · have heq := hwhole.2 _ List.mem_cons_self
            dsimp only at heq
            omega
        · rename_i hlong
          have heq : value.length = length := by
            have := List.length_take_le length (bytes.drop size)
            rw [hvalue] at this
            omega
          rw [heq, Nat.sub_self] at hrested
          have hfuel' : (bytes.drop (size + length)).length ≤ fuel := by
            rw [List.length_drop]
            omega
          have hrest := @ih behind (bytes.drop (size + length)) hfuel' hrested.boundary
          refine ⟨?_, fun hover => ?_, fun hmore => ?_⟩
          · rw [hall]
            exact hrest.delivery_eq
          · rw [hall] at hover
            exact hrest.limit hover
          · rw [hall] at hmore
            obtain ⟨hstatus', hwhole⟩ := hrest.more hmore
            refine ⟨hstatus', hwhole.trans ⟨fun hall => ⟨hall.1, ?_⟩, fun hall => ⟨hall.1, ?_⟩⟩⟩
            all_goals intro capsule hmem
            · rcases List.mem_cons.mp hmem with rfl | hmem
              · exact heq
              · exact hall.2 capsule hmem
            · exact hall.2 capsule (List.mem_cons_of_mem _ hmem)

end CapsuleReceiver

end Ruvia.Http
