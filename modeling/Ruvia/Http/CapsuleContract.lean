import Ruvia.Http.CapsuleStream

/-!
# `Http.CapsuleContract` — cuts, round trips and the limit

What a caller of the capsule decoder relies on: however a stream is cut into calls of `feed` and `feed_one`, it is
received as by one `feed` (`drive_spec`); encoded capsules come back, filtered by the retention
(`receive_encoded`); and the limit is reached exactly by a kept capsule that declares more than the maximum
(`limit_iff`).
-/

namespace Ruvia.Http

open Library

namespace CapsuleReceiver

variable {config : HttpCapsuleConfig} {retention : HttpCapsuleRetention} {bytes : Bytes} {fin : Bool}

/-! ## One feed of a stream -/

theorem whole_received (bytes : Bytes) : Received config retention {} (declaredCapsules bytes)
    (bytes.foldl (step config retention) {}) := by
  have hboundary : Boundary ({} : CapsuleReceiver).decoder := boundary_iff.mpr ⟨rfl, rfl, rfl, rfl⟩
  exact foldl_declared (Nat.le_refl _) hboundary

theorem whole_delivery : (whole config retention bytes fin).delivery =
    (receiveAll config retention {} (declaredCapsules bytes).1).1 := by
  have hdelivery := (@whole_received config retention bytes).delivery_eq
  rw [whole]
  split
  · exact hdelivery
  · exact hdelivery

/-- The status behind a whole stream. -/
theorem whole_status : (whole config retention bytes fin).decoder.status =
    if (receiveAll config retention {} (declaredCapsules bytes).1).2 then .limit
    else if !fin then .needMoreData
    else if Whole (declaredCapsules bytes) then .ended else .truncated := by
  have hreceived := @whole_received config retention bytes
  rw [whole]
  cases hlimit : (receiveAll config retention {} (declaredCapsules bytes).1).2 with
  | true =>
    have hstatus := hreceived.limit hlimit
    rw [if_neg fun h => by rw [hstatus] at h; cases h.2]
    exact hstatus
  | false =>
    obtain ⟨hstatus, hwhole⟩ := hreceived.more hlimit
    cases fin with
    | false => exact hstatus
    | true =>
      rw [if_pos ⟨rfl, hstatus⟩]
      show (if _ then _ else _) = _
      by_cases hall : Whole (declaredCapsules bytes)
      · obtain ⟨hpayload, hheader⟩ := hwhole.mpr hall
        rw [hpayload, hheader, if_pos hall]
        rfl
      · rw [if_neg hall, if_pos]
        · rfl
        · rw [Bool.or_eq_true]
          by_contra hnot
          refine hall (hwhole.mp ⟨?_, ?_⟩)
          · exact Bool.eq_false_iff.mpr fun h => hnot (.inl h)
          · have hempty : ¬ (!(bytes.foldl (step config retention) {}).decoder.header.isEmpty) = true :=
              fun h => hnot (.inr h)
            simpa using hempty

/-! ## The limit -/

theorem took_limit (delivery : CapsuleDelivery) (capsule : DeclaredCapsule) :
    (took config retention delivery capsule).2 = true ↔ capsule.Over config retention := by
  rw [took]
  split
  · rename_i hover
    exact ⟨fun _ => hover, fun _ => rfl⟩
  · rename_i hover
    refine ⟨fun h => ?_, fun h => absurd h hover⟩
    split at h
    · split at h
      · cases h
      · split at h <;> cases h
    · cases h

theorem receiveAll_limit (delivery : CapsuleDelivery) (capsules : List DeclaredCapsule) :
    (receiveAll config retention delivery capsules).2 = true ↔
      ∃ capsule ∈ capsules, capsule.Over config retention := by
  induction capsules generalizing delivery with
  | nil => simp [receiveAll]
  | cons capsule capsules ih =>
    rw [receiveAll]
    split
    · rename_i hlimit
      refine ⟨fun _ => ⟨capsule, List.mem_cons_self, (took_limit _ _).mp hlimit⟩, fun _ => hlimit⟩
    · rename_i hlimit
      rw [ih]
      constructor
      · rintro ⟨other, hmem, hover⟩
        exact ⟨other, List.mem_cons_of_mem _ hmem, hover⟩
      · rintro ⟨other, hmem, hover⟩
        rcases List.mem_cons.mp hmem with rfl | hmem
        · exact absurd ((took_limit _ _).mpr hover) hlimit
        · exact ⟨other, hmem, hover⟩

/-- **The limit**: it is reached exactly when a kept capsule declares more than the maximum. -/
theorem limit_iff : (feed config retention {} bytes fin).2 = .limit ↔
    ∃ capsule ∈ (declaredCapsules bytes).1, capsule.Over config retention := by
  rw [feed_whole, ← @receiveAll_limit config retention {}]
  rw [whole_status]
  split
  · rename_i hlimit
    exact ⟨fun _ => hlimit, fun _ => rfl⟩
  · rename_i hlimit
    refine ⟨fun h => ?_, fun h => absurd h hlimit⟩
    split at h
    · cases h
    · split at h <;> cases h

/-! ## Round trips -/

/-- A wire form of a capsule: an encoded header and the value, or a planned datagram. -/
inductive Encodes : HttpCapsule → Bytes → Prop where
  | header {capsule : HttpCapsule} {capacity : Nat} {header : Bytes}
      (h : encodeHttpCapsuleHeader capacity capsule.type capsule.payload.length = .ok header) :
      Encodes capsule (header ++ capsule.payload)
  | datagram {payload contextPrefix : Bytes} {plan : HttpDatagramWritePlan}
      (h : planDatagramCapsule payload contextPrefix = .ok plan) :
      Encodes { type := httpDatagramCapsuleType, payload := contextPrefix ++ payload } (plan.pref ++ plan.payload)

/-- The capsule as its header declares it. -/
def declare (capsule : HttpCapsule) : DeclaredCapsule :=
  { type := capsule.type, length := capsule.payload.length, value := capsule.payload }

theorem planDatagramCapsule_eq_ok_iff {payload contextPrefix : Bytes} {plan : HttpDatagramWritePlan} :
    planDatagramCapsule payload contextPrefix = .ok plan ↔
      contextPrefix.length + payload.length ≤ quicVarintMax ∧
        plan = { pref := varintBytes httpDatagramCapsuleType ++
                   varintBytes (contextPrefix.length + payload.length) ++ contextPrefix
                 payload := payload } := by
  by_cases hle : contextPrefix.length + payload.length ≤ quicVarintMax
  · rw [planDatagramCapsule_eq_ok hle, Except.ok.injEq]
    exact ⟨fun h => ⟨hle, h.symm⟩, fun h => h.2.symm⟩
  · refine ⟨fun h => ?_, fun h => absurd h.1 hle⟩
    rw [planDatagramCapsule] at h
    split at h
    · cases h
    · split at h
      · cases h
      · rename_i header hheader
        obtain ⟨-, hlength, -⟩ := encodeHttpCapsuleHeader_eq_ok_iff.mp hheader
        exact absurd hlength hle

/-- Both forms are the two integers and the value. -/
theorem Encodes.wire {capsule : HttpCapsule} {wire : Bytes} (h : Encodes capsule wire) :
    capsule.type ≤ quicVarintMax ∧ capsule.payload.length ≤ quicVarintMax ∧
      wire = varintBytes capsule.type ++ varintBytes capsule.payload.length ++ capsule.payload := by
  cases h with
  | header hheader =>
    obtain ⟨htype, hlength, -, rfl⟩ := encodeHttpCapsuleHeader_eq_ok_iff.mp hheader
    exact ⟨htype, hlength, rfl⟩
  | datagram hplan =>
    obtain ⟨hlength, rfl⟩ := planDatagramCapsule_eq_ok_iff.mp hplan
    rw [List.length_append]
    exact ⟨Nat.zero_le _, hlength, List.append_assoc _ _ _⟩

variable {sent : List (HttpCapsule × Bytes)}

/-- The declared capsules of encoded ones are these, and nothing is left. -/
theorem declaredLoop_encoded (h : ∀ entry ∈ sent, Encodes entry.1 entry.2) {fuel : Nat}
    (hfuel : (sent.map (·.2)).flatten.length ≤ fuel) :
    declaredLoop fuel (sent.map (·.2)).flatten = (sent.map fun entry => declare entry.1, []) := by
  induction sent generalizing fuel with
  | nil => cases fuel <;> rfl
  | cons entry sent ih =>
    obtain ⟨htype, hlength, hwire⟩ := (h entry List.mem_cons_self).wire
    have hrest := fun other hmem => h other (List.mem_cons_of_mem entry hmem)
    have hbytes : ((entry :: sent).map (·.2)).flatten =
        varintBytes entry.1.type ++ varintBytes entry.1.payload.length ++
          (entry.1.payload ++ (sent.map (·.2)).flatten) := by
      rw [List.map_cons, List.flatten_cons, hwire, List.append_assoc]
    have hheader := readCapsuleHeader_encode htype hlength (entry.1.payload ++ (sent.map (·.2)).flatten)
    obtain ⟨hsize, -, -⟩ := readCapsuleHeader_size hheader
    have hfront : (varintBytes entry.1.type ++ varintBytes entry.1.payload.length).length =
        quicVarintSize entry.1.type + quicVarintSize entry.1.payload.length := by
      rw [List.length_append, varintBytes_length, varintBytes_length]
    rw [hbytes, List.length_append, hfront, List.length_append] at hfuel
    obtain ⟨fuel, rfl⟩ : ∃ less, fuel = less + 1 := ⟨fuel - 1, by omega⟩
    rw [hbytes, declaredLoop, hheader]
    dsimp only
    rw [← hfront, List.drop_left, List.take_left, if_neg (Nat.lt_irrefl _),
      ← List.append_assoc, ← List.length_append, List.drop_left, ih hrest (by omega)]
    rfl

/-- Whether the retention keeps a capsule: of the UDP datagrams those whose context identifier is 0 or cut short. -/
def Keeps (retention : HttpCapsuleRetention) (capsule : HttpCapsule) : Prop :=
  match retention with
  | .all => True
  | .datagrams => capsule.type = httpDatagramCapsuleType
  | .udpPayloads => capsule.type = httpDatagramCapsuleType ∧
      HttpCapsuleDecoder.isUnknown (decodeQuicVarint capsule.payload) = false

instance (retention : HttpCapsuleRetention) (capsule : HttpCapsule) : Decidable (Keeps retention capsule) :=
  match retention with
  | .all => inferInstanceAs (Decidable True)
  | .datagrams => inferInstanceAs (Decidable (capsule.type = httpDatagramCapsuleType))
  | .udpPayloads => inferInstanceAs (Decidable (capsule.type = httpDatagramCapsuleType ∧
      HttpCapsuleDecoder.isUnknown (decodeQuicVarint capsule.payload) = false))

/-- The fate of a capsule that is there in full is decided. -/
theorem declare_fate (capsule : HttpCapsule) :
    (declare capsule).fate retention = if Keeps retention capsule then .kept else .dropped := by
  rw [DeclaredCapsule.fate, declare]
  by_cases htype : capsule.type = httpDatagramCapsuleType
  · rw [if_neg (not_not.mpr (.inr htype))]
    cases retention with
    | all => rfl
    | datagrams => rw [if_pos (show Keeps .datagrams capsule from htype)]; rfl
    | udpPayloads =>
      by_cases hlength : capsule.payload.length ≠ 0
      · rw [if_pos ⟨rfl, hlength⟩]
        cases hdecode : decodeQuicVarint capsule.payload with
        | error error =>
          have hkeeps : Keeps .udpPayloads capsule := ⟨htype, by rw [hdecode]; rfl⟩
          rw [if_neg (Nat.lt_irrefl _), if_pos hkeeps]
        | ok context =>
          dsimp only
          by_cases hzero : context.value = 0
          · have hkeeps : Keeps .udpPayloads capsule := by
              refine ⟨htype, ?_⟩
              rw [hdecode]
              exact decide_eq_false (not_not.mpr hzero)
            rw [if_neg (not_not.mpr hzero), if_pos hkeeps]
          · have hkeeps : ¬ Keeps .udpPayloads capsule := fun h => by
              have hunknown := h.2
              rw [hdecode] at hunknown
              exact of_decide_eq_false hunknown hzero
            rw [if_pos hzero, if_neg hkeeps]
      · have hnil : capsule.payload = [] := List.length_eq_zero_iff.mp (not_not.mp hlength)
        have hkeeps : Keeps .udpPayloads capsule := ⟨htype, by rw [hnil]; rfl⟩
        rw [if_neg fun h => hlength h.2, if_pos hkeeps]
  · cases retention with
    | all => rfl
    | datagrams =>
      rw [if_pos fun h => htype (h.resolve_left (by decide)),
        if_neg fun hkeeps : Keeps .datagrams capsule => htype hkeeps]
    | udpPayloads =>
      rw [if_pos fun h => htype (h.resolve_left (by decide)),
        if_neg fun hkeeps : Keeps .udpPayloads capsule => htype hkeeps.1]

theorem receiveAll_encoded {capsules : List HttpCapsule} {delivery : CapsuleDelivery}
    (hlimit : ∀ capsule ∈ capsules, Keeps retention capsule → capsule.payload.length ≤ config.maxCapsuleLength)
    (hcurrent : delivery.current = none) :
    receiveAll config retention delivery (capsules.map declare) =
      ({ delivery with capsules := delivery.capsules ++ capsules.filter fun capsule => Keeps retention capsule },
        false) := by
  induction capsules generalizing delivery with
  | nil => rw [List.map_nil, receiveAll, List.filter_nil, List.append_nil]
  | cons capsule capsules ih =>
    have hrest := fun other hmem => hlimit other (List.mem_cons_of_mem capsule hmem)
    have htook : took config retention delivery (declare capsule) =
        ({ delivery with capsules := delivery.capsules ++
            [capsule].filter fun capsule => Keeps retention capsule }, false) := by
      rw [took]
      by_cases hkeeps : Keeps retention capsule
      · have hfate : (declare capsule).fate retention = .kept := by rw [declare_fate, if_pos hkeeps]
        have hle := hlimit capsule List.mem_cons_self hkeeps
        have hover : ¬ (declare capsule).Over config retention := fun hover => Nat.not_lt.mpr hle hover.2
        have hall : (declare capsule).value.length = (declare capsule).length := rfl
        rw [if_neg hover, if_pos hfate, if_pos hall, List.filter_singleton, decide_eq_true hkeeps]
        simp only [CapsuleDelivery.receive, declare, hcurrent, Option.map_none, Option.getD_none, List.nil_append,
          if_true, cond_true]
      · have hfate : (declare capsule).fate retention = .dropped := by rw [declare_fate, if_neg hkeeps]
        have hover : ¬ (declare capsule).Over config retention := fun hover => by
          rw [DeclaredCapsule.Over, hfate] at hover
          cases hover.1
        rw [if_neg hover, if_neg (by rw [hfate]; decide), List.filter_singleton, decide_eq_false hkeeps]
        simp
    rw [List.map_cons, receiveAll, htook]
    rw [if_neg Bool.false_ne_true, ih hrest (by exact hcurrent)]
    rw [List.append_assoc, ← List.filter_append, List.singleton_append]

/-- **The round trip**: encoded capsules come back in order, filtered by the retention, and the stream ends. -/
theorem receive_encoded (h : ∀ entry ∈ sent, Encodes entry.1 entry.2)
    (hlimit : ∀ entry ∈ sent, Keeps retention entry.1 → entry.1.payload.length ≤ config.maxCapsuleLength) :
    (feed config retention {} (sent.map (·.2)).flatten true).1.delivery =
        { capsules := (sent.map (·.1)).filter fun capsule => Keeps retention capsule } ∧
      (feed config retention {} (sent.map (·.2)).flatten true).2 = .ended := by
  have hdeclared : declaredCapsules (sent.map (·.2)).flatten = (sent.map fun entry => declare entry.1, []) :=
    declaredLoop_encoded h (Nat.le_refl _)
  have hreceived : receiveAll config retention {} (sent.map fun entry => declare entry.1) =
      ({ capsules := (sent.map (·.1)).filter fun capsule => Keeps retention capsule }, false) := by
    have hmap : (sent.map fun entry => declare entry.1) = (sent.map (·.1)).map declare := by
      rw [List.map_map]
      rfl
    rw [hmap, receiveAll_encoded _ (show ({} : CapsuleDelivery).current = none from rfl)]
    · rfl
    · intro capsule hmem
      obtain ⟨entry, hentry, rfl⟩ := List.mem_map.mp hmem
      exact hlimit entry hentry
  have hwhole : Whole (sent.map fun entry => declare entry.1, []) := by
    refine ⟨rfl, fun capsule hmem => ?_⟩
    obtain ⟨entry, _, rfl⟩ := List.mem_map.mp hmem
    rfl
  rw [feed_whole]
  rw [whole_delivery, whole_status, hdeclared]
  rw [hreceived]
  refine ⟨rfl, ?_⟩
  rw [if_neg Bool.false_ne_true, if_neg (by decide), if_pos hwhole]

/-! ## Cuts -/

/-- A call of `feed` or `feed_one` on so many of the bytes that are not consumed; the end of the stream may only be
announced with all of them. -/
structure CapsuleCall where
  one : Bool
  size : Nat
  fin : Bool
  deriving DecidableEq, Repr

/-- A caller: its decoder, and the bytes that are not consumed. -/
structure CapsuleCaller where
  receiver : CapsuleReceiver := {}
  rest : Bytes
  deriving DecidableEq, Repr

/-- What is not consumed is presented again. -/
def CapsuleCaller.call (config : HttpCapsuleConfig) (retention : HttpCapsuleRetention) (caller : CapsuleCaller)
    (call : CapsuleCall) : CapsuleCaller :=
  let fed := caller.receiver.feedImpl config retention (caller.rest.take call.size)
    (call.fin && decide (caller.rest.length ≤ call.size)) call.one
  { receiver := fed.1, rest := caller.rest.drop fed.2.consumedBytes }

/-- The caller behind some calls, on a stream of these bytes. -/
def drive (config : HttpCapsuleConfig) (retention : HttpCapsuleRetention) (bytes : Bytes)
    (calls : List CapsuleCall) : CapsuleCaller :=
  calls.foldl (CapsuleCaller.call config retention) { rest := bytes }

/-- Where a caller stands in a stream: the decoder has folded the bytes consumed, or the stream has ended. -/
def Drives (config : HttpCapsuleConfig) (retention : HttpCapsuleRetention) (bytes : Bytes)
    (caller : CapsuleCaller) : Prop :=
  (∃ front, bytes = front ++ caller.rest ∧ caller.receiver = front.foldl (step config retention) {}) ∨
    (caller.rest = [] ∧ (bytes.foldl (step config retention) {}).decoder.status = .needMoreData ∧
      caller.receiver = (bytes.foldl (step config retention) {}).finish)

theorem finish_status (receiver : CapsuleReceiver) : receiver.finish.decoder.status ≠ .needMoreData := by
  show (if _ then _ else _) ≠ _
  split <;> decide

/-- A call keeps its place in the stream. -/
theorem Drives.call {caller : CapsuleCaller} (h : Drives config retention bytes caller) (call : CapsuleCall) :
    Drives config retention bytes (caller.call config retention call) := by
  rw [CapsuleCaller.call]
  by_cases hstatus : caller.receiver.decoder.status = .needMoreData
  · obtain ⟨front, hbytes, hreceiver⟩ : ∃ front, bytes = front ++ caller.rest ∧
        caller.receiver = front.foldl (step config retention) {} := by
      rcases h with h | ⟨-, -, hreceiver⟩
      · exact h
      · exact absurd (hreceiver ▸ hstatus) (finish_status _)
    have hwf : caller.receiver.Wf := by
      rw [hreceiver]
      exact Wf.foldl wf_init front
    have hspec := @feedImpl_spec config retention caller.receiver hwf hstatus (caller.rest.take call.size)
      (call.fin && decide (caller.rest.length ≤ call.size)) call.one
    generalize caller.receiver.feedImpl config retention (caller.rest.take call.size)
      (call.fin && decide (caller.rest.length ≤ call.size)) call.one = fed at hspec
    have hle := hspec.le
    rw [List.length_take] at hle
    have hfolded : ((caller.rest.take call.size).take fed.2.consumedBytes).foldl (step config retention)
        caller.receiver = (front ++ caller.rest.take fed.2.consumedBytes).foldl (step config retention) {} := by
      rw [List.foldl_append, ← hreceiver, List.take_take, Nat.min_eq_left (by omega)]
    have hfed := hspec.receiver_eq
    dsimp only at hfed
    rw [hfolded] at hfed
    split at hfed
    · rename_i hend
      obtain ⟨hfin, hconsumed, hmore⟩ := hend
      have hsize : caller.rest.length ≤ call.size := of_decide_eq_true (Bool.and_eq_true _ _ ▸ hfin).2
      have hall : fed.2.consumedBytes = caller.rest.length := by
        rw [hconsumed, List.length_take]
        omega
      rw [hall, List.take_length, ← hbytes] at hfed hmore
      exact .inr ⟨by rw [hall, List.drop_length], hmore, hfed⟩
    · exact .inl ⟨_, by rw [List.append_assoc, List.take_append_drop]; exact hbytes, hfed⟩
  · rw [feedImpl, if_pos hstatus, List.drop_zero]
    exact h

theorem drive_drives (bytes : Bytes) (calls : List CapsuleCall) :
    Drives config retention bytes (drive config retention bytes calls) := by
  have hrun : ∀ caller, Drives config retention bytes caller →
      Drives config retention bytes (calls.foldl (CapsuleCaller.call config retention) caller) := by
    induction calls with
    | nil => exact fun _ h => h
    | cons call calls ih => exact fun caller h => ih _ (h.call call)
  exact hrun _ (.inl ⟨[], rfl, rfl⟩)

/-- **Cuts do not show**: a stream that was stopped or ended, and one that was consumed, are received as by one feed
of the whole. -/
theorem drive_spec (bytes : Bytes) (calls : List CapsuleCall) :
    ((drive config retention bytes calls).receiver.decoder.status ≠ .needMoreData →
      feed config retention {} bytes true = ((drive config retention bytes calls).receiver,
        (drive config retention bytes calls).receiver.decoder.status)) ∧
    ((drive config retention bytes calls).receiver.decoder.status = .needMoreData →
      (drive config retention bytes calls).rest = [] →
      feed config retention {} bytes false =
        ((drive config retention bytes calls).receiver, .needMoreData)) := by
  rw [feed_whole, feed_whole]
  rcases @drive_drives config retention bytes calls with ⟨front, hbytes, hreceiver⟩ | ⟨-, hmore, hreceiver⟩
  · refine ⟨fun hstatus => ?_, fun hstatus hrest => ?_⟩
    · have hfold : bytes.foldl (step config retention) {} = (drive config retention bytes calls).receiver := by
        rw [hreceiver] at hstatus ⊢
        conv => lhs; rw [hbytes]
        rw [List.foldl_append, foldl_step_of_status hstatus]
      have hwhole : whole config retention bytes true = (drive config retention bytes calls).receiver := by
        rw [whole, hfold, if_neg fun h => hstatus h.2]
      rw [hwhole]
    · rw [hrest, List.append_nil] at hbytes
      rw [← hbytes] at hreceiver
      have hwhole : whole config retention bytes false = (drive config retention bytes calls).receiver := by
        rw [whole, if_neg fun h => by cases h.1]
        exact hreceiver.symm
      rw [hwhole, hstatus]
  · refine ⟨fun _ => ?_, fun hstatus _ => absurd (hreceiver ▸ hstatus) (finish_status _)⟩
    have hwhole : whole config retention bytes true = (drive config retention bytes calls).receiver := by
      rw [whole, if_pos ⟨rfl, hmore⟩, hreceiver]
    rw [hwhole]

/-- A call that presents bytes consumes some, and a `feed` of all bytes with the end of the stream stops. -/
theorem drive_progress (bytes : Bytes) (calls : List CapsuleCall) (call : CapsuleCall)
    (hmore : (drive config retention bytes calls).receiver.decoder.status = .needMoreData) :
    ((drive config retention bytes calls).rest ≠ [] → 0 < call.size →
      (drive config retention bytes (calls ++ [call])).rest.length <
        (drive config retention bytes calls).rest.length) ∧
    (call.one = false → call.fin = true → (drive config retention bytes calls).rest.length ≤ call.size →
      (drive config retention bytes (calls ++ [call])).receiver.decoder.status ≠ .needMoreData) := by
  have hnext : drive config retention bytes (calls ++ [call]) =
      (drive config retention bytes calls).call config retention call := by
    rw [drive, List.foldl_append]
    rfl
  have hdrives := @drive_drives config retention bytes calls
  rw [hnext]
  generalize drive config retention bytes calls = caller at hmore hdrives
  have hwf : caller.receiver.Wf := by
    rcases hdrives with ⟨front, -, hreceiver⟩ | ⟨-, -, hreceiver⟩
    · rw [hreceiver]
      exact Wf.foldl wf_init front
    · exact absurd (hreceiver ▸ hmore) (finish_status _)
  have hspec := @feedImpl_spec config retention caller.receiver hwf hmore (caller.rest.take call.size)
    (call.fin && decide (caller.rest.length ≤ call.size)) call.one
  rw [CapsuleCaller.call]
  generalize caller.receiver.feedImpl config retention (caller.rest.take call.size)
    (call.fin && decide (caller.rest.length ≤ call.size)) call.one = fed at hspec
  refine ⟨fun hrest hsize => ?_, fun hone hfin hall hstatus => ?_⟩
  · have hpos := hspec.pos (by
      rw [← List.length_pos_iff, List.length_take]
      have hlength := List.length_pos_of_ne_nil hrest
      omega)
    have hlength := List.length_pos_of_ne_nil hrest
    rw [List.length_drop]
    omega
  · have hconsumed := hspec.all hone (by rw [hstatus]; decide)
    have hfed := hspec.receiver_eq
    dsimp only at hfed
    split at hfed
    · rw [hfed] at hstatus
      exact finish_status _ hstatus
    · rename_i hnot
      refine hnot ⟨?_, hconsumed, ?_⟩
      · rw [hfin, decide_eq_true hall]
        rfl
      · rw [← hfed]
        exact hstatus

/-! ## The contract -/

/-- **The capsule decoder.** -/
theorem capsule_decoder (config : HttpCapsuleConfig) (retention : HttpCapsuleRetention) :
    (∀ (bytes : Bytes) (calls : List CapsuleCall),
      ((drive config retention bytes calls).receiver.decoder.status ≠ .needMoreData →
        feed config retention {} bytes true = ((drive config retention bytes calls).receiver,
          (drive config retention bytes calls).receiver.decoder.status)) ∧
      ((drive config retention bytes calls).receiver.decoder.status = .needMoreData →
        (drive config retention bytes calls).rest = [] →
        feed config retention {} bytes false =
          ((drive config retention bytes calls).receiver, .needMoreData)) ∧
      ∀ call : CapsuleCall, (drive config retention bytes calls).receiver.decoder.status = .needMoreData →
        ((drive config retention bytes calls).rest ≠ [] → 0 < call.size →
          (drive config retention bytes (calls ++ [call])).rest.length <
            (drive config retention bytes calls).rest.length) ∧
        (call.one = false → call.fin = true → (drive config retention bytes calls).rest.length ≤ call.size →
          (drive config retention bytes (calls ++ [call])).receiver.decoder.status ≠ .needMoreData)) ∧
    (∀ sent : List (HttpCapsule × Bytes), (∀ entry ∈ sent, Encodes entry.1 entry.2) →
      (∀ entry ∈ sent, Keeps retention entry.1 → entry.1.payload.length ≤ config.maxCapsuleLength) →
      (feed config retention {} (sent.map (·.2)).flatten true).1.delivery =
          { capsules := (sent.map (·.1)).filter fun capsule => Keeps retention capsule } ∧
        (feed config retention {} (sent.map (·.2)).flatten true).2 = .ended) ∧
    (∀ (bytes : Bytes) (fin : Bool), (feed config retention {} bytes fin).2 = .limit ↔
      ∃ capsule ∈ (declaredCapsules bytes).1, capsule.Over config retention) := by
  refine ⟨fun bytes calls => ⟨(drive_spec bytes calls).1, (drive_spec bytes calls).2, fun call => ?_⟩,
    fun sent => receive_encoded, fun bytes fin => limit_iff⟩
  exact drive_progress bytes calls call

/-- Two datagrams, the second of another context, and a capsule of another type that exceeds the maximum. -/
theorem capsule_decoder_udp :
    (feed ⟨2, by decide⟩ .udpPayloads {} [0, 2, 0, 7, 5, 3, 1, 2, 3, 0, 1, 9] true).1.delivery =
      { capsules := [{ type := 0, payload := [0, 7] }] } := by
  have hround := (capsule_decoder ⟨2, by decide⟩ .udpPayloads).2.1
    [({ type := 0, payload := [0, 7] }, [0, 2, 0, 7]), ({ type := 5, payload := [1, 2, 3] }, [5, 3, 1, 2, 3]),
      ({ type := 0, payload := [9] }, [0, 1, 9])]
    (fun entry hmem => by
      rcases List.mem_cons.mp hmem with rfl | hmem
      · exact @Encodes.header _ 16 [0, 2] rfl
      · rcases List.mem_cons.mp hmem with rfl | hmem
        · exact @Encodes.header _ 16 [5, 3] rfl
        · rw [List.mem_singleton] at hmem
          subst hmem
          exact @Encodes.header _ 16 [0, 1] rfl)
    (by decide)
  exact hround.1

end CapsuleReceiver

end Ruvia.Http
