import Ruvia.Library.ByteString

/-!
# `Http.QuicVarint` — variable-length integers and capsule headers

`util/quic_varint.h` and the encoders of `http_datagram.cpp`. The two top bits of the first byte give the length
of an integer. So what stands behind it changes nothing (`decode_append`), and an encoder's bytes are read back
whatever follows them (`decode_encode`).
-/

namespace Ruvia.Http

open Library

/-! ## The codec -/

inductive HttpCapsuleCodecError where
  | needMoreData
  | valueOutOfRange
  | outputTooSmall
  deriving DecidableEq, Repr

def quicVarintMax : Nat := 1 <<< 62 - 1

structure QuicVarint where
  value : Nat
  encodedBytes : Nat
  deriving DecidableEq, Repr

def quicVarintSize (value : Nat) : Nat :=
  if value < 1 <<< 6 then 1 else if value < 1 <<< 14 then 2 else if value < 1 <<< 30 then 4 else 8

/-- The number of bytes a first byte announces. -/
def announcedSize (first : UInt8) : Nat := 1 <<< (first.toNat >>> 6)

def decodeQuicVarint (input : Bytes) : Except HttpCapsuleCodecError QuicVarint :=
  match input with
  | [] => .error .needMoreData
  | first :: tail =>
    let size := announcedSize first
    if input.length < size then .error .needMoreData
    else
      let value := (tail.take (size - 1)).foldl (fun value byte => value <<< 8 ||| byte.toNat) (first.toNat &&& 0x3f)
      .ok { value := value, encodedBytes := size }

/-- The bytes of a value, written from the last to the first. -/
def varintLoop : Nat → Nat → Bytes → Bytes
  | 0, _, written => written
  | left + 1, value, written => varintLoop left (value >>> 8) (UInt8.ofNat (value &&& 0xff) :: written)

def varintTag (size : Nat) : UInt8 := if size = 1 then 0 else if size = 2 then 0x40 else if size = 4 then 0x80 else 0xc0

/-- The bytes `encode_quic_varint` puts at the front of its output. -/
def varintBytes (value : Nat) : Bytes :=
  let size := quicVarintSize value
  match varintLoop size value [] with
  | [] => []
  | first :: tail => (first ||| varintTag size) :: tail

/-- `capacity` is the size of the output. -/
def encodeQuicVarint (capacity value : Nat) : Except HttpCapsuleCodecError Bytes :=
  if value > quicVarintMax then .error .valueOutOfRange
  else if capacity < quicVarintSize value then .error .outputTooSmall
  else .ok (varintBytes value)

def encodeHttpCapsuleHeader (capacity type length : Nat) : Except HttpCapsuleCodecError Bytes :=
  if type > quicVarintMax ∨ length > quicVarintMax then .error .valueOutOfRange
  else if capacity < quicVarintSize type + quicVarintSize length then .error .outputTooSmall
  else
    match encodeQuicVarint capacity type, encodeQuicVarint (capacity - quicVarintSize type) length with
    | .ok typeBytes, .ok lengthBytes => .ok (typeBytes ++ lengthBytes)
    | .error error, _ => .error error
    | _, .error error => .error error

def httpDatagramCapsuleType : Nat := 0

inductive HttpDatagramError where
  | sendClosed
  | payloadTooLarge
  | malformed
  deriving DecidableEq, Repr

structure HttpDatagramWritePlan where
  pref : Bytes
  payload : Bytes
  deriving DecidableEq, Repr

/-- One DATAGRAM capsule whose value is `contextPrefix` followed by the payload. -/
def planDatagramCapsule (payload contextPrefix : Bytes) : Except HttpDatagramError HttpDatagramWritePlan :=
  if payload.length > quicVarintMax - contextPrefix.length then .error .payloadTooLarge
  else
    match encodeHttpCapsuleHeader 24 httpDatagramCapsuleType (contextPrefix.length + payload.length) with
    | .error _ => .error .payloadTooLarge
    | .ok header => .ok { pref := header ++ contextPrefix, payload := payload }

/-! ## Decoding a prefix -/

section

variable {input more : Bytes} {varint : QuicVarint} {error : HttpCapsuleCodecError}

theorem announcedSize_pos (first : UInt8) : 0 < announcedSize first := by
  rw [announcedSize, Nat.shiftLeft_eq, Nat.one_mul]
  exact Nat.two_pow_pos _

theorem announcedSize_le (first : UInt8) : announcedSize first ≤ 8 := by
  have hlt := first.toNat_lt
  have hshift : first.toNat >>> 6 ≤ 3 := by
    omega
  rw [announcedSize, Nat.shiftLeft_eq, Nat.one_mul]
  exact Nat.pow_le_pow_right (by decide) hshift

section

variable (h : decodeQuicVarint input = .ok varint)
include h

/-- A whole integer stands at the front, and its bytes alone decide it. -/
theorem decode_ok : 0 < varint.encodedBytes ∧ varint.encodedBytes ≤ input.length ∧ varint.encodedBytes ≤ 8 := by
  cases input with
  | nil => cases h
  | cons first tail =>
    rw [decodeQuicVarint] at h
    split at h
    · cases h
    · cases h
      exact ⟨announcedSize_pos first, Nat.le_of_not_lt ‹_›, announcedSize_le first⟩

theorem decode_append (more : Bytes) : decodeQuicVarint (input ++ more) = .ok varint := by
  cases input with
  | nil => cases h
  | cons first tail =>
    rw [decodeQuicVarint] at h
    split at h
    · cases h
    · rename_i hsize
      rw [← h, List.cons_append, decodeQuicVarint]
      have hlong : ¬ (first :: (tail ++ more)).length < announcedSize first := by
        simp only [List.length_cons, List.length_append] at hsize ⊢
        omega
      have htake : (tail ++ more).take (announcedSize first - 1) = tail.take (announcedSize first - 1) := by
        apply List.take_append_of_le_length
        simp only [List.length_cons] at hsize
        omega
      rw [if_neg hlong, htake]

/-- An integer of `n` bytes is decided by these. -/
theorem decode_take : decodeQuicVarint (input.take varint.encodedBytes) = .ok varint := by
  obtain ⟨hpos, hle, -⟩ := decode_ok h
  cases htake : decodeQuicVarint (input.take varint.encodedBytes) with
  | ok other =>
    have hsame := decode_append htake (input.drop varint.encodedBytes)
    rw [List.take_append_drop, h, Except.ok.injEq] at hsame
    rw [hsame]
  | error error =>
    cases input with
    | nil => cases h
    | cons first tail =>
      rw [decodeQuicVarint] at h
      split at h
      · cases h
      · cases h
        obtain ⟨size, hsize⟩ : ∃ size, announcedSize first = size + 1 :=
          ⟨announcedSize first - 1, by have := announcedSize_pos first; omega⟩
        rw [hsize, List.take_succ_cons, decodeQuicVarint] at htake
        have hlong : ¬ (first :: tail.take size).length < announcedSize first := by
          rw [List.length_cons, List.length_take, hsize]
          simp only [List.length_cons, hsize] at hle
          omega
        rw [if_neg hlong] at htake
        cases htake

end

end

/-! ## Encoding -/

theorem shift_or {value : Nat} (byte : UInt8) : value <<< 8 ||| byte.toNat = value * 256 + byte.toNat := by
  rw [← Nat.shiftLeft_add_eq_or_of_lt byte.toNat_lt, Nat.shiftLeft_eq]

theorem low_byte (value : Nat) : (UInt8.ofNat (value &&& 0xff)).toNat = value % 256 := by
  rw [show (0xff : Nat) = 2 ^ 8 - 1 from rfl, Nat.and_two_pow_sub_one_eq_mod, UInt8.toNat_ofNat']
  omega

/-- A first byte below 64, tagged: the tag gives the size and the rest is the byte. -/
theorem tagged (high tag : Nat) (hhigh : high < 64) (htag : tag < 4) :
    announcedSize (UInt8.ofNat (high &&& 0xff) ||| UInt8.ofNat (tag * 64)) = 2 ^ tag ∧
      (UInt8.ofNat (high &&& 0xff) ||| UInt8.ofNat (tag * 64)).toNat &&& 0x3f = high := by
  have hbyte : (UInt8.ofNat (high &&& 0xff) ||| UInt8.ofNat (tag * 64)).toNat = tag * 64 + high := by
    rw [UInt8.toNat_or, low_byte, UInt8.toNat_ofNat', Nat.mod_eq_of_lt (by omega), Nat.mod_eq_of_lt (by omega),
      Nat.or_comm, show tag * 64 = tag <<< 6 by rw [Nat.shiftLeft_eq], ← Nat.shiftLeft_add_eq_or_of_lt hhigh]
  constructor
  · rw [announcedSize, hbyte, Nat.shiftLeft_eq, Nat.one_mul, Nat.shiftRight_eq_div_pow]
    congr 1
    omega
  · rw [hbyte, show (0x3f : Nat) = 2 ^ 6 - 1 from rfl, Nat.and_two_pow_sub_one_eq_mod]
    omega

theorem varintLoop_succ (left value : Nat) (written : Bytes) :
    varintLoop (left + 1) value written =
      UInt8.ofNat (value >>> (8 * left) &&& 0xff) :: varintLoop left value written := by
  induction left generalizing value written with
  | zero => rfl
  | succ left ih =>
    rw [varintLoop, ih, varintLoop, ← Nat.shiftRight_add, show 8 + 8 * left = 8 * (left + 1) by omega]

theorem varintLoop_append (left value : Nat) (written : Bytes) :
    varintLoop left value written = varintLoop left value [] ++ written := by
  induction left generalizing value written with
  | zero => rfl
  | succ left ih => rw [varintLoop_succ, varintLoop_succ, ih, List.cons_append]

theorem varintLoop_length (left value : Nat) : (varintLoop left value []).length = left := by
  induction left with
  | zero => rfl
  | succ left ih => rw [varintLoop_succ, List.length_cons, ih]

/-- The bytes are read back one after the other. -/
theorem varintLoop_foldl (left value start : Nat) :
    (varintLoop left value []).foldl (fun value byte => value <<< 8 ||| byte.toNat) start =
      start * 256 ^ left + value % 256 ^ left := by
  induction left generalizing value with
  | zero => simp [varintLoop, Nat.mod_one]
  | succ left ih =>
    have hmod : value % (256 * 256 ^ left) = value % 256 + 256 * (value / 256 % 256 ^ left) := Nat.mod_mul
    have hshift : value >>> 8 = value / 256 := Nat.shiftRight_eq_div_pow value 8
    have hpow : 256 ^ (left + 1) = 256 * 256 ^ left := by rw [Nat.pow_succ, Nat.mul_comm]
    have hstart : start * (256 * 256 ^ left) = start * 256 ^ left * 256 := by
      rw [Nat.mul_comm 256, Nat.mul_assoc]
    rw [varintLoop, varintLoop_append, List.foldl_append, ih, List.foldl_cons, List.foldl_nil, shift_or, low_byte,
      hshift, hpow, hmod, hstart, Nat.add_mul]
    omega

theorem varintBytes_eq {value left tag : Nat} (hsize : quicVarintSize value = left + 1)
    (htag : varintTag (left + 1) = UInt8.ofNat (tag * 64)) :
    varintBytes value = (UInt8.ofNat (value >>> (8 * left) &&& 0xff) ||| UInt8.ofNat (tag * 64)) ::
      varintLoop left value [] := by
  rw [varintBytes, hsize, varintLoop_succ, htag]

/-- One of the four forms: `left` bytes behind the first, which holds a tag and the six highest bits. -/
theorem decode_encode_form {value left : Nat} (tag : Nat) (rest : Bytes) (hsize : quicVarintSize value = left + 1)
    (htag : varintTag (left + 1) = UInt8.ofNat (tag * 64)) (htag4 : tag < 4) (hpow : 2 ^ tag = left + 1)
    (hvalue : value < 64 * 256 ^ left) :
    decodeQuicVarint (varintBytes value ++ rest) = .ok { value := value, encodedBytes := left + 1 } := by
  have hhigh : value >>> (8 * left) = value / 256 ^ left := by
    rw [Nat.shiftRight_eq_div_pow, Nat.pow_mul]
  have hlt : value / 256 ^ left < 64 := (Nat.div_lt_iff_lt_mul (Nat.pow_pos (by decide))).mpr hvalue
  obtain ⟨hannounced, hbits⟩ := tagged (value / 256 ^ left) tag hlt htag4
  rw [varintBytes_eq hsize htag, hhigh, List.cons_append, decodeQuicVarint]
  rw [hannounced, hpow, hbits, Nat.add_sub_cancel,
    List.take_append_of_le_length (by rw [varintLoop_length]), List.take_of_length_le (by rw [varintLoop_length]),
    varintLoop_foldl, if_neg (by simp only [List.length_cons, List.length_append, varintLoop_length]; omega),
    Nat.mul_comm, Nat.div_add_mod]

/-- **An encoded integer is read back, whatever follows it.** -/
theorem decode_encode {value : Nat} (h : value ≤ quicVarintMax) (rest : Bytes) :
    decodeQuicVarint (varintBytes value ++ rest) =
      .ok { value := value, encodedBytes := quicVarintSize value } := by
  have hmax : value < 2 ^ 62 := by
    rw [quicVarintMax, Nat.shiftLeft_eq] at h
    omega
  by_cases h₁ : value < 1 <<< 6
  · have hsize : quicVarintSize value = 0 + 1 := by rw [quicVarintSize, if_pos h₁]
    rw [hsize]
    exact decode_encode_form 0 rest hsize rfl (by decide) rfl (by rw [Nat.shiftLeft_eq] at h₁; omega)
  · by_cases h₂ : value < 1 <<< 14
    · have hsize : quicVarintSize value = 1 + 1 := by rw [quicVarintSize, if_neg h₁, if_pos h₂]
      rw [hsize]
      exact decode_encode_form 1 rest hsize rfl (by decide) rfl (by rw [Nat.shiftLeft_eq] at h₂; omega)
    · by_cases h₃ : value < 1 <<< 30
      · have hsize : quicVarintSize value = 3 + 1 := by rw [quicVarintSize, if_neg h₁, if_neg h₂, if_pos h₃]
        rw [hsize]
        exact decode_encode_form 2 rest hsize rfl (by decide) rfl (by rw [Nat.shiftLeft_eq] at h₃; omega)
      · have hsize : quicVarintSize value = 7 + 1 := by rw [quicVarintSize, if_neg h₁, if_neg h₂, if_neg h₃]
        rw [hsize]
        exact decode_encode_form 3 rest hsize rfl (by decide) rfl (by omega)

theorem quicVarintSize_cases (value : Nat) :
    quicVarintSize value = 1 ∨ quicVarintSize value = 2 ∨ quicVarintSize value = 4 ∨ quicVarintSize value = 8 := by
  rw [quicVarintSize]
  split
  · exact .inl rfl
  · split
    · exact .inr (.inl rfl)
    · split
      · exact .inr (.inr (.inl rfl))
      · exact .inr (.inr (.inr rfl))

theorem varintBytes_length (value : Nat) : (varintBytes value).length = quicVarintSize value := by
  have hform : ∀ left tag, quicVarintSize value = left + 1 → varintTag (left + 1) = UInt8.ofNat (tag * 64) →
      (varintBytes value).length = quicVarintSize value := by
    intro left tag hsize htag
    rw [varintBytes_eq hsize htag, List.length_cons, varintLoop_length, hsize]
  rcases quicVarintSize_cases value with h | h | h | h
  · exact hform 0 0 h rfl
  · exact hform 1 1 h rfl
  · exact hform 3 2 h rfl
  · exact hform 7 3 h rfl

theorem encodeQuicVarint_ok {capacity value : Nat} (hvalue : value ≤ quicVarintMax)
    (hcapacity : quicVarintSize value ≤ capacity) : encodeQuicVarint capacity value = .ok (varintBytes value) := by
  rw [encodeQuicVarint, if_neg (by omega), if_neg (by omega)]

/-- A header is its two integers. -/
theorem encodeHttpCapsuleHeader_eq_ok_iff {capacity type length : Nat} {header : Bytes} :
    encodeHttpCapsuleHeader capacity type length = .ok header ↔
      type ≤ quicVarintMax ∧ length ≤ quicVarintMax ∧ quicVarintSize type + quicVarintSize length ≤ capacity ∧
        header = varintBytes type ++ varintBytes length := by
  rw [encodeHttpCapsuleHeader]
  split
  · rename_i hrange
    constructor
    · intro h
      cases h
    · rintro ⟨htype, hlength, -⟩
      omega
  · rename_i hrange
    split
    · constructor
      · intro h
        cases h
      · rintro ⟨-, -, hcapacity, -⟩
        omega
    · rw [encodeQuicVarint_ok (by omega) (by omega), encodeQuicVarint_ok (by omega) (by omega)]
      rw [Except.ok.injEq]
      constructor
      · intro h
        exact ⟨by omega, by omega, by omega, h.symm⟩
      · rintro ⟨-, -, -, h⟩
        exact h.symm

/-- A datagram capsule is the header of its value, and the value. -/
theorem planDatagramCapsule_eq_ok {payload contextPrefix : Bytes}
    (h : contextPrefix.length + payload.length ≤ quicVarintMax) :
    planDatagramCapsule payload contextPrefix =
      .ok { pref := varintBytes httpDatagramCapsuleType ++
              varintBytes (contextPrefix.length + payload.length) ++ contextPrefix
            payload := payload } := by
  have hsize := quicVarintSize_cases (contextPrefix.length + payload.length)
  have hheader : encodeHttpCapsuleHeader 24 httpDatagramCapsuleType (contextPrefix.length + payload.length) =
      .ok (varintBytes httpDatagramCapsuleType ++ varintBytes (contextPrefix.length + payload.length)) :=
    encodeHttpCapsuleHeader_eq_ok_iff.mpr ⟨by decide, h, by
      rw [show quicVarintSize httpDatagramCapsuleType = 1 from rfl]
      omega, rfl⟩
  rw [planDatagramCapsule, if_neg (by omega), hheader]

/-! ## The contract -/

theorem foldl_bytes_lt (bytes : Bytes) (start : Nat) :
    bytes.foldl (fun value byte => value <<< 8 ||| byte.toNat) start < (start + 1) * 256 ^ bytes.length := by
  induction bytes generalizing start with
  | nil => simp
  | cons byte bytes ih =>
    have hbyte := byte.toNat_lt
    rw [List.foldl_cons, List.length_cons, Nat.pow_succ, Nat.mul_comm _ 256, ← Nat.mul_assoc]
    refine (ih _).trans_le (Nat.mul_le_mul_right _ ?_)
    rw [shift_or]
    omega

theorem shortest_of_decode {input : Bytes} {varint : QuicVarint} (h : decodeQuicVarint input = .ok varint) :
    varint.value ≤ quicVarintMax ∧ quicVarintSize varint.value ≤ varint.encodedBytes := by
  cases input with
  | nil => cases h
  | cons first tail =>
    rw [decodeQuicVarint] at h
    split at h
    · cases h
    · rename_i hsize
      cases h
      have hlt := foldl_bytes_lt (tail.take (announcedSize first - 1)) (first.toNat &&& 0x3f)
      have hlow : first.toNat &&& 0x3f < 64 := Nat.and_lt_two_pow _ (by decide : 0x3f < 2 ^ 6)
      have hfour : announcedSize first = 1 ∨ announcedSize first = 2 ∨ announcedSize first = 4 ∨
          announcedSize first = 8 := by
        have hfirst := first.toNat_lt
        obtain h | h | h | h : first.toNat / 2 ^ 6 = 0 ∨ first.toNat / 2 ^ 6 = 1 ∨ first.toNat / 2 ^ 6 = 2 ∨
            first.toNat / 2 ^ 6 = 3 := by omega
        all_goals
          rw [announcedSize, Nat.shiftRight_eq_div_pow, h]
          decide
      have hfits : (first.toNat &&& 0x3f) + 1 ≤ 64 := hlow
      simp only [List.length_cons] at hsize
      rw [List.length_take, Nat.min_eq_left (by omega)] at hlt
      replace hlt := hlt.trans_le (Nat.mul_le_mul_right _ hfits)
      dsimp only
      generalize (tail.take (announcedSize first - 1)).foldl _ _ = value at hlt ⊢
      unfold quicVarintSize quicVarintMax
      simp only [Nat.shiftLeft_eq]
      rcases hfour with h | h | h | h <;> rw [h] at hlt ⊢ <;> constructor <;> first | omega | (split_ifs <;> omega)

/-- **The codec of QUIC integers**: a written integer is read back; what is read is in range, in no fewer bytes than
the writer takes, and decided by these bytes, every front of which is incomplete. -/
theorem quic_varint_codec :
    (∀ value ≤ quicVarintMax, ∀ rest,
      decodeQuicVarint (varintBytes value ++ rest) = .ok ⟨value, quicVarintSize value⟩) ∧
    ∀ input varint, decodeQuicVarint input = .ok varint →
      varint.value ≤ quicVarintMax ∧ quicVarintSize varint.value ≤ varint.encodedBytes ∧
      (∀ more, decodeQuicVarint (input.take varint.encodedBytes ++ more) = .ok varint) ∧
      ∀ n < varint.encodedBytes, decodeQuicVarint (input.take n) = .error .needMoreData := by
  refine ⟨fun value h rest => decode_encode h rest, fun input varint h => ?_⟩
  obtain ⟨hrange, hshort⟩ := shortest_of_decode h
  refine ⟨hrange, hshort, decode_append (decode_take h), fun n hn => ?_⟩
  cases input with
  | nil => cases h
  | cons first tail =>
    cases n with
    | zero => rfl
    | succ n =>
      rw [decodeQuicVarint] at h
      split at h <;> cases h
      rw [List.take_succ_cons, decodeQuicVarint, if_pos (by simp at hn ⊢; omega)]

end Ruvia.Http
