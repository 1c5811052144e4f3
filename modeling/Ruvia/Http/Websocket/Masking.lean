import Ruvia.Http.Syntax
import Mathlib.Data.Nat.Bitwise

/-!
# `Http.Websocket.Masking` — masking a payload a word at a time

`decode_masked_websocket_payload` of `http_websocket_frame_codec.h`. The key is repeated into wider words;
two word loops and a bytewise loop over the tail then mask the payload in place. A word is an integer,
loaded from and stored to the payload in the byte order of the host.

`decodeMaskedWebsocketPayload_eq`: for either byte order this is `xorMask`, the bytewise exclusive or with
the four-byte key repeated along the payload.
-/

namespace Ruvia.Http

open Library

/-! ## The loops -/

/-- The order in which a host keeps the bytes of an integer. -/
inductive ByteOrder where
  | little
  | big
  deriving DecidableEq, Repr

/-- The order of the hosts the SSE2 path is compiled for. No result depends on it. -/
def hostByteOrder : ByteOrder := .little

def loadLittle (bytes : Bytes) : Nat := bytes.foldr (fun byte word => byte.toNat + 256 * word) 0

def storeLittle : Nat → Nat → Bytes
  | 0, _ => []
  | size + 1, word => UInt8.ofNat (word % 256) :: storeLittle size (word / 256)

/-- `memcpy` of bytes into an integer. -/
def loadWord (order : ByteOrder) (bytes : Bytes) : Nat :=
  match order with
  | .little => loadLittle bytes
  | .big => loadLittle bytes.reverse

/-- `memcpy` of an integer into `size` bytes. -/
def storeWord (order : ByteOrder) (size word : Nat) : Bytes :=
  match order with
  | .little => storeLittle size word
  | .big => (storeLittle size word).reverse

theorem storeLittle_length (size word : Nat) : (storeLittle size word).length = size := by
  induction size generalizing word with
  | zero => rfl
  | succ size ih => simp only [storeLittle, List.length_cons, ih]

theorem storeWord_length (order : ByteOrder) (size word : Nat) : (storeWord order size word).length = size := by
  cases order with
  | little => exact storeLittle_length size word
  | big => rw [storeWord, List.length_reverse, storeLittle_length]

/-- The payload with the bytes from `i` on replaced. -/
def overwrite (payload : Bytes) (i : Nat) (bytes : Bytes) : Bytes :=
  payload.take i ++ bytes ++ payload.drop (i + bytes.length)

/-- One word loop: while a whole word is left behind `i`, it is loaded, masked and stored. The loop runs once
    with the sixteen-byte and once with the eight-byte repetition of the key. -/
def maskWordsFrom (order : ByteOrder) (key payload : Bytes) (i : Nat) : Bytes × Nat :=
  if 0 < key.length ∧ key.length ≤ payload.length - i then
    let word := loadWord order (sub payload i key.length) ^^^ loadWord order key
    maskWordsFrom order key (overwrite payload i (storeWord order key.length word)) (i + key.length)
  else (payload, i)
termination_by payload.length - i
decreasing_by
  simp only [overwrite, storeWord_length, List.length_append, List.length_take, List.length_drop]
  omega

/-- The bytewise loop over the tail. -/
def maskTailFrom (mask payload : Bytes) (i : Nat) : Bytes :=
  if i < payload.length then
    maskTailFrom mask (payload.set i (payload.getD i 0 ^^^ mask.getD (i &&& 3) 0)) (i + 1)
  else payload
termination_by payload.length - i
decreasing_by
  rw [List.length_set]
  omega

def decodeMaskedWebsocketPayload (order : ByteOrder) (payload mask : Bytes) : Bytes :=
  let keyBytes := mask ++ mask
  let (payload, i) := maskWordsFrom order (keyBytes ++ keyBytes) payload 0
  let (payload, i) := maskWordsFrom order keyBytes payload i
  maskTailFrom mask payload i

/-! ## Words -/

/-- The bytewise exclusive or with the key, repeated along the payload. -/
def xorMask (mask payload : Bytes) : Bytes :=
  payload.mapIdx fun i byte => byte ^^^ mask.getD (i % 4) 0

theorem storeLittle_xor (xs ys : Bytes) (h : xs.length = ys.length) :
    storeLittle xs.length (loadLittle xs ^^^ loadLittle ys) = List.zipWith (· ^^^ ·) xs ys := by
  induction xs generalizing ys with
  | nil => rfl
  | cons x xs ih =>
    obtain _ | ⟨y, ys⟩ := ys
    · simp at h
    · have hmod : ((x.toNat + 256 * loadLittle xs) ^^^ (y.toNat + 256 * loadLittle ys)) % 256 =
          x.toNat ^^^ y.toNat := by
        rw [show 256 = 2 ^ 8 from rfl, Nat.xor_mod_two_pow, Nat.add_mul_mod_self_left,
          Nat.add_mul_mod_self_left, Nat.mod_eq_of_lt x.toNat_lt, Nat.mod_eq_of_lt y.toNat_lt]
      have hdiv : ((x.toNat + 256 * loadLittle xs) ^^^ (y.toNat + 256 * loadLittle ys)) / 256 =
          loadLittle xs ^^^ loadLittle ys := by
        rw [show 256 = 2 ^ 8 from rfl, Nat.xor_div_two_pow, Nat.add_mul_div_left _ _ (by decide),
          Nat.add_mul_div_left _ _ (by decide), Nat.div_eq_of_lt x.toNat_lt, Nat.div_eq_of_lt y.toNat_lt,
          Nat.zero_add, Nat.zero_add]
      show UInt8.ofNat (((x.toNat + 256 * loadLittle xs) ^^^ (y.toNat + 256 * loadLittle ys)) % 256) ::
          storeLittle xs.length (((x.toNat + 256 * loadLittle xs) ^^^ (y.toNat + 256 * loadLittle ys)) / 256) =
        (x ^^^ y) :: List.zipWith (· ^^^ ·) xs ys
      rw [hmod, hdiv, ih ys (by simpa using h), ← UInt8.toNat_xor, UInt8.ofNat_toNat]

/-- A word is masked byte by byte, whatever the order the host keeps its bytes in. -/
theorem storeWord_xor (order : ByteOrder) (xs ys : Bytes) (h : xs.length = ys.length) :
    storeWord order xs.length (loadWord order xs ^^^ loadWord order ys) = List.zipWith (· ^^^ ·) xs ys := by
  cases order with
  | little => exact storeLittle_xor xs ys h
  | big =>
    have hrev := storeLittle_xor xs.reverse ys.reverse (by simpa using h)
    rw [List.length_reverse] at hrev
    unfold storeWord loadWord
    rw [hrev, List.reverse_zipWith (by simpa using h), List.reverse_reverse, List.reverse_reverse]

/-! ## The loops mask byte by byte -/

theorem xorMask_length (mask payload : Bytes) : (xorMask mask payload).length = payload.length :=
  List.length_mapIdx

theorem getElem?_xorMask (mask payload : Bytes) (i : Nat) :
    (xorMask mask payload)[i]? = payload[i]?.map (· ^^^ mask.getD (i % 4) 0) :=
  List.getElem?_mapIdx

/-- The loop invariant: the first `i` bytes are masked, the others are still the original ones. -/
def MaskedTo (mask original : Bytes) (i : Nat) (payload : Bytes) : Prop :=
  i ≤ original.length ∧ payload = (xorMask mask original).take i ++ original.drop i

variable {mask original payload : Bytes} {i : Nat}

section

variable (h : MaskedTo mask original i payload)
include h

theorem MaskedTo.length : payload.length = original.length := by
  obtain ⟨hle, rfl⟩ := h
  rw [List.length_append, List.length_take, List.length_drop, xorMask_length]
  omega

/-- The bytes behind the position. -/
theorem MaskedTo.drop : payload.drop i = original.drop i := by
  obtain ⟨hle, rfl⟩ := h
  apply List.drop_left'
  rw [List.length_take, xorMask_length]
  omega

theorem MaskedTo.take : payload.take i = (xorMask mask original).take i := by
  obtain ⟨hle, rfl⟩ := h
  apply List.take_left'
  rw [List.length_take, xorMask_length]
  omega

end

/-- `key` is a whole number of repetitions of the mask. -/
def Repeats (mask key : Bytes) : Prop :=
  4 ∣ key.length ∧ ∀ k < key.length, key[k]? = some (mask.getD (k % 4) 0)

theorem repeats_self (h : mask.length = 4) : Repeats mask mask := by
  refine ⟨by rw [h], ?_⟩
  intro k hk
  rw [List.getD_eq_getElem?_getD, Nat.mod_eq_of_lt (by omega), List.getElem?_eq_getElem hk]
  rfl

theorem Repeats.append {left right : Bytes} (hleft : Repeats mask left) (hright : Repeats mask right) :
    Repeats mask (left ++ right) := by
  obtain ⟨hlen, hat⟩ := hleft
  obtain ⟨hlen', hat'⟩ := hright
  rw [Repeats, List.length_append]
  refine ⟨by omega, ?_⟩
  intro k hk
  by_cases hlt : k < left.length
  · rw [List.getElem?_append_left hlt, hat k hlt]
  · have hmod : (k - left.length) % 4 = k % 4 := by omega
    rw [List.getElem?_append_right (by omega), hat' _ (by omega), hmod]

/-- Masking a word with repetitions of the key is masking its bytes in place. -/
theorem zipWith_key {key : Bytes} (hkey : Repeats mask key) (hi : 4 ∣ i) (hroom : i + key.length ≤ original.length) :
    List.zipWith (· ^^^ ·) (sub original i key.length) key = sub (xorMask mask original) i key.length := by
  apply List.ext_getElem?
  intro k
  rw [List.getElem?_zipWith, sub, sub]
  by_cases hk : k < key.length
  · rw [List.getElem?_take_of_lt hk, List.getElem?_take_of_lt hk, List.getElem?_drop, List.getElem?_drop,
      getElem?_xorMask, hkey.2 k hk, List.getElem?_eq_getElem (by omega)]
    have hmod : (i + k) % 4 = k % 4 := by omega
    rw [hmod]
    rfl
  · rw [List.getElem?_take, if_neg hk, List.getElem?_take, if_neg hk]

theorem maskWordsFrom_spec {order : ByteOrder} {mask key original payload : Bytes} {i : Nat}
    (hkey : Repeats mask key) (hi : 4 ∣ i) (h : MaskedTo mask original i payload) :
    MaskedTo mask original (maskWordsFrom order key payload i).2 (maskWordsFrom order key payload i).1 ∧
      4 ∣ (maskWordsFrom order key payload i).2 := by
  fun_induction maskWordsFrom order key payload i with
  | case1 payload i hroom word ih =>
    have hwidth := hkey.1
    apply ih (by omega)
    have hlen := h.length
    have hfit : i + key.length ≤ original.length := by omega
    have hsub : sub payload i key.length = sub original i key.length := by rw [sub, sub, h.drop]
    have hword : storeWord order key.length word = sub (xorMask mask original) i key.length := by
      rw [← zipWith_key hkey hi hfit, ← hsub, ← storeWord_xor order _ _ (by rw [length_sub]; omega), length_sub,
        Nat.min_eq_left (by omega)]
    refine ⟨hfit, ?_⟩
    rw [overwrite, hword, h.take, length_sub, xorMask_length, Nat.min_eq_left (by omega), List.take_add, sub]
    congr 1
    rw [← List.drop_drop, h.drop, List.drop_drop]
  | case2 payload i hroom => exact ⟨h, hi⟩

theorem maskTailFrom_spec (h : MaskedTo mask original i payload) :
    maskTailFrom mask payload i = xorMask mask original := by
  fun_induction maskTailFrom mask payload i with
  | case1 payload i hlt ih =>
    apply ih
    have hlen := h.length
    refine ⟨by omega, ?_⟩
    have hat : payload[i]? = original[i]? := by
      have hdrop := congrArg (·[0]?) h.drop
      simpa only [List.getElem?_drop, Nat.add_zero] using hdrop
    have hbyte : payload.getD i 0 = original[i] := by
      rw [List.getD_eq_getElem?_getD, hat, List.getElem?_eq_getElem (by omega)]
      rfl
    have hkey : i &&& 3 = i % 4 := Nat.and_two_pow_sub_one_eq_mod i 2
    rw [List.set_eq_take_append_cons_drop, if_pos hlt, h.take, ← List.drop_drop, h.drop, List.drop_drop,
      List.take_add_one, getElem?_xorMask, List.getElem?_eq_getElem (by omega), hbyte, hkey, List.append_assoc]
    rfl
  | case2 payload i hlt =>
    have hlen := h.length
    obtain ⟨hle, rfl⟩ := h
    have hi : i = original.length := by omega
    rw [hi, List.drop_length, List.append_nil, List.take_of_length_le (by rw [xorMask_length])]

/-- **Masking is the bytewise exclusive or with the key**, for every payload and either byte order. -/
theorem decodeMaskedWebsocketPayload_eq (order : ByteOrder) (payload mask : Bytes) (h : mask.length = 4) :
    decodeMaskedWebsocketPayload order payload mask = xorMask mask payload := by
  have hkey := (repeats_self h).append (repeats_self h)
  have hstart : MaskedTo mask payload 0 payload := ⟨Nat.zero_le _, rfl⟩
  -- sixteen bytes at a time, then eight, then one
  obtain ⟨hwide, hi⟩ := @maskWordsFrom_spec order _ _ _ _ _ (hkey.append hkey) (Nat.dvd_zero 4) hstart
  obtain ⟨hword, _⟩ := @maskWordsFrom_spec order _ _ _ _ _ hkey hi hwide
  exact maskTailFrom_spec hword

end Ruvia.Http
