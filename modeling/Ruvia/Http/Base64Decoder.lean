import Ruvia.Http.Base64Encoder

/-!
# `Http.Base64Decoder` — what the Base64 decoder accepts

The loop reads its quanta in front of what it writes (`decodeQuanta_spec`), and the characters that it accepts are those
of an encoding (`decodeData_eq_some_iff`), whose padding is exact (`base64DataSize_base64Text`, `base64Text_of_data`).
-/

namespace Ruvia.Http

open Library ByteMemory

/-! ## The decoder -/

section

variable {valueOf : UInt8 → Option Nat}

theorem length_decodeQuantum {a b c d : UInt8} {bytes : Bytes} (h : decodeQuantum valueOf a b c d = some bytes) :
    bytes.length = 3 := by
  unfold decodeQuantum at h
  simp only [Option.bind_eq_bind, Option.bind_eq_some_iff] at h
  obtain ⟨_, -, _, -, _, -, _, -, h⟩ := h
  rw [← Option.some.inj h]
  rfl

/-- The whole quanta of the characters, and what is left of these. -/
def decodeWhole (valueOf : UInt8 → Option Nat) : Bytes → Option (Bytes × Bytes)
  | a :: b :: c :: d :: rest => do
    let bytes ← decodeQuantum valueOf a b c d
    let (more, tail) ← decodeWhole valueOf rest
    return (bytes ++ more, tail)
  | tail => some ([], tail)

/-- **The loop** reads the whole quanta of the characters, when it starts behind what it has written. -/
theorem decodeQuanta_spec {data size output : Nat} {mem : ByteMemory} {inAt outAt : Nat} {rest : Bytes}
    (hload : mem.load (data + inAt) (size - inAt) = rest) (hin : inAt ≤ size) (hout : outAt ≤ inAt)
    (hplace : output ≤ data ∨ data + size ≤ output) :
    match decodeWhole valueOf rest with
    | none => (decodeQuanta valueOf data size output mem inAt outAt).1 = none
    | some (bytes, tail) => ∃ mem', decodeQuanta valueOf data size output mem inAt outAt =
        (some (size - tail.length, outAt + bytes.length), mem') ∧ tail.length ≤ size ∧
      mem'.load (output + outAt) bytes.length = bytes ∧
      mem'.load (data + (size - tail.length)) tail.length = tail ∧
      ∀ a, (a < output + outAt ∨ output + outAt + bytes.length ≤ a) → mem' a = mem a := by
  fun_induction decodeWhole valueOf rest generalizing mem inAt outAt with
  | case1 a b c d rest ih =>
    have hlength := congrArg List.length hload
    simp only [length_load, List.length_cons] at hlength
    rw [show size - inAt = rest.length + 1 + 1 + 1 + 1 by omega, load_succ, load_succ, load_succ, load_succ] at hload
    simp only [List.cons.injEq] at hload
    obtain ⟨ha, hb, hc, hd, hrest⟩ := hload
    rw [decodeQuanta, if_pos (by omega), ha, hb,
      show mem (data + inAt + 2) = c from hc, show mem (data + inAt + 3) = d from hd]
    cases hquantum : decodeQuantum valueOf a b c d with
    | none => rfl
    | some bytes =>
      have hbytes := length_decodeQuantum hquantum
      dsimp only [Option.bind_eq_bind, Option.bind_some]
      -- the characters that are still to be read are not written over
      have hkept : (mem.store (output + outAt) bytes).load (data + (inAt + 4)) (size - (inAt + 4)) = rest := by
        rw [load_store_apart (by unfold Apart; omega), show size - (inAt + 4) = rest.length by omega]
        exact hrest
      have hnext := @ih (mem.store (output + outAt) bytes) (inAt + 4) (outAt + 3) hkept (by omega) (by omega)
      cases hwhole : decodeWhole valueOf rest with
      | none =>
        rw [hwhole] at hnext
        exact hnext
      | some result =>
        obtain ⟨more, tail⟩ := result
        rw [hwhole] at hnext
        obtain ⟨mem', hstep, hle, hmore, htail, hframe⟩ := hnext
        refine ⟨mem', ?_, hle, ?_, htail, ?_⟩
        · rw [hstep, List.length_append, hbytes, Nat.add_assoc]
        · rw [List.length_append, load_add, hbytes, Nat.add_assoc, hmore]
          congr 1
          have hfirst : mem'.load (output + outAt) 3 = (mem.store (output + outAt) bytes).load (output + outAt) 3 := by
            apply load_congr
            intro i hi
            exact hframe _ (.inl (by omega))
          rw [hfirst, ← hbytes, load_store]
        · intro x hx
          simp only [List.length_append] at hx
          rw [hframe x (by omega)]
          exact store_outside (by omega)
  | case2 tail htail =>
    have hlength := congrArg List.length hload
    rw [length_load] at hlength
    have hshort : ¬4 ≤ size - inAt := by
      intro hlong
      rw [hlength] at hlong
      rcases tail with _ | ⟨a, _ | ⟨b, _ | ⟨c, _ | ⟨d, rest⟩⟩⟩⟩
      · exact absurd hlong (by decide)
      · exact absurd hlong (by simp)
      · exact absurd hlong (by simp)
      · exact absurd hlong (by simp)
      · exact htail a b c d rest rfl
    rw [decodeQuanta, if_neg hshort]
    have hin' : size - tail.length = inAt := by omega
    refine ⟨mem, by rw [hin']; rfl, by omega, rfl, ?_, fun _ _ => rfl⟩
    rw [hin', ← hlength]
    exact hload

theorem decodeWhole_length {data bytes tail : Bytes} (h : decodeWhole valueOf data = some (bytes, tail)) :
    bytes.length = data.length / 4 * 3 ∧ tail.length = data.length % 4 := by
  fun_induction decodeWhole valueOf data generalizing bytes tail with
  | case1 a b c d rest ih =>
    simp only [Option.bind_eq_bind, Option.bind_eq_some_iff] at h
    obtain ⟨first, hfirst, ⟨more, tail'⟩, hmore, heq⟩ := h
    cases heq
    obtain ⟨hlength, htail⟩ := ih hmore
    have hthree := length_decodeQuantum hfirst
    simp only [List.length_append, List.length_cons]
    omega
  | case2 data hshort =>
    cases h
    rcases data with _ | ⟨a, _ | ⟨b, _ | ⟨c, _ | ⟨d, rest⟩⟩⟩⟩
    · simp
    · simp
    · simp
    · simp
    · exact absurd rfl (hshort a b c d rest)

/-- A partial quantum, or none. -/
def decodeRest (valueOf : UInt8 → Option Nat) : Bytes → Option Bytes
  | [] => some []
  | [a, b] => decodeTail valueOf a b none
  | [a, b, c] => decodeTail valueOf a b (some c)
  | _ => none

/-- The bytes of the characters in front of the padding. -/
def decodeData (valueOf : UInt8 → Option Nat) (data : Bytes) : Option Bytes := do
  let (bytes, tail) ← decodeWhole valueOf data
  let more ← decodeRest valueOf tail
  return bytes ++ more

theorem decodeData_cons (a b c d : UInt8) (rest : Bytes) :
    decodeData valueOf (a :: b :: c :: d :: rest) =
      (decodeQuantum valueOf a b c d).bind fun bytes => (decodeData valueOf rest).map (bytes ++ ·) := by
  unfold decodeData
  rw [decodeWhole]
  cases decodeQuantum valueOf a b c d with
  | none => rfl
  | some bytes =>
    cases decodeWhole valueOf rest with
    | none => rfl
    | some result =>
      obtain ⟨more, tail⟩ := result
      cases hrest : decodeRest valueOf tail with
      | none | some last => simp [hrest]

end

section

variable (charset : HttpBase64Charset)

theorem toNat_ofNat_lt {n : Nat} (h : n < 256) : (UInt8.ofNat n).toNat = n := by
  exact Nat.mod_eq_of_lt h

/-- A whole quantum is the image of three bytes. -/
theorem decodeQuantum_eq_some_iff (a b c d : UInt8) (bytes : Bytes) :
    decodeQuantum charset.valueOf a b c d = some bytes ↔
      ∃ x y z, bytes = [x, y, z] ∧ [a, b, c, d] = base64Text charset .forbidden [x, y, z] := by
  unfold decodeQuantum
  simp only [Option.bind_eq_bind, Option.bind_eq_some_iff, valueOf_eq_some_iff, base64Text, List.cons.injEq, and_true]
  constructor
  · rintro ⟨first, ⟨hfirst, rfl⟩, second, ⟨hsecond, rfl⟩, third, ⟨hthird, rfl⟩, fourth, ⟨hfourth, rfl⟩, hbytes⟩
    refine ⟨_, _, _, (Option.some.inj hbytes).symm, ?_⟩
    have hx : (first <<< 2 ||| second >>> 4) = first * 4 + second / 16 := by
      rw [Nat.shiftRight_eq_div_pow, shiftLeft_or (by omega)]
      rfl
    have hy : (second <<< 4 ||| third >>> 2) = second * 16 + third / 4 := by
      rw [Nat.shiftRight_eq_div_pow, shiftLeft_or (by omega)]
      rfl
    have hz : (third <<< 6 ||| fourth) = third * 64 + fourth := shiftLeft_or hfourth third
    simp only [UInt8.toNat_ofNat']
    refine ⟨?_, ?_, ?_, ?_⟩
    all_goals
      congr 1
      omega
  · rintro ⟨x, y, z, rfl, rfl, rfl, rfl, rfl⟩
    have hx := x.toNat_lt
    have hy := y.toNat_lt
    have hz := z.toNat_lt
    refine ⟨x.toNat / 4, ⟨by omega, rfl⟩, x.toNat % 4 * 16 + y.toNat / 16, ⟨by omega, rfl⟩,
      y.toNat % 16 * 4 + z.toNat / 64, ⟨by omega, rfl⟩, z.toNat % 64, ⟨by omega, rfl⟩, ?_⟩
    simp only [Nat.shiftRight_eq_div_pow]
    rw [shiftLeft_or (by omega), shiftLeft_or (by omega), shiftLeft_or (by omega)]
    have hfirst : UInt8.ofNat (x.toNat / 4 * 2 ^ 2 + (x.toNat % 4 * 16 + y.toNat / 16) / 2 ^ 4) = x := by
      apply UInt8.toNat_inj.mp
      rw [UInt8.toNat_ofNat']
      omega
    have hsecond : UInt8.ofNat ((x.toNat % 4 * 16 + y.toNat / 16) * 2 ^ 4 +
        (y.toNat % 16 * 4 + z.toNat / 64) / 2 ^ 2) = y := by
      apply UInt8.toNat_inj.mp
      rw [UInt8.toNat_ofNat']
      omega
    have hthird : UInt8.ofNat ((y.toNat % 16 * 4 + z.toNat / 64) * 2 ^ 6 + z.toNat % 64) = z := by
      apply UInt8.toNat_inj.mp
      rw [UInt8.toNat_ofNat']
      omega
    rw [hfirst, hsecond, hthird]
    rfl

/-- Two characters with no unused bits are the image of one byte. -/
theorem decodeTail_none_eq_some_iff (a b : UInt8) (bytes : Bytes) :
    decodeTail charset.valueOf a b none = some bytes ↔
      ∃ x, bytes = [x] ∧ [a, b] = base64Text charset .forbidden [x] := by
  unfold decodeTail
  simp only [Option.bind_eq_bind, Option.bind_eq_some_iff, valueOf_eq_some_iff, base64Text, base64Padding,
    Nat.shiftRight_eq_div_pow, show (0x0f : Nat) = 2 ^ 4 - 1 from rfl, Nat.and_two_pow_sub_one_eq_mod]
  constructor
  · rintro ⟨first, ⟨hfirst, rfl⟩, second, ⟨hsecond, rfl⟩, hbytes⟩
    split at hbytes
    · cases hbytes
    rename_i hunused
    refine ⟨_, (Option.some.inj hbytes).symm, ?_⟩
    rw [shiftLeft_or (by omega), toNat_ofNat_lt (by omega)]
    have hx : (first * 2 ^ 2 + second / 2 ^ 4) / 4 = first := by omega
    have hy : (first * 2 ^ 2 + second / 2 ^ 4) % 4 * 16 = second := by omega
    rw [hx, hy]
    rfl
  · rintro ⟨x, rfl, hchars⟩
    have hx := x.toNat_lt
    obtain ⟨rfl, rfl⟩ := hchars
    refine ⟨x.toNat / 4, ⟨by omega, rfl⟩, x.toNat % 4 * 16, ⟨by omega, rfl⟩, ?_⟩
    rw [if_neg (by omega), shiftLeft_or (by omega)]
    have hbyte : UInt8.ofNat (x.toNat / 4 * 2 ^ 2 + x.toNat % 4 * 16 / 2 ^ 4) = x := by
      apply UInt8.toNat_inj.mp
      rw [UInt8.toNat_ofNat']
      omega
    rw [hbyte]

/-- Three characters with no unused bits are the image of two bytes. -/
theorem decodeTail_some_eq_some_iff (a b c : UInt8) (bytes : Bytes) :
    decodeTail charset.valueOf a b (some c) = some bytes ↔
      ∃ x y, bytes = [x, y] ∧ [a, b, c] = base64Text charset .forbidden [x, y] := by
  unfold decodeTail
  simp only [Option.bind_eq_bind, Option.bind_eq_some_iff, valueOf_eq_some_iff, base64Text, base64Padding,
    Nat.shiftRight_eq_div_pow, show (0x03 : Nat) = 2 ^ 2 - 1 from rfl, Nat.and_two_pow_sub_one_eq_mod]
  constructor
  · rintro ⟨first, ⟨hfirst, rfl⟩, second, ⟨hsecond, rfl⟩, third, ⟨hthird, rfl⟩, hbytes⟩
    split at hbytes
    · cases hbytes
    rename_i hunused
    refine ⟨_, _, (Option.some.inj hbytes).symm, ?_⟩
    rw [shiftLeft_or (by omega), shiftLeft_or (by omega), toNat_ofNat_lt (by omega), UInt8.toNat_ofNat']
    have h0 : (first * 2 ^ 2 + second / 2 ^ 4) / 4 = first := by omega
    have h1 : (first * 2 ^ 2 + second / 2 ^ 4) % 4 * 16 + (second * 2 ^ 4 + third / 2 ^ 2) % 2 ^ 8 / 16 = second := by
      omega
    have h2 : (second * 2 ^ 4 + third / 2 ^ 2) % 2 ^ 8 % 16 * 4 = third := by omega
    rw [h0, h1, h2]
    rfl
  · rintro ⟨x, y, rfl, hchars⟩
    have hx := x.toNat_lt
    have hy := y.toNat_lt
    obtain ⟨rfl, rfl, rfl⟩ := hchars
    refine ⟨x.toNat / 4, ⟨by omega, rfl⟩, x.toNat % 4 * 16 + y.toNat / 16, ⟨by omega, rfl⟩,
      y.toNat % 16 * 4, ⟨by omega, rfl⟩, ?_⟩
    rw [if_neg (by omega), shiftLeft_or (by omega), shiftLeft_or (by omega)]
    have hfirst : UInt8.ofNat (x.toNat / 4 * 2 ^ 2 + (x.toNat % 4 * 16 + y.toNat / 16) / 2 ^ 4) = x := by
      apply UInt8.toNat_inj.mp
      rw [UInt8.toNat_ofNat']
      omega
    have hsecond : UInt8.ofNat ((x.toNat % 4 * 16 + y.toNat / 16) * 2 ^ 4 + y.toNat % 16 * 4 / 2 ^ 2) = y := by
      apply UInt8.toNat_inj.mp
      rw [UInt8.toNat_ofNat']
      omega
    rw [hfirst, hsecond]

/-- **The decoder accepts the encodings**, each as the bytes that it is the encoding of. -/
theorem decodeData_eq_some_iff (data bytes : Bytes) :
    decodeData charset.valueOf data = some bytes ↔ data = base64Text charset .forbidden bytes := by
  fun_induction decodeWhole charset.valueOf data generalizing bytes with
  | case1 a b c d rest ih =>
    rw [decodeData_cons]
    simp only [Option.bind_eq_some_iff, Option.map_eq_some_iff, decodeQuantum_eq_some_iff, ih]
    constructor
    · rintro ⟨_, ⟨x, y, z, rfl, hchars⟩, more, hmore, rfl⟩
      simp only [base64Text, List.cons.injEq, and_true] at hchars
      obtain ⟨rfl, rfl, rfl, rfl⟩ := hchars
      rw [hmore]
      rfl
    · intro heq
      rcases bytes with _ | ⟨x, _ | ⟨y, _ | ⟨z, more⟩⟩⟩
      · simp [base64Text] at heq
      · simp [base64Text, base64Padding] at heq
      · simp [base64Text, base64Padding] at heq
      · simp only [base64Text, List.cons.injEq] at heq
        obtain ⟨rfl, rfl, rfl, rfl, hrest⟩ := heq
        exact ⟨_, ⟨x, y, z, rfl, rfl⟩, more, hrest, rfl⟩
  | case2 tail htail =>
    have hwhole : decodeData charset.valueOf tail = decodeRest charset.valueOf tail := by
      unfold decodeData
      rw [decodeWhole.eq_2 _ _ htail]
      cases hrest : decodeRest charset.valueOf tail <;> simp [hrest]
    rw [hwhole]
    rcases tail with _ | ⟨a, _ | ⟨b, _ | ⟨c, _ | ⟨d, rest⟩⟩⟩⟩
    · rcases bytes with _ | ⟨x, _ | ⟨y, _ | ⟨z, more⟩⟩⟩ <;> simp [decodeRest, base64Text, base64Padding]
    · rcases bytes with _ | ⟨x, _ | ⟨y, _ | ⟨z, more⟩⟩⟩ <;> simp [decodeRest, base64Text, base64Padding]
    · rw [decodeRest, decodeTail_none_eq_some_iff]
      rcases bytes with _ | ⟨x, _ | ⟨y, _ | ⟨z, more⟩⟩⟩ <;> simp [base64Text, base64Padding]
    · rw [decodeRest, decodeTail_some_eq_some_iff]
      rcases bytes with _ | ⟨x, _ | ⟨y, _ | ⟨z, more⟩⟩⟩ <;> simp [base64Text, base64Padding]
    · exact absurd rfl (htail a b c d rest)

end

/-! ## The padding -/

section

variable (charset : HttpBase64Charset) (padding : HttpBase64Padding)

theorem base64Text_required (bytes : Bytes) :
    base64Text charset .required bytes =
      base64Text charset .forbidden bytes ++ List.replicate ((3 - bytes.length % 3) % 3) base64Pad := by
  fun_induction base64Text charset .required bytes with
  | case1 | case2 a | case3 a b => rfl
  | case4 a b c rest ih =>
    have hlength : (3 - (a :: b :: c :: rest).length % 3) % 3 = (3 - rest.length % 3) % 3 := by
      simp only [List.length_cons]
      omega
    rw [ih, hlength]
    rfl

theorem pad_not_mem_base64Text (bytes : Bytes) : base64Pad ∉ base64Text charset .forbidden bytes := by
  fun_induction base64Text charset .forbidden bytes with
  | case1 => exact List.not_mem_nil
  | case2 a =>
    have ha := a.toNat_lt
    simp only [base64Padding, reduceCtorEq, if_false, List.append_nil, List.mem_cons, List.not_mem_nil, or_false,
      not_or]
    exact ⟨(digit_ne_pad charset (by omega)).symm, (digit_ne_pad charset (by omega)).symm⟩
  | case3 a b =>
    have ha := a.toNat_lt
    have hb := b.toNat_lt
    simp only [base64Padding, reduceCtorEq, if_false, List.append_nil, List.mem_cons, List.not_mem_nil, or_false,
      not_or]
    exact ⟨(digit_ne_pad charset (by omega)).symm, (digit_ne_pad charset (by omega)).symm,
      (digit_ne_pad charset (by omega)).symm⟩
  | case4 a b c rest ih =>
    have ha := a.toNat_lt
    have hb := b.toNat_lt
    have hc := c.toNat_lt
    simp only [List.mem_cons, not_or]
    exact ⟨(digit_ne_pad charset (by omega)).symm, (digit_ne_pad charset (by omega)).symm,
      (digit_ne_pad charset (by omega)).symm, (digit_ne_pad charset (by omega)).symm, ih⟩

/-- The size in front of the padding of a text that has none inside. -/
theorem unpaddedSize_append {data : Bytes} (h : base64Pad ∉ data) {pads : Nat} (hpads : pads ≤ 2) :
    unpaddedSize (data ++ List.replicate pads base64Pad) = data.length := by
  unfold unpaddedSize
  have hinner : ∀ front, front ++ [base64Pad] ≠ data := by
    rintro front rfl
    exact h (List.mem_append_right front List.mem_cons_self)
  rcases (by omega : pads = 0 ∨ pads = 1 ∨ pads = 2) with rfl | rfl | rfl
  · rw [List.replicate_zero, List.append_nil]
    have htwo : ¬[base64Pad, base64Pad] <:+ data := fun hsuffix => h (hsuffix.subset List.mem_cons_self)
    have hone : ¬[base64Pad] <:+ data := fun hsuffix => h (hsuffix.subset List.mem_cons_self)
    rw [if_neg htwo, if_neg hone]
  · have htwo : ¬[base64Pad, base64Pad] <:+ data ++ List.replicate 1 base64Pad := by
      rintro ⟨front, hfront⟩
      refine hinner front (List.append_inj' (?_ : front ++ [base64Pad] ++ [base64Pad] = data ++ [base64Pad]) rfl).1
      rw [List.append_assoc]
      exact hfront
    have hone : [base64Pad] <:+ data ++ List.replicate 1 base64Pad := ⟨data, rfl⟩
    rw [if_neg htwo, if_pos hone, List.length_append, List.length_replicate, Nat.add_sub_cancel]
  · have htwo : [base64Pad, base64Pad] <:+ data ++ List.replicate 2 base64Pad := ⟨data, rfl⟩
    rw [if_pos htwo, List.length_append, List.length_replicate, Nat.add_sub_cancel]

/-- The padding of an encoding is exact. -/
theorem base64DataSize_base64Text (bytes : Bytes) :
    base64DataSize padding (base64Text charset padding bytes) =
      some (base64Text charset .forbidden bytes).length := by
  cases padding with
  | forbidden => rfl
  | required =>
    have hlength := length_base64Text charset .forbidden bytes
    simp only [groupWidth, reduceCtorEq, if_false] at hlength
    have htotal : (base64Text charset .forbidden bytes).length + (3 - bytes.length % 3) % 3 =
        (bytes.length + 2) / 3 * 4 := by
      split at hlength <;> omega
    rw [base64Text_required]
    unfold base64DataSize
    rw [if_pos rfl, unpaddedSize_append (pad_not_mem_base64Text charset bytes) (by omega), List.length_append,
      List.length_replicate, if_neg (by omega), if_neg (by omega)]

theorem unpaddedSize_spec (text : Bytes) :
    ∃ pads, text = text.take (unpaddedSize text) ++ List.replicate pads base64Pad ∧
      unpaddedSize text + pads = text.length ∧ pads ≤ 2 := by
  unfold unpaddedSize
  by_cases htwo : [base64Pad, base64Pad] <:+ text
  · rw [if_pos htwo]
    obtain ⟨front, rfl⟩ := htwo
    refine ⟨2, ?_, by simp, le_rfl⟩
    rw [List.length_append, List.length_cons, List.length_singleton, Nat.add_sub_cancel, List.take_left]
    rfl
  rw [if_neg htwo]
  by_cases hone : [base64Pad] <:+ text
  · rw [if_pos hone]
    obtain ⟨front, rfl⟩ := hone
    refine ⟨1, ?_, by simp, by decide⟩
    rw [List.length_append, List.length_singleton, Nat.add_sub_cancel, List.take_left]
    rfl
  · rw [if_neg hone]
    exact ⟨0, by simp, rfl, by decide⟩

/-- What stands behind the characters is padding, which fills the last quantum. -/
theorem base64DataSize_eq_some {text : Bytes} {dataSize : Nat} (h : base64DataSize padding text = some dataSize) :
    ∃ pads, text = text.take dataSize ++ List.replicate pads base64Pad ∧ dataSize + pads = text.length ∧
      pads ≤ 2 ∧ (padding = .required → text.length % 4 = 0) ∧ (padding = .forbidden → pads = 0) := by
  unfold base64DataSize at h
  cases padding with
  | forbidden =>
    obtain rfl := Option.some.inj h
    exact ⟨0, by simp, rfl, by decide, HttpBase64Padding.noConfusion, fun _ => rfl⟩
  | required =>
    rw [if_pos rfl] at h
    obtain ⟨pads, htext, hsize, hpads⟩ := unpaddedSize_spec text
    by_cases hmod : text.length % 4 = 0
    · rw [if_neg (not_not.mpr hmod)] at h
      split at h
      · cases h
      · obtain rfl := Option.some.inj h
        exact ⟨pads, htext, hsize, hpads, fun _ => hmod, HttpBase64Padding.noConfusion⟩
    · rw [if_pos hmod] at h
      cases h

/-- **The encoding behind its padding.** -/
theorem base64Text_of_data {text bytes : Bytes} {dataSize : Nat} (h : base64DataSize padding text = some dataSize)
    (hdata : text.take dataSize = base64Text charset .forbidden bytes) : text = base64Text charset padding bytes := by
  obtain ⟨pads, htext, hsize, hpads, hrequired, hforbidden⟩ := base64DataSize_eq_some padding h
  have hlength := length_base64Text charset .forbidden bytes
  have htake : (text.take dataSize).length = dataSize := by
    rw [List.length_take]
    omega
  rw [← hdata, htake] at hlength
  cases padding with
  | forbidden =>
    rw [hforbidden rfl, List.replicate_zero, List.append_nil] at htext
    rw [htext]
    exact hdata
  | required =>
    have hmod := hrequired rfl
    have hcount : pads = (3 - bytes.length % 3) % 3 := by
      simp only [groupWidth, reduceCtorEq, if_false] at hlength
      split at hlength <;> omega
    rw [base64Text_required, ← hdata, ← hcount]
    exact htext

end

/-! ## The two functions -/

section

variable {mem : ByteMemory} {input size output outputSize dataSize : Nat} {charset : HttpBase64Charset}
  {padding : HttpBase64Padding} {bytes : Bytes}

theorem load_store_append {more : Bytes} (hload : mem.load output bytes.length = bytes) :
    (mem.store (output + bytes.length) more).load output (bytes ++ more).length = bytes ++ more := by
  rw [List.length_append, load_add, load_store, load_store_apart (.inl le_rfl), hload]

theorem frame_store_append {mem' : ByteMemory} {more : Bytes}
    (hframe : ∀ a, (a < output ∨ output + bytes.length ≤ a) → mem' a = mem a) :
    ∀ a, (a < output ∨ output + (bytes ++ more).length ≤ a) →
      mem'.store (output + bytes.length) more a = mem a := by
  intro a ha
  rw [List.length_append] at ha
  rw [store_outside (by omega)]
  exact hframe a (by omega)

/-- The decoder on a text of the right length, whose output has room and a place that is not refused. -/
theorem httpBase64Decode_of_place (hsize : base64DataSize padding (mem.load input size) = some dataSize)
    (hlength : dataSize % 4 ≠ 1) (hroom : httpBase64DecodedSizeBound dataSize ≤ outputSize)
    (hplace : output ≤ input ∨ input + dataSize ≤ output) :
    match decodeData charset.valueOf (mem.load input dataSize) with
    | none => (httpBase64Decode mem input size output outputSize charset padding).1 = none
    | some bytes => ∃ mem', httpBase64Decode mem input size output outputSize charset padding =
        (some bytes.length, mem') ∧ mem'.load output bytes.length = bytes ∧
          ∀ a, (a < output ∨ output + bytes.length ≤ a) → mem' a = mem a := by
  have hquanta := @decodeQuanta_spec charset.valueOf input dataSize output mem 0 0 _ rfl (Nat.zero_le _) (Nat.le_refl _)
    hplace
  unfold httpBase64Decode
  rw [hsize]
  dsimp only
  rw [if_neg hlength, if_neg (Nat.not_lt.mpr hroom), if_neg (by omega)]
  unfold decodeData
  simp only [Nat.add_zero, Nat.sub_zero, Nat.zero_add] at hquanta
  cases hwhole : decodeWhole charset.valueOf (mem.load input dataSize) with
  | none =>
    rw [hwhole] at hquanta
    generalize decodeQuanta charset.valueOf input dataSize output mem 0 0 = result at hquanta
    obtain ⟨result, mem'⟩ := result
    obtain rfl : result = none := hquanta
    rfl
  | some result =>
    obtain ⟨bytes, tail⟩ := result
    obtain ⟨hbytes, htail⟩ := decodeWhole_length hwhole
    rw [length_load] at hbytes htail
    rw [hwhole] at hquanta
    obtain ⟨mem', hloop, hle, hload, hrest, hframe⟩ := hquanta
    rw [hloop]
    dsimp only [Option.bind_eq_bind, Option.bind_some]
    rcases tail with _ | ⟨a, _ | ⟨b, _ | ⟨c, _ | ⟨d, rest⟩⟩⟩⟩
    · -- no partial quantum
      have hmod : dataSize % 4 = 0 := htail.symm
      rw [if_pos hmod]
      refine ⟨mem', ?_, ?_, ?_⟩
      · simp
      · simpa [decodeRest] using hload
      · simpa [decodeRest] using hframe
    · exact absurd htail.symm hlength
    · have hmod : dataSize % 4 = 2 := htail.symm
      rw [show [a, b].length = 1 + 1 from rfl, load_succ, load_succ] at hrest
      simp only [List.cons.injEq] at hrest
      obtain ⟨ha, hb, -⟩ := hrest
      rw [if_neg (by omega), if_neg (by omega), show [a, b].length = 1 + 1 from rfl, ha, hb]
      cases hlast : decodeTail charset.valueOf a b none with
      | none =>
        rw [decodeRest, hlast]
        rfl
      | some more =>
        rw [decodeRest, hlast]
        exact ⟨_, by rw [List.length_append], load_store_append hload, frame_store_append hframe⟩
    · have hmod : dataSize % 4 = 3 := htail.symm
      rw [show [a, b, c].length = 1 + 1 + 1 from rfl, load_succ, load_succ, load_succ] at hrest
      simp only [List.cons.injEq] at hrest
      obtain ⟨ha, hb, hc, -⟩ := hrest
      rw [if_neg (by omega), if_pos hmod, show [a, b, c].length = 1 + 1 + 1 from rfl, ha, hb,
        show mem' (input + (dataSize - (1 + 1 + 1)) + 2) = c from hc]
      cases hlast : decodeTail charset.valueOf a b (some c) with
      | none =>
        rw [decodeRest, hlast]
        rfl
      | some more =>
        rw [decodeRest, hlast]
        exact ⟨_, by rw [List.length_append], load_store_append hload, frame_store_append hframe⟩
    · simp only [List.length_cons] at htail
      omega

theorem httpBase64DecodedSizeBound_base64Text (charset : HttpBase64Charset) (bytes : Bytes) :
    httpBase64DecodedSizeBound (base64Text charset .forbidden bytes).length = bytes.length ∧
      (base64Text charset .forbidden bytes).length % 4 ≠ 1 := by
  have hlength := length_base64Text charset .forbidden bytes
  simp only [groupWidth, reduceCtorEq, if_false] at hlength
  unfold httpBase64DecodedSizeBound
  constructor
  · split at hlength <;> split <;> omega
  · split at hlength <;> omega

theorem take_base64Text (charset : HttpBase64Charset) (padding : HttpBase64Padding) (bytes : Bytes) :
    (base64Text charset padding bytes).take (base64Text charset .forbidden bytes).length =
      base64Text charset .forbidden bytes := by
  cases padding with
  | forbidden => exact List.take_length
  | required =>
    rw [base64Text_required]
    exact List.take_left

/-- **An encoding is decoded** to the bytes that it is the encoding of. -/
theorem httpBase64Decode_base64Text (htext : mem.load input size = base64Text charset padding bytes)
    (hroom : bytes.length ≤ outputSize)
    (hplace : output ≤ input ∨ input + (base64Text charset .forbidden bytes).length ≤ output) :
    ∃ mem', httpBase64Decode mem input size output outputSize charset padding = (some bytes.length, mem') ∧
      mem'.load output bytes.length = bytes ∧ ∀ a, (a < output ∨ output + bytes.length ≤ a) → mem' a = mem a := by
  obtain ⟨hbound, hlength⟩ := httpBase64DecodedSizeBound_base64Text charset bytes
  have hsize := base64DataSize_base64Text charset padding bytes
  rw [← htext] at hsize
  have hle : (base64Text charset .forbidden bytes).length ≤ size := by
    obtain ⟨pads, -, hpads, -⟩ := base64DataSize_eq_some padding hsize
    rw [length_load] at hpads
    omega
  have hdecode := @httpBase64Decode_of_place mem input size output outputSize _ charset padding hsize hlength
    (hbound.le.trans hroom) hplace
  rw [← take_load hle, htext, take_base64Text, (decodeData_eq_some_iff charset _ bytes).mpr rfl] at hdecode
  exact hdecode

/-- **What is decoded is an encoding.** -/
theorem httpBase64Decode_eq_some {n : Nat} {mem' : ByteMemory}
    (h : httpBase64Decode mem input size output outputSize charset padding = (some n, mem')) :
    ∃ bytes, mem.load input size = base64Text charset padding bytes ∧ bytes.length = n ∧ n ≤ outputSize ∧
      mem'.load output n = bytes := by
  cases hsize : base64DataSize padding (mem.load input size) with
  | none =>
    unfold httpBase64Decode at h
    rw [hsize] at h
    cases h
  | some dataSize =>
    by_cases hok : dataSize % 4 ≠ 1 ∧ httpBase64DecodedSizeBound dataSize ≤ outputSize ∧
        (output ≤ input ∨ input + dataSize ≤ output)
    · obtain ⟨hlength, hroom, hplace⟩ := hok
      have hdecode := @httpBase64Decode_of_place mem input size output outputSize _ charset padding hsize hlength hroom
        hplace
      rw [h] at hdecode
      cases hdata : decodeData charset.valueOf (mem.load input dataSize) with
      | none =>
        rw [hdata] at hdecode
        cases hdecode
      | some bytes =>
        rw [hdata] at hdecode
        obtain ⟨after, heq, hload, -⟩ := hdecode
        cases heq
        have htext := (decodeData_eq_some_iff charset _ bytes).mp hdata
        have hle : dataSize ≤ size := by
          obtain ⟨pads, -, hpads, -⟩ := base64DataSize_eq_some padding hsize
          rw [length_load] at hpads
          omega
        have hbound := (httpBase64DecodedSizeBound_base64Text charset bytes).1
        rw [← htext, length_load] at hbound
        refine ⟨bytes, ?_, rfl, hbound ▸ hroom, hload⟩
        refine base64Text_of_data charset padding hsize ?_
        rw [take_load hle]
        exact htext
    · unfold httpBase64Decode at h
      rw [hsize] at h
      dsimp only at h
      by_cases hlength : dataSize % 4 = 1
      · rw [if_pos hlength] at h
        cases h
      rw [if_neg hlength] at h
      by_cases hroom : outputSize < httpBase64DecodedSizeBound dataSize
      · rw [if_pos hroom] at h
        cases h
      rw [if_neg hroom, if_pos (by omega)] at h
      cases h

/-- An output that starts inside the characters, behind the first one, is refused before anything is written. -/
theorem httpBase64Decode_inside (hsize : base64DataSize padding (mem.load input size) = some dataSize)
    (hbehind : input < output) (hinside : output < input + dataSize) :
    httpBase64Decode mem input size output outputSize charset padding = (none, mem) := by
  unfold httpBase64Decode
  rw [hsize]
  dsimp only
  split
  · rfl
  split
  · rfl
  rw [if_pos (by omega)]

end

/-- **The Base64 codec**, in either alphabet and with padding or without it. For every placement of the two buffers the
encoder writes the encoding of its input, in the size computed beforehand. For every placement that the decoder does not
refuse it reads an encoding back in a large enough output, and it accepts nothing else; one that it refuses leaves the
memory. -/
theorem http_base64_codec (charset : HttpBase64Charset) (padding : HttpBase64Padding) :
    (∀ (mem : ByteMemory) (output input size : Nat),
      (httpBase64Encode mem output input size charset padding).load output
          (base64Text charset padding (mem.load input size)).length =
        base64Text charset padding (mem.load input size) ∧
      ∀ a, (a < output ∨ output + (base64Text charset padding (mem.load input size)).length ≤ a) →
        httpBase64Encode mem output input size charset padding a = mem a) ∧
    (∀ (bytes : Bytes) (n : Nat), httpBase64EncodedSize bytes.length padding = some n →
      (base64Text charset padding bytes).length = n) ∧
    (∀ (mem : ByteMemory) (input size output outputSize : Nat) (bytes : Bytes),
      mem.load input size = base64Text charset padding bytes → bytes.length ≤ outputSize →
      (output ≤ input ∨ input + (base64Text charset .forbidden bytes).length ≤ output) →
      ∃ mem', httpBase64Decode mem input size output outputSize charset padding = (some bytes.length, mem') ∧
        mem'.load output bytes.length = bytes ∧
          ∀ a, (a < output ∨ output + bytes.length ≤ a) → mem' a = mem a) ∧
    (∀ (mem : ByteMemory) (input size output outputSize n : Nat) (mem' : ByteMemory),
      httpBase64Decode mem input size output outputSize charset padding = (some n, mem') →
      ∃ bytes, mem.load input size = base64Text charset padding bytes ∧ bytes.length = n ∧ n ≤ outputSize ∧
        mem'.load output n = bytes) ∧
    (∀ (mem : ByteMemory) (input size output outputSize dataSize : Nat),
      base64DataSize padding (mem.load input size) = some dataSize → input < output → output < input + dataSize →
      httpBase64Decode mem input size output outputSize charset padding = (none, mem)) := by
  refine ⟨httpBase64Encode_spec charset padding, fun bytes n => httpBase64EncodedSize_eq_some charset,
    fun mem input size output outputSize bytes => httpBase64Decode_base64Text,
    fun mem input size output outputSize n mem' => httpBase64Decode_eq_some,
    fun mem input size output outputSize dataSize => httpBase64Decode_inside⟩

/-- Four characters that are decoded in place. -/
def encodedInPlace : ByteMemory := ByteMemory.store (fun _ => 0) 10 (lit "Zm8=")

theorem http_base64_codec_in_place :
    ∃ mem', httpBase64Decode encodedInPlace 10 4 10 2 .standard .required = (some 2, mem') ∧
      mem'.load 10 2 = lit "fo" := by
  obtain ⟨mem', hdecode, hload, -⟩ := (http_base64_codec .standard .required).2.2.1 encodedInPlace 10 4 10 2 (lit "fo")
    (by decide) (by decide) (.inl le_rfl)
  exact ⟨mem', hdecode, hload⟩

end Ruvia.Http
