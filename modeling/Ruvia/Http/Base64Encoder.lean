import Mathlib.Tactic.Ring
import Ruvia.Http.Base64

/-!
# `Http.Base64Encoder` — what the Base64 encoder writes

The characters of a group are those of the encoding (`encodeGroup_three` and its two partial cases), and the groups are
taken in an order in which none is overwritten before its turn (`pairwise_groupOrder`). So the encoder writes the text
of its input for every placement of the output (`httpBase64Encode_spec`).
-/

namespace Ruvia.Http

open Library ByteMemory

/-! ## Characters and values -/

/-- The value of a character, and the character of a value. -/
theorem valueOf_eq_some_iff (charset : HttpBase64Charset) (c : UInt8) (value : Nat) :
    charset.valueOf c = some value ↔ value < 64 ∧ charset.digit value = c := by
  have hforward : ∀ charset : HttpBase64Charset, (∀ c : UInt8, ∀ value, charset.valueOf c = some value →
      value < 64 ∧ charset.digit value = c) := by
    have hall : ∀ n : Fin 256, ∀ charset ∈ [HttpBase64Charset.standard, .urlSafe],
        (charset.valueOf (UInt8.ofNat n)).all fun value =>
          decide (value < 64 ∧ charset.digit value = UInt8.ofNat n) := by
      decide +kernel
    intro charset c value hvalue
    have hc := hall ⟨c.toNat, c.toNat_lt⟩ charset (by cases charset <;> simp)
    rw [UInt8.ofNat_toNat, hvalue] at hc
    exact of_decide_eq_true hc
  have hback : ∀ charset : HttpBase64Charset, ∀ value : Fin 64,
      charset.valueOf (charset.digit value) = some value.val := by
    intro charset
    cases charset <;> decide +kernel
  constructor
  · exact hforward charset c value
  · rintro ⟨hlt, rfl⟩
    exact hback charset ⟨value, hlt⟩

theorem digit_ne_pad (charset : HttpBase64Charset) {value : Nat} (h : value < 64) :
    charset.digit value ≠ base64Pad := by
  intro heq
  have hvalue := (valueOf_eq_some_iff charset base64Pad value).mpr ⟨h, heq⟩
  have hnone : charset.valueOf base64Pad = none := by
    cases charset <;> decide
  rw [hnone] at hvalue
  cases hvalue

/-- A shift and a disjoint number below it. -/
theorem shiftLeft_or {low i : Nat} (h : low < 2 ^ i) (high : Nat) : high <<< i ||| low = high * 2 ^ i + low := by
  rw [← Nat.shiftLeft_add_eq_or_of_lt h, Nat.shiftLeft_eq]

/-! ## The encoder -/

section

variable (charset : HttpBase64Charset) (padding : HttpBase64Padding)

theorem encodeGroup_one (a : UInt8) : encodeGroup charset padding [a] = base64Text charset padding [a] := by
  have ha := a.toNat_lt
  have hvalue : groupValue [a] = a.toNat * 65536 := by
    simp [groupValue, Nat.shiftLeft_eq]
  unfold encodeGroup
  rw [hvalue]
  simp only [Nat.shiftRight_eq_div_pow, show (0x3f : Nat) = 2 ^ 6 - 1 from rfl, Nat.and_two_pow_sub_one_eq_mod]
  have h0 : a.toNat * 65536 / 2 ^ 18 % 2 ^ 6 = a.toNat / 4 := by omega
  have h1 : a.toNat * 65536 / 2 ^ 12 % 2 ^ 6 = a.toNat % 4 * 16 := by omega
  rw [h0, h1]
  cases padding <;> rfl

theorem encodeGroup_two (a b : UInt8) : encodeGroup charset padding [a, b] = base64Text charset padding [a, b] := by
  have ha := a.toNat_lt
  have hb := b.toNat_lt
  have hvalue : groupValue [a, b] = a.toNat * 65536 + b.toNat * 256 := by
    have hlow : b.toNat <<< 8 < 2 ^ 16 := by
      omega
    show a.toNat <<< 16 ||| b.toNat <<< 8 = _
    rw [shiftLeft_or hlow, Nat.shiftLeft_eq]
    rfl
  unfold encodeGroup
  rw [hvalue]
  simp only [Nat.shiftRight_eq_div_pow, show (0x3f : Nat) = 2 ^ 6 - 1 from rfl, Nat.and_two_pow_sub_one_eq_mod]
  have h0 : (a.toNat * 65536 + b.toNat * 256) / 2 ^ 18 % 2 ^ 6 = a.toNat / 4 := by omega
  have h1 : (a.toNat * 65536 + b.toNat * 256) / 2 ^ 12 % 2 ^ 6 = a.toNat % 4 * 16 + b.toNat / 16 := by omega
  have h2 : (a.toNat * 65536 + b.toNat * 256) / 2 ^ 6 % 2 ^ 6 = b.toNat % 16 * 4 := by omega
  rw [h0, h1, h2]
  cases padding <;> rfl

theorem encodeGroup_three (a b c : UInt8) :
    encodeGroup charset padding [a, b, c] =
      [charset.digit (a.toNat / 4), charset.digit (a.toNat % 4 * 16 + b.toNat / 16),
        charset.digit (b.toNat % 16 * 4 + c.toNat / 64), charset.digit (c.toNat % 64)] := by
  have ha := a.toNat_lt
  have hb := b.toNat_lt
  have hc := c.toNat_lt
  have hvalue : groupValue [a, b, c] = a.toNat * 65536 + b.toNat * 256 + c.toNat := by
    have hlow : b.toNat <<< 8 < 2 ^ 16 := by
      rw [Nat.shiftLeft_eq]
      omega
    show a.toNat <<< 16 ||| b.toNat <<< 8 ||| c.toNat = _
    rw [shiftLeft_or hlow, Nat.shiftLeft_eq, show a.toNat * 2 ^ 16 + b.toNat * 2 ^ 8 =
      (a.toNat * 256 + b.toNat) <<< 8 by rw [Nat.shiftLeft_eq]; ring, shiftLeft_or hc]
    ring
  unfold encodeGroup
  rw [hvalue]
  simp only [Nat.shiftRight_eq_div_pow, show (0x3f : Nat) = 2 ^ 6 - 1 from rfl, Nat.and_two_pow_sub_one_eq_mod]
  have h0 : (a.toNat * 65536 + b.toNat * 256 + c.toNat) / 2 ^ 18 % 2 ^ 6 = a.toNat / 4 := by omega
  have h1 : (a.toNat * 65536 + b.toNat * 256 + c.toNat) / 2 ^ 12 % 2 ^ 6 = a.toNat % 4 * 16 + b.toNat / 16 := by omega
  have h2 : (a.toNat * 65536 + b.toNat * 256 + c.toNat) / 2 ^ 6 % 2 ^ 6 = b.toNat % 16 * 4 + c.toNat / 64 := by omega
  have h3 : (a.toNat * 65536 + b.toNat * 256 + c.toNat) % 2 ^ 6 = c.toNat % 64 := by omega
  rw [h0, h1, h2, h3]
  rfl

/-- How many characters a group of so many bytes takes. -/
def groupWidth (bytes : Nat) : Nat := if padding = .required then 4 else bytes + 1

theorem length_encodeGroup (bytes : Bytes) (h : bytes.length = 1 ∨ bytes.length = 2 ∨ bytes.length = 3) :
    (encodeGroup charset padding bytes).length = groupWidth padding bytes.length := by
  unfold encodeGroup groupWidth
  rcases h with h | h | h <;> rw [h] <;> cases padding <;> simp

/-- The characters of the whole text. -/
theorem length_base64Text (text : Bytes) :
    (base64Text charset padding text).length = text.length / 3 * 4 +
      if text.length % 3 = 0 then 0 else groupWidth padding (text.length % 3) := by
  fun_induction base64Text charset padding text with
  | case1 => rfl
  | case2 a | case3 a b => cases padding <;> simp [base64Padding, groupWidth]
  | case4 a b c rest ih =>
    have hdiv : (rest.length + 3) / 3 = rest.length / 3 + 1 := by omega
    have hmod : (rest.length + 3) % 3 = rest.length % 3 := by omega
    simp only [List.length_cons, ih, hdiv, hmod]
    omega

theorem httpBase64EncodedSize_eq_some {padding : HttpBase64Padding} {text : Bytes} {size : Nat}
    (h : httpBase64EncodedSize text.length padding = some size) :
    (base64Text charset padding text).length = size := by
  rw [length_base64Text, groupWidth]
  unfold httpBase64EncodedSize at h
  dsimp only at h
  generalize (if text.length % 3 = 0 then 0 else if padding = .required then 4 else text.length % 3 + 1) = tail at h ⊢
  split at h
  · cases h
  · exact Option.some.inj h

/-- **Groups at their places** are the text. -/
theorem load_groups {mem : ByteMemory} {start : Nat} {text : Bytes}
    (h : ∀ i, 3 * i < text.length → mem.load (start + i * 4) (groupWidth padding (min (text.length - i * 3) 3)) =
      encodeGroup charset padding ((text.drop (i * 3)).take 3)) :
    mem.load start (base64Text charset padding text).length = base64Text charset padding text := by
  fun_induction base64Text charset padding text generalizing start with
  | case1 => rfl
  | case2 a =>
    have hfirst := h 0 (by simp)
    rw [List.drop_zero, show List.take 3 [a] = [a] from rfl, encodeGroup_one] at hfirst
    show mem.load start (base64Text charset padding [a]).length = base64Text charset padding [a]
    rw [length_base64Text]
    simpa using hfirst
  | case3 a b =>
    have hfirst := h 0 (by simp)
    rw [List.drop_zero, show List.take 3 [a, b] = [a, b] from rfl, encodeGroup_two] at hfirst
    show mem.load start (base64Text charset padding [a, b]).length = base64Text charset padding [a, b]
    rw [length_base64Text]
    simpa using hfirst
  | case4 a b c rest ih =>
    have hfirst := h 0 (by simp)
    rw [List.drop_zero, show List.take 3 (a :: b :: c :: rest) = [a, b, c] from rfl, encodeGroup_three] at hfirst
    have hwidth : groupWidth padding (min ((a :: b :: c :: rest).length - 0 * 3) 3) = 4 := by
      have hmin : min ((a :: b :: c :: rest).length - 0 * 3) 3 = 3 := by
        simp only [List.length_cons]
        omega
      rw [hmin]
      cases padding <;> rfl
    rw [hwidth] at hfirst
    have hrest : mem.load (start + 4) (base64Text charset padding rest).length = base64Text charset padding rest := by
      apply ih
      intro i hi
      have hnext := h (i + 1) (by simp only [List.length_cons]; omega)
      have hdrop : (a :: b :: c :: rest).drop ((i + 1) * 3) = rest.drop (i * 3) := by
        rw [show (i + 1) * 3 = i * 3 + 1 + 1 + 1 by omega]
        rfl
      have hlength : (a :: b :: c :: rest).length - (i + 1) * 3 = rest.length - i * 3 := by
        simp only [List.length_cons]
        omega
      rw [hdrop, hlength, show start + (i + 1) * 4 = start + 4 + i * 4 by omega] at hnext
      exact hnext
    simp only [List.length_cons]
    rw [show (base64Text charset padding rest).length + 1 + 1 + 1 + 1 =
      4 + (base64Text charset padding rest).length by omega, load_add, hrest]
    have hstart : start + 0 * 4 = start := by omega
    rw [hstart] at hfirst
    rw [hfirst]
    rfl

/-- The order in which the groups are encoded. -/
def groupOrder (output input groups : Nat) : List Nat :=
  (List.range' (httpForwardEncodedGroups output input groups)
    (groups - httpForwardEncodedGroups output input groups)).reverse ++
      List.range (httpForwardEncodedGroups output input groups)

theorem httpForwardEncodedGroups_le (output input groups : Nat) :
    httpForwardEncodedGroups output input groups ≤ groups := by
  unfold httpForwardEncodedGroups
  split
  · exact Nat.zero_le _
  · split <;> omega

theorem mem_groupOrder {output input groups group : Nat} : group ∈ groupOrder output input groups ↔ group < groups := by
  have hle := httpForwardEncodedGroups_le output input groups
  simp only [groupOrder, List.mem_append, List.mem_reverse, List.mem_range'_1, List.mem_range]
  omega

/-- **No group is overwritten before its turn**: what stands at and behind the distance of the two buffers goes
backwards, and what stands in front of it goes forwards. -/
theorem pairwise_groupOrder (output input groups : Nat) :
    (groupOrder output input groups).Pairwise fun i j =>
      i ≠ j ∧ (input + (j + 1) * 3 ≤ output + i * 4 ∨ output + (i + 1) * 4 ≤ input + j * 3) := by
  have hforward : httpForwardEncodedGroups output input groups = min (input - output) groups := by
    unfold httpForwardEncodedGroups
    split
    · omega
    · split <;> omega
  unfold groupOrder
  rw [hforward, List.pairwise_append, List.pairwise_reverse]
  refine ⟨?_, ?_, ?_⟩
  · -- backwards: a later group lies below an earlier one
    refine List.Pairwise.imp_of_mem ?_ List.pairwise_lt_range'
    intro j i hj hi hlt
    rw [List.mem_range'_1] at hj hi
    omega
  · refine List.Pairwise.imp_of_mem ?_ List.pairwise_lt_range
    intro i j hi hj hlt
    rw [List.mem_range] at hi hj
    omega
  · intro i hi j hj
    rw [List.mem_reverse, List.mem_range'_1] at hi
    rw [List.mem_range] at hj
    omega

theorem httpBase64Encode_eq (mem : ByteMemory) (output input size : Nat) :
    httpBase64Encode mem output input size charset padding =
      (groupOrder output input (size / 3 + if size % 3 = 0 then 0 else 1)).foldl
        (moveBlock (fun group => input + group * 3) (fun group => output + group * 4)
          (fun group => min (size - group * 3) 3) fun _ => encodeGroup charset padding) mem := by
  rw [groupOrder, List.foldl_append]
  rfl

theorem groupWidth_le (n : Nat) (h : n ≤ 3) : groupWidth padding n ≤ 4 := by
  unfold groupWidth
  split <;> omega

theorem lt_groups_iff {group size : Nat} : group < size / 3 + (if size % 3 = 0 then 0 else 1) ↔ 3 * group < size := by
  split <;> omega

/-- **The encoder** writes the text of its input, for every placement of the output, and nothing beside it. -/
theorem httpBase64Encode_spec (mem : ByteMemory) (output input size : Nat) :
    (httpBase64Encode mem output input size charset padding).load output
        (base64Text charset padding (mem.load input size)).length =
      base64Text charset padding (mem.load input size) ∧
    ∀ a, (a < output ∨ output + (base64Text charset padding (mem.load input size)).length ≤ a) →
      httpBase64Encode mem output input size charset padding a = mem a := by
  have hlength : (mem.load input size).length = size := length_load
  have hwidth : ∀ i ∈ groupOrder output input (size / 3 + if size % 3 = 0 then 0 else 1), ∀ bytes : Bytes,
      bytes.length = min (size - i * 3) 3 →
        (encodeGroup charset padding bytes).length = groupWidth padding (min (size - i * 3) 3) := by
    intro i hi bytes hbytes
    have hlt := lt_groups_iff.mp (mem_groupOrder.mp hi)
    rw [length_encodeGroup charset padding bytes (by omega), hbytes]
  obtain ⟨hgroups, hframe⟩ := @foldl_blocks Nat (fun group => input + group * 3) (fun group => output + group * 4)
    (fun group => min (size - group * 3) 3) (fun group => groupWidth padding (min (size - group * 3) 3))
    (fun _ => encodeGroup charset padding) _ mem hwidth ((pairwise_groupOrder output input _).imp (by
      rintro i j ⟨hne, hsafe⟩
      have hi := groupWidth_le padding (min (size - i * 3) 3) (Nat.min_le_right _ _)
      have hj := groupWidth_le padding (min (size - j * 3) 3) (Nat.min_le_right _ _)
      unfold Apart
      constructor <;> omega))
  rw [← httpBase64Encode_eq] at hgroups hframe
  constructor
  · apply load_groups
    intro i hi
    rw [hlength] at hi
    have hgroup := hgroups i (mem_groupOrder.mpr (lt_groups_iff.mpr hi))
    rw [hlength, hgroup, drop_load]
    congr 1
    rcases Nat.le_total (size - i * 3) 3 with hle | hle
    · rw [Nat.min_eq_left hle, List.take_of_length_le (length_load.le.trans hle)]
    · rw [Nat.min_eq_right hle, take_load hle]
  · intro a ha
    apply hframe
    intro i hi
    have hlt := lt_groups_iff.mp (mem_groupOrder.mp hi)
    rw [length_base64Text, hlength] at ha
    have hle := groupWidth_le padding (min (size - i * 3) 3) (Nat.min_le_right _ _)
    by_cases hlast : size - i * 3 < 3
    · -- the last group is a partial one
      have hdiv : size / 3 = i := by omega
      have hmod : size % 3 = size - i * 3 := by omega
      have hmin : min (size - i * 3) 3 = size - i * 3 := by omega
      rw [hdiv, hmod, if_neg (by omega)] at ha
      rw [hmin]
      omega
    · split at ha <;> omega

end

end Ruvia.Http
