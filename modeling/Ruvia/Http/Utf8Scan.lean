import Mathlib.Data.List.GetD
import Ruvia.Http.Utf8
import Ruvia.Library.Utf8Table

/-!
# `Http.Utf8Scan` — the UTF-8 scanner is exact

`scanUtf8Sequence` walks the row of Table 3-7 that its lead byte selects: what it counts is how far the text fits the
row (`scanUtf8Sequence_eq`). The tests on the lead byte and the bounds of the first trail byte are the only place
where the rows enter, and the one place where they have to be compared with the table.

`scan_utf8_sequence` is called for lead bytes from `0x80` on. ASCII bytes are the walk's own (`isValidUtf8From`).
-/

namespace Ruvia.Http

open Library

/-! ## The trail bytes -/

/-- The ranges of `count` trail bytes. -/
def trailRow : Nat → UInt8 → UInt8 → ByteRow
  | 0, _, _ => []
  | count + 1, low, high => (low, high) :: trailRow count 0x80 0xBF

theorem scanUtf8Trail_eq (input : Bytes) (i count k : Nat) (low high : UInt8) :
    scanUtf8Trail input i count k low high =
      ⟨k + fitting (trailRow count low high) (input.drop (i + k)),
        decide (fitting (trailRow count low high) (input.drop (i + k)) = count)⟩ := by
  induction count generalizing k low high with
  | zero => simp [scanUtf8Trail, trailRow, fitting]
  | succ count ih =>
    unfold scanUtf8Trail
    cases hbyte : input[i + k]? with
    | none =>
      have hdrop : input.drop (i + k) = [] := List.drop_eq_nil_of_le (List.getElem?_eq_none_iff.mp hbyte)
      simp [hdrop, fitting]
    | some byte =>
      obtain ⟨hlt, hget⟩ := List.getElem?_eq_some_iff.mp hbyte
      have hdrop : input.drop (i + k) = byte :: input.drop (i + (k + 1)) := by
        rw [← hget, List.drop_eq_getElem_cons hlt, Nat.add_assoc]
      rw [hdrop, trailRow, fitting]
      have hout : (byte < low ∨ high < byte) ↔ ¬ InRange (low, high) byte := by
        simp only [InRange, UInt8.lt_iff_toNat_lt, UInt8.le_iff_toNat_le]
        omega
      by_cases h : InRange (low, high) byte
      · dsimp only
        rw [if_neg (hout.not.mpr (not_not.mpr h)), if_pos h, ih, Utf8Sequence.mk.injEq]
        refine ⟨by omega, ?_⟩
        simp only [Nat.add_right_cancel_iff]
      · simp [hout, h]

/-! ## The row of the lead byte -/

variable {input rest : Bytes} {i : Nat} {lead : UInt8}

/-- A lead byte, and a row of the table behind it: the scanner counts how far the text fits the row. -/
theorem scanUtf8Sequence_eq {row : ByteRow} (hdrop : input.drop i = lead :: rest) (hlead : 0x80 ≤ lead)
    (hrow : row ∈ utf8Table) (h : Leads row lead) :
    scanUtf8Sequence input i = ⟨fitting row (lead :: rest), decide (fitting row (lead :: rest) = row.length)⟩ := by
  have hget : input.getD i 0 = lead := by
    rw [List.getD_eq_getElem?_getD, ← List.head?_drop, hdrop]
    rfl
  have hrest : input.drop (i + 1) = rest := by
    rw [← List.tail_drop, hdrop]
    rfl
  -- The lead byte fits; what is left to count is the tail of the row.
  have htail : (⟨fitting row (lead :: rest), decide (fitting row (lead :: rest) = row.length)⟩ : Utf8Sequence) =
      ⟨1 + fitting row.tail rest, decide (fitting row.tail rest = row.tail.length)⟩ := by
    obtain ⟨range, hhead, hrange⟩ := h
    obtain ⟨row, rfl⟩ : ∃ tail, row = range :: tail := List.head?_eq_some_iff.mp hhead
    rw [fitting, if_pos hrange, List.tail_cons, List.length_cons, Nat.add_comm 1]
    simp only [Nat.add_right_cancel_iff]
  rw [htail]
  unfold scanUtf8Sequence
  rw [hget]
  simp only [scanUtf8Trail_eq, hrest]
  simp only [utf8Table, List.mem_cons, List.not_mem_nil, or_false] at hrow
  -- One case for each row: the bounds of its lead byte settle the tests.
  rcases hrow with rfl | rfl | rfl | rfl | rfl | rfl | rfl | rfl | rfl <;>
    simp only [leads_cons, InRange, UInt8.le_iff_toNat_le, UInt8.reduceToNat, ← UInt8.toNat_inj] at h hlead ⊢
  · omega
  · rw [if_pos (by omega)]
    rfl
  · rw [if_neg (by omega), if_pos (by omega), if_pos (by omega), if_neg (by omega)]
    rfl
  · rw [if_neg (by omega), if_pos (by omega), if_neg (by omega), if_neg (by omega)]
    rfl
  · rw [if_neg (by omega), if_pos (by omega), if_neg (by omega), if_pos (by omega)]
    rfl
  · rw [if_neg (by omega), if_pos (by omega), if_neg (by omega), if_neg (by omega)]
    rfl
  · rw [if_neg (by omega), if_neg (by omega), if_pos (by omega), if_pos (by omega), if_neg (by omega)]
    rfl
  · rw [if_neg (by omega), if_neg (by omega), if_pos (by omega), if_neg (by omega), if_neg (by omega)]
    rfl
  · rw [if_neg (by omega), if_neg (by omega), if_pos (by omega), if_neg (by omega), if_pos (by omega)]
    rfl

/-- A lead byte of no row. -/
theorem scanUtf8Sequence_none (hdrop : input.drop i = lead :: rest) (h : ∀ row ∈ utf8Table, ¬ Leads row lead) :
    scanUtf8Sequence input i = ⟨1, false⟩ := by
  have hget : input.getD i 0 = lead := by
    rw [List.getD_eq_getElem?_getD, ← List.head?_drop, hdrop]
    rfl
  simp only [utf8Table, List.forall_mem_cons, leads_cons, InRange, UInt8.le_iff_toNat_le, UInt8.reduceToNat] at h
  unfold scanUtf8Sequence
  simp only [hget, UInt8.le_iff_toNat_le, UInt8.reduceToNat]
  rw [if_neg (by omega), if_neg (by omega), if_neg (by omega)]

/-! ## Well-formed sequences and maximal subparts -/

/-- What the scanner answers at a byte from `0x80` on. -/
theorem scanUtf8Sequence_spec (hdrop : input.drop i = lead :: rest) (hlead : 0x80 ≤ lead) :
    (∀ n, n ≤ (lead :: rest).length →
      (IsUtf8Sequence ((lead :: rest).take n) ↔ scanUtf8Sequence input i = ⟨n, true⟩)) ∧
    (scanUtf8Sequence input i).length ≤ (lead :: rest).length ∧
    ((scanUtf8Sequence input i).wellFormed = false →
      IsMaximalSubpart (lead :: rest) (scanUtf8Sequence input i).length) := by
  have hpos : ∀ n, IsUtf8Sequence ((lead :: rest).take n) → 1 ≤ n := by
    intro n hn
    apply Nat.one_le_iff_ne_zero.mpr
    rintro rfl
    exact hn.ne_nil rfl
  by_cases hrow : ∃ row ∈ utf8Table, Leads row lead
  · obtain ⟨row, hrow, h⟩ := hrow
    have hfit : 1 ≤ fitting row (lead :: rest) := fitting_pos h
    rw [scanUtf8Sequence_eq hdrop hlead hrow h]
    refine ⟨?_, fitting_le_text row _, fun _ => isMaximalSubpart_fitting hrow h⟩
    intro n hn
    rw [Utf8Sequence.mk.injEq, decide_eq_true_iff]
    constructor
    · intro hseq
      obtain ⟨hlength, hall⟩ := (isUtf8Sequence_take_iff hrow h (hpos n hseq) hn).mp hseq
      exact ⟨by omega, hall⟩
    · rintro ⟨hlength, hall⟩
      exact (isUtf8Sequence_take_iff hrow h (by omega) hn).mpr ⟨by omega, hall⟩
  · have hnone : ∀ row ∈ utf8Table, ¬ Leads row lead := fun row hmem h => hrow ⟨row, hmem, h⟩
    rw [scanUtf8Sequence_none hdrop hnone]
    refine ⟨?_, by simp, fun _ => isMaximalSubpart_one hnone⟩
    intro n hn
    constructor
    · intro hseq
      obtain ⟨n, rfl⟩ := Nat.exists_eq_add_of_le' (hpos n hseq)
      exact absurd hseq.initial (not_isUtf8Initial hnone _)
    · intro h
      cases h

/-! ## Whole strings -/

/-- An ASCII byte is a sequence of its own. -/
theorem isUtf8Sequence_ascii {byte : UInt8} (h : byte < 0x80) : IsUtf8Sequence [byte] := by
  refine ⟨[(0x00, 0x7F)], by decide, List.Forall₂.cons ?_ List.Forall₂.nil⟩
  simp only [UInt8.lt_iff_toNat_lt, UInt8.reduceToNat] at h
  simp only [InRange, UInt8.le_iff_toNat_le, UInt8.reduceToNat]
  omega

/-- The walk from a position inside the string goes on behind the sequence there, when there is one. -/
theorem isValidUtf8From_iff (value : Bytes) (i : Nat) : isValidUtf8From value i = true ↔ IsUtf8Text (value.drop i) := by
  fun_induction isValidUtf8From value i with
  | case1 i hi hascii ih =>
    rw [List.getD_eq_getElem value 0 hi] at hascii
    rw [ih, List.drop_eq_getElem_cons hi, ← List.singleton_append, isUtf8Text_append (isUtf8Sequence_ascii hascii)]
  | case2 i hi hascii hwell ih =>
    rw [List.getD_eq_getElem value 0 hi, UInt8.not_lt] at hascii
    obtain ⟨hseq, hlength, -⟩ := scanUtf8Sequence_spec (List.drop_eq_getElem_cons hi) hascii
    rw [← List.drop_eq_getElem_cons hi] at hseq hlength
    -- The sequence that the scanner found, and the rest.
    have hfront := (hseq _ hlength).mpr (by rw [← hwell])
    rw [ih, ← List.drop_drop, ← isUtf8Text_append hfront, List.take_append_drop]
  | case3 i hi hascii hill =>
    rw [List.getD_eq_getElem value 0 hi, UInt8.not_lt] at hascii
    obtain ⟨hseq, -, -⟩ := scanUtf8Sequence_spec (List.drop_eq_getElem_cons hi) hascii
    rw [← List.drop_eq_getElem_cons hi] at hseq
    refine iff_of_false Bool.false_ne_true ?_
    intro htext
    have hne : value.drop i ≠ [] := by
      rw [List.drop_eq_getElem_cons hi]
      exact List.cons_ne_nil _ _
    obtain ⟨bytes, rest, heq, hbytes, -⟩ := htext.front hne
    have hscan := (hseq bytes.length (by rw [heq, List.length_append]; omega)).mp (by rwa [heq, List.take_left])
    rw [hscan] at hill
    exact hill rfl
  | case4 i hi =>
    rw [List.drop_eq_nil_of_le (by omega)]
    simp [isUtf8Text_nil]

/-- **The scanner is exact.** At a byte from `0x80` on it reports a well-formed sequence of `n` bytes exactly when the
    `n` bytes there are one of Table 3-7; otherwise its length is that of the maximal subpart. So the walk over a
    whole string accepts exactly the encodings of sequences of scalar values. -/
theorem utf8_scan_exact (input : Bytes) (i : Nat) (hi : i < input.length) (hlead : 0x80 ≤ input[i]) :
    (∀ n, n ≤ (input.drop i).length →
      (IsUtf8Sequence ((input.drop i).take n) ↔ scanUtf8Sequence input i = ⟨n, true⟩)) ∧
    ((scanUtf8Sequence input i).wellFormed = true →
      IsUtf8Sequence ((input.drop i).take (scanUtf8Sequence input i).length)) ∧
    ((scanUtf8Sequence input i).wellFormed = false →
      IsMaximalSubpart (input.drop i) (scanUtf8Sequence input i).length) ∧
    1 ≤ (scanUtf8Sequence input i).length ∧
    ∀ value, isValidUtf8 value = true ↔ ∃ chars : List Char, value = chars.flatMap String.utf8EncodeChar := by
  obtain ⟨hseq, hlength, hsubpart⟩ := scanUtf8Sequence_spec (List.drop_eq_getElem_cons hi) hlead
  rw [← List.drop_eq_getElem_cons hi] at hseq hlength hsubpart
  refine ⟨hseq, ?_, hsubpart, scanUtf8Sequence_length_pos input i, ?_⟩
  · intro hwell
    exact (hseq _ hlength).mpr (by rw [← hwell])
  · exact fun value => isValidUtf8From_iff value 0

/-- A surrogate, and a sequence that is cut off. -/
theorem utf8_scan_exact_truncated : IsMaximalSubpart [0xED, 0xA0, 0x80] 1 ∧ IsMaximalSubpart [0xF1, 0x80, 0x80] 3 :=
  ⟨(utf8_scan_exact [0xED, 0xA0, 0x80] 0 (by decide) (by decide)).2.2.1 (by decide),
    (utf8_scan_exact [0xF1, 0x80, 0x80] 0 (by decide) (by decide)).2.2.1 (by decide)⟩

/-- An ASCII byte is well-formed by the table, but it is not for the scanner to say so. -/
theorem utf8_scan_of_ascii :
    IsUtf8Sequence ((([0x41] : Bytes).drop 0).take 1) ∧ scanUtf8Sequence [0x41] 0 = ⟨1, false⟩ :=
  ⟨isUtf8Sequence_ascii (by decide), by decide⟩

end Ruvia.Http

namespace Library

open Ruvia.Http

/-! ## Texts and ASCII bytes -/

theorem IsUtf8Text.append {text text' : Bytes} (h : IsUtf8Text text) (h' : IsUtf8Text text') :
    IsUtf8Text (text ++ text') := by
  obtain ⟨chars, rfl⟩ := h
  obtain ⟨chars', rfl⟩ := h'
  exact ⟨chars ++ chars', List.flatMap_append.symm⟩

theorem isUtf8Text_of_ascii {text : Bytes} (h : ∀ byte ∈ text, byte < 0x80) : IsUtf8Text text := by
  induction text with
  | nil => exact isUtf8Text_nil
  | cons byte text ih =>
    rw [← List.singleton_append, isUtf8Text_append (isUtf8Sequence_ascii (h byte List.mem_cons_self))]
    exact ih fun other hother => h other (List.mem_cons_of_mem byte hother)

theorem exists_range {row : ByteRow} {bytes : Bytes} (h : List.Forall₂ InRange row bytes) :
    ∀ byte ∈ bytes, ∃ range ∈ row, InRange range byte := by
  induction h with
  | nil => exact fun _ hbyte => absurd hbyte List.not_mem_nil
  | cons hrange _ ih =>
    intro byte hbyte
    rcases List.mem_cons.mp hbyte with rfl | hbyte
    · exact ⟨_, List.mem_cons_self, hrange⟩
    · obtain ⟨range, hmem, hin⟩ := ih byte hbyte
      exact ⟨range, List.mem_cons_of_mem _ hmem, hin⟩

/-- Behind its first byte a sequence has no ASCII byte. -/
theorem IsUtf8Sequence.not_ascii {lead : UInt8} {trail : Bytes} (h : IsUtf8Sequence (lead :: trail)) :
    ∀ byte ∈ trail, ¬byte < 0x80 := by
  obtain ⟨row, hrow, hfits⟩ := h
  cases hfits with
  | cons hlead htrail =>
    rename_i range row
    have hhigh : utf8Table.all (fun row => row.tail.all fun range => 0x80 ≤ range.1) = true := by decide
    intro byte hbyte
    obtain ⟨range', hrange', hin⟩ := exists_range htrail byte hbyte
    have hle := of_decide_eq_true (List.all_eq_true.mp (List.all_eq_true.mp hhigh _ hrow) range' hrange')
    have hbyte' := hin.1
    rw [UInt8.le_iff_toNat_le] at hle hbyte'
    rw [UInt8.lt_iff_toNat_lt]
    omega

/-- **A text is cut at an ASCII byte** into two texts. -/
theorem IsUtf8Text.split {front back : Bytes} {byte : UInt8} (hbyte : byte < 0x80)
    (h : IsUtf8Text (front ++ byte :: back)) : IsUtf8Text front ∧ IsUtf8Text back := by
  induction hlength : front.length using Nat.strong_induction_on generalizing front with
  | _ n ih =>
    obtain ⟨bytes, rest, heq, hseq, hrest⟩ := h.front (by simp)
    rcases front with _ | ⟨first, front⟩
    · obtain ⟨-, rfl⟩ := (isUtf8Sequence_ascii hbyte).append_inj hseq heq
      exact ⟨isUtf8Text_nil, hrest⟩
    · rcases List.append_eq_append_iff.mp heq with ⟨more, hbytes, hback⟩ | ⟨more, hfront, hrest'⟩
      · -- the sequence would reach over the ASCII byte
        cases more with
        | nil =>
          rw [List.append_nil] at hbytes
          rw [List.nil_append] at hback
          subst hbytes
          rw [← hback, ← List.singleton_append, isUtf8Text_append (isUtf8Sequence_ascii hbyte)] at hrest
          refine ⟨?_, hrest⟩
          have hone := (isUtf8Text_append hseq).mpr isUtf8Text_nil
          rwa [List.append_nil] at hone
        | cons b more =>
          obtain ⟨rfl, -⟩ := List.cons.inj hback
          rw [hbytes, List.cons_append] at hseq
          exact absurd hbyte (hseq.not_ascii byte (by simp))
      · rw [hrest'] at hrest
        have hpos : 0 < bytes.length := List.length_pos_of_ne_nil hseq.ne_nil
        have hlt : more.length < n := by
          rw [← hlength, hfront, List.length_append]
          omega
        obtain ⟨hmore, hback⟩ := ih more.length hlt hrest rfl
        rw [hfront, isUtf8Text_append hseq]
        exact ⟨hmore, hback⟩

end Library
