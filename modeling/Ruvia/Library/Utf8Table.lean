import Mathlib.Data.List.Forall2
import Ruvia.Library.ByteString

/-!
# `Library.Utf8Table` — well-formed UTF-8

Unicode Table 3-7 as data: a row gives the range of each byte of a sequence. What a scanner has to know follows from
two facts about tables of this kind. The first byte of a sequence decides its row, and how far a text fits that row
(`fitting`) decides the rest: a sequence fits its row to the end (`forall₂_take_iff`), and an initial part of one fits
it as far as it goes (`initial_take_iff`).

The rows are the encodings of the Unicode scalar values (`isUtf8Sequence_iff`).
-/

namespace Library

/-! ## Rows of byte ranges -/

/-- The range of each byte. -/
abbrev ByteRow := List (UInt8 × UInt8)

def InRange (range : UInt8 × UInt8) (byte : UInt8) : Prop := range.1 ≤ byte ∧ byte ≤ range.2

instance (range : UInt8 × UInt8) (byte : UInt8) : Decidable (InRange range byte) :=
  inferInstanceAs (Decidable (_ ∧ _))

/-- How many bytes of a text fit the row. -/
def fitting : ByteRow → Bytes → Nat
  | range :: row, byte :: text => if InRange range byte then fitting row text + 1 else 0
  | _, _ => 0

section

variable {row : ByteRow} {text : Bytes} {n : Nat}

theorem fitting_le_text (row : ByteRow) (text : Bytes) : fitting row text ≤ text.length := by
  fun_induction fitting row text with
  | case1 range row byte text h ih =>
    rw [List.length_cons]
    omega
  | case2 | case3 => omega

/-- The front of a text is a whole row when the text fits that far. -/
theorem forall₂_take_iff (hn : n ≤ text.length) :
    List.Forall₂ InRange row (text.take n) ↔ n = row.length ∧ fitting row text = row.length := by
  induction row generalizing text n with
  | nil =>
    rw [List.forall₂_nil_left_iff, List.take_eq_nil_iff]
    constructor
    · rintro (rfl | rfl)
      · exact ⟨rfl, rfl⟩
      · exact ⟨Nat.le_zero.mp hn, rfl⟩
    · rintro ⟨rfl, -⟩
      exact Or.inl rfl
  | cons range row ih =>
    cases text with
    | nil => simp [fitting]
    | cons byte text =>
      cases n with
      | zero => simp
      | succ n =>
        have hn : n ≤ text.length := Nat.le_of_succ_le_succ hn
        rw [List.take_succ_cons, List.forall₂_cons, ih hn, fitting, List.length_cons]
        by_cases h : InRange range byte
        · rw [if_pos h]
          constructor
          · rintro ⟨-, rfl, hfits⟩
            exact ⟨rfl, by rw [hfits]⟩
          · rintro ⟨hlength, hfits⟩
            exact ⟨h, by omega, by omega⟩
        · rw [if_neg h]
          constructor
          · intro hall
            exact absurd hall.1 h
          · rintro ⟨-, hfits⟩
            omega

/-- The front of a text can be continued to a whole row when the text fits that far. -/
theorem initial_take_iff (hrow : ∀ range ∈ row, ∃ byte, InRange range byte) (hn : n ≤ text.length) :
    (∃ more, List.Forall₂ InRange row (text.take n ++ more)) ↔ n ≤ fitting row text := by
  induction row generalizing text n with
  | nil =>
    simp only [List.forall₂_nil_left_iff, List.append_eq_nil_iff, fitting, Nat.le_zero]
    constructor
    · rintro ⟨more, htake, -⟩
      rcases List.take_eq_nil_iff.mp htake with h | rfl
      · exact h
      · exact Nat.le_zero.mp hn
    · rintro rfl
      exact ⟨[], rfl, rfl⟩
  | cons range row ih =>
    have hrest : ∀ range ∈ row, ∃ byte, InRange range byte := fun range h => hrow range (List.mem_cons_of_mem _ h)
    cases n with
    | zero =>
      constructor
      · intro _
        exact Nat.zero_le _
      · intro _
        -- Nothing of the row is there yet: any byte of each range will do.
        obtain ⟨byte, hbyte⟩ := hrow range List.mem_cons_self
        obtain ⟨more, hmore⟩ := (@ih [] 0 hrest (Nat.zero_le _)).mpr (Nat.zero_le _)
        exact ⟨byte :: more, List.Forall₂.cons hbyte (by simpa using hmore)⟩
    | succ n =>
      cases text with
      | nil => cases hn
      | cons byte text =>
        have hn : n ≤ text.length := Nat.le_of_succ_le_succ hn
        simp only [List.take_succ_cons, List.cons_append, List.forall₂_cons, fitting]
        rw [exists_and_left, ih hrest hn]
        by_cases h : InRange range byte
        · simp [h]
        · simp [h]

end

/-! ## Unicode Table 3-7 -/

def utf8Table : List ByteRow :=
  [[(0x00, 0x7F)],
   [(0xC2, 0xDF), (0x80, 0xBF)],
   [(0xE0, 0xE0), (0xA0, 0xBF), (0x80, 0xBF)],
   [(0xE1, 0xEC), (0x80, 0xBF), (0x80, 0xBF)],
   [(0xED, 0xED), (0x80, 0x9F), (0x80, 0xBF)],
   [(0xEE, 0xEF), (0x80, 0xBF), (0x80, 0xBF)],
   [(0xF0, 0xF0), (0x90, 0xBF), (0x80, 0xBF), (0x80, 0xBF)],
   [(0xF1, 0xF3), (0x80, 0xBF), (0x80, 0xBF), (0x80, 0xBF)],
   [(0xF4, 0xF4), (0x80, 0x8F), (0x80, 0xBF), (0x80, 0xBF)]]

/-- A well-formed byte sequence of one scalar value. -/
def IsUtf8Sequence (bytes : Bytes) : Prop := ∃ row ∈ utf8Table, List.Forall₂ InRange row bytes

/-- An initial part of a well-formed sequence. -/
def IsUtf8Initial (bytes : Bytes) : Prop := ∃ more, IsUtf8Sequence (bytes ++ more)

/-- The first `k` bytes are the maximal subpart: the longest initial part of a sequence, or a single byte. -/
def IsMaximalSubpart (text : Bytes) (k : Nat) : Prop :=
  1 ≤ k ∧ k ≤ text.length ∧ (k = 1 ∨ IsUtf8Initial (text.take k)) ∧
    ∀ j, k < j → j ≤ text.length → ¬ IsUtf8Initial (text.take j)

theorem utf8Table_inhabited : ∀ row ∈ utf8Table, ∀ range ∈ row, ∃ byte, InRange range byte := by
  have h : ∀ row ∈ utf8Table, ∀ range ∈ row, InRange range range.1 := by
    simp [utf8Table, InRange, -Prod.forall, -List.mem_cons, List.forall_mem_cons]
  exact fun row hrow range hrange => ⟨range.1, h row hrow range hrange⟩

/-! ## The first byte decides the row -/

/-- The first byte of the row may be this one. -/
def Leads (row : ByteRow) (byte : UInt8) : Prop := ∃ range, row.head? = some range ∧ InRange range byte

section

variable {row : ByteRow} {lead : UInt8} {rest : Bytes} {n : Nat}

theorem leads_cons {range : UInt8 × UInt8} {row : ByteRow} : Leads (range :: row) lead ↔ InRange range lead := by
  simp [Leads]

section

variable (hrow : row ∈ utf8Table)
include hrow

theorem leads_unique {row' : ByteRow} (hrow' : row' ∈ utf8Table) (h : Leads row lead)
    (h' : Leads row' lead) : row = row' := by
  obtain ⟨range, hhead, hlow, hhigh⟩ := h
  obtain ⟨range', hhead', hlow', hhigh'⟩ := h'
  have hapart : ∀ row ∈ utf8Table, ∀ row' ∈ utf8Table, row = row' ∨ ∀ range ∈ row.head?, ∀ range' ∈ row'.head?,
      range.2.toNat < range'.1.toNat ∨ range'.2.toNat < range.1.toNat := by
    simp [utf8Table]
  rcases hapart row hrow row' hrow' with heq | hapart
  · exact heq
  · have := hapart range hhead range' hhead'
    rw [UInt8.le_iff_toNat_le] at hlow hhigh hlow' hhigh'
    omega

/-- A sequence belongs to the row that its first byte leads. -/
theorem isUtf8Sequence_cons_iff (h : Leads row lead) (bytes : Bytes) :
    IsUtf8Sequence (lead :: bytes) ↔ List.Forall₂ InRange row (lead :: bytes) := by
  constructor
  · rintro ⟨row', hrow', hfits⟩
    have hleads : Leads row' lead := by
      cases hfits with
      | cons hrange _ => exact leads_cons.mpr hrange
    rwa [leads_unique hrow hrow' h hleads]
  · intro hfits
    exact ⟨row, hrow, hfits⟩

theorem isUtf8Sequence_take_iff (h : Leads row lead) (hpos : 1 ≤ n)
    (hn : n ≤ (lead :: rest).length) :
    IsUtf8Sequence ((lead :: rest).take n) ↔ n = row.length ∧ fitting row (lead :: rest) = row.length := by
  obtain ⟨n, rfl⟩ := Nat.exists_eq_add_of_le' hpos
  rw [← forall₂_take_iff hn, List.take_succ_cons]
  exact isUtf8Sequence_cons_iff hrow h _

theorem isUtf8Initial_take_iff (h : Leads row lead) (hpos : 1 ≤ n)
    (hn : n ≤ (lead :: rest).length) :
    IsUtf8Initial ((lead :: rest).take n) ↔ n ≤ fitting row (lead :: rest) := by
  obtain ⟨n, rfl⟩ := Nat.exists_eq_add_of_le' hpos
  rw [← initial_take_iff (utf8Table_inhabited row hrow) hn, List.take_succ_cons]
  exact exists_congr fun more => isUtf8Sequence_cons_iff hrow h _

end

theorem IsUtf8Sequence.ne_nil {bytes : Bytes} (h : IsUtf8Sequence bytes) : bytes ≠ [] := by
  obtain ⟨row, hrow, hfits⟩ := h
  have hne : ∀ row ∈ utf8Table, row ≠ [] := by simp [utf8Table]
  rintro rfl
  exact hne row hrow (List.forall₂_nil_right_iff.mp hfits)

theorem IsUtf8Sequence.initial {bytes : Bytes} (h : IsUtf8Sequence bytes) : IsUtf8Initial bytes :=
  ⟨[], by rwa [List.append_nil]⟩

/-- No sequence starts with a byte that leads no row. -/
theorem not_isUtf8Initial (h : ∀ row ∈ utf8Table, ¬ Leads row lead) (bytes : Bytes) :
    ¬ IsUtf8Initial (lead :: bytes) := by
  rintro ⟨more, row, hrow, hfits⟩
  apply h row hrow
  cases hfits with
  | cons hrange _ => exact leads_cons.mpr hrange

theorem fitting_pos (h : Leads row lead) : 1 ≤ fitting row (lead :: rest) := by
  obtain ⟨range, hhead, hrange⟩ := h
  cases row with
  | nil => cases hhead
  | cons first row =>
    obtain rfl := Option.some.inj hhead
    rw [fitting, if_pos hrange]
    omega

/-- **Where a text stops fitting its row, its maximal subpart ends.** -/
theorem isMaximalSubpart_fitting (hrow : row ∈ utf8Table) (h : Leads row lead) :
    IsMaximalSubpart (lead :: rest) (fitting row (lead :: rest)) := by
  have hpos : 1 ≤ fitting row (lead :: rest) := fitting_pos h
  have hle := fitting_le_text row (lead :: rest)
  refine ⟨hpos, hle, Or.inr ?_, ?_⟩
  · exact (isUtf8Initial_take_iff hrow h hpos hle).mpr (Nat.le_refl _)
  · intro j hj hlength hinitial
    have := (isUtf8Initial_take_iff hrow h (by omega) hlength).mp hinitial
    omega

/-- A byte that starts no sequence is a subpart of its own. -/
theorem isMaximalSubpart_one (h : ∀ row ∈ utf8Table, ¬ Leads row lead) : IsMaximalSubpart (lead :: rest) 1 := by
  refine ⟨Nat.le_refl 1, by simp, Or.inl rfl, ?_⟩
  intro j hj _
  obtain ⟨j, rfl⟩ := Nat.exists_eq_add_of_le' (Nat.le_of_lt hj)
  exact not_isUtf8Initial h _

end

/-! ## The scalar values -/

theorem inRange_ofNat {low high : UInt8} {n : Nat} (h : n < 256) :
    InRange (low, high) (UInt8.ofNat n) ↔ low.toNat ≤ n ∧ n ≤ high.toNat := by
  simp only [InRange, UInt8.le_iff_toNat_le, UInt8.toNat_ofNat', Nat.mod_eq_of_lt h]

/-- A byte behind the first carries six bits. -/
theorem inRange_trail (n : Nat) : InRange (0x80, 0xBF) (UInt8.ofNat (n % 0x40 + 0x80)) := by
  rw [inRange_ofNat (by omega)]
  show 0x80 ≤ _ ∧ _ ≤ 0xBF
  omega

/-- The first two bytes of a longer sequence decide, and both are given by numbers. -/
theorem isUtf8Sequence_of_numbers (low high low' high' : UInt8) {trail : ByteRow} {first second : Nat} {bytes : Bytes}
    (hrow : (low, high) :: (low', high') :: trail ∈ utf8Table) (hfirst : low.toNat ≤ first ∧ first ≤ high.toNat)
    (hsecond : low'.toNat ≤ second ∧ second ≤ high'.toNat) (hbytes : List.Forall₂ InRange trail bytes) :
    IsUtf8Sequence (UInt8.ofNat first :: UInt8.ofNat second :: bytes) := by
  have hhigh := high.toNat_lt
  have hhigh' := high'.toNat_lt
  refine ⟨_, hrow, List.Forall₂.cons ?_ (List.Forall₂.cons ?_ hbytes)⟩
  · exact (inRange_ofNat (by omega)).mpr hfirst
  · exact (inRange_ofNat (by omega)).mpr hsecond

/-- A scalar value is a `Char`; its encoding is in the table. -/
theorem isUtf8Sequence_encode (c : Char) : IsUtf8Sequence (String.utf8EncodeChar c) := by
  have hvalid : c.val.toNat < 0xD800 ∨ 0xDFFF < c.val.toNat ∧ c.val.toNat < 0x110000 := c.valid
  unfold String.utf8EncodeChar
  generalize c.val.toNat = n at hvalid
  dsimp only
  have htrail := fun n => List.Forall₂.cons (inRange_trail n) List.Forall₂.nil
  -- Within each length the rows split where the first byte, or the range behind it, changes.
  split
  · refine ⟨[(0x00, 0x7F)], by decide, List.Forall₂.cons ?_ List.Forall₂.nil⟩
    exact (inRange_ofNat (by omega)).mpr ⟨Nat.zero_le _, by assumption⟩
  split
  · apply isUtf8Sequence_of_numbers 0xC2 0xDF 0x80 0xBF (by decide) ?_ ?_ List.Forall₂.nil
    · show 0xC2 ≤ _ ∧ _ ≤ 0xDF
      omega
    · show 0x80 ≤ _ ∧ _ ≤ 0xBF
      omega
  split
  · rcases Nat.lt_or_ge n 0x1000 with h | h
    · apply isUtf8Sequence_of_numbers 0xE0 0xE0 0xA0 0xBF (by decide) ?_ ?_ (htrail n)
      · show 0xE0 ≤ _ ∧ _ ≤ 0xE0
        omega
      · show 0xA0 ≤ _ ∧ _ ≤ 0xBF
        omega
    rcases Nat.lt_or_ge n 0xD000 with h | h
    · apply isUtf8Sequence_of_numbers 0xE1 0xEC 0x80 0xBF (by decide) ?_ ?_ (htrail n)
      · show 0xE1 ≤ _ ∧ _ ≤ 0xEC
        omega
      · show 0x80 ≤ _ ∧ _ ≤ 0xBF
        omega
    rcases Nat.lt_or_ge n 0xE000 with h | h
    · apply isUtf8Sequence_of_numbers 0xED 0xED 0x80 0x9F (by decide) ?_ ?_ (htrail n)
      · show 0xED ≤ _ ∧ _ ≤ 0xED
        omega
      · show 0x80 ≤ _ ∧ _ ≤ 0x9F
        omega
    · apply isUtf8Sequence_of_numbers 0xEE 0xEF 0x80 0xBF (by decide) ?_ ?_ (htrail n)
      · show 0xEE ≤ _ ∧ _ ≤ 0xEF
        omega
      · show 0x80 ≤ _ ∧ _ ≤ 0xBF
        omega
  · have htrail := List.Forall₂.cons (inRange_trail (n / 64)) (htrail n)
    rcases Nat.lt_or_ge n 0x40000 with h | h
    · apply isUtf8Sequence_of_numbers 0xF0 0xF0 0x90 0xBF (by decide) ?_ ?_ htrail
      · show 0xF0 ≤ _ ∧ _ ≤ 0xF0
        omega
      · show 0x90 ≤ _ ∧ _ ≤ 0xBF
        omega
    rcases Nat.lt_or_ge n 0x100000 with h | h
    · apply isUtf8Sequence_of_numbers 0xF1 0xF3 0x80 0xBF (by decide) ?_ ?_ htrail
      · show 0xF1 ≤ _ ∧ _ ≤ 0xF3
        omega
      · show 0x80 ≤ _ ∧ _ ≤ 0xBF
        omega
    · apply isUtf8Sequence_of_numbers 0xF4 0xF4 0x80 0x8F (by decide) ?_ ?_ htrail
      · show 0xF4 ≤ _ ∧ _ ≤ 0xF4
        omega
      · show 0x80 ≤ _ ∧ _ ≤ 0x8F
        omega

/-- A byte is recovered from the number that its encoding writes. -/
theorem ofNat_eq {n : Nat} {byte : UInt8} (h : n = byte.toNat) : UInt8.ofNat n = byte := by
  rw [h, UInt8.ofNat_toNat]

theorem exists_char_one {a : UInt8} (ha : a.toNat ≤ 0x7F) : ∃ c : Char, String.utf8EncodeChar c = [a] := by
  have hvalid : a.toNat.isValidChar := Or.inl (by omega)
  refine ⟨Char.ofNatAux a.toNat hvalid, ?_⟩
  change ite (a.toNat ≤ 0x7f) _ _ = _
  rw [if_pos ha]
  exact congrArg (fun byte => [byte]) (ofNat_eq rfl)

theorem exists_char_two {a b : UInt8} (ha : 0xC2 ≤ a.toNat ∧ a.toNat ≤ 0xDF) (hb : 0x80 ≤ b.toNat ∧ b.toNat ≤ 0xBF) :
    ∃ c : Char, String.utf8EncodeChar c = [a, b] := by
  obtain ⟨n, hn⟩ : ∃ n, n = (a.toNat - 0xC0) * 64 + (b.toNat - 0x80) := ⟨_, rfl⟩
  have hvalid : n.isValidChar := Or.inl (by omega)
  refine ⟨Char.ofNatAux n hvalid, ?_⟩
  change ite (n ≤ 0x7f) _ (ite (n ≤ 0x7ff) _ _) = _
  rw [if_neg (by omega), if_pos (by omega)]
  refine congrArg₂ (fun a b => [a, b]) (ofNat_eq ?_) (ofNat_eq ?_)
  · show n / 64 % 0x20 + 0xc0 = a.toNat
    omega
  · show n % 0x40 + 0x80 = b.toNat
    omega

theorem exists_char_three {a b c : UInt8} (ha : 0xE0 ≤ a.toNat ∧ a.toNat ≤ 0xEF)
    (hb : 0x80 ≤ b.toNat ∧ b.toNat ≤ 0xBF) (hc : 0x80 ≤ c.toNat ∧ c.toNat ≤ 0xBF)
    (hshort : a.toNat = 0xE0 → 0xA0 ≤ b.toNat) (hsurrogate : a.toNat = 0xED → b.toNat ≤ 0x9F) :
    ∃ char : Char, String.utf8EncodeChar char = [a, b, c] := by
  obtain ⟨n, hn⟩ : ∃ n, n = (a.toNat - 0xE0) * 4096 + (b.toNat - 0x80) * 64 + (c.toNat - 0x80) := ⟨_, rfl⟩
  have hvalid : n.isValidChar := by
    omega
  refine ⟨Char.ofNatAux n hvalid, ?_⟩
  change ite (n ≤ 0x7f) _ (ite (n ≤ 0x7ff) _ (ite (n ≤ 0xffff) _ _)) = _
  rw [if_neg (by omega), if_neg (by omega), if_pos (by omega)]
  have hfirst : n / 4096 % 0x10 + 0xe0 = a.toNat := by omega
  have hsecond : n / 64 % 0x40 + 0x80 = b.toNat := by omega
  have hthird : n % 0x40 + 0x80 = c.toNat := by omega
  show [UInt8.ofNat (n / 4096 % 0x10 + 0xe0), UInt8.ofNat (n / 64 % 0x40 + 0x80), UInt8.ofNat (n % 0x40 + 0x80)] = _
  rw [ofNat_eq hfirst, ofNat_eq hsecond, ofNat_eq hthird]

theorem exists_char_four {a b c d : UInt8} (ha : 0xF0 ≤ a.toNat ∧ a.toNat ≤ 0xF4)
    (hb : 0x80 ≤ b.toNat ∧ b.toNat ≤ 0xBF) (hc : 0x80 ≤ c.toNat ∧ c.toNat ≤ 0xBF)
    (hd : 0x80 ≤ d.toNat ∧ d.toNat ≤ 0xBF) (hshort : a.toNat = 0xF0 → 0x90 ≤ b.toNat)
    (hlarge : a.toNat = 0xF4 → b.toNat ≤ 0x8F) : ∃ char : Char, String.utf8EncodeChar char = [a, b, c, d] := by
  obtain ⟨n, hn⟩ : ∃ n, n =
      (a.toNat - 0xF0) * 262144 + (b.toNat - 0x80) * 4096 + (c.toNat - 0x80) * 64 + (d.toNat - 0x80) := ⟨_, rfl⟩
  have hvalid : n.isValidChar := by
    omega
  refine ⟨Char.ofNatAux n hvalid, ?_⟩
  change ite (n ≤ 0x7f) _ (ite (n ≤ 0x7ff) _ (ite (n ≤ 0xffff) _ _)) = _
  rw [if_neg (by omega), if_neg (by omega), if_neg (by omega)]
  have hfirst : n / 262144 % 0x08 + 0xf0 = a.toNat := by omega
  have hsecond : n / 4096 % 0x40 + 0x80 = b.toNat := by omega
  have hthird : n / 64 % 0x40 + 0x80 = c.toNat := by omega
  have hfourth : n % 0x40 + 0x80 = d.toNat := by omega
  show [UInt8.ofNat (n / 262144 % 0x08 + 0xf0), UInt8.ofNat (n / 4096 % 0x40 + 0x80),
    UInt8.ofNat (n / 64 % 0x40 + 0x80), UInt8.ofNat (n % 0x40 + 0x80)] = _
  rw [ofNat_eq hfirst, ofNat_eq hsecond, ofNat_eq hthird, ofNat_eq hfourth]

theorem exists_char_of_isUtf8Sequence {bytes : Bytes} (h : IsUtf8Sequence bytes) :
    ∃ c : Char, String.utf8EncodeChar c = bytes := by
  obtain ⟨row, hrow, hfits⟩ := h
  simp only [utf8Table, List.mem_cons, List.not_mem_nil, or_false] at hrow
  rcases hrow with rfl | rfl | rfl | rfl | rfl | rfl | rfl | rfl | rfl <;>
    simp only [List.forall₂_cons_left_iff, List.forall₂_nil_left_iff, InRange, UInt8.le_iff_toNat_le,
      UInt8.reduceToNat] at hfits
  · obtain ⟨a, _, ha, rfl, rfl⟩ := hfits
    exact exists_char_one ha.2
  · obtain ⟨a, _, ha, ⟨b, _, hb, rfl, rfl⟩, rfl⟩ := hfits
    exact exists_char_two ha hb
  iterate 4
    · obtain ⟨a, _, ha, ⟨b, _, hb, ⟨c, _, hc, rfl, rfl⟩, rfl⟩, rfl⟩ := hfits
      exact exists_char_three (by omega) (by omega) hc (by omega) (by omega)
  all_goals
    obtain ⟨a, _, ha, ⟨b, _, hb, ⟨c, _, hc, ⟨d, _, hd, rfl, rfl⟩, rfl⟩, rfl⟩, rfl⟩ := hfits
    exact exists_char_four (by omega) (by omega) hc hd (by omega) (by omega)

/-- Sequences are told apart by their fronts, whatever follows them. -/
theorem IsUtf8Sequence.append_inj {bytes bytes' rest rest' : Bytes} (h : IsUtf8Sequence bytes)
    (h' : IsUtf8Sequence bytes') (heq : bytes ++ rest = bytes' ++ rest') : bytes = bytes' ∧ rest = rest' := by
  have hlength : bytes.length = bytes'.length := by
    obtain ⟨row, hrow, hfits⟩ := h
    obtain ⟨row', hrow', hfits'⟩ := h'
    have hlead : row = row' := by
      cases hfits with
      | nil => exact absurd hrow (by decide)
      | cons hrange _ =>
        cases hfits' with
        | nil => exact absurd hrow' (by decide)
        | cons hrange' _ =>
          obtain ⟨rfl, -⟩ := List.cons_eq_cons.mp heq
          exact leads_unique hrow hrow' (leads_cons.mpr hrange) (leads_cons.mpr hrange')
    rw [← hfits.length_eq, hlead, hfits'.length_eq]
  exact List.append_inj heq hlength

/-- **Table 3-7 is the encoding of the scalar values.** -/
theorem isUtf8Sequence_iff (bytes : Bytes) : IsUtf8Sequence bytes ↔ ∃ c : Char, String.utf8EncodeChar c = bytes := by
  constructor
  · exact exists_char_of_isUtf8Sequence
  · rintro ⟨c, rfl⟩
    exact isUtf8Sequence_encode c

/-! ## Texts -/

/-- The encodings of sequences of scalar values. -/
def IsUtf8Text (text : Bytes) : Prop := ∃ chars : List Char, text = chars.flatMap String.utf8EncodeChar

theorem isUtf8Text_nil : IsUtf8Text [] := ⟨[], rfl⟩

/-- A text starts with a sequence. -/
theorem IsUtf8Text.front {text : Bytes} (h : IsUtf8Text text) (hne : text ≠ []) :
    ∃ bytes rest, text = bytes ++ rest ∧ IsUtf8Sequence bytes ∧ IsUtf8Text rest := by
  obtain ⟨chars, rfl⟩ := h
  cases chars with
  | nil => exact absurd rfl hne
  | cons c chars => exact ⟨_, _, List.flatMap_cons, isUtf8Sequence_encode c, chars, rfl⟩

/-- **A text is read off its front**, one sequence after the other. -/
theorem isUtf8Text_append {bytes rest : Bytes} (h : IsUtf8Sequence bytes) :
    IsUtf8Text (bytes ++ rest) ↔ IsUtf8Text rest := by
  constructor
  · intro htext
    obtain ⟨bytes', rest', heq, hseq, hrest⟩ := htext.front (by simp [h.ne_nil])
    obtain ⟨-, rfl⟩ := h.append_inj hseq heq
    exact hrest
  · rintro ⟨chars, rfl⟩
    obtain ⟨c, rfl⟩ := (isUtf8Sequence_iff bytes).mp h
    exact ⟨c :: chars, List.flatMap_cons.symm⟩

end Library
