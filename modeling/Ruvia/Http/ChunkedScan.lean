import Ruvia.Http.ChunkedDecoder

/-!
# `Http.ChunkedScan` — the resumable LF scans of the chunked decoder

Both scans look for the first LF that decides something. A declarative verdict says what that LF is; it is
unique (`TrailerVerdict.unique`), it survives appended bytes once it is decisive, and it does not depend on
an offset below which nothing was decisive. From this the two facts the decoder rests on:

* a resumed scan gives what a scan from the start gives (`scanSizeLine_resume`, `scanTrailers_resume`);
* a decided scan is unchanged by later bytes (`scanSizeLine_append`, `scanTrailers_append`).
-/

namespace Ruvia.Http

open Library

/-! ## The size line -/

/-- The first `offset` bytes hold no LF. -/
def NoLineFeedBefore (window : Bytes) (offset : Nat) : Prop := ∀ j, j < offset → window[j]? ≠ some lf

variable {line : Bytes} {offset : Nat}

theorem scanSizeLine_resume (h : NoLineFeedBefore line offset) : scanSizeLine line offset = scanSizeLine line 0 := by
  rw [scanSizeLine, scanSizeLine, findByte_skip (Nat.zero_le offset) fun j _ hj => h j hj]

theorem noLineFeedBefore_of_needMore (h : scanSizeLine line 0 = .needMore) : NoLineFeedBefore line line.length := by
  intro j _ hj
  unfold scanSizeLine at h
  cases hf : findByte lf line 0 with
  | none => exact findByte_eq_none_iff.mp hf j (Nat.zero_le j) hj
  | some i =>
    simp only [hf] at h
    split at h <;> cases h

/-- A size line that was decided inside the window stays decided, whatever arrives behind it. -/
theorem scanSizeLine_append (more : Bytes) (hfull : maxHttpHeaderBytes ≤ line.length → more = [])
    (h : scanSizeLine line 0 ≠ .needMore) :
    scanSizeLine (line ++ more) 0 = scanSizeLine line 0 := by
  unfold scanSizeLine at h ⊢
  cases hf : findByte lf line 0 with
  | none =>
    simp only [hf] at h
    split at h
    · rename_i hlen
      simp only [hfull hlen, List.append_nil, hf]
    · exact absurd rfl h
  | some i =>
    have hi := findByte_lt hf
    simp only [findByte_append_of_some (m := more) hf]
    rw [List.getElem?_append_left (show i - 1 < line.length by omega)]

theorem lt_of_scanSizeLine_line {lineEnd : Nat} (h : scanSizeLine line offset = .line lineEnd) :
    lineEnd + 2 ≤ line.length := by
  unfold scanSizeLine at h
  cases hf : findByte lf line offset with
  | none =>
    simp only [hf] at h
    split at h <;> cases h
  | some i =>
    have hi := findByte_lt hf
    simp only [hf] at h
    split at h
    · cases h
    · cases h
      omega

/-! ## The trailer section -/

/-- The LF at `j` is not preceded by CR. -/
def BareAt (t : Bytes) (j : Nat) : Prop := j = 0 ∨ t[j - 1]? ≠ some cr

/-- The LF at `j` stands directly behind a CRLF line end. -/
def EndsSectionAt (t : Bytes) (j : Nat) : Prop := 3 ≤ j ∧ t[j - 2]? = some lf

/-- The LF at `j` ends the scan. -/
def DecisiveAt (t : Bytes) (j : Nat) : Prop :=
  t[j]? = some lf ∧ (BareAt t j ∨ EndsSectionAt t j)

/-- **What a trailer scan from `offset` has to answer.** -/
def TrailerVerdict (t : Bytes) (offset : Nat) : TrailerScan → Prop
  | .needMore => (∀ j, offset ≤ j → ¬ DecisiveAt t j) ∧ t.length < maxHttpHeaderBytes
  | .limit => (∀ j, offset ≤ j → ¬ DecisiveAt t j) ∧ maxHttpHeaderBytes ≤ t.length
  | .bareLineFeed =>
    ∃ j, offset ≤ j ∧ DecisiveAt t j ∧ BareAt t j ∧ ∀ i, offset ≤ i → i < j → ¬ DecisiveAt t i
  | .section trailerEnd =>
    offset ≤ trailerEnd + 3 ∧ DecisiveAt t (trailerEnd + 3) ∧ ¬ BareAt t (trailerEnd + 3) ∧
      ∀ i, offset ≤ i → i < trailerEnd + 3 → ¬ DecisiveAt t i

variable {t : Bytes} {j : Nat}

theorem DecisiveAt.lt_length (h : DecisiveAt t j) : j < t.length :=
  (List.getElem?_eq_some_iff.mp h.1).1

/-- Two first decisive positions are the same. -/
theorem decisive_unique {k : Nat} (hj : offset ≤ j) (hdj : DecisiveAt t j)
    (hminj : ∀ i, offset ≤ i → i < j → ¬ DecisiveAt t i) (hk : offset ≤ k) (hdk : DecisiveAt t k)
    (hmink : ∀ i, offset ≤ i → i < k → ¬ DecisiveAt t i) : j = k := by
  rcases Nat.lt_trichotomy j k with h | h | h
  · exact absurd hdj (hmink j hj h)
  · exact h
  · exact absurd hdk (hminj k hk h)

theorem TrailerVerdict.unique {r s : TrailerScan} (hr : TrailerVerdict t offset r) (hs : TrailerVerdict t offset s) :
    r = s := by
  cases r with
  | needMore =>
    cases s with
    | needMore => rfl
    | limit => exact absurd hr.2 (Nat.not_lt.mpr hs.2)
    | bareLineFeed => obtain ⟨j, hj, hd, _⟩ := hs; exact absurd hd (hr.1 j hj)
    | «section» e => exact absurd hs.2.1 (hr.1 _ hs.1)
  | limit =>
    cases s with
    | needMore => exact absurd hs.2 (Nat.not_lt.mpr hr.2)
    | limit => rfl
    | bareLineFeed => obtain ⟨j, hj, hd, _⟩ := hs; exact absurd hd (hr.1 j hj)
    | «section» e => exact absurd hs.2.1 (hr.1 _ hs.1)
  | bareLineFeed =>
    obtain ⟨j, hj, hd, hb, hmin⟩ := hr
    cases s with
    | needMore | limit => exact absurd hd (hs.1 j hj)
    | bareLineFeed => rfl
    | «section» e =>
      obtain ⟨hle, hde, hnb, hmine⟩ := hs
      exact absurd (decisive_unique hj hd hmin hle hde hmine ▸ hb) hnb
  | «section» e =>
    obtain ⟨hle, hde, hnb, hmine⟩ := hr
    cases s with
    | needMore | limit => exact absurd hde (hs.1 _ hle)
    | bareLineFeed =>
      obtain ⟨j, hj, hd, hb, hmin⟩ := hs
      exact absurd (decisive_unique hj hd hmin hle hde hmine ▸ hb) hnb
    | «section» e' =>
      obtain ⟨hle', hde', _, hmine'⟩ := hs
      have := decisive_unique hle hde hmine hle' hde' hmine'
      rw [show e = e' by omega]

/-- No LF from the offset on: the loop answers by the size of the window. -/
theorem scanTrailerLines_none {fuel : Nat} (h : findByte lf t offset = none) :
    TrailerVerdict t offset (scanTrailerLines t (fuel + 1) offset) := by
  have hno : ∀ j, offset ≤ j → ¬ DecisiveAt t j := fun j hj hd => findByte_eq_none_iff.mp h j hj hd.1
  rw [scanTrailerLines]
  simp only [h]
  split
  · rename_i hlen
    exact ⟨hno, hlen⟩
  · rename_i hlen
    exact ⟨hno, Nat.not_le.mp hlen⟩

/-- A verdict extends over a stretch that holds nothing decisive. -/
theorem TrailerVerdict.skip {offset' : Nat} {r : TrailerScan} (hle : offset ≤ offset')
    (hno : ∀ j, offset ≤ j → j < offset' → ¬ DecisiveAt t j) (h : TrailerVerdict t offset' r) :
    TrailerVerdict t offset r := by
  have hall : ∀ {k}, (∀ j, offset' ≤ j → j < k → ¬ DecisiveAt t j) → ∀ j, offset ≤ j → j < k → ¬ DecisiveAt t j := by
    intro k hk j hj hjk
    rcases Nat.lt_or_ge j offset' with hlt | hge
    · exact hno j hj hlt
    · exact hk j hge hjk
  have hnone : (∀ j, offset' ≤ j → ¬ DecisiveAt t j) → ∀ j, offset ≤ j → ¬ DecisiveAt t j :=
    fun hk j hj => hall (k := j + 1) (fun i hi _ => hk i hi) j hj (Nat.lt_succ_self j)
  cases r with
  | needMore | limit => exact ⟨hnone h.1, h.2⟩
  | bareLineFeed =>
    obtain ⟨j, hj, hd, hb, hmin⟩ := h
    exact ⟨j, hle.trans hj, hd, hb, hall hmin⟩
  | «section» e =>
    obtain ⟨hj, hd, hb, hmin⟩ := h
    exact ⟨hle.trans hj, hd, hb, hall hmin⟩

/-- The fuelled loop answers the verdict; induction on the fuel, which outlasts the bytes left. -/
theorem scanTrailerLines_verdict (t : Bytes) :
    ∀ fuel offset, t.length ≤ offset + fuel →
      TrailerVerdict t offset (scanTrailerLines t (fuel + 1) offset) := by
  intro fuel
  induction fuel with
  | zero =>
    intro offset h
    have hnone : findByte lf t offset = none := by
      refine findByte_eq_none_iff.mpr fun j hj hb => ?_
      have := (List.getElem?_eq_some_iff.mp hb).1
      omega
    exact scanTrailerLines_none hnone
  | succ fuel ih =>
    intro offset h
    cases hf : findByte lf t offset with
    | none => exact scanTrailerLines_none hf
    | some i =>
      obtain ⟨hi, hlf, hfirst⟩ := findByte_eq_some_iff.mp hf
      have hmin : ∀ j, offset ≤ j → j < i → ¬ DecisiveAt t j := fun j hj hji hd => hfirst j hj hji hd.1
      rw [scanTrailerLines]
      simp only [hf]
      by_cases hbare : i = 0 ∨ t[i - 1]? ≠ some cr
      · rw [if_pos hbare]
        exact ⟨i, hi, ⟨hlf, .inl hbare⟩, hbare, hmin⟩
      · rw [if_neg hbare]
        by_cases hend : 3 ≤ i ∧ t[i - 2]? = some lf
        · rw [if_pos hend]
          have hthree : i - 3 + 3 = i := by omega
          refine ⟨by omega, ?_, ?_, ?_⟩ <;> rw [hthree]
          · exact ⟨hlf, .inr hend⟩
          · exact hbare
          · exact hmin
        · rw [if_neg hend]
          -- this LF ends a field line only: the loop goes on behind it
          refine (ih (i + 1) (by omega)).skip (by omega) fun j hj hji hd => ?_
          rcases Nat.lt_or_ge j i with hlt | hge
          · exact hmin j hj hlt hd
          · obtain rfl : j = i := by omega
            exact hd.2.elim hbare hend

theorem scanTrailers_verdict (t : Bytes) (offset : Nat) : TrailerVerdict t offset (scanTrailers t offset) :=
  scanTrailerLines_verdict t t.length offset (Nat.le_add_left _ _)

/-- The first `offset` bytes hold no LF that ends the scan. -/
def UndecidedBefore (t : Bytes) (offset : Nat) : Prop := ∀ j, j < offset → ¬ DecisiveAt t j

/-- **A resumed trailer scan is the scan from the start.** -/
theorem scanTrailers_resume (h : UndecidedBefore t offset) : scanTrailers t offset = scanTrailers t 0 :=
  ((scanTrailers_verdict t offset).skip (Nat.zero_le _) fun j _ hj => h j hj).unique
    (scanTrailers_verdict t 0)

theorem undecidedBefore_of_needMore (h : scanTrailers t 0 = .needMore) : UndecidedBefore t t.length := by
  have hv := scanTrailers_verdict t 0
  rw [h] at hv
  exact fun j _ => hv.1 j (Nat.zero_le j)

theorem le_of_scanTrailers_section {trailerEnd : Nat} (h : scanTrailers t 0 = .section trailerEnd) :
    trailerEnd + 4 ≤ t.length := by
  have hv := scanTrailers_verdict t 0
  rw [h] at hv
  exact hv.2.1.lt_length

/-- What an LF decides is settled by the bytes up to it. -/
theorem decisiveAt_append {more : Bytes} (hj : j < t.length) : DecisiveAt (t ++ more) j ↔ DecisiveAt t j := by
  simp only [DecisiveAt, BareAt, EndsSectionAt, List.getElem?_append_left hj,
    List.getElem?_append_left (show j - 1 < t.length by omega),
    List.getElem?_append_left (show j - 2 < t.length by omega)]

theorem UndecidedBefore.append (more : Bytes) (hle : offset ≤ t.length) (h : UndecidedBefore t offset) :
    UndecidedBefore (t ++ more) offset :=
  fun j hj hd => h j hj ((decisiveAt_append (by omega)).mp hd)

theorem NoLineFeedBefore.append (more : Bytes) (hle : offset ≤ line.length) (h : NoLineFeedBefore line offset) :
    NoLineFeedBefore (line ++ more) offset := by
  intro j hj
  rw [List.getElem?_append_left (by omega)]
  exact h j hj

/-- **A decided trailer scan is unchanged by later bytes.** -/
theorem scanTrailers_append (more : Bytes) (hfull : maxHttpHeaderBytes ≤ t.length → more = [])
    (h : scanTrailers t 0 ≠ .needMore) :
    scanTrailers (t ++ more) 0 = scanTrailers t 0 := by
  refine (scanTrailers_verdict (t ++ more) 0).unique ?_
  have hv := scanTrailers_verdict t 0
  cases hr : scanTrailers t 0 with
  | needMore => exact absurd hr h
  | limit =>
    rw [hr] at hv
    rw [hfull hv.2, List.append_nil]
    exact hv
  | bareLineFeed =>
    rw [hr] at hv
    obtain ⟨j, hj, hd, hb, hmin⟩ := hv
    have hlt := hd.lt_length
    refine ⟨j, hj, (decisiveAt_append hlt).mpr hd, ?_, fun i hi hij hdi => ?_⟩
    · rw [BareAt, List.getElem?_append_left (show j - 1 < t.length by omega)]
      exact hb
    · exact hmin i hi hij ((decisiveAt_append (by omega)).mp hdi)
  | «section» e =>
    rw [hr] at hv
    obtain ⟨hj, hd, hb, hmin⟩ := hv
    have hlt := hd.lt_length
    refine ⟨hj, (decisiveAt_append hlt).mpr hd, ?_, fun i hi hij hdi => ?_⟩
    · rw [BareAt, List.getElem?_append_left (show e + 3 - 1 < t.length by omega)]
      exact hb
    · exact hmin i hi hij ((decisiveAt_append (by omega)).mp hdi)

end Ruvia.Http
