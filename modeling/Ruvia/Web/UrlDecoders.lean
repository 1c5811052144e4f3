import Ruvia.Http.UrlEncoding

/-!
# `Web.UrlDecoders` — the decoders of URL components

Three decoders read percent-encoded text: `decode_url_component` of `url_encoding.h`, and
`decode_url_component_in_arena` and `decode_request_path` of `static_path_normalization.h`, which share
`decode_url_bytes`. They differ in where the decoded bytes go: the first borrows its input until something has to be
decoded and then goes on in the storage or beside it; the other two search first and then write into a buffer of the
input's size.

Here they are modelled with their buffers. What they decode is one function, `Http.decodeUrlComponent`, which says
nothing of storage; each decoder is compared with it.
-/

namespace Ruvia.Web

open Library Ruvia.Http

/-! ## `decode_url_component` -/

/-- What a returned view looks at. -/
inductive DecodedView where
  | input
  | storage
  deriving DecidableEq, Repr

/-- The view, if the text was accepted, and the storage that is left. -/
structure DecodeOutcome where
  view : Option DecodedView
  storage : Bytes
  deriving DecidableEq, Repr

/-- The text behind the view. -/
def DecodeOutcome.value (outcome : DecodeOutcome) (input : Bytes) : Option Bytes :=
  outcome.view.map fun view =>
    match view with
    | .input => input
    | .storage => outcome.storage

inductive DecodeTarget where
  | storage
  | staged
  deriving DecidableEq, Repr

/-- No target means that nothing has been decoded yet. -/
structure DecodeBuffers where
  target : Option DecodeTarget
  storage : Bytes
  staged : Bytes
  deriving DecidableEq, Repr

namespace DecodeBuffers

/-- `target->push_back(c)`; without a target the byte stays in the input. -/
def push (buffers : DecodeBuffers) (byte : UInt8) : DecodeBuffers :=
  match buffers.target with
  | none => buffers
  | some .storage => { buffers with storage := buffers.storage ++ [byte] }
  | some .staged => { buffers with staged := buffers.staged ++ [byte] }

/-- The first decoded byte chooses the target: the storage when it may be overwritten, a string beside it otherwise.
`front` is the input up to here, and `aliases` is `http_text_aliases_string`. -/
def start (mode : UrlDecodeMode) (aliases : Bool) (front : Bytes) (buffers : DecodeBuffers) : DecodeBuffers :=
  match buffers.target with
  | some _ => buffers
  | none =>
    if (mode = .form ∨ buffers.storage = []) ∧ aliases = false then
      { target := some .storage, storage := front, staged := buffers.staged }
    else { target := some .staged, storage := buffers.storage, staged := front }

def rejected (buffers : DecodeBuffers) : DecodeOutcome :=
  ⟨none, if buffers.target = some .storage then [] else buffers.storage⟩

def finished (buffers : DecodeBuffers) : DecodeOutcome :=
  match buffers.target with
  | none => ⟨some .input, buffers.storage⟩
  | some .storage => ⟨some .storage, buffers.storage⟩
  | some .staged => ⟨some .storage, buffers.staged⟩

end DecodeBuffers

/-- The loop of `decode_url_component`, in front of the rest of the input. -/
def decodeUrlComponentLoop (mode : UrlDecodeMode) (aliases : Bool) (front : Bytes) :
    Bytes → DecodeBuffers → DecodeOutcome
  | [], buffers => buffers.finished
  | byte :: rest, buffers =>
    if mode = .form ∧ byte = plusSign then
      decodeUrlComponentLoop mode aliases (front ++ [byte]) rest ((buffers.start mode aliases front).push space)
    else if byte = percent then
      match httpTryDecodePercentByte (byte :: rest) with
      | some decoded =>
        decodeUrlComponentLoop mode aliases (front ++ byte :: rest.take 2) (rest.drop 2)
          ((buffers.start mode aliases front).push (UInt8.ofNat decoded))
      | none =>
        if mode = .form then decodeUrlComponentLoop mode aliases (front ++ [byte]) rest (buffers.push byte)
        else buffers.rejected
    else decodeUrlComponentLoop mode aliases (front ++ [byte]) rest (buffers.push byte)
termination_by input => input.length
decreasing_by
  all_goals simp only [List.length_drop, List.length_cons]
  all_goals omega

def decodeUrlComponentInto (mode : UrlDecodeMode) (aliases : Bool) (input storage : Bytes) : DecodeOutcome :=
  decodeUrlComponentLoop mode aliases [] input ⟨none, storage, []⟩

/-! ## `decode_url_bytes` and its callers -/

def isEncodedByte (mode : UrlDecodeMode) (byte : UInt8) : Bool :=
  byte == percent || (mode == .form && byte == plusSign)

/-- The scalar scan of the front and the library search of the rest. -/
def hasUrlEncoding (value : Bytes) (mode : UrlDecodeMode) : Bool :=
  let front := value.take (if value.length ≤ 64 then value.length else 32)
  if front.any (isEncodedByte mode) then true
  else if front.length = value.length then false
  else (value.drop front.length).any (isEncodedByte mode)

/-- `output[size++] = c` over the rest of the input. -/
def decodeUrlBytes (mode : UrlDecodeMode) (rejectEncodedSeparators : Bool) :
    Bytes → Nat → Bytes → Option Nat × Bytes
  | [], size, output => (some size, output)
  | byte :: rest, size, output =>
    if mode = .form ∧ byte = plusSign then
      decodeUrlBytes mode rejectEncodedSeparators rest (size + 1) (output.set size space)
    else if byte = percent then
      match httpTryDecodePercentByte (byte :: rest) with
      | some decoded =>
        if rejectEncodedSeparators ∧ (UInt8.ofNat decoded = Http.slash ∨ UInt8.ofNat decoded = Http.backslash) then
          (none, output)
        else
          decodeUrlBytes mode rejectEncodedSeparators (rest.drop 2) (size + 1) (output.set size (UInt8.ofNat decoded))
      | none =>
        if mode = .form then decodeUrlBytes mode rejectEncodedSeparators rest (size + 1) (output.set size byte)
        else (none, output)
    else decodeUrlBytes mode rejectEncodedSeparators rest (size + 1) (output.set size byte)
termination_by input => input.length
decreasing_by
  all_goals simp only [List.length_drop, List.length_cons]
  all_goals omega

/-- `garbage` is what a fresh allocation holds. -/
def decodeUrlComponentInArena (garbage : Nat → UInt8) (input : Bytes) (mode : UrlDecodeMode)
    (rejectEncodedSeparators : Bool) : Option Bytes :=
  if hasUrlEncoding input mode = false then some input
  else
    let (size, output) := decodeUrlBytes mode rejectEncodedSeparators input 0 ((List.range input.length).map garbage)
    size.map output.take

/-- `std::string::resize`. -/
def resizeText (text : Bytes) (size : Nat) : Bytes := text.take size ++ List.replicate (size - text.length) 0

def decodeRequestPath (path storage : Bytes) : DecodeOutcome :=
  if hasUrlEncoding path .percent = false then ⟨some .input, storage⟩
  else
    let (size, output) := decodeUrlBytes .percent true path 0 (resizeText storage path.length)
    match size with
    | none => ⟨none, output⟩
    | some size => ⟨some .storage, resizeText output size⟩

/-! ## Triplets -/

theorem ne_of_isSome_hexNibble {byte other : UInt8} (h : (httpDecodeHexNibble byte).isSome)
    (hother : httpDecodeHexNibble other = none) : byte ≠ other := by
  rintro rfl
  rw [hother] at h
  cases h

/-! ## Writing into a target -/

namespace DecodeBuffers

variable {mode : UrlDecodeMode} {aliases : Bool} {buffers : DecodeBuffers} {target : DecodeTarget}

/-- `push` of several bytes. -/
def append (buffers : DecodeBuffers) (bytes : Bytes) : DecodeBuffers :=
  match buffers.target with
  | none => buffers
  | some .storage => { buffers with storage := buffers.storage ++ bytes }
  | some .staged => { buffers with staged := buffers.staged ++ bytes }

@[simp] theorem push_target (buffers : DecodeBuffers) (byte : UInt8) : (buffers.push byte).target = buffers.target := by
  unfold push
  split <;> simp_all

@[simp] theorem append_nil (buffers : DecodeBuffers) : buffers.append [] = buffers := by
  obtain ⟨target, storage, staged⟩ := buffers
  rcases target with _ | _ | _ <;> simp [append]

@[simp] theorem append_push (buffers : DecodeBuffers) (byte : UInt8) (bytes : Bytes) :
    (buffers.push byte).append bytes = buffers.append (byte :: bytes) := by
  obtain ⟨target, storage, staged⟩ := buffers
  rcases target with _ | _ | _ <;> simp [append, push]

theorem start_of_target (h : buffers.target = some target) (front : Bytes) :
    buffers.start mode aliases front = buffers := by
  simp [start, h]

theorem exists_target_start (mode : UrlDecodeMode) (aliases : Bool) (front : Bytes) (buffers : DecodeBuffers)
    (byte : UInt8) : ∃ target, ((buffers.start mode aliases front).push byte).target = some target := by
  rw [push_target]
  unfold start
  split
  · exact ⟨_, by assumption⟩
  · split <;> exact ⟨_, rfl⟩

theorem rejected_push (h : buffers.target = some target) (byte : UInt8) :
    (buffers.push byte).rejected = buffers.rejected := by
  obtain ⟨_, storage, staged⟩ := buffers
  obtain rfl := h
  cases target <;> rfl

end DecodeBuffers

variable {mode : UrlDecodeMode} {aliases : Bool}

/-- The loop with a target: what is decoded is appended, and a rejection empties the storage that was written. -/
theorem decodeUrlComponentLoop_of_target {target : DecodeTarget} (rest front : Bytes) (buffers : DecodeBuffers)
    (h : buffers.target = some target) :
    decodeUrlComponentLoop mode aliases front rest buffers =
      (decodeUrlComponent mode rest).elim buffers.rejected fun tail => (buffers.append tail).finished := by
  fun_induction decodeUrlComponent mode rest generalizing front buffers with
  | case1 => rw [decodeUrlComponentLoop, Option.elim_some, DecodeBuffers.append_nil]
  | case2 byte rest hplus ih =>
    rw [decodeUrlComponentLoop, if_pos hplus, DecodeBuffers.start_of_target h, ih _ _ (by simpa using h)]
    rw [DecodeBuffers.rejected_push h]
    cases decodeUrlComponent mode rest <;> simp
  | case3 rest decoded hplus hdecoded ih =>
    rw [decodeUrlComponentLoop, if_neg hplus, if_pos rfl]
    simp only [hdecoded]
    rw [DecodeBuffers.start_of_target h, ih _ _ (by simpa using h), DecodeBuffers.rejected_push h]
    cases decodeUrlComponent mode (rest.drop 2) <;> simp
  | case4 rest hform hplus hnone ih =>
    rw [decodeUrlComponentLoop, if_neg hplus, if_pos rfl]
    simp only [hnone, if_pos hform]
    rw [ih _ _ (by simpa using h), DecodeBuffers.rejected_push h]
    cases decodeUrlComponent mode rest <;> simp
  | case5 rest hform hplus hnone =>
    rw [decodeUrlComponentLoop, if_neg hplus, if_pos rfl]
    simp only [hnone, if_neg hform, Option.elim_none]
  | case6 byte rest hplus hpercent ih =>
    rw [decodeUrlComponentLoop, if_neg hplus, if_neg hpercent, ih _ _ (by simpa using h)]
    rw [DecodeBuffers.rejected_push h]
    cases decodeUrlComponent mode rest <;> simp

/-! ## Borrowing the input -/

/-- Form mode rejects nothing. -/
theorem decodeUrlComponent_form (input : Bytes) : ∃ bytes, decodeUrlComponent .form input = some bytes := by
  fun_induction decodeUrlComponent .form input with
  | case1 => exact ⟨[], rfl⟩
  | case2 byte rest hplus ih | case3 rest decoded hplus hdecoded ih | case4 rest hform hplus hnone ih =>
    obtain ⟨bytes, hbytes⟩ := ih
    exact ⟨_, by rw [hbytes]; rfl⟩
  | case5 rest hform hplus hnone => exact absurd rfl hform
  | case6 byte rest hplus hpercent ih =>
    obtain ⟨bytes, hbytes⟩ := ih
    exact ⟨_, by rw [hbytes]; rfl⟩

/-- The outcome stands for `decoded`: its text, and the storage as it was unless the text is there. -/
def DecodeOutcome.Answers (outcome : DecodeOutcome) (input storage : Bytes) (decoded : Option Bytes) : Prop :=
  outcome.value input = decoded ∧ (outcome.view ≠ some .storage → outcome.storage = storage)

/-- The first decoded byte: the front of the input is copied in front of it, and the rest is decoded behind it. -/
theorem answers_start {front storage input : Bytes} {byte : UInt8} {decoded : Option Bytes}
    (hdecoded : decoded = none → mode ≠ .form) :
    (decoded.elim (((DecodeBuffers.mk none storage []).start mode aliases front).push byte).rejected fun tail =>
      ((((DecodeBuffers.mk none storage []).start mode aliases front).push byte).append tail).finished).Answers
        input storage (decoded.map fun tail => front ++ byte :: tail) := by
  by_cases hplace : (mode = .form ∨ storage = []) ∧ aliases = false
  · have hstart : (DecodeBuffers.mk none storage []).start mode aliases front = ⟨some .storage, front, []⟩ := by
      simp [DecodeBuffers.start, hplace]
    rw [hstart]
    cases decoded with
    | none =>
      -- Only percent mode rejects, and it writes in place only where there was nothing.
      have hempty : storage = [] := hplace.1.resolve_left (hdecoded rfl)
      exact ⟨rfl, fun _ => hempty.symm⟩
    | some tail => exact ⟨by simp [DecodeBuffers.push, DecodeBuffers.append, DecodeBuffers.finished,
        DecodeOutcome.value], fun h => absurd rfl h⟩
  · have hstart : (DecodeBuffers.mk none storage []).start mode aliases front = ⟨some .staged, storage, front⟩ := by
      simp [DecodeBuffers.start, hplace]
    rw [hstart]
    cases decoded with
    | none => exact ⟨rfl, fun _ => rfl⟩
    | some tail => exact ⟨by simp [DecodeBuffers.push, DecodeBuffers.append, DecodeBuffers.finished,
        DecodeOutcome.value], fun h => absurd rfl h⟩

/-- **The loop without a target**: the input up to here needed no decoding. -/
theorem decodeUrlComponentLoop_untouched {mode : UrlDecodeMode} {aliases : Bool} {input storage : Bytes}
    (rest front : Bytes) (h : front ++ rest = input) :
    (decodeUrlComponentLoop mode aliases front rest ⟨none, storage, []⟩).Answers input storage
      ((decodeUrlComponent mode rest).map (front ++ ·)) := by
  have hform : ∀ rest, decodeUrlComponent mode rest = none → mode ≠ .form := by
    rintro rest hnone rfl
    obtain ⟨bytes, hbytes⟩ := decodeUrlComponent_form rest
    rw [hbytes] at hnone
    cases hnone
  fun_induction decodeUrlComponent mode rest generalizing front with
  | case1 =>
    rw [decodeUrlComponentLoop]
    exact ⟨congrArg some (by rw [← h]), fun _ => rfl⟩
  | case2 byte rest hplus ih =>
    obtain ⟨target, htarget⟩ := DecodeBuffers.exists_target_start mode aliases front ⟨none, storage, []⟩ space
    rw [decodeUrlComponentLoop, if_pos hplus, Option.map_map, decodeUrlComponentLoop_of_target _ _ _ htarget]
    exact answers_start (hform rest)
  | case3 rest decoded hplus hdecoded ih =>
    obtain ⟨target, htarget⟩ :=
      DecodeBuffers.exists_target_start mode aliases front ⟨none, storage, []⟩ (UInt8.ofNat decoded)
    rw [decodeUrlComponentLoop, if_neg hplus, if_pos rfl]
    simp only [hdecoded]
    rw [Option.map_map, decodeUrlComponentLoop_of_target _ _ _ htarget]
    exact answers_start (hform (rest.drop 2))
  | case4 rest hform' hplus hnone ih =>
    rw [decodeUrlComponentLoop, if_neg hplus, if_pos rfl]
    simp only [hnone, if_pos hform']
    have hrest := ih (front ++ [percent]) (by rw [← h, List.append_assoc]; rfl)
    simpa only [Option.map_map, Function.comp_def, List.append_assoc, List.singleton_append,
      DecodeBuffers.push] using hrest
  | case5 rest hform' hplus hnone =>
    rw [decodeUrlComponentLoop, if_neg hplus, if_pos rfl]
    simp only [hnone, if_neg hform']
    exact ⟨rfl, fun _ => rfl⟩
  | case6 byte rest hplus hpercent ih =>
    rw [decodeUrlComponentLoop, if_neg hplus, if_neg hpercent]
    have hrest := ih (front ++ [byte]) (by rw [← h, List.append_assoc]; rfl)
    simpa only [Option.map_map, Function.comp_def, List.append_assoc, List.singleton_append,
      DecodeBuffers.push] using hrest

/-- **`decode_url_component` decodes**, and it leaves the storage alone unless the text is there. -/
theorem decodeUrlComponentInto_answers (mode : UrlDecodeMode) (aliases : Bool) (input storage : Bytes) :
    (decodeUrlComponentInto mode aliases input storage).Answers input storage (decodeUrlComponent mode input) := by
  have h := @decodeUrlComponentLoop_untouched mode aliases input storage input [] rfl
  simpa only [decodeUrlComponentInto, List.nil_append, Option.map_id'] using h

/-! ## Encoded separators -/

/-- A triplet that stands for a separator. -/
def separatorTriplet (text : Bytes) : Bool :=
  (httpTryDecodePercentByte text).any fun decoded =>
    UInt8.ofNat decoded == Http.slash || UInt8.ofNat decoded == Http.backslash

/-- Some triplet of the text stands for a separator. -/
def revealsSeparator (text : Bytes) : Bool := text.tails.any separatorTriplet

@[simp] theorem revealsSeparator_nil : revealsSeparator [] = false := rfl

theorem revealsSeparator_cons (byte : UInt8) (rest : Bytes) :
    revealsSeparator (byte :: rest) = (separatorTriplet (byte :: rest) || revealsSeparator rest) := by
  rw [revealsSeparator, List.tails_cons, List.any_cons, revealsSeparator]

theorem separatorTriplet_of_none {text : Bytes} (h : httpTryDecodePercentByte text = none) :
    separatorTriplet text = false := by
  rw [separatorTriplet, h]
  rfl

/-- No triplet starts inside a triplet. -/
theorem revealsSeparator_triplet {rest : Bytes} {decoded : Nat} {byte : UInt8}
    (h : httpTryDecodePercentByte (byte :: rest) = some decoded) :
    revealsSeparator (byte :: rest) = (separatorTriplet (byte :: rest) || revealsSeparator (rest.drop 2)) := by
  obtain ⟨high, low, behind, rfl, hhigh, hlow, -⟩ := triplet_cases h
  have hhigh := ne_of_isSome_hexNibble hhigh (show httpDecodeHexNibble percent = none by decide)
  have hlow := ne_of_isSome_hexNibble hlow (show httpDecodeHexNibble percent = none by decide)
  rw [revealsSeparator_cons, revealsSeparator_cons high, revealsSeparator_cons low,
    separatorTriplet_of_none (httpTryDecodePercentByte_of_ne hhigh _),
    separatorTriplet_of_none (httpTryDecodePercentByte_of_ne hlow _)]
  rfl

/-- What a decoder answers that may have to reject encoded separators. -/
def decodeChecked (mode : UrlDecodeMode) (rejectEncodedSeparators : Bool) (input : Bytes) : Option Bytes :=
  if rejectEncodedSeparators && revealsSeparator input then none else decodeUrlComponent mode input

/-! ## Writing into a buffer of the input's size -/

theorem take_set_succ {output : Bytes} {size : Nat} (h : size < output.length) (byte : UInt8) :
    (output.set size byte).take (size + 1) = output.take size ++ [byte] := by
  rw [List.take_add_one, List.take_set_of_le (Nat.le_refl size), List.getElem?_set_self h]
  rfl

section

variable {mode : UrlDecodeMode} {reject : Bool} {byte : UInt8} {rest : Bytes} {decoded : Nat}

/-- In front of a byte that starts no triplet the rest decides. -/
theorem decodeChecked_cons {written : UInt8} (hnone : httpTryDecodePercentByte (byte :: rest) = none)
    (h : decodeUrlComponent mode (byte :: rest) = (decodeUrlComponent mode rest).map (written :: ·)) :
    decodeChecked mode reject (byte :: rest) = (decodeChecked mode reject rest).map (written :: ·) := by
  unfold decodeChecked
  rw [revealsSeparator_cons, separatorTriplet_of_none hnone, Bool.false_or, h]
  split <;> rfl

theorem decodeChecked_plus (h : mode = .form ∧ byte = plusSign) :
    decodeChecked mode reject (byte :: rest) = (decodeChecked mode reject rest).map (space :: ·) := by
  refine decodeChecked_cons (httpTryDecodePercentByte_of_ne ?_ rest) ?_
  · rw [h.2]
    decide
  · rw [decodeUrlComponent, if_pos h]

theorem decodeChecked_literal (hplus : ¬ (mode = .form ∧ byte = plusSign)) (hpercent : byte ≠ percent) :
    decodeChecked mode reject (byte :: rest) = (decodeChecked mode reject rest).map (byte :: ·) := by
  refine decodeChecked_cons (httpTryDecodePercentByte_of_ne hpercent rest) ?_
  rw [decodeUrlComponent, if_neg hplus, if_neg hpercent]

section

variable (hplus : ¬ (mode = .form ∧ percent = plusSign))
include hplus

theorem decodeChecked_stray (hform : mode = .form)
    (hnone : httpTryDecodePercentByte (percent :: rest) = none) :
    decodeChecked mode reject (percent :: rest) = (decodeChecked mode reject rest).map (percent :: ·) := by
  refine decodeChecked_cons hnone ?_
  rw [decodeUrlComponent, if_neg hplus, if_pos rfl]
  simp only [hnone, if_pos hform]

theorem decodeChecked_malformed (hform : mode ≠ .form)
    (hnone : httpTryDecodePercentByte (percent :: rest) = none) :
    decodeChecked mode reject (percent :: rest) = none := by
  unfold decodeChecked
  rw [decodeUrlComponent, if_neg hplus, if_pos rfl]
  simp only [hnone, if_neg hform]
  split <;> rfl

theorem decodeChecked_triplet
    (h : httpTryDecodePercentByte (percent :: rest) = some decoded) :
    decodeChecked mode reject (percent :: rest) =
      if reject ∧ (UInt8.ofNat decoded = Http.slash ∨ UInt8.ofNat decoded = Http.backslash) then none
      else (decodeChecked mode reject (rest.drop 2)).map (UInt8.ofNat decoded :: ·) := by
  have hseparator : separatorTriplet (percent :: rest) =
      (UInt8.ofNat decoded == Http.slash || UInt8.ofNat decoded == Http.backslash) := by
    rw [separatorTriplet, h, Option.any_some]
  unfold decodeChecked
  rw [revealsSeparator_triplet h, hseparator, decodeUrlComponent, if_neg hplus, if_pos rfl]
  simp only [h]
  by_cases hsep : UInt8.ofNat decoded = Http.slash ∨ UInt8.ofNat decoded = Http.backslash
  · have htrue : (UInt8.ofNat decoded == Http.slash || UInt8.ofNat decoded == Http.backslash) = true := by
      simpa using hsep
    cases reject <;> simp [htrue, hsep]
  · have hfalse : (UInt8.ofNat decoded == Http.slash || UInt8.ofNat decoded == Http.backslash) = false := by
      simpa using hsep
    have hneither : ¬ (reject = true ∧ (UInt8.ofNat decoded = Http.slash ∨ UInt8.ofNat decoded = Http.backslash)) :=
      fun hboth => hsep hboth.2
    rw [hfalse, Bool.false_or, if_neg hneither]
    split <;> rfl

end

end

/-- The result of writing `decoded` from `size` on, inside the buffer. -/
def Writes (result : Option Nat × Bytes) (decoded : Option Bytes) (size : Nat) (output : Bytes) : Prop :=
  result.1.map result.2.take = decoded.map (output.take size ++ ·) ∧ result.2.length = output.length ∧
    ∀ n, result.1 = some n → n ≤ output.length

theorem Writes.step {result : Option Nat × Bytes} {decoded : Option Bytes} {size : Nat} {output : Bytes}
    {byte : UInt8} (h : Writes result decoded (size + 1) (output.set size byte)) (hroom : size < output.length) :
    Writes result (decoded.map (byte :: ·)) size output := by
  obtain ⟨hvalue, hlength, hbound⟩ := h
  rw [List.length_set] at hlength hbound
  refine ⟨?_, hlength, hbound⟩
  rw [hvalue, take_set_succ hroom, Option.map_map]
  simp only [Function.comp_def, List.append_assoc, List.singleton_append]

theorem Writes.none (size : Nat) (output : Bytes) : Writes (none, output) none size output :=
  ⟨rfl, rfl, nofun⟩

/-- **`decode_url_bytes` decodes over what the buffer held**, and never writes beyond it. -/
theorem decodeUrlBytes_writes (mode : UrlDecodeMode) (reject : Bool) (rest : Bytes) (size : Nat) (output : Bytes)
    (hroom : size + rest.length ≤ output.length) :
    Writes (decodeUrlBytes mode reject rest size output) (decodeChecked mode reject rest) size output := by
  fun_induction decodeUrlBytes mode reject rest size output with
  | case1 size output =>
    refine ⟨?_, rfl, ?_⟩
    · simp [decodeChecked, decodeUrlComponent]
    · rintro n ⟨⟩
      exact hroom
  | case2 size output byte rest hplus ih =>
    rw [List.length_cons] at hroom
    rw [decodeChecked_plus hplus]
    exact (ih (by rw [List.length_set]; omega)).step (by omega)
  | case3 size output rest decoded hsep hplus hdecoded =>
    rw [decodeChecked_triplet hplus hdecoded, if_pos hsep]
    exact Writes.none _ _
  | case4 size output rest decoded hsep hplus hdecoded ih =>
    rw [List.length_cons] at hroom
    rw [decodeChecked_triplet hplus hdecoded, if_neg hsep]
    exact (ih (by rw [List.length_set, List.length_drop]; omega)).step (by omega)
  | case5 size output rest hform hplus hnone ih =>
    rw [List.length_cons] at hroom
    rw [decodeChecked_stray hplus hform hnone]
    exact (ih (by rw [List.length_set]; omega)).step (by omega)
  | case6 size output rest hform hplus hnone =>
    rw [decodeChecked_malformed hplus hform hnone]
    exact Writes.none _ _
  | case7 size output byte rest hplus hpercent ih =>
    rw [List.length_cons] at hroom
    rw [decodeChecked_literal hplus hpercent]
    exact (ih (by rw [List.length_set]; omega)).step (by omega)

/-! ## Nothing to decode -/

theorem hasUrlEncoding_eq (value : Bytes) (mode : UrlDecodeMode) :
    hasUrlEncoding value mode = value.any (isEncodedByte mode) := by
  unfold hasUrlEncoding
  dsimp only
  generalize hfront : value.take (if value.length ≤ 64 then value.length else 32) = front
  have hsplit : value.any (isEncodedByte mode) =
      (front.any (isEncodedByte mode) || (value.drop front.length).any (isEncodedByte mode)) := by
    have hfront' : front <+: value := hfront ▸ List.take_prefix _ _
    rw [← List.any_append, List.prefix_iff_eq_append.mp hfront']
  rw [hsplit]
  by_cases hwhole : front.length = value.length
  · rw [hwhole, List.drop_length]
    cases front.any (isEncodedByte mode) <;> simp
  · cases front.any (isEncodedByte mode) <;> simp [hwhole]

/-- A text without encoded bytes stands for itself. -/
theorem decodeChecked_of_plain {input : Bytes} (reject : Bool) (h : input.any (isEncodedByte mode) = false) :
    decodeChecked mode reject input = some input := by
  induction input with
  | nil => simp [decodeChecked, decodeUrlComponent]
  | cons byte rest ih =>
    rw [List.any_cons, Bool.or_eq_false_iff] at h
    obtain ⟨hbyte, hrest⟩ := h
    simp only [isEncodedByte, Bool.or_eq_false_iff, beq_eq_false_iff_ne, Bool.and_eq_false_iff] at hbyte
    rw [decodeChecked_literal _ hbyte.1, ih hrest, Option.map_some]
    rintro ⟨rfl, rfl⟩
    simp at hbyte

theorem decodeUrlComponentInArena_eq (garbage : Nat → UInt8) (input : Bytes) (mode : UrlDecodeMode) (reject : Bool) :
    decodeUrlComponentInArena garbage input mode reject = decodeChecked mode reject input := by
  unfold decodeUrlComponentInArena
  rw [hasUrlEncoding_eq]
  by_cases h : input.any (isEncodedByte mode) = false
  · rw [if_pos h, decodeChecked_of_plain reject h]
  · rw [if_neg h]
    obtain ⟨hvalue, -, -⟩ := decodeUrlBytes_writes mode reject input 0 ((List.range input.length).map garbage) (by simp)
    simpa using hvalue

/-- A rejection leaves the storage with the size of the path. -/
theorem decodeRequestPath_eq (path storage : Bytes) :
    (decodeRequestPath path storage).value path = decodeChecked .percent true path ∧
      ((decodeRequestPath path storage).view = none →
        (decodeRequestPath path storage).storage.length = path.length) := by
  unfold decodeRequestPath
  rw [hasUrlEncoding_eq]
  by_cases h : path.any (isEncodedByte .percent) = false
  · rw [if_pos h, decodeChecked_of_plain true h]
    exact ⟨rfl, nofun⟩
  · rw [if_neg h]
    have hbuffer : (resizeText storage path.length).length = path.length := by
      simp only [resizeText, List.length_append, List.length_take, List.length_replicate]
      omega
    obtain ⟨hvalue, hlength, hbound⟩ :=
      decodeUrlBytes_writes .percent true path 0 (resizeText storage path.length) (by omega)
    revert hvalue hlength hbound
    generalize decodeUrlBytes .percent true path 0 (resizeText storage path.length) = result
    obtain ⟨size, output⟩ := result
    intro hvalue hlength hbound
    dsimp only at hvalue hlength hbound ⊢
    cases size with
    | none =>
      refine ⟨?_, fun _ => by rw [← hbuffer]; exact hlength⟩
      simpa [DecodeOutcome.value] using hvalue
    | some size =>
      have hfits : size - output.length = 0 := by
        have := hbound size rfl
        omega
      refine ⟨?_, nofun⟩
      simpa [DecodeOutcome.value, resizeText, hfits] using hvalue

/-! ## Acceptance -/

/-- Every `%` is followed by two hexadecimal digits. -/
def EscapesComplete (input : Bytes) : Prop :=
  ∀ i, input[i]? = some percent → ∃ high low, input[i + 1]? = some high ∧ input[i + 2]? = some low ∧
    (httpDecodeHexNibble high).isSome ∧ (httpDecodeHexNibble low).isSome

theorem httpTryDecodePercentByte_isSome (rest : Bytes) :
    (httpTryDecodePercentByte (percent :: rest)).isSome ↔ ∃ high low, rest[0]? = some high ∧ rest[1]? = some low ∧
      (httpDecodeHexNibble high).isSome ∧ (httpDecodeHexNibble low).isSome := by
  match rest with
  | [] | [high] => simp [httpTryDecodePercentByte]
  | high :: low :: behind =>
    cases hhigh : httpDecodeHexNibble high <;> cases hlow : httpDecodeHexNibble low <;>
      simp [httpTryDecodePercentByte, hhigh, hlow]

theorem escapesComplete_cons (byte : UInt8) (rest : Bytes) :
    EscapesComplete (byte :: rest) ↔
      (byte = percent → (httpTryDecodePercentByte (byte :: rest)).isSome) ∧ EscapesComplete rest := by
  have hfirst : (byte = percent → (httpTryDecodePercentByte (byte :: rest)).isSome) ↔
      ((byte :: rest)[0]? = some percent → ∃ high low, rest[0]? = some high ∧ rest[1]? = some low ∧
        (httpDecodeHexNibble high).isSome ∧ (httpDecodeHexNibble low).isSome) := by
    rw [List.getElem?_cons_zero, Option.some.injEq]
    refine imp_congr_right ?_
    rintro rfl
    exact httpTryDecodePercentByte_isSome rest
  rw [hfirst]
  constructor
  · intro h
    exact ⟨fun hbyte => h 0 hbyte, fun i hi => h (i + 1) hi⟩
  · rintro ⟨hbyte, hrest⟩ i hi
    cases i with
    | zero => exact hbyte hi
    | succ i => exact hrest i hi

theorem decodeUrlComponent_percent_iff (input : Bytes) :
    (decodeUrlComponent .percent input).isSome ↔ EscapesComplete input := by
  fun_induction decodeUrlComponent .percent input with
  | case1 => simp [EscapesComplete]
  | case2 byte rest hplus ih => cases hplus.1
  | case3 rest decoded hplus hdecoded ih =>
    obtain ⟨high, low, behind, rfl, hhigh, hlow, -⟩ := triplet_cases hdecoded
    have hhigh := ne_of_isSome_hexNibble hhigh (show httpDecodeHexNibble percent = none by decide)
    have hlow := ne_of_isSome_hexNibble hlow (show httpDecodeHexNibble percent = none by decide)
    rw [Option.isSome_map, ih, escapesComplete_cons, escapesComplete_cons high, escapesComplete_cons low, hdecoded]
    simp [hhigh, hlow]
  | case4 rest hform hplus hnone ih => cases hform
  | case5 rest hform hplus hnone =>
    rw [escapesComplete_cons, hnone]
    simp
  | case6 byte rest hplus hpercent ih =>
    rw [Option.isSome_map, ih, escapesComplete_cons]
    simp [hpercent]

/-- **The decoders agree.** `decode_url_component` and the decoder in the arena accept the same texts and produce the
    same bytes, whatever their buffers hold; percent mode accepts exactly the texts whose `%` are all followed by two
    hexadecimal digits, and form mode accepts every text. Asked to reject encoded separators, as
    `decode_request_path` is, they accept the same texts less those that have one. A rejection by
    `decode_url_component` leaves the storage as it was. -/
theorem url_decoders_agree (input : Bytes) :
    (∀ mode aliases storage garbage, decodeUrlComponentInArena garbage input mode false =
      (decodeUrlComponentInto mode aliases input storage).value input) ∧
    (∀ mode aliases storage garbage, decodeUrlComponentInArena garbage input mode true =
      if revealsSeparator input then none else (decodeUrlComponentInto mode aliases input storage).value input) ∧
    (∀ aliases storage buffer, (decodeRequestPath input buffer).value input =
      if revealsSeparator input then none else (decodeUrlComponentInto .percent aliases input storage).value input) ∧
    (∀ aliases storage, (decodeUrlComponentInto .percent aliases input storage).view.isSome ↔ EscapesComplete input) ∧
    (∀ aliases storage, (decodeUrlComponentInto .form aliases input storage).view.isSome) ∧
    ∀ mode aliases storage, (decodeUrlComponentInto mode aliases input storage).view = none →
      (decodeUrlComponentInto mode aliases input storage).storage = storage := by
  have hvalue : ∀ mode aliases storage,
      (decodeUrlComponentInto mode aliases input storage).value input = decodeUrlComponent mode input :=
    fun mode aliases storage => (decodeUrlComponentInto_answers mode aliases input storage).1
  have hview : ∀ mode aliases storage,
      (decodeUrlComponentInto mode aliases input storage).view.isSome = (decodeUrlComponent mode input).isSome := by
    intro mode aliases storage
    rw [← hvalue mode aliases storage, DecodeOutcome.value, Option.isSome_map]
  refine ⟨?_, ?_, ?_, ?_, ?_, ?_⟩
  · intro mode aliases storage garbage
    rw [decodeUrlComponentInArena_eq, hvalue]
    rfl
  · intro mode aliases storage garbage
    rw [decodeUrlComponentInArena_eq, hvalue]
    rfl
  · intro aliases storage buffer
    rw [(decodeRequestPath_eq input buffer).1, hvalue]
    rfl
  · intro aliases storage
    rw [hview]
    exact decodeUrlComponent_percent_iff input
  · intro aliases storage
    obtain ⟨bytes, hbytes⟩ := decodeUrlComponent_form input
    rw [hview, hbytes]
    rfl
  · intro mode aliases storage hnone
    apply (decodeUrlComponentInto_answers mode aliases input storage).2
    rw [hnone]
    exact nofun

/-- Form mode keeps a stray `%`, a request path may not hide a separator, and its rejection has resized the storage. -/
theorem url_decoders_agree_fails :
    ((decodeUrlComponentInto .form false (lit "%") []).view.isSome ∧ ¬ EscapesComplete (lit "%")) ∧
    ((decodeRequestPath (lit "%2F") []).view = none ∧
      (decodeUrlComponentInto .percent false (lit "%2F") []).view.isSome) ∧
    ((decodeRequestPath (lit "%") []).view = none ∧ (decodeRequestPath (lit "%") []).storage ≠ []) := by
  refine ⟨⟨by decide +kernel, ?_⟩, by decide +kernel, by decide +kernel⟩
  rw [← decodeUrlComponent_percent_iff]
  decide +kernel

end Ruvia.Web
