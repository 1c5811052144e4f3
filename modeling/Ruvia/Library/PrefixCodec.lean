import Ruvia.Library.ByteString

/-!
# `Library.PrefixCodec` — readers and the writers they invert

A reader takes a value off the front of a byte string and returns the rest, or fails. It inverts a writer when it
succeeds exactly on what the writer writes (`Inverts`): the text of a value is read back whatever follows it, and
nothing else is accepted. Both directions of a round trip are one equivalence, and it is closed under sequence
(`Inverts.bind`) and repetition (`Inverts.times`). `FailsIn` bounds the errors of a computation in the same way.
-/

namespace Library

/-- A reader of the front of a byte string. -/
abbrev Reader (ε α : Type) := Bytes → Except ε (α × Bytes)

variable {ε α β : Type}

/-- The reader succeeds exactly on the texts of the valid values, and leaves what follows. -/
def Inverts (read : Reader ε α) (write : α → Bytes) (valid : α → Prop) : Prop :=
  ∀ bytes a rest, read bytes = .ok (a, rest) ↔ valid a ∧ bytes = write a ++ rest

/-- Every error of a computation is one of these. -/
def FailsIn (errors : ε → Prop) (result : Except ε α) : Prop := ∀ error, result = .error error → errors error

section

variable {errors : ε → Prop}

theorem ok_bind (a : α) (k : α → Except ε β) : (Except.ok a).bind k = k a := rfl

theorem bind_bind {γ : Type} (result : Except ε α) (k : α → Except ε β) (k' : β → Except ε γ) :
    (result.bind k).bind k' = result.bind fun a => (k a).bind k' := by
  cases result <;> rfl

theorem bind_eq_ok_iff {result : Except ε α} {k : α → Except ε β} {b : β} :
    result.bind k = .ok b ↔ ∃ a, result = .ok a ∧ k a = .ok b := by
  constructor
  · intro h
    cases result with
    | error error => cases h
    | ok a => exact ⟨a, rfl, h⟩
  · rintro ⟨a, rfl, h⟩
    exact h

theorem map_eq_ok_iff {result : Except ε α} {f : α → β} {b : β} :
    result.map f = .ok b ↔ ∃ a, result = .ok a ∧ f a = b := by
  constructor
  · intro h
    cases result with
    | error error => cases h
    | ok a => exact ⟨a, rfl, Except.ok.inj h⟩
  · rintro ⟨a, rfl, rfl⟩
    rfl

theorem of_ite_error {p : Prop} [Decidable p] {error : ε} {result : Except ε α} {a : α}
    (h : (if p then .error error else result) = .ok a) : ¬ p ∧ result = .ok a := by
  split at h
  · cases h
  next hp => exact ⟨hp, h⟩

theorem FailsIn.ok (a : α) : FailsIn errors (.ok a) := nofun

theorem FailsIn.error {error : ε} (h : errors error) : FailsIn errors (.error error : Except ε α) := by
  intro other hother
  cases hother
  exact h

theorem FailsIn.bind {result : Except ε α} {k : α → Except ε β} (h : FailsIn errors result)
    (hk : ∀ a, result = .ok a → FailsIn errors (k a)) : FailsIn errors (result.bind k) := by
  cases result with
  | error error => exact FailsIn.error (h error rfl)
  | ok a => exact hk a rfl

/-- A check in front of a computation. -/
theorem FailsIn.ite {p : Prop} [Decidable p] {error : ε} {result : Except ε α} (herror : errors error)
    (h : ¬ p → FailsIn errors result) : FailsIn errors (if p then .error error else result) := by
  split
  · exact FailsIn.error herror
  · rename_i hp
    exact h hp

end

section

variable {read : Reader ε α} {write : α → Bytes} {valid : α → Prop}

/-- **Sequence**: what comes behind a reader sees the rest of a valid text. -/
theorem Inverts.bind (h : Inverts read write valid) {k : α × Bytes → Except ε β} {bytes : Bytes} {b : β} :
    (read bytes).bind k = .ok b ↔ ∃ a rest, valid a ∧ bytes = write a ++ rest ∧ k (a, rest) = .ok b := by
  rw [bind_eq_ok_iff]
  constructor
  · rintro ⟨⟨a, rest⟩, hread, hk⟩
    obtain ⟨hvalid, hbytes⟩ := (h bytes a rest).mp hread
    exact ⟨a, rest, hvalid, hbytes, hk⟩
  · rintro ⟨a, rest, hvalid, hbytes, hk⟩
    exact ⟨(a, rest), (h bytes a rest).mpr ⟨hvalid, hbytes⟩, hk⟩

/-- What a reader leaves is no longer than what it was given. -/
theorem Inverts.length_le (h : Inverts read write valid) {bytes rest : Bytes} {a : α}
    (hread : read bytes = .ok (a, rest)) : rest.length ≤ bytes.length := by
  obtain ⟨-, rfl⟩ := (h bytes a rest).mp hread
  rw [List.length_append]
  exact Nat.le_add_left _ _

/-- The same reader `n` times. -/
def times (read : Reader ε α) : Nat → Reader ε (List α)
  | 0, bytes => .ok ([], bytes)
  | n + 1, bytes => (read bytes).bind fun (a, rest) =>
    (times read n rest).bind fun (as, rest) => .ok (a :: as, rest)

/-- **Repetition**: a list of the given length, one text behind the other. -/
theorem Inverts.times (h : Inverts read write valid) (n : Nat) :
    Inverts (Library.times read n) (·.flatMap write) (fun as => as.length = n ∧ ∀ a ∈ as, valid a) := by
  induction n with
  | zero =>
    intro bytes as rest
    rw [Library.times, Except.ok.injEq, Prod.mk.injEq]
    constructor
    · rintro ⟨rfl, rfl⟩
      exact ⟨⟨rfl, nofun⟩, rfl⟩
    · rintro ⟨⟨hlength, -⟩, hbytes⟩
      rw [List.length_eq_zero_iff] at hlength
      subst hlength
      exact ⟨rfl, hbytes⟩
  | succ n ih =>
    intro bytes as rest
    rw [Library.times, h.bind]
    constructor
    · rintro ⟨a, next, hvalid, rfl, hk⟩
      obtain ⟨tail, rest', ⟨hlength, hall⟩, rfl, hresult⟩ := ih.bind.mp hk
      cases hresult
      refine ⟨⟨by rw [List.length_cons, hlength], fun b hb => ?_⟩, (List.append_assoc _ _ _).symm⟩
      rcases List.mem_cons.mp hb with rfl | hb
      · exact hvalid
      · exact hall b hb
    · rintro ⟨⟨hlength, hall⟩, rfl⟩
      cases as with
      | nil => cases hlength
      | cons a tail =>
        refine ⟨a, tail.flatMap write ++ rest, hall a List.mem_cons_self, ?_, ?_⟩
        · exact List.append_assoc _ _ _
        · refine ih.bind.mpr ⟨tail, rest, ⟨Nat.succ.inj hlength, fun b hb => ?_⟩, rfl, rfl⟩
          exact hall b (List.mem_cons_of_mem a hb)

/-- The texts of valid values are told apart by their fronts alone, whatever follows them. -/
def Delimits (write : α → Bytes) (valid : α → Prop) : Prop :=
  ∀ a b rest more, valid a → valid b → write a ++ rest = write b ++ more → a = b ∧ rest = more

theorem Inverts.delimits (h : Inverts read write valid) : Delimits write valid := by
  intro a b rest more ha hb heq
  have hread := (h _ a rest).mpr ⟨ha, rfl⟩
  rw [heq, (h _ b more).mpr ⟨hb, rfl⟩, Except.ok.injEq, Prod.mk.injEq] at hread
  exact ⟨hread.1.symm, hread.2.symm⟩

/-- Lists of one length are delimited when their elements are. -/
theorem Delimits.flatMap (h : Delimits write valid) {as bs : List α} {rest more : Bytes}
    (hlength : as.length = bs.length) (has : ∀ a ∈ as, valid a) (hbs : ∀ b ∈ bs, valid b)
    (heq : as.flatMap write ++ rest = bs.flatMap write ++ more) : as = bs ∧ rest = more := by
  induction as generalizing bs with
  | nil =>
    rw [List.length_nil, eq_comm, List.length_eq_zero_iff] at hlength
    subst hlength
    exact ⟨rfl, heq⟩
  | cons a as ih =>
    cases bs with
    | nil => cases hlength
    | cons b bs =>
      rw [List.flatMap_cons, List.flatMap_cons, List.append_assoc, List.append_assoc] at heq
      obtain ⟨rfl, htail⟩ := h a b _ _ (has a List.mem_cons_self) (hbs b List.mem_cons_self) heq
      obtain ⟨rfl, hrest⟩ := ih (Nat.succ.inj hlength) (fun c hc => has c (List.mem_cons_of_mem _ hc))
        (fun c hc => hbs c (List.mem_cons_of_mem _ hc)) htail
      exact ⟨rfl, hrest⟩

theorem FailsIn.times {errors : ε → Prop} (h : ∀ bytes, FailsIn errors (read bytes)) (n : Nat) (bytes : Bytes) :
    FailsIn errors (Library.times read n bytes) := by
  induction n generalizing bytes with
  | zero => exact FailsIn.ok _
  | succ n ih =>
    refine (h bytes).bind fun taken _ => (ih taken.2).bind fun rest _ => ?_
    exact FailsIn.ok _

theorem length_le_flatMap {as : List α} {a : α} (h : a ∈ as) : (write a).length ≤ (as.flatMap write).length := by
  exact (List.sublist_flatten_of_mem (List.mem_map_of_mem h)).length_le

/-- Every text takes at least so many bytes, so the count bounds what a repetition reads. -/
theorem length_flatMap_ge {size : Nat} {as : List α} (h : ∀ a ∈ as, size ≤ (write a).length) :
    as.length * size ≤ (as.flatMap write).length := by
  induction as with
  | nil => simp
  | cons a as ih =>
    have hhead := h a List.mem_cons_self
    have htail := ih fun b hb => h b (List.mem_cons_of_mem a hb)
    rw [List.flatMap_cons, List.length_append, List.length_cons, Nat.succ_mul]
    omega

end

end Library
