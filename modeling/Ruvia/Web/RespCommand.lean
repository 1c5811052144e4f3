import Ruvia.Library.Decimal
import Ruvia.Web.RowsCodec

/-!
# `Web.RespCommand` — Redis commands on the wire

The RESP writers of `redis_protocol.cpp`, and `encode_redis_command` of `redis_command_args.h`. A command is
measured first and written afterwards, by separate code, into storage of the measured size. Sizes are 64-bit
numbers: every sum is written as the code computes it, with its check and with the wrap that the check has to
prevent.

The protocol's side is `readCommand`, a reader for an array of bulk strings. Every way of writing a command is
compared with one text, `respWire`, and that text is read back whatever follows it (`readCommand_respWire`).
-/

namespace Ruvia.Web

open Library

/-! ## Arguments -/

/-- `std::string_view`. -/
structure StringView where
  bytes : Bytes
  size_lt : bytes.length < sizeLimit

/-- `std::span`: its element count is a `std::size_t`. -/
structure ArgSpan (α : Type) where
  elements : List α
  size_lt : elements.length < sizeLimit

/-- `unreserved` is what `reserve` throws beyond the largest size of a string. -/
inductive RespFault where
  | invalidArgument (message : String)
  | lengthError (message : String)
  | unreserved
  deriving DecidableEq, Repr

/-! ## Sizes -/

/-- The loop of `http_unsigned_decimal_size`. -/
def decimalSizeFrom (value size : Nat) : Nat :=
  if 10 ≤ value then decimalSizeFrom (value / 10) (size + 1) else size

def httpUnsignedDecimalSize (value : Nat) : Nat := decimalSizeFrom value 1

def respDecimalSize (value : Nat) : Except RespFault Nat :=
  if sizeLimit - 1 < value then .error (.lengthError "redis RESP length is too large")
  else .ok (httpUnsignedDecimalSize value)

def addRespSerializedSize (current amount : Nat) : Except RespFault Nat :=
  if sizeLimit - 1 - current < amount then .error (.lengthError "redis RESP command is too large")
  else .ok ((current + amount) % sizeLimit)

def respHeaderSerializedSize (argCount : Nat) : Except RespFault Nat :=
  if argCount = 0 then .error (.invalidArgument "redis command must not be empty")
  else
    (addRespSerializedSize 0 1).bind fun size =>
    (respDecimalSize argCount).bind fun digits =>
    (addRespSerializedSize size digits).bind fun size => addRespSerializedSize size 2

def respBulkSerializedSize (argBytes : Nat) : Except RespFault Nat :=
  (addRespSerializedSize 0 1).bind fun size =>
  (respDecimalSize argBytes).bind fun digits =>
  (addRespSerializedSize size digits).bind fun size =>
  (addRespSerializedSize size 2).bind fun size =>
  (addRespSerializedSize size argBytes).bind fun size => addRespSerializedSize size 2

/-- The loop that adds the size of each argument. -/
def addBulkSizes {α : Type} (bytes : α → Bytes) : Nat → List α → Except RespFault Nat
  | size, [] => .ok size
  | size, arg :: args =>
    (respBulkSerializedSize (bytes arg).length).bind fun bulk =>
    (addRespSerializedSize size bulk).bind fun size => addBulkSizes bytes size args

/-- `resp_serialized_size`, for a span of any kind of string. -/
def respSerializedSize {α : Type} (bytes : α → Bytes) (args : ArgSpan α) : Except RespFault Nat :=
  if args.elements.isEmpty then .error (.invalidArgument "redis command must not be empty")
  else
    (respHeaderSerializedSize args.elements.length).bind fun size => addBulkSizes bytes size args.elements

/-! ## Writing -/

/-- `http_append_unsigned`: the digits go through an array of twenty (`length_decimal_le`). -/
def httpAppendUnsigned (output : Bytes) (value : Nat) : Bytes := output ++ decimal value

def appendRespHeader (output : Bytes) (argCount : Nat) : Bytes :=
  httpAppendUnsigned (output ++ lit "*") argCount ++ lit "\r\n"

def appendRespBulk (output arg : Bytes) : Bytes :=
  let output := httpAppendUnsigned (output ++ lit "$") arg.length ++ lit "\r\n"
  (if arg.isEmpty then output else output ++ arg) ++ lit "\r\n"

/-- `serialize_resp_command_impl`. -/
def serializeRespCommandImpl {α : Type} (bytes : α → Bytes) (output : Bytes) (args : ArgSpan α) : Bytes :=
  args.elements.foldl (fun output arg => appendRespBulk output (bytes arg))
    (appendRespHeader output args.elements.length)

/-! ## The overloads -/

def serializeRespCommandViews (output : Bytes) (args : ArgSpan StringView) : Bytes :=
  serializeRespCommandImpl StringView.bytes output args

def serializeRespCommandStrings (output : Bytes) (args : ArgSpan PmrString) : Bytes :=
  serializeRespCommandImpl PmrString.bytes output args

def serializeRespCommandFirst (output : Bytes) (first : StringView) (rest : ArgSpan StringView) :
    Except RespFault Bytes :=
  if rest.elements.length = sizeLimit - 1 then .error (.lengthError "redis RESP command is too large")
  else
    .ok (rest.elements.foldl (fun output arg => appendRespBulk output arg.bytes)
      (appendRespBulk (appendRespHeader output ((rest.elements.length + 1) % sizeLimit)) first.bytes))

def respCommandSerializedSizeViews (args : ArgSpan StringView) : Except RespFault Nat :=
  respSerializedSize StringView.bytes args

def respCommandSerializedSizeStrings (args : ArgSpan PmrString) : Except RespFault Nat :=
  respSerializedSize PmrString.bytes args

def respCommandSerializedSizeFirst (first : StringView) (rest : ArgSpan StringView) : Except RespFault Nat :=
  if rest.elements.length = sizeLimit - 1 then .error (.lengthError "redis RESP command is too large")
  else
    (respHeaderSerializedSize ((rest.elements.length + 1) % sizeLimit)).bind fun size =>
    (respBulkSerializedSize first.bytes.length).bind fun bulk =>
    (addRespSerializedSize size bulk).bind fun size => addBulkSizes StringView.bytes size rest.elements

/-- The capacity check and the `reserve` in front of writing `size` more bytes; `maxSize` is
`std::pmr::string::max_size()`. -/
def reserveRespOutput (maxSize : Nat) (output : PmrString) (size : Nat) : Except RespFault Unit :=
  if sizeLimit - 1 - output.bytes.length < size then .error (.lengthError "redis RESP output is too large")
  else if maxSize < (output.bytes.length + size) % sizeLimit then .error .unreserved
  else .ok ()

/-- `append_resp_command_impl`. -/
def appendRespCommandImpl {α : Type} (bytes : α → Bytes) (maxSize : Nat) (output : PmrString) (args : ArgSpan α) :
    Except RespFault Bytes :=
  (respSerializedSize bytes args).bind fun serializedSize =>
  (reserveRespOutput maxSize output serializedSize).bind fun _ =>
    .ok (serializeRespCommandImpl bytes output.bytes args)

def appendRespCommandViews (maxSize : Nat) (output : PmrString) (args : ArgSpan StringView) : Except RespFault Bytes :=
  appendRespCommandImpl StringView.bytes maxSize output args

def appendRespCommandStrings (maxSize : Nat) (output : PmrString) (args : ArgSpan PmrString) : Except RespFault Bytes :=
  appendRespCommandImpl PmrString.bytes maxSize output args

def appendRespCommandFirst (maxSize : Nat) (output : PmrString) (first : StringView) (rest : ArgSpan StringView) :
    Except RespFault Bytes :=
  (respCommandSerializedSizeFirst first rest).bind fun serializedSize =>
  (reserveRespOutput maxSize output serializedSize).bind fun _ =>
    serializeRespCommandFirst output.bytes first rest

/-- The first run of `encode_redis_command` over the arguments, which counts them and adds up their bulk strings. -/
def countBulks : Nat → Nat → List StringView → Except RespFault (Nat × Nat)
  | argCount, bulkBytes, [] => .ok (argCount, bulkBytes)
  | argCount, bulkBytes, arg :: args =>
    (respBulkSerializedSize arg.bytes.length).bind fun bulk =>
    (addRespSerializedSize bulkBytes bulk).bind fun bulkBytes =>
      countBulks ((argCount + 1) % sizeLimit) bulkBytes args

/-- `encode_redis_command`; `args` are what the enumeration emits, and nothing bounds their number. -/
def encodeRedisCommand (maxSize : Nat) (args : List StringView) : Except RespFault Bytes :=
  (countBulks 0 0 args).bind fun (argCount, bulkBytes) =>
  (respHeaderSerializedSize argCount).bind fun size =>
  (addRespSerializedSize size bulkBytes).bind fun size =>
    if maxSize < size then .error .unreserved
    else .ok (args.foldl (fun output arg => appendRespBulk output arg.bytes) (appendRespHeader [] argCount))

/-! ## The text of a command -/

def respHeader (argCount : Nat) : Bytes := lit "*" ++ decimal argCount ++ lit "\r\n"

def respBulk (arg : Bytes) : Bytes := lit "$" ++ decimal arg.length ++ lit "\r\n" ++ arg ++ lit "\r\n"

/-- The array of bulk strings that stands for these arguments. -/
def respWire (args : List Bytes) : Bytes := respHeader args.length ++ args.flatMap respBulk

/-- The exact size of a text, as long as a `std::size_t` holds it. -/
def checkedSize (size : Nat) : Except RespFault Nat :=
  if size < sizeLimit then .ok size else .error (.lengthError "redis RESP command is too large")

/-- What measuring a command has to answer. -/
def respSize (args : List Bytes) : Except RespFault Nat :=
  if args = [] then .error (.invalidArgument "redis command must not be empty")
  else checkedSize (respWire args).length

/-- What appending a command has to do. -/
def respAppended (maxSize : Nat) (output : PmrString) (args : List Bytes) : Except RespFault Bytes :=
  (respSize args).bind fun size =>
    if sizeLimit ≤ output.bytes.length + size then .error (.lengthError "redis RESP output is too large")
    else if maxSize < output.bytes.length + size then .error .unreserved
    else .ok (output.bytes ++ respWire args)

/-! ## Sizes are exact -/

section

variable {α : Type} {bytes : α → Bytes} {current amount size : Nat}

/-- A size above the limit has no bytes of output behind it. -/
theorem checkedSize_of_lt (h : size < sizeLimit) : checkedSize size = .ok size := if_pos h

theorem checkedSize_of_le (h : sizeLimit ≤ size) :
    checkedSize size = .error (.lengthError "redis RESP command is too large") := if_neg (Nat.not_lt.mpr h)

theorem addRespSerializedSize_eq (h : current < sizeLimit) :
    addRespSerializedSize current amount = checkedSize (current + amount) := by
  unfold addRespSerializedSize checkedSize
  by_cases hfits : current + amount < sizeLimit
  · rw [if_neg (by omega), if_pos hfits, Nat.mod_eq_of_lt hfits]
  · rw [if_pos (by omega), if_neg hfits]

/-- **A checked sum does not wrap**: it is the exact sum, or the error. -/
theorem checkedSize_bind_add (a b : Nat) :
    ((checkedSize a).bind fun size => addRespSerializedSize size b) = checkedSize (a + b) := by
  by_cases h : a < sizeLimit
  · rw [checkedSize_of_lt h, ok_bind, addRespSerializedSize_eq h]
  · rw [checkedSize_of_le (by omega), checkedSize_of_le (by omega)]
    rfl

/-- The sum of two checked sizes. -/
theorem checkedSize_bind_checked (a b : Nat) :
    ((checkedSize a).bind fun size => (checkedSize b).bind fun amount => addRespSerializedSize size amount) =
      checkedSize (a + b) := by
  by_cases h : b < sizeLimit
  · simp only [checkedSize_of_lt h, ok_bind]
    exact checkedSize_bind_add a b
  · rw [@checkedSize_of_le (a + b) (by omega), @checkedSize_of_le b (by omega)]
    by_cases ha : a < sizeLimit
    · rw [checkedSize_of_lt ha]
      rfl
    · rw [checkedSize_of_le (by omega)]
      rfl

/-- The checks fail alike, so their order does not matter. -/
theorem checkedSize_comm {β : Type} (a b : Nat) (k : Nat → Nat → Except RespFault β) :
    ((checkedSize a).bind fun x => (checkedSize b).bind fun y => k x y) =
      (checkedSize b).bind fun y => (checkedSize a).bind fun x => k x y := by
  unfold checkedSize
  split <;> split <;> rfl

theorem decimalSizeFrom_eq (value size : Nat) : decimalSizeFrom value size + 1 = size + (decimal value).length := by
  fun_induction decimalSizeFrom value size with
  | case1 value size h ih =>
    rw [ih, decimal_of_le h, List.length_append, List.length_singleton]
    omega
  | case2 value size h =>
    rw [decimal_of_lt (by omega), List.length_singleton]

/-- The digits counted are the digits written. -/
theorem httpUnsignedDecimalSize_eq (value : Nat) : httpUnsignedDecimalSize value = (decimal value).length := by
  have h := decimalSizeFrom_eq value 1
  unfold httpUnsignedDecimalSize
  omega

theorem respDecimalSize_eq {value : Nat} (h : value < sizeLimit) :
    respDecimalSize value = .ok (decimal value).length := by
  rw [respDecimalSize, if_neg (by omega), httpUnsignedDecimalSize_eq]

theorem length_respHeader (argCount : Nat) : (respHeader argCount).length = 0 + 1 + (decimal argCount).length + 2 := by
  simp only [respHeader, List.length_append]
  rw [show (lit "*").length = 1 from rfl, show (lit "\r\n").length = 2 from rfl]

theorem length_respBulk (arg : Bytes) :
    (respBulk arg).length = 0 + 1 + (decimal arg.length).length + 2 + arg.length + 2 := by
  simp only [respBulk, List.length_append]
  rw [show (lit "$").length = 1 from rfl, show (lit "\r\n").length = 2 from rfl]

theorem zero_add_eq (amount : Nat) : addRespSerializedSize 0 amount = checkedSize (0 + amount) :=
  addRespSerializedSize_eq (by decide)

theorem respHeaderSerializedSize_eq {argCount : Nat} (hne : argCount ≠ 0) (hlt : argCount < sizeLimit) :
    respHeaderSerializedSize argCount = checkedSize (respHeader argCount).length := by
  rw [respHeaderSerializedSize, if_neg hne, respDecimalSize_eq hlt, length_respHeader, ← checkedSize_bind_add,
    ← checkedSize_bind_add, ← zero_add_eq]
  simp only [bind_bind, ok_bind]

theorem respBulkSerializedSize_eq {arg : Bytes} (hlt : arg.length < sizeLimit) :
    respBulkSerializedSize arg.length = checkedSize (respBulk arg).length := by
  rw [respBulkSerializedSize, respDecimalSize_eq hlt, length_respBulk, ← checkedSize_bind_add,
    ← checkedSize_bind_add, ← checkedSize_bind_add, ← checkedSize_bind_add, ← zero_add_eq]
  simp only [bind_bind, ok_bind]

section

variable (hbytes : ∀ arg : α, (bytes arg).length < sizeLimit)
include hbytes

/-- The loop over the arguments adds the sizes of their bulk strings. -/
theorem addBulkSizes_eq (args : List α) (size : Nat) :
    ((checkedSize size).bind fun size => addBulkSizes bytes size args) =
      checkedSize (size + ((args.map bytes).flatMap respBulk).length) := by
  induction args generalizing size with
  | nil =>
    change (checkedSize size).bind .ok = checkedSize (size + 0)
    cases checkedSize size <;> rfl
  | cons arg args ih =>
    rw [List.map_cons, List.flatMap_cons, List.length_append, ← Nat.add_assoc, ← ih, ← checkedSize_bind_checked]
    simp only [addBulkSizes, respBulkSerializedSize_eq (hbytes arg), bind_bind]

/-- The command's size, from the sizes of its header and its bulk strings. -/
theorem header_addBulkSizes (args : List α)
    (hne : args ≠ []) (hlt : args.length < sizeLimit) :
    ((respHeaderSerializedSize args.length).bind fun size => addBulkSizes bytes size args) =
      respSize (args.map bytes) := by
  rw [respHeaderSerializedSize_eq (by simpa using hne) hlt, addBulkSizes_eq hbytes, respSize,
    if_neg (by simpa using hne), respWire, List.length_append, List.length_map]

theorem respSerializedSize_eq (args : ArgSpan α) :
    respSerializedSize bytes args = respSize (args.elements.map bytes) := by
  unfold respSerializedSize
  by_cases hempty : args.elements = []
  · simp [hempty, respSize]
  · rw [if_neg (by simpa using hempty)]
    exact header_addBulkSizes hbytes args.elements hempty args.size_lt

end

end

/-! ## Writing appends -/

section

variable {α : Type} {bytes : α → Bytes}

theorem appendRespHeader_eq (output : Bytes) (argCount : Nat) :
    appendRespHeader output argCount = output ++ respHeader argCount := by
  simp only [appendRespHeader, httpAppendUnsigned, respHeader, List.append_assoc]

theorem appendRespBulk_eq (output arg : Bytes) : appendRespBulk output arg = output ++ respBulk arg := by
  cases arg <;> simp [appendRespBulk, httpAppendUnsigned, respBulk]

theorem foldl_appendRespBulk (args : List α) (output : Bytes) :
    args.foldl (fun output arg => appendRespBulk output (bytes arg)) output =
      output ++ (args.map bytes).flatMap respBulk := by
  induction args generalizing output with
  | nil => simp
  | cons arg args ih =>
    rw [List.foldl_cons, ih, appendRespBulk_eq, List.map_cons, List.flatMap_cons, List.append_assoc]

theorem serializeRespCommandImpl_eq (output : Bytes) (args : ArgSpan α) :
    serializeRespCommandImpl bytes output args = output ++ respWire (args.elements.map bytes) := by
  rw [serializeRespCommandImpl, foldl_appendRespBulk, appendRespHeader_eq, respWire, List.append_assoc,
    List.length_map]

/-- The check in front of the `reserve` keeps its sum from wrapping. -/
theorem reserveRespOutput_bind (maxSize : Nat) (output : PmrString) (size : Nat) (text : Bytes) :
    ((reserveRespOutput maxSize output size).bind fun _ => .ok text) =
      if sizeLimit ≤ output.bytes.length + size then .error (.lengthError "redis RESP output is too large")
      else if maxSize < output.bytes.length + size then .error .unreserved
      else .ok text := by
  have hsize := output.size_lt
  unfold reserveRespOutput
  by_cases hfits : sizeLimit ≤ output.bytes.length + size
  · rw [if_pos (by omega), if_pos hfits]
    rfl
  · rw [if_neg (by omega), if_neg hfits, Nat.mod_eq_of_lt (by omega)]
    split <;> rfl

theorem appendRespCommandImpl_eq (hbytes : ∀ arg : α, (bytes arg).length < sizeLimit) (maxSize : Nat)
    (output : PmrString) (args : ArgSpan α) :
    appendRespCommandImpl bytes maxSize output args = respAppended maxSize output (args.elements.map bytes) := by
  simp only [appendRespCommandImpl, respSerializedSize_eq hbytes, serializeRespCommandImpl_eq, respAppended,
    reserveRespOutput_bind]

/-! ### The command word in front of a span -/

variable (first : StringView) (rest : ArgSpan StringView)

/-- A command takes more bytes than it has arguments. -/
theorem length_le_bulks (args : List Bytes) : args.length ≤ (args.flatMap respBulk).length := by
  have hbulk : ∀ arg ∈ args, 1 ≤ (respBulk arg).length := by
    intro arg _
    rw [length_respBulk]
    omega
  have hsum := length_flatMap_ge hbulk
  omega

theorem length_respWire (args : List Bytes) :
    (respWire args).length = (respHeader args.length).length + (args.flatMap respBulk).length :=
  List.length_append

/-- Of the largest span, one more argument makes a command that is too large. -/
theorem respSize_of_limit (args : List Bytes) (hne : args ≠ []) (h : sizeLimit ≤ args.length) :
    respSize args = .error (.lengthError "redis RESP command is too large") := by
  have hbulks := length_le_bulks args
  rw [respSize, if_neg hne]
  apply checkedSize_of_le
  rw [length_respWire]
  omega

theorem serializeRespCommandFirst_eq (output : Bytes) :
    serializeRespCommandFirst output first rest =
      if rest.elements.length + 1 < sizeLimit then
        .ok (output ++ respWire (first.bytes :: rest.elements.map StringView.bytes))
      else .error (.lengthError "redis RESP command is too large") := by
  have hsize := rest.size_lt
  unfold serializeRespCommandFirst
  by_cases hlt : rest.elements.length + 1 < sizeLimit
  · rw [if_neg (by omega), if_pos hlt, Nat.mod_eq_of_lt hlt, foldl_appendRespBulk, appendRespBulk_eq,
      appendRespHeader_eq, respWire, List.length_cons, List.length_map, List.flatMap_cons]
    simp only [List.append_assoc]
  · rw [if_pos (by omega), if_neg hlt]

theorem respCommandSerializedSizeFirst_eq :
    respCommandSerializedSizeFirst first rest = respSize (first.bytes :: rest.elements.map StringView.bytes) := by
  have hsize := rest.size_lt
  unfold respCommandSerializedSizeFirst
  by_cases hlt : rest.elements.length + 1 < sizeLimit
  · rw [if_neg (by omega), Nat.mod_eq_of_lt hlt]
    exact header_addBulkSizes StringView.size_lt (first :: rest.elements) (List.cons_ne_nil _ _) hlt
  · rw [if_pos (by omega), respSize_of_limit _ (List.cons_ne_nil _ _)]
    rw [List.length_cons, List.length_map]
    omega

theorem appendRespCommandFirst_eq (maxSize : Nat) (output : PmrString) :
    appendRespCommandFirst maxSize output first rest =
      respAppended maxSize output (first.bytes :: rest.elements.map StringView.bytes) := by
  simp only [appendRespCommandFirst, respCommandSerializedSizeFirst_eq, respAppended]
  by_cases hlt : rest.elements.length + 1 < sizeLimit
  · simp only [serializeRespCommandFirst_eq, if_pos hlt, reserveRespOutput_bind]
  · rw [respSize_of_limit _ (List.cons_ne_nil _ _)]
    · rfl
    · rw [List.length_cons, List.length_map]
      omega

/-! ### Enumerated arguments -/

/-- The first run. A count that has wrapped belongs to bulk strings too many to add up. -/
theorem countBulks_eq (args : List StringView) (argCount bulkBytes : Nat) (hcount : argCount ≤ bulkBytes) :
    ((checkedSize bulkBytes).bind fun bulkBytes => countBulks argCount bulkBytes args) =
      (checkedSize (bulkBytes + ((args.map StringView.bytes).flatMap respBulk).length)).bind fun bulkBytes =>
        .ok (argCount + args.length, bulkBytes) := by
  induction args generalizing argCount bulkBytes with
  | nil => rfl
  | cons arg args ih =>
    have hbulk : 1 ≤ (respBulk arg.bytes).length := by
      rw [length_respBulk]
      omega
    simp only [countBulks, respBulkSerializedSize_eq arg.size_lt]
    rw [List.map_cons, List.flatMap_cons, List.length_append, ← Nat.add_assoc]
    rw [show ((checkedSize bulkBytes).bind fun total => (checkedSize (respBulk arg.bytes).length).bind fun bulk =>
          (addRespSerializedSize total bulk).bind fun total => countBulks ((argCount + 1) % sizeLimit) total args) =
        (checkedSize (bulkBytes + (respBulk arg.bytes).length)).bind fun total =>
          countBulks ((argCount + 1) % sizeLimit) total args by
      rw [← checkedSize_bind_checked]
      simp only [bind_bind]]
    by_cases hlt : bulkBytes + (respBulk arg.bytes).length < sizeLimit
    · rw [Nat.mod_eq_of_lt (by omega), ih (argCount + 1) _ (by omega), List.length_cons]
      simp only [Nat.add_assoc, Nat.add_comm 1]
    · rw [checkedSize_of_le (Nat.le_of_not_lt hlt), checkedSize_of_le (by omega)]
      rfl

theorem encodeRedisCommand_eq (maxSize : Nat) (args : List StringView) :
    encodeRedisCommand maxSize args =
      (respSize (args.map StringView.bytes)).bind fun size =>
        if maxSize < size then .error .unreserved else .ok (respWire (args.map StringView.bytes)) := by
  unfold encodeRedisCommand
  have hcount := countBulks_eq args 0 0 (Nat.le_refl 0)
  rw [checkedSize_of_lt (by decide), ok_bind, Nat.zero_add, Nat.zero_add] at hcount
  rw [hcount, bind_bind]
  simp only [ok_bind]
  by_cases hempty : args = []
  · subst hempty
    rfl
  have hbulks := length_le_bulks (args.map StringView.bytes)
  rw [List.length_map] at hbulks
  rw [respSize, if_neg (by simpa using hempty)]
  by_cases hlt : args.length < sizeLimit
  · rw [respHeaderSerializedSize_eq (by simpa using hempty) hlt, checkedSize_comm, length_respWire,
      List.length_map, ← checkedSize_bind_checked]
    simp only [bind_bind, foldl_appendRespBulk, appendRespHeader_eq, respWire, List.length_map, List.nil_append]
  · rw [checkedSize_of_le (by omega), checkedSize_of_le]
    · rfl
    · rw [length_respWire]
      omega

/-! ## Reading -/

inductive RespSyntaxError where
  | malformed
  deriving DecidableEq, Repr

/-- A marker, decimal digits and a line end. -/
def readRespLength (marker : UInt8) : Reader RespSyntaxError Nat
  | [] => .error .malformed
  | byte :: rest =>
    if byte = marker then
      let digits := rest.takeWhile fun byte => 0x30 ≤ byte.toNat && byte.toNat ≤ 0x39
      let behind := rest.drop digits.length
      if digits = [] ∨ behind.take 2 ≠ lit "\r\n" then .error .malformed
      else .ok (decimalNumber digits, behind.drop 2)
    else .error .malformed

/-- A bulk string: its length, as many bytes, and a line end. -/
def readBulkString : Reader RespSyntaxError Bytes := fun bytes =>
  (readRespLength 0x24 bytes).bind fun (size, rest) =>
    if (rest.drop size).take 2 ≠ lit "\r\n" ∨ rest.length < size then .error .malformed
    else .ok (rest.take size, rest.drop (size + 2))

/-- An array of bulk strings. -/
def readCommand : Reader RespSyntaxError (List Bytes) := fun bytes =>
  (readRespLength 0x2a bytes).bind fun (count, rest) => times readBulkString count rest

theorem readRespLength_write (marker : UInt8) (size : Nat) (rest : Bytes) :
    readRespLength marker ([marker] ++ decimal size ++ lit "\r\n" ++ rest) = .ok (size, rest) := by
  have htake : (decimal size ++ (lit "\r\n" ++ rest)).takeWhile
      (fun byte => 0x30 ≤ byte.toNat && byte.toNat ≤ 0x39) = decimal size := by
    rw [List.takeWhile_append_of_pos]
    · rw [show lit "\r\n" ++ rest = 0x0d :: 0x0a :: rest from rfl, List.takeWhile_cons_of_neg (by decide),
        List.append_nil]
    · intro byte hbyte
      simpa using decimal_digits size byte hbyte
  rw [show [marker] ++ decimal size ++ lit "\r\n" ++ rest = marker :: (decimal size ++ (lit "\r\n" ++ rest)) by simp,
    readRespLength, if_pos rfl]
  simp only [htake, List.drop_left, decimalNumber_decimal]
  rw [if_neg]
  · rfl
  · rintro (hnil | hline)
    · exact decimal_ne_nil size hnil
    · exact hline rfl

/-- **A bulk string is read back**, whatever its bytes are and whatever follows it. -/
theorem readBulkString_respBulk (arg rest : Bytes) : readBulkString (respBulk arg ++ rest) = .ok (arg, rest) := by
  have hlength := readRespLength_write 0x24 arg.length (arg ++ (lit "\r\n" ++ rest))
  rw [show respBulk arg ++ rest = [0x24] ++ decimal arg.length ++ lit "\r\n" ++ (arg ++ (lit "\r\n" ++ rest)) by
    simp only [respBulk, List.append_assoc]
    rfl, readBulkString, hlength, ok_bind]
  dsimp only
  rw [List.drop_left, if_neg]
  · rw [List.take_left, ← List.drop_drop, List.drop_left]
    rfl
  · rintro (hline | hshort)
    · exact hline rfl
    · rw [List.length_append] at hshort
      omega

theorem times_readBulkString (args : List Bytes) (rest : Bytes) :
    times readBulkString args.length (args.flatMap respBulk ++ rest) = .ok (args, rest) := by
  induction args with
  | nil => rfl
  | cons arg args ih =>
    rw [List.length_cons, times, List.flatMap_cons, List.append_assoc, readBulkString_respBulk, ok_bind]
    simp only [ih, ok_bind]

/-- **A command is read back**: all of its arguments, and nothing of what follows it. -/
theorem readCommand_respWire (args : List Bytes) (rest : Bytes) :
    readCommand (respWire args ++ rest) = .ok (args, rest) := by
  have hlength := readRespLength_write 0x2a args.length (args.flatMap respBulk ++ rest)
  rw [show respWire args ++ rest = [0x2a] ++ decimal args.length ++ lit "\r\n" ++ (args.flatMap respBulk ++ rest) by
    simp only [respWire, respHeader, List.append_assoc]
    rfl, readCommand, hlength, ok_bind]
  exact times_readBulkString args rest

end

/-! ## Every overload -/

/-- **Commands are encoded exactly.** The three overloads that measure a command answer the length of its text, or
    fail when no `std::size_t` holds it; the three that serialize append the text, and the three that append behind
    a check, like `encode_redis_command`, do so under the same check. The text reads back as the arguments, with
    nothing left over. -/
theorem resp_command_encoding :
    (∀ args, respCommandSerializedSizeViews args = respSize (args.elements.map StringView.bytes)) ∧
    (∀ args, respCommandSerializedSizeStrings args = respSize (args.elements.map PmrString.bytes)) ∧
    (∀ first rest, respCommandSerializedSizeFirst first rest =
      respSize (first.bytes :: rest.elements.map StringView.bytes)) ∧
    (∀ output args, serializeRespCommandViews output args =
      output ++ respWire (args.elements.map StringView.bytes)) ∧
    (∀ output args, serializeRespCommandStrings output args =
      output ++ respWire (args.elements.map PmrString.bytes)) ∧
    (∀ output first rest, serializeRespCommandFirst output first rest =
      if rest.elements.length + 1 < sizeLimit then
        .ok (output ++ respWire (first.bytes :: rest.elements.map StringView.bytes))
      else .error (.lengthError "redis RESP command is too large")) ∧
    (∀ maxSize output args, appendRespCommandViews maxSize output args =
      respAppended maxSize output (args.elements.map StringView.bytes)) ∧
    (∀ maxSize output args, appendRespCommandStrings maxSize output args =
      respAppended maxSize output (args.elements.map PmrString.bytes)) ∧
    (∀ maxSize output first rest, appendRespCommandFirst maxSize output first rest =
      respAppended maxSize output (first.bytes :: rest.elements.map StringView.bytes)) ∧
    (∀ maxSize args, encodeRedisCommand maxSize args = (respSize (args.map StringView.bytes)).bind fun size =>
      if maxSize < size then .error .unreserved else .ok (respWire (args.map StringView.bytes))) ∧
    ∀ args rest, readCommand (respWire args ++ rest) = .ok (args, rest) := by
  refine ⟨?_, ?_, ?_, ?_, ?_, ?_, ?_, ?_, ?_, ?_, ?_⟩
  · exact fun args => respSerializedSize_eq StringView.size_lt args
  · exact fun args => respSerializedSize_eq PmrString.size_lt args
  · exact respCommandSerializedSizeFirst_eq
  · exact serializeRespCommandImpl_eq
  · exact serializeRespCommandImpl_eq
  · exact fun output first rest => serializeRespCommandFirst_eq first rest output
  · exact appendRespCommandImpl_eq StringView.size_lt
  · exact appendRespCommandImpl_eq PmrString.size_lt
  · exact fun maxSize output first rest => appendRespCommandFirst_eq first rest maxSize output
  · exact encodeRedisCommand_eq
  · exact readCommand_respWire

/-- The `GET` of an empty key. -/
example : readCommand (lit "*2\r\n$3\r\nGET\r\n$0\r\n\r\n") = .ok ([lit "GET", []], []) := by decide

/-- **A pipeline of commands is read back command by command**, whatever follows it. -/
theorem resp_pipeline (commands : List (ArgSpan StringView)) (output : Bytes) :
    ∃ wire, commands.foldl serializeRespCommandViews output = output ++ wire ∧ ∀ rest,
      times readCommand commands.length (wire ++ rest) =
        .ok (commands.map fun args => args.elements.map StringView.bytes, rest) := by
  induction commands generalizing output with
  | nil => exact ⟨[], (List.append_nil _).symm, fun _ => rfl⟩
  | cons args commands ih =>
    obtain ⟨wire, hwire, hread⟩ := ih (serializeRespCommandViews output args)
    refine ⟨respWire (args.elements.map StringView.bytes) ++ wire, ?_, fun rest => ?_⟩
    · rw [List.foldl_cons, hwire, serializeRespCommandViews, serializeRespCommandImpl_eq, List.append_assoc]
    · rw [List.length_cons, times, List.append_assoc, readCommand_respWire]
      simp only [hread, ok_bind, List.map_cons]

end Ruvia.Web
