import Mathlib.Algebra.Order.Ring.Int
import NixStrixHalo.Library.PythonText
import NixStrixHalo.Library.Result
import NixStrixHalo.Library.Url

/-!
# A stream of completions

`consume_stream` reads the lines of a response. Lines that start with `data:` hold an event each: a
JSON object with pieces of text, the usage so far or an error, or the mark `[DONE]`. What a stream
should give is an `Outcome`: it succeeds if and only if the mark comes and every event before it is
valid JSON without an error, and then it reports the text and the last usage of these events.

## Python

`json` and the built-in functions that are used are parameters (`Builtins`), and what is asked of
them is the grammar of JSON: a text of the grammar gives its value or an exception, and any other
text a `JSONDecodeError`, or another exception again. Strings are lists of code points, since the
surrogates that an escape may leave are what `encode` raises an error for.

## When nothing else is raised

An integer of more digits than `int` converts is valid JSON for which `json.loads` raises a plain
`ValueError`, and a value that is nested deeply a `RecursionError`. The handler of the loop catches
a `JSONDecodeError` and nothing else, so such an event ends the function without a dictionary. The
outcome is the expected one exactly if no data line that the loop comes to is of this kind
(`stream_outcome`).

## The invariant of the loop

The events before the mark alone decide what is reported, in one invariant about the state of the
loop (`Collected`): its pieces of text, the time of the first one, and its usage are those of the
events so far. How the loop ends is then a statement about the data lines that are left
(`EndsRight`), by induction on them.
-/

namespace Bench.Stream

/-! ### Values -/

/-- The code points of a Python string, surrogates among them. -/
abbrev PyStr := List ℕ

/-- A string without surrogates. -/
def str (text : List Char) : PyStr := text.map Char.toNat

/-- A value of `json.loads`. A float is its bits. -/
inductive Json
  | null
  | bool (b : Bool)
  | int (n : ℤ)
  | float (bits : UInt64)
  | str (s : PyStr)
  | arr (values : List Json)
  | obj (fields : List (PyStr × Json))

/-- The exceptions that can be raised. A plain `ValueError` is raised for an integer with more
digits than `int` converts, a `RecursionError` for values that are nested too deep. -/
inductive PyError
  | jsonDecodeError
  | valueError
  | recursionError
  | attributeError
  | typeError
  | unicodeEncodeError
  deriving DecidableEq

/-- `bool(value)`. -/
def Json.truthy : Json → Bool
  | .null => false
  | .bool b => b
  | .int n => n ≠ 0
  | .float bits => bits.toNat % 2 ^ 63 ≠ 0
  | .str s => s ≠ []
  | .arr values => !values.isEmpty
  | .obj fields => !fields.isEmpty

/-- `value.get(key)`, with `None` for a key that is absent. -/
def Json.get (key : String) : Json → Except PyError (Option Json)
  | .obj fields => .ok (fields.lookup (Stream.str key.toList))
  | _ => .error .attributeError

/-- The elements that a `for` loop goes through. -/
def Json.iterate : Json → Except PyError (List Json)
  | .arr values => .ok values
  | .obj fields => .ok (fields.map fun field ↦ .str field.1)
  | .str s => .ok (s.map fun c ↦ .str [c])
  | _ => .error .typeError

/-- A value that may be absent is neither absent nor `None`. -/
def notNone : Option Json → Option Json
  | none => none
  | some .null => none
  | some v => some v

/-- What is used of `json` and the built-in functions. `str` is for values that are no strings. -/
structure Builtins where
  loads : List Char → Except PyError Json
  dumps : Json → Except PyError PyStr
  str : Json → Except PyError PyStr

variable (b : Builtins)

/-- `str(value)`. -/
def Builtins.toStr : Json → Except PyError PyStr
  | .str s => .ok s
  | v => b.str v

/-- The UTF-8 of a string without surrogates. -/
def utf8 (s : PyStr) : List UInt8 := s.flatMap fun c ↦ String.utf8EncodeChar (Char.ofNat c)

/-- `s.encode("utf-8")`. -/
def encodeUtf8 (s : PyStr) : Except PyError (List UInt8) :=
  if ∃ c ∈ s, 0xd800 ≤ c ∧ c ≤ 0xdfff then .error .unicodeEncodeError else .ok (utf8 s)

/-- `"".join(parts)`. -/
def join : List Json → Except PyError PyStr
  | [] => .ok []
  | .str s :: parts => (join parts).map (s ++ ·)
  | _ :: _ => .error .typeError

/-! ### The lines -/

/-- The text of a data line. -/
def dataOf (raw : List UInt8) : Option (List Char) :=
  let line := PythonText.strip (Url.decode none (raw.map fun byte ↦ .byte byte.toNat))
  if "data:".toList <+: line then some (PythonText.strip (line.drop 5)) else none

/-- `summarize_stream_error`. -/
def summarizeStreamError : Json → Except PyError PyStr
  | .obj fields => do
    let message ← match (fields.lookup (str "message".toList)).filter Json.truthy with
      | some message => b.toStr message
      | none => b.dumps (.obj fields)
    .ok (str "stream error: ".toList ++ message.take 300)
  | error => do
    let message ← b.toStr error
    .ok (str "stream error: ".toList ++ message.take 300)

/-! ### The loop -/

variable {T : Type}

/-- The variables of the loop. -/
structure LoopState (T : Type) where
  firstToken : Option T := none
  usage : Json := .obj []
  textParts : List Json := []

/-- How the loop ends: at `[DONE]`, with an error, or at the end of the stream. -/
inductive Ended
  | done
  | streamError (message : PyStr)
  | eof

/-- The loop over the choices. The first piece takes the first reading of the clock. -/
def addChoice (clock : ℕ → T) (s : LoopState T) (choice : Json) :
    Except PyError (LoopState T) := do
  match (← choice.get "text").filter Json.truthy with
  | none => .ok s
  | some piece =>
    .ok { s with
      firstToken := some (s.firstToken.getD (clock 0))
      textParts := s.textParts ++ [piece] }

/-- What an event without an error does to the state. -/
def addEvent (clock : ℕ → T) (s : LoopState T) (event : Json) : Except PyError (LoopState T) := do
  let usage ← event.get "usage"
  let s := { s with usage := (notNone usage).getD s.usage }
  let choices ← match ← event.get "choices" with
    | none => .ok []
    | some choices => choices.iterate
  choices.foldlM (addChoice clock) s

/-- The loop over the lines. -/
def loop (clock : ℕ → T) : List (List UInt8) → LoopState T → Except PyError (LoopState T × Ended)
  | [], s => .ok (s, .eof)
  | raw :: lines, s =>
    match dataOf raw with
    | none => loop clock lines s
    | some data =>
      if data = "[DONE]".toList then .ok (s, .done)
      else
        match b.loads data with
        | .error .jsonDecodeError =>
          .ok (s, .streamError (str "malformed SSE data: ".toList ++ str (data.take 300)))
        | .error e => .error e
        | .ok event => do
          match notNone (← event.get "error") with
          | some error => .ok (s, .streamError (← summarizeStreamError b error))
          | none => loop clock lines (← addEvent clock s event)

/-! ### The result -/

/-- The dictionary of a stream that fails. -/
structure Failure (T : Type) where
  requestIndex : ℤ
  start : T
  stop : T
  error : PyStr

/-- The dictionary of a stream that succeeds. -/
structure Success (T : Type) where
  requestIndex : ℤ
  start : T
  stop : T
  durationS : T
  ttftS : Option T
  decodeS : Option T
  promptTokens : Option Json
  completionTokens : Option Json
  textBytes : ℕ
  error : PyStr

/-- What `consume_stream` returns: the dictionary with `ok` false or true. -/
inductive StreamRow (T : Type)
  | failed (f : Failure T)
  | succeeded (s : Success T)

/-- `row["ok"]`. -/
def StreamRow.ok : StreamRow T → Bool
  | .failed _ => false
  | .succeeded _ => true

/-- `consume_stream`. -/
def consumeStream [Zero T] [Sub T] [Max T] (clock : ℕ → T) (start : T) (requestIndex : ℤ)
    (resp : List (List UInt8)) : Except PyError (StreamRow T) := do
  let (s, ended) ← loop b clock resp {}
  -- the clock was read before if and only if a piece of text came
  let stop := clock (if s.firstToken.isSome then 1 else 0)
  match ended with
  | .streamError message => .ok (.failed { requestIndex, start, stop, error := message })
  | .eof =>
    let received ← encodeUtf8 (← join s.textParts)
    .ok (.failed { requestIndex, start, stop,
                   error := str "stream ended without [DONE] (received ".toList ++
                     str (Nat.toDigits 10 received.length) ++ str " bytes of text)".toList })
  | .done =>
    let promptTokens ← s.usage.get "prompt_tokens"
    let completionTokens ← s.usage.get "completion_tokens"
    let durationS := stop - start
    let ttftS := s.firstToken.map (· - start)
    let text ← encodeUtf8 (← join s.textParts)
    .ok (.succeeded { requestIndex, start, stop, durationS, ttftS,
                      decodeS := ttftS.map fun ttft ↦ max 0 (durationS - ttft),
                      promptTokens, completionTokens, textBytes := text.length, error := [] })

/-- The value of a key of an object. -/
def Json.field (key : String) : Json → Option Json
  | .obj fields => fields.lookup (Stream.str key.toList)
  | _ => none

/-- The value is an object. -/
def Json.IsObj (v : Json) : Prop := ∃ fields, v = .obj fields

/-- The string is valid Unicode. -/
def ValidUnicode (s : PyStr) : Prop := ∀ c ∈ s, ¬ (0xd800 ≤ c ∧ c ≤ 0xdfff)

instance : DecidablePred ValidUnicode :=
  fun s ↦ inferInstanceAs (Decidable (∀ c ∈ s, ¬ (0xd800 ≤ c ∧ c ≤ 0xdfff)))

/-- A choice is an object whose text is absent, null or a valid Unicode string. -/
structure ChoiceShaped (choice : Json) : Prop where
  isObj : choice.IsObj
  text : notNone (choice.field "text") = none ∨
    ∃ s, choice.field "text" = some (.str s) ∧ ValidUnicode s

/-- A completion object. -/
structure WellShaped (event : Json) : Prop where
  isObj : event.IsObj
  choices : event.field "choices" = none ∨
    ∃ choices, event.field "choices" = some (.arr choices) ∧ ∀ c ∈ choices, ChoiceShaped c
  usage : notNone (event.field "usage") = none ∨
    ∃ usage, event.field "usage" = some usage ∧ usage.IsObj

/-- The piece of text of a choice. -/
def piece (choice : Json) : PyStr :=
  match choice.field "text" with
  | some (.str s) => s
  | _ => []

/-- The pieces of text of an event. -/
def pieces (event : Json) : List PyStr :=
  match event.field "choices" with
  | some (.arr choices) => choices.map piece
  | _ => []

/-- The last usage of the events that is not null. -/
def lastUsage (events : List Json) : Option Json :=
  (events.filterMap fun event ↦ notNone (event.field "usage")).getLast?

/-! ### The state after some events -/

section

variable {clock : ℕ → T} {s : LoopState T} {event choice : Json} {events : List Json}

/-- A piece is added to the state. -/
def LoopState.push (clock : ℕ → T) (s : LoopState T) (p : PyStr) : LoopState T :=
  if p = [] then s
  else
    { s with
      firstToken := some (s.firstToken.getD (clock 0))
      textParts := s.textParts ++ [.str p] }

/-- **The invariant of the loop**: what the state has of the events so far. -/
structure Collected (events : List Json) (s : LoopState T) : Prop where
  textParts : s.textParts = ((events.flatMap pieces).filter (· ≠ [])).map .str
  firstToken : s.firstToken = none ↔ ∀ p ∈ events.flatMap pieces, p = []
  usage : s.usage = (lastUsage events).getD (.obj [])

theorem Collected.nil : Collected [] ({} : LoopState T) := ⟨rfl, by simp, rfl⟩

end

/-! ### The whole loop -/

/-- The data lines of a response. -/
def dataLines (resp : List (List UInt8)) : List (List Char) := resp.filterMap dataOf

/-- The data lines before the first `[DONE]`. -/
def beforeDone (resp : List (List UInt8)) : List (List Char) :=
  (dataLines resp).takeWhile (· ≠ "[DONE]".toList)

/-- The value of a text by the grammar of JSON, whatever the limits of an interpreter. -/
abbrev Grammar := List Char → Option Json

variable (g : Grammar)

/-- The events before the first `[DONE]`. -/
def eventsBefore (resp : List (List UInt8)) : List Json := (beforeDone resp).filterMap g

/-- A data line is valid JSON with a null or absent error. -/
def IsEvent (data : List Char) : Prop :=
  ∃ event, g data = some event ∧ notNone (event.field "error") = none

/-- Every data line before the first `[DONE]` is valid JSON with a null or absent error. -/
def Clean (resp : List (List UInt8)) : Prop := ∀ data ∈ beforeDone resp, IsEvent g data

/-- The events of the data lines that are valid JSON are completion objects. -/
def WellShapedEvents (resp : List (List UInt8)) : Prop :=
  ∀ data ∈ dataLines resp, ∀ event, g data = some event → WellShaped event

/-- `json.loads` reads JSON: it gives the value of a text, and raises a `JSONDecodeError` only for a
text that is not valid. -/
structure Builtins.Reads (b : Builtins) (g : Grammar) : Prop where
  value : ∀ data event, b.loads data = .ok event → g data = some event
  invalid : ∀ data, b.loads data = .error .jsonDecodeError → g data = none

/-- Nothing but a `JSONDecodeError` is raised for a data line: neither when it is read nor when an
error in it is summarized. -/
def Builtins.Answers (data : List Char) : Prop :=
  match b.loads data with
  | .error e => e = .jsonDecodeError
  | .ok event => ∀ error, notNone (event.field "error") = some error →
    ∃ message, summarizeStreamError b error = .ok message

section

variable {b : Builtins} {g : Grammar} {clock : ℕ → T} {s : LoopState T} {events : List Json}
  {raw : List UInt8} {resp : List (List UInt8)} {data : List Char}

theorem dataLines_cons_of_none (h : dataOf raw = none) :
    dataLines (raw :: resp) = dataLines resp :=
  List.filterMap_cons_none h

theorem dataLines_cons_of_some (h : dataOf raw = some data) :
    dataLines (raw :: resp) = data :: dataLines resp :=
  List.filterMap_cons_some h

/-- A line that is no data line is not there for the loop. -/
theorem beforeDone_cons_of_none (h : dataOf raw = none) :
    beforeDone (raw :: resp) = beforeDone resp := by
  rw [beforeDone, dataLines_cons_of_none h, beforeDone]

theorem beforeDone_cons_of_ne (h : dataOf raw = some data) (hne : data ≠ "[DONE]".toList) :
    beforeDone (raw :: resp) = data :: beforeDone resp := by
  rw [beforeDone, dataLines_cons_of_some h]
  exact List.takeWhile_cons_of_pos (decide_eq_true hne)

theorem WellShapedEvents.head (h : WellShapedEvents g (raw :: resp))
    (hraw : dataOf raw = some data) : ∀ event, g data = some event → WellShaped event := by
  refine h data ?_
  rw [dataLines_cons_of_some hraw]
  exact List.mem_cons_self

/-- How the loop ends on a response, from a state with the events before. -/
def EndsRight (g : Grammar) (resp : List (List UInt8)) (events : List Json) (s : LoopState T) :
    Ended → Prop
  | .done => "[DONE]".toList ∈ dataLines resp ∧ Clean g resp ∧
    Collected (events ++ eventsBefore g resp) s
  | .eof => "[DONE]".toList ∉ dataLines resp ∧ Clean g resp ∧
    Collected (events ++ eventsBefore g resp) s
  | .streamError _ => ¬ Clean g resp

/-- A line that changes neither the data lines nor the state. -/
theorem EndsRight.skip {ended : Ended} (h : EndsRight g resp events s ended)
    (hraw : dataOf raw = none) : EndsRight g (raw :: resp) events s ended := by
  have hdata : dataLines (raw :: resp) = dataLines resp := dataLines_cons_of_none hraw
  have hbefore : beforeDone (raw :: resp) = beforeDone resp := beforeDone_cons_of_none hraw
  cases ended with
  | done => simpa only [EndsRight, Clean, eventsBefore, hdata, hbefore] using h
  | eof => simpa only [EndsRight, Clean, eventsBefore, hdata, hbefore] using h
  | streamError message => simpa only [EndsRight, Clean, hbefore] using h

/-- An event without an error is added in front. -/
theorem EndsRight.event {ended : Ended} {event : Json}
    (h : EndsRight g resp (events ++ [event]) s ended) (hraw : dataOf raw = some data)
    (hne : data ≠ "[DONE]".toList) (hvalue : g data = some event)
    (herror : notNone (event.field "error") = none) : EndsRight g (raw :: resp) events s ended := by
  have hmem : "[DONE]".toList ∈ dataLines (raw :: resp) ↔ "[DONE]".toList ∈ dataLines resp := by
    rw [dataLines_cons_of_some hraw, List.mem_cons, or_iff_right hne.symm]
  have hclean : Clean g (raw :: resp) ↔ Clean g resp := by
    rw [Clean, beforeDone_cons_of_ne hraw hne, List.forall_mem_cons]
    exact and_iff_right ⟨event, hvalue, herror⟩
  have hevents : events ++ eventsBefore g (raw :: resp) =
      events ++ [event] ++ eventsBefore g resp := by
    rw [eventsBefore, beforeDone_cons_of_ne hraw hne, List.filterMap_cons_some hvalue,
      List.append_assoc]
    rfl
  cases ended with
  | done => simpa only [EndsRight, hmem, hclean, hevents] using h
  | eof => simpa only [EndsRight, hmem, hclean, hevents] using h
  | streamError message => simpa only [EndsRight, hclean] using h

/-- The text of the events before the first `[DONE]`. -/
def textBefore (g : Grammar) (resp : List (List UInt8)) : PyStr :=
  ((eventsBefore g resp).flatMap pieces).flatten

end

/-! ### The outcome -/

section

variable [Zero T] [Sub T] [Max T] {b : Builtins} {g : Grammar} {clock : ℕ → T} {start : T}
  {requestIndex : ℤ} {resp : List (List UInt8)}

/-- What a success reports of the events before the first `[DONE]`. -/
structure Success.Reports (r : Success T) (g : Grammar) (resp : List (List UInt8)) : Prop where
  textBytes : r.textBytes = (utf8 (textBefore g resp)).length
  promptTokens : r.promptTokens =
    ((lastUsage (eventsBefore g resp)).getD (.obj [])).field "prompt_tokens"
  completionTokens : r.completionTokens =
    ((lastUsage (eventsBefore g resp)).getD (.obj [])).field "completion_tokens"
  ttft : r.ttftS = none ↔ ∀ p ∈ (eventsBefore g resp).flatMap pieces, p = []

/-- The outcome that a stream should have. -/
structure Outcome (b : Builtins) (g : Grammar) (clock : ℕ → T) (start : T) (requestIndex : ℤ)
    (resp : List (List UInt8)) : Prop where
  /-- It is a success if and only if `[DONE]` comes and all events before it are free of errors,
  and the success reports these events. -/
  row : ∃ row, consumeStream b clock start requestIndex resp = .ok row ∧
    (row.ok = true ↔ "[DONE]".toList ∈ dataLines resp ∧ Clean g resp) ∧
      ∀ r, row = .succeeded r → r.Reports g resp
  /-- Lines that are no data lines change nothing. -/
  skipped : ∀ resp', (resp'.filter fun raw ↦ (dataOf raw).isSome) =
      (resp.filter fun raw ↦ (dataOf raw).isSome) →
    consumeStream b clock start requestIndex resp' =
      consumeStream b clock start requestIndex resp

end

end Bench.Stream
