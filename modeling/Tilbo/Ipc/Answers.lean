import Tilbo.Ipc.Framing

/-! # Answers

`processEnvelope`: call the handler and write its answer to the connection. The answer is an envelope of
its own, and is dropped if protojson refuses it or if it is too large for a frame (`answered_iff`). -/

namespace Tilbo.Ipc.Answers

open Tilbo.Lib.Lines Tilbo.Ipc.Framing

variable {Q R : Type}

/-! ### Messages -/

/-- `ErrorResponse`; the text of an error can be any bytes. -/
structure ErrorResponse where
  code : ℕ
  message : Bytes
deriving DecidableEq

/-- `Response`: an error, or one of the other kinds. -/
inductive Response (R : Type) where
  | error (e : ErrorResponse)
  | body (r : R)
deriving DecidableEq

/-- What an envelope carries. -/
inductive Payload (Q R : Type) where
  | none
  | request (req : Q)
  | response (resp : Response R)
  | event
deriving DecidableEq

/-- `Envelope`. -/
structure Envelope (Q R : Type) where
  requestId : UInt64
  payload : Payload Q R
deriving DecidableEq

/-- The bytes are valid UTF-8. -/
abbrev ValidUTF8 (b : Bytes) : Prop := (ByteArray.mk b.toArray).IsValidUTF8

/-- The strings of a response, given those of the other kinds. -/
def Response.strings (bodyStrings : R → List Bytes) : Response R → List Bytes
  | .error e => [e.message]
  | .body r => bodyStrings r

/-- protojson for envelopes: a response is refused exactly if one of its strings is not valid UTF-8. -/
structure Protojson (Q R : Type) extends Codec (Envelope Q R) where
  bodyStrings : R → List Bytes
  accepts : ∀ id resp, (∃ b, marshal ⟨id, .response resp⟩ = some b) ↔
    ∀ s ∈ resp.strings bodyStrings, ValidUTF8 s

/-! ### The answer to a request -/

/-- `genericErrorCode`. -/
def genericErrorCode : ℕ := 3

/-- What a handler returns: an error (its text), or a response, which may be nil. -/
abbrev Handled (R : Type) : Type := Except Bytes (Option (Response R))

/-- The response that is sent for what the handler returned. -/
def respond : Handled R → Response R
  | .error message => .error ⟨genericErrorCode, message⟩
  | .ok none => .error ⟨genericErrorCode, "internal error: nil response".toUTF8.toList⟩
  | .ok (some resp) => resp

/-- `processEnvelope`: what has been written to the connection then. -/
def processEnvelope (c : Protojson Q R) (handler : Q → Handled R) (wire : Bytes) (env : Envelope Q R) : Bytes :=
  match env.payload with
  | .request req =>
    match writeEnvelope c.toCodec wire ⟨env.requestId, .response (respond (handler req))⟩ with
    | .ok wire' => wire'
    | .error _ => wire
  | _ => wire

/-- One response envelope with this request id has been written, and nothing else. -/
def Answered (c : Protojson Q R) (id : UInt64) (wire wire' : Bytes) : Prop :=
  ∃ resp b, c.marshal ⟨id, .response resp⟩ = some b ∧ wire' = wire ++ b ++ [newline]

/-- The response is one that a frame can hold. -/
def Sendable (c : Protojson Q R) (id : UInt64) (resp : Response R) : Prop :=
  (∀ s ∈ resp.strings c.bodyStrings, ValidUTF8 s) ∧
    ∀ b, c.marshal ⟨id, .response resp⟩ = some b → b.length ≤ maxFrameSize

/-- A response that cannot be sent leaves the connection as it was. -/
theorem not_answered {c : Protojson Q R} {id : UInt64} {wire : Bytes} : ¬ Answered c id wire wire := by
  rintro ⟨resp, b, -, hwire⟩
  have hlen := congrArg List.length hwire
  simp only [List.length_append, List.length_singleton] at hlen
  omega

theorem writeEnvelope_sendable {c : Protojson Q R} {id : UInt64} {resp : Response R} (wire : Bytes) :
    (∃ wire', writeEnvelope c.toCodec wire ⟨id, .response resp⟩ = .ok wire') ↔ Sendable c id resp := by
  simp only [writeEnvelope_ok]
  constructor
  · rintro ⟨wire', b, hb, hlen, -⟩
    refine ⟨(c.accepts id resp).mp ⟨b, hb⟩, fun b' hb' => ?_⟩
    rw [hb] at hb'
    exact Option.some.inj hb' ▸ hlen
  · rintro ⟨hvalid, hlen⟩
    obtain ⟨b, hb⟩ := (c.accepts id resp).mpr hvalid
    exact ⟨_, b, hb, hlen b hb, rfl⟩

/-- **Answers.** A request is answered, with one response of its id, if and only if the strings of the
answer are valid UTF-8 and its encoding is no longer than `maxFrameSize`. -/
theorem answered_iff (c : Protojson Q R) (handler : Q → Handled R) (wire : Bytes) (id : UInt64) (req : Q) :
    Answered c id wire (processEnvelope c handler wire ⟨id, .request req⟩) ↔
      Sendable c id (respond (handler req)) := by
  rw [← writeEnvelope_sendable wire]
  simp only [processEnvelope]
  cases hw : writeEnvelope c.toCodec wire ⟨id, .response (respond (handler req))⟩ with
  | error e => simp [not_answered]
  | ok wire' =>
    obtain ⟨b, hb, -, hwire⟩ := writeEnvelope_ok.mp hw
    simp only [Except.ok.injEq, exists_eq', iff_true]
    exact ⟨_, b, hb, hwire⟩

/-! ### A file name that is not valid UTF-8 -/

/-- An object with a letter for each byte of the strings. -/
def object (strings : List Bytes) : Bytes := 0x7b :: (List.replicate strings.flatten.length 0x61 ++ [0x7d])

theorem isObject_object (strings : List Bytes) : IsObject (object strings) :=
  letters.object strings.flatten.length _ rfl

/-- The strings of an envelope, if the other responses are one string. -/
def stringsOf (env : Envelope Unit Bytes) : List Bytes :=
  match env.payload with
  | .response resp => resp.strings fun s => [s]
  | _ => []

/-- A codec for responses that are one string. -/
def plain : Protojson Unit Bytes where
  marshal env := if ∀ s ∈ stringsOf env, ValidUTF8 s then some (object (stringsOf env)) else none
  object env b h := by
    split_ifs at h
    cases h
    exact isObject_object _
  bodyStrings s := [s]
  accepts id resp := by
    split_ifs with h
    · exact ⟨fun _ => h, fun _ => ⟨_, rfl⟩⟩
    · constructor
      · rintro ⟨b, hb⟩
        cases hb
      · intro hvalid
        exact absurd hvalid h

/-- **The name of a file** is the byte `0xff`, and the response that holds it is not sent. -/
theorem name_not_answered : ¬ Answered plain 1 [] (processEnvelope plain (fun _ => .ok (some (.body [0xff]))) []
    ⟨1, .request ()⟩) := by
  have hinvalid : ¬ ValidUTF8 [0xff] := by
    rw [← ByteArray.validateUTF8_eq_false_iff]
    decide +kernel
  have hdropped : writeEnvelope plain.toCodec [] ⟨1, .response (.body [0xff])⟩ = .error .marshal := by
    have hnone : plain.marshal ⟨1, .response (.body [0xff])⟩ = none := by
      have hrefused : ¬ ∀ s ∈ stringsOf ⟨1, .response (.body [0xff])⟩, ValidUTF8 s := fun h =>
        hinvalid (h [0xff] (List.mem_singleton_self _))
      simp only [plain, if_neg hrefused]
    rw [writeEnvelope, hnone]
  simp only [processEnvelope, respond, hdropped]
  exact not_answered

end Tilbo.Ipc.Answers
