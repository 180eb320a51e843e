import PothosCore.Fault

/-!
# PothosCore.Remote.Datagram

The datagrams of the remote proxy. An object is serialised into a temporary buffer, and
goes out between a header with its size and a trailer. The receiver reads the whole frame
into a buffer of its own before an object is deserialised from it.

What is serialised is known here by the calls of the stream buffer that it makes. The
deserialiser is any function of the stream buffer that it is handed.
-/

namespace PothosCore.Remote

/-! ### Words -/

/-- `Poco::ByteOrder` for 32-bit words: the bytes of a word after `toNetwork`, and the word
that `fromNetwork` makes of its bytes. The two are inverse to each other. -/
structure ByteOrder where
  toNetwork : Nat → List UInt8
  fromNetwork : List UInt8 → Nat
  toNetwork_length : ∀ word, (toNetwork word).length = 4
  fromNetwork_toNetwork : ∀ word < 2 ^ 32, fromNetwork (toNetwork word) = word
  toNetwork_fromNetwork : ∀ bytes : List UInt8, bytes.length = 4 → toNetwork (fromNetwork bytes) = bytes

/-- `POTHOS_PACKET_WORD32("PRPC")` -/
def pothosRPCHeaderWord : Nat := 'P'.toNat * 2 ^ 24 + 'R'.toNat * 2 ^ 16 + 'P'.toNat * 2 ^ 8 + 'C'.toNat

/-- `POTHOS_PACKET_WORD32("CPRP")` -/
def pothosRPCTrailerWord : Nat := 'C'.toNat * 2 ^ 24 + 'P'.toNat * 2 ^ 16 + 'R'.toNat * 2 ^ 8 + 'P'.toNat

/-! ### `PRPCDatagramObuf` -/

/-- A call of the stream buffer while an object is serialised. -/
inductive WriteCall
  /-- `overflow(c)`; none is `eof`. -/
  | overflow (c : Option UInt8)
  | xsputn (s : List UInt8)
  deriving Repr, DecidableEq

/-- The characters that a call writes. -/
def WriteCall.written : WriteCall → List UInt8
  | .overflow c => c.toList
  | .xsputn s => s

/-- `PRPCDatagramObuf`. -/
structure Obuf where
  bytesWritten : Nat
  payloadData : List UInt8
  deriving Repr, DecidableEq

namespace Obuf

def make : Obuf := ⟨0, List.replicate 1024 0⟩

/-- The loop of `ensureSize`, for at most `fuel` rounds. -/
def resizeLoop (needed : Nat) : Nat → List UInt8 → Except Fault (List UInt8)
  | 0, _ => .error .diverged
  | fuel + 1, payloadData =>
      if payloadData.length < needed then
        resizeLoop needed fuel (payloadData ++ List.replicate payloadData.length 0)
      else .ok payloadData

/-- `ensureSize(count)`. Each round of the loop adds a byte or more. -/
def ensureSize (b : Obuf) (count : Nat) : Except Fault Obuf := do
  let payloadData ← resizeLoop (b.bytesWritten + count) (b.bytesWritten + count + 1) b.payloadData
  .ok { b with payloadData := payloadData }

/-- Copy characters to the end of what was written. -/
def append (b : Obuf) (s : List UInt8) : Except Fault Obuf :=
  if b.bytesWritten + s.length ≤ b.payloadData.length then
    .ok ⟨b.bytesWritten + s.length,
      b.payloadData.take b.bytesWritten ++ s ++ b.payloadData.drop (b.bytesWritten + s.length)⟩
  else .error (.undefined "_payloadData[_bytesWritten]")

/-- One call: the next characters are appended to the payload. -/
def call (b : Obuf) : WriteCall → Except Fault Obuf
  | .overflow none => .ok b
  | .overflow (some c) => do
      let b ← b.ensureSize 1
      b.append [c]
  | .xsputn s => do
      let b ← b.ensureSize s.length
      b.append s

/-- `data.serialize(oser)` -/
def serialize (b : Obuf) : List WriteCall → Except Fault Obuf
  | [] => .ok b
  | c :: calls => do
      let b ← b.call c
      b.serialize calls

/-- What goes out: the header, the payload and the trailer. -/
def datagram (B : ByteOrder) (b : Obuf) : List UInt8 :=
  B.toNetwork pothosRPCHeaderWord ++ B.toNetwork (b.bytesWritten % 2 ^ 32) ++ b.payloadData.take b.bytesWritten ++
    B.toNetwork pothosRPCTrailerWord

end Obuf

section
variable (B : ByteOrder)

/-- `sendDatagram(os, reqArgs)`, for a request that is serialised by these calls. -/
def sendDatagram (os : List UInt8) (calls : List WriteCall) : Except Fault (List UInt8) := do
  let b ← Obuf.make.serialize calls
  .ok (os ++ b.datagram B)

/-- One request after the other. -/
def sendDatagrams (os : List UInt8) : List (List WriteCall) → Except Fault (List UInt8)
  | [] => .ok os
  | calls :: requests => do
      let os ← sendDatagram B os calls
      sendDatagrams os requests

end

/-! ### `PRPCDatagramIbuf` -/

/-- The stream that is received from. After its bytes it ends, or it is broken. -/
structure IStream where
  bytes : List UInt8
  broken : Bool
  deriving Repr, DecidableEq

/-- `Pothos::IOException("recvDatagram()", message)` -/
def recvError (message : String) : Fault := .thrown "IOException" "recvDatagram()" message

/-- `is.read(buff, n)`, and the two checks after it. -/
def IStream.read (s : IStream) (n : Nat) : Except Fault (List UInt8 × IStream) :=
  if n ≤ s.bytes.length then .ok (s.bytes.take n, { s with bytes := s.bytes.drop n })
  else .error (recvError (if s.broken then "stream error" else "stream end"))

/-- The stream buffer of the deserialiser, without the construction that reads the frame. -/
structure Ibuf where
  bytesRead : Nat
  payloadData : List UInt8
  deriving Repr, DecidableEq

namespace Ibuf

def make (payloadData : List UInt8) : Ibuf := ⟨0, payloadData⟩

/-- `showmanyc()` -/
def showmanyc (b : Ibuf) : Int := b.payloadData.length - b.bytesRead

/-- `_payloadData[index]` -/
def charAt (b : Ibuf) (index : Nat) : Except Fault UInt8 :=
  match b.payloadData[index]? with
  | some c => .ok c
  | none => .error (.undefined "_payloadData[_bytesRead]")

/-- `underflow()`; none is `eof`. -/
def underflow (b : Ibuf) : Except Fault (Option UInt8) :=
  if b.showmanyc = 0 then .ok none
  else do
    let c ← b.charAt b.bytesRead
    .ok (some c)

/-- `uflow()` -/
def uflow (b : Ibuf) : Except Fault (Option UInt8 × Ibuf) :=
  if b.showmanyc = 0 then .ok (none, b)
  else do
    let c ← b.charAt b.bytesRead
    .ok (some c, { b with bytesRead := b.bytesRead + 1 })

/-- `pbackfail(c)` -/
def pbackfail (b : Ibuf) : Option UInt8 → Except Fault (Option UInt8 × Ibuf)
  | none => .ok (none, b)
  | some t =>
      if b.bytesRead = 0 then .ok (none, b) -- still at start
      else do
        let c ← b.charAt (b.bytesRead - 1)
        if t ≠ c then .ok (none, b) -- wrong character
        else .ok (some t, { b with bytesRead := b.bytesRead - 1 })

/-- `xsgetn(s, n)`: what it returns, and the characters that it copies to `s`. -/
def xsgetn (b : Ibuf) (n : Nat) : Except Fault (Int × List UInt8 × Ibuf) :=
  let available := b.showmanyc
  if available = 0 then .ok (-1, [], b)
  else
    let n := (min (n : Int) available).toNat
    if b.bytesRead + n ≤ b.payloadData.length then
      .ok (n, (b.payloadData.drop b.bytesRead).take n, { b with bytesRead := b.bytesRead + n })
    else .error (.undefined "memcpy(s, _payloadData.data()+_bytesRead, n)")

/-- A call of the stream buffer while an object is deserialised. -/
inductive ReadCall
  | underflow
  | uflow
  | pbackfail (c : Option UInt8)
  | xsgetn (n : Nat)
  deriving Repr, DecidableEq

/-- The bytes that a call gives to its caller, and the buffer after it. -/
def call (b : Ibuf) : ReadCall → Except Fault (List UInt8 × Ibuf)
  | .underflow => do
      let c ← b.underflow
      .ok (c.toList, b)
  | .uflow => do
      let (c, b) ← b.uflow
      .ok (c.toList, b)
  | .pbackfail c => do
      let (c, b) ← b.pbackfail c
      .ok (c.toList, b)
  | .xsgetn n => do
      let (_, s, b) ← b.xsgetn n
      .ok (s, b)

/-- One call after the other. -/
def calls (b : Ibuf) : List ReadCall → Except Fault (List (ReadCall × List UInt8) × Ibuf)
  | [] => .ok ([], b)
  | c :: rest => do
      let (bytes, b) ← b.call c
      let (given, b) ← b.calls rest
      .ok ((c, bytes) :: given, b)

end Ibuf

/-! ### Receiving -/

section
variable (B : ByteOrder)

/-- Read the payload and the trailer. -/
def readPayload (payloadBytes : Nat) (s : IStream) : Except Fault (List UInt8 × IStream) := do
  let (payloadData, s) ← s.read payloadBytes
  let (trailer, s) ← s.read 4
  if B.fromNetwork trailer ≠ pothosRPCTrailerWord then .error (recvError "trailerWord fail")
  else .ok (payloadData, s)

/-- The payload of the next frame. -/
def readFrame (s : IStream) : Except Fault (List UInt8 × IStream) := do
  let (header, s) ← s.read 8
  if B.fromNetwork (header.take 4) ≠ pothosRPCHeaderWord then .error (recvError "headerWord fail")
  else readPayload B (B.fromNetwork (header.drop 4)) s

/-- A receive: the stream buffers that the deserialiser was handed, and how it ends. -/
structure Received (α : Type) where
  handed : List Ibuf
  result : Except Fault (α × IStream)

/-- `recvDatagram(is)`, over what the deserialiser makes of the stream buffer: an object, or an
exception of its own. -/
def recvDatagram {α : Type} (deserialize : Ibuf → α) (s : IStream) : Received α :=
  match readFrame B s with
  | .error e => ⟨[], .error e⟩
  | .ok (payload, s) => ⟨[Ibuf.make payload], .ok (deserialize (Ibuf.make payload), s)⟩

/-- One receive after the other. The first that raises is the last one. -/
def recvDatagrams {α : Type} (deserialize : Ibuf → α) : Nat → IStream → Received (List α)
  | 0, s => ⟨[], .ok ([], s)⟩
  | count + 1, s =>
      match recvDatagram B deserialize s with
      | ⟨handed, .error e⟩ => ⟨handed, .error e⟩
      | ⟨handed, .ok (x, s)⟩ =>
          let rest := recvDatagrams deserialize count s
          ⟨handed ++ rest.handed, rest.result.map fun (xs, s) => (x :: xs, s)⟩

end

end PothosCore.Remote
