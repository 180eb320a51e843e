import Mathlib.Data.List.Infix
import PothosCore.Remote.Datagram

/-!
# PothosCore.Remote.DatagramFraming

Datagrams come out as they went in. The writer keeps what was written at the front of its
buffer, however it was written; the reader takes one frame off the stream, or raises. The
two meet in `frame`, the bytes of a payload on the stream. The deserialiser reads through
five calls of a stream buffer; together they are a `Cursor` in the payload.
-/

namespace PothosCore.Remote

variable {B : ByteOrder}

/-- Other bytes make another word. -/
theorem ByteOrder.fromNetwork_ne (B : ByteOrder) {bytes : List UInt8} {word : Nat} (hlen : bytes.length = 4)
    (hne : bytes ≠ B.toNetwork word) : B.fromNetwork bytes ≠ word := by
  intro h
  exact hne (by rw [← h, B.toNetwork_fromNetwork bytes hlen])

/-! ### The writer -/

/-- The payload that the calls write. -/
def payload (calls : List WriteCall) : List UInt8 := calls.flatMap WriteCall.written

theorem payload_lt {requests : List (List WriteCall)} (hsize : ∀ calls ∈ requests, (payload calls).length < 2 ^ 32) :
    ∀ p ∈ requests.map payload, p.length < 2 ^ 32 := by
  intro p hp
  obtain ⟨calls, hcalls, rfl⟩ := List.mem_map.mp hp
  exact hsize calls hcalls

/-- A frame with these words around the payload. -/
def frameOf (B : ByteOrder) (header trailer payload : List UInt8) : List UInt8 :=
  header ++ (B.toNetwork payload.length ++ (payload ++ trailer))

/-- The bytes of a payload on the stream. -/
def frame (B : ByteOrder) (payload : List UInt8) : List UInt8 :=
  frameOf B (B.toNetwork pothosRPCHeaderWord) (B.toNetwork pothosRPCTrailerWord) payload

namespace Obuf

/-- The buffer begins with what was written. -/
structure Holds (b : Obuf) (payload : List UInt8) : Prop where
  bytesWritten : b.bytesWritten = payload.length
  begins : payload <+: b.payloadData
  pos : 0 < b.payloadData.length

theorem holds_make : make.Holds [] where
  bytesWritten := rfl
  begins := List.nil_prefix
  pos := by
    rw [make, List.length_replicate]
    exact Nat.succ_pos 1023

/-- The loop resizes until there is room, and keeps what is there. -/
theorem resizeLoop_spec {needed fuel : Nat} {payloadData : List UInt8} (hpos : 0 < payloadData.length)
    (hfuel : needed ≤ payloadData.length + fuel) :
    ∃ resized, resizeLoop needed (fuel + 1) payloadData = .ok resized ∧ payloadData <+: resized ∧
      needed ≤ resized.length := by
  induction fuel generalizing payloadData with
  | zero => exact ⟨payloadData, if_neg (by omega), List.prefix_refl _, hfuel⟩
  | succ fuel ih =>
      rw [resizeLoop]
      by_cases h : payloadData.length < needed
      · rw [if_pos h]
        have hlen : (payloadData ++ List.replicate payloadData.length (0 : UInt8)).length =
            payloadData.length + payloadData.length := by
          rw [List.length_append, List.length_replicate]
        obtain ⟨resized, hloop, hprefix, hneeded⟩ :=
          @ih (payloadData ++ List.replicate payloadData.length 0) (by omega) (by omega)
        exact ⟨resized, hloop, (List.prefix_append _ _).trans hprefix, hneeded⟩
      · rw [if_neg h]
        exact ⟨payloadData, rfl, List.prefix_refl _, by omega⟩

section
variable {b : Obuf} {written : List UInt8}

theorem Holds.ensureSize (hb : b.Holds written) (count : Nat) :
    ∃ b', b.ensureSize count = .ok b' ∧ b'.Holds written ∧ b'.bytesWritten + count ≤ b'.payloadData.length := by
  obtain ⟨resized, hloop, hprefix, hneeded⟩ :=
    resizeLoop_spec hb.pos (Nat.le_add_left (b.bytesWritten + count) _)
  refine ⟨{ b with payloadData := resized }, ?_, ?_, hneeded⟩
  · rw [Obuf.ensureSize, hloop]
    rfl
  · exact ⟨hb.bytesWritten, hb.begins.trans hprefix, hb.pos.trans_le hprefix.length_le⟩

theorem Holds.append (hb : b.Holds written) {s : List UInt8}
    (hroom : b.bytesWritten + s.length ≤ b.payloadData.length) :
    ∃ b', b.append s = .ok b' ∧ b'.Holds (written ++ s) := by
  have htake : b.payloadData.take b.bytesWritten = written := by
    rw [hb.bytesWritten]
    exact List.prefix_iff_eq_take.mp hb.begins |>.symm
  refine ⟨_, if_pos hroom, ?_, ?_, ?_⟩
  · rw [List.length_append, ← hb.bytesWritten]
  · rw [htake]
    exact List.prefix_append _ _
  · have hpos := hb.pos
    simp only [List.length_append, List.length_take, List.length_drop]
    omega

/-- **One call** writes its characters after the others. -/
theorem Holds.call (hb : b.Holds written) (c : WriteCall) :
    ∃ b', b.call c = .ok b' ∧ b'.Holds (written ++ c.written) := by
  have hwrite : ∀ s : List UInt8, ∃ b', (do let b ← b.ensureSize s.length; b.append s) = .ok b' ∧
      b'.Holds (written ++ s) := by
    intro s
    obtain ⟨b₁, hsize, hb₁, hroom⟩ := hb.ensureSize s.length
    obtain ⟨b₂, happend, hb₂⟩ := hb₁.append hroom
    refine ⟨b₂, ?_, hb₂⟩
    rw [hsize]
    exact happend
  cases c with
  | overflow c =>
      cases c with
      | none => exact ⟨b, rfl, by rwa [WriteCall.written, Option.toList_none, List.append_nil]⟩
      | some c => exact hwrite [c]
  | xsputn s => exact hwrite s

theorem Holds.serialize (hb : b.Holds written) (calls : List WriteCall) :
    ∃ b', b.serialize calls = .ok b' ∧ b'.Holds (written ++ payload calls) := by
  induction calls generalizing b written with
  | nil => exact ⟨b, rfl, by rwa [payload, List.flatMap_nil, List.append_nil]⟩
  | cons c calls ih =>
      obtain ⟨b₁, hcall, hb₁⟩ := hb.call c
      obtain ⟨b₂, hserialize, hb₂⟩ := ih hb₁
      refine ⟨b₂, ?_, ?_⟩
      · rw [Obuf.serialize, hcall]
        exact hserialize
      · rwa [payload, List.flatMap_cons, ← List.append_assoc]

/-- What goes out is the frame of what was written. -/
theorem Holds.datagram (hb : b.Holds written) (hsize : written.length < 2 ^ 32) : b.datagram B = frame B written := by
  have htake : b.payloadData.take written.length = written := (List.prefix_iff_eq_take.mp hb.begins).symm
  rw [Obuf.datagram, hb.bytesWritten, Nat.mod_eq_of_lt hsize, htake, frame, frameOf]
  simp only [List.append_assoc]

end

end Obuf

/-- What is sent is a frame, -/
theorem sendDatagram_eq (os : List UInt8) {calls : List WriteCall} (hsize : (payload calls).length < 2 ^ 32) :
    sendDatagram B os calls = .ok (os ++ frame B (payload calls)) := by
  obtain ⟨b, hserialize, hb⟩ := Obuf.holds_make.serialize calls
  have hdatagram : b.datagram B = frame B (payload calls) := hb.datagram hsize
  rw [sendDatagram, hserialize, ← hdatagram]
  rfl

/-- **and one frame after the other.** -/
theorem sendDatagrams_eq (os : List UInt8) {requests : List (List WriteCall)}
    (hsize : ∀ calls ∈ requests, (payload calls).length < 2 ^ 32) :
    sendDatagrams B os requests = .ok (os ++ (requests.map payload).flatMap (frame B)) := by
  induction requests generalizing os with
  | nil => rw [sendDatagrams, List.map_nil, List.flatMap_nil, List.append_nil]
  | cons calls requests ih =>
      have hsend : sendDatagram B os calls = .ok (os ++ frame B (payload calls)) :=
        sendDatagram_eq os (hsize calls (List.mem_cons_self ..))
      rw [sendDatagrams, hsend, List.map_cons, List.flatMap_cons, ← List.append_assoc]
      exact ih _ fun calls hcalls => hsize calls (List.mem_cons_of_mem _ hcalls)

/-! ### The reader -/

theorem IStream.read_append {a : List UInt8} {n : Nat} (h : a.length = n) (rest : List UInt8) (broken : Bool) :
    IStream.read ⟨a ++ rest, broken⟩ n = .ok (a, ⟨rest, broken⟩) := by
  subst h
  rw [IStream.read, if_pos (by rw [List.length_append]; exact Nat.le_add_right _ _), List.take_left, List.drop_left]

theorem IStream.read_short {s : IStream} {n : Nat} (h : s.bytes.length < n) :
    ∃ message, s.read n = .error (recvError message) :=
  ⟨_, if_neg (not_le.mpr h)⟩

/-- The header is read first. -/
theorem readFrame_header {header : List UInt8} {payloadBytes : Nat} (hheader : header.length = 4)
    (hsize : payloadBytes < 2 ^ 32) (rest : List UInt8) (broken : Bool) :
    readFrame B ⟨header ++ (B.toNetwork payloadBytes ++ rest), broken⟩ =
      if B.fromNetwork header ≠ pothosRPCHeaderWord then .error (recvError "headerWord fail")
      else readPayload B payloadBytes ⟨rest, broken⟩ := by
  have hlen : (header ++ B.toNetwork payloadBytes).length = 8 := by
    rw [List.length_append, hheader, B.toNetwork_length]
  have hread := IStream.read_append hlen rest broken
  have htake : (header ++ B.toNetwork payloadBytes).take 4 = header := by
    rw [← hheader, List.take_left]
  have hdrop : (header ++ B.toNetwork payloadBytes).drop 4 = B.toNetwork payloadBytes := by
    rw [← hheader, List.drop_left]
  rw [List.append_assoc] at hread
  rw [readFrame, hread]
  simp only [bind, Except.bind, htake, hdrop, B.fromNetwork_toNetwork _ hsize]

/-- Then the payload and the trailer. -/
theorem readPayload_append {trailer : List UInt8} (htrailer : trailer.length = 4) (payload rest : List UInt8)
    (broken : Bool) :
    readPayload B payload.length ⟨payload ++ (trailer ++ rest), broken⟩ =
      if B.fromNetwork trailer ≠ pothosRPCTrailerWord then .error (recvError "trailerWord fail")
      else .ok (payload, ⟨rest, broken⟩) := by
  have hpayload := IStream.read_append (a := payload) rfl (trailer ++ rest) broken
  have hlast := IStream.read_append htrailer rest broken
  rw [readPayload, hpayload]
  simp only [bind, Except.bind, hlast]

/-- What `readFrame` makes of a frame with any words around the payload. -/
theorem readFrame_frameOf {header trailer payload : List UInt8} (hheader : header.length = 4)
    (htrailer : trailer.length = 4) (hsize : payload.length < 2 ^ 32) (rest : List UInt8) (broken : Bool) :
    readFrame B ⟨frameOf B header trailer payload ++ rest, broken⟩ =
      if B.fromNetwork header ≠ pothosRPCHeaderWord then .error (recvError "headerWord fail")
      else if B.fromNetwork trailer ≠ pothosRPCTrailerWord then .error (recvError "trailerWord fail")
      else .ok (payload, ⟨rest, broken⟩) := by
  simp only [frameOf, List.append_assoc]
  rw [readFrame_header hheader hsize, readPayload_append htrailer]

theorem words_lt : pothosRPCHeaderWord < 2 ^ 32 ∧ pothosRPCTrailerWord < 2 ^ 32 := by decide

section
variable {α : Type} (deserialize : Ibuf → α)

/-- **A whole frame** is handed to the deserialiser, whatever follows it. -/
theorem recvDatagram_frame {payload : List UInt8} (hsize : payload.length < 2 ^ 32) (rest : List UInt8)
    (broken : Bool) :
    recvDatagram B deserialize ⟨frame B payload ++ rest, broken⟩ =
      ⟨[Ibuf.make payload], .ok (deserialize (Ibuf.make payload), ⟨rest, broken⟩)⟩ := by
  have hread := readFrame_frameOf (B := B) (B.toNetwork_length pothosRPCHeaderWord)
    (B.toNetwork_length pothosRPCTrailerWord) hsize rest broken
  rw [B.fromNetwork_toNetwork _ words_lt.1, B.fromNetwork_toNetwork _ words_lt.2, if_neg (not_not.mpr rfl),
    if_neg (not_not.mpr rfl)] at hread
  rw [recvDatagram, frame, hread]

/-- What a deserialiser was handed and made of the payloads, before these receives. -/
def Received.after (payloads : List (List UInt8)) (r : Received (List α)) : Received (List α) where
  handed := payloads.map Ibuf.make ++ r.handed
  result := r.result.map fun (xs, s) => (payloads.map (fun p => deserialize (Ibuf.make p)) ++ xs, s)

/-- **Whole frames** are handed over one after the other. -/
theorem recvDatagrams_frames {payloads : List (List UInt8)} (hsize : ∀ p ∈ payloads, p.length < 2 ^ 32) (count : Nat)
    (rest : List UInt8) (broken : Bool) :
    recvDatagrams B deserialize (payloads.length + count) ⟨payloads.flatMap (frame B) ++ rest, broken⟩ =
      (recvDatagrams B deserialize count ⟨rest, broken⟩).after deserialize payloads := by
  induction payloads with
  | nil =>
      rw [List.length_nil, Nat.zero_add, List.flatMap_nil, List.nil_append]
      unfold Received.after
      cases recvDatagrams B deserialize count ⟨rest, broken⟩ with
      | mk handed result => cases result <;> rfl
  | cons p payloads ih =>
      have ih := ih fun q hq => hsize q (List.mem_cons_of_mem _ hq)
      have hframe := recvDatagram_frame (B := B) deserialize (hsize p (List.mem_cons_self ..))
        (payloads.flatMap (frame B) ++ rest) broken
      rw [List.length_cons, Nat.add_right_comm, recvDatagrams, List.flatMap_cons, List.append_assoc, hframe]
      simp only [ih, Received.after]
      cases (recvDatagrams B deserialize count ⟨rest, broken⟩).result <;> rfl

/-- A receive that raises, and hands nothing to the deserialiser. -/
def Raises (B : ByteOrder) (s : IStream) : Prop :=
  ∃ message, readFrame B s = .error (recvError message)

/-- It ends a row of receives. -/
theorem Raises.recvDatagrams {s : IStream} (h : Raises B s) (count : Nat) :
    ∃ message, recvDatagrams B deserialize (count + 1) s = ⟨[], .error (recvError message)⟩ := by
  obtain ⟨message, hread⟩ := h
  exact ⟨message, by rw [Remote.recvDatagrams, recvDatagram, hread]⟩

/-- After whole frames, too. -/
theorem Raises.after_frames {rest : List UInt8} {broken : Bool} (h : Raises B ⟨rest, broken⟩)
    {before : List (List WriteCall)} (hsize : ∀ calls ∈ before, (payload calls).length < 2 ^ 32) {count : Nat}
    (hcount : before.length < count) :
    ∃ message, Remote.recvDatagrams B deserialize count ⟨(before.map payload).flatMap (frame B) ++ rest, broken⟩ =
      ⟨before.map fun calls => Ibuf.make (payload calls), .error (recvError message)⟩ := by
  obtain ⟨more, rfl⟩ := Nat.exists_eq_add_of_lt hcount
  obtain ⟨message, hmore⟩ := h.recvDatagrams deserialize more
  have hall := recvDatagrams_frames (B := B) deserialize (payload_lt hsize) (more + 1) rest broken
  rw [List.length_map, ← Nat.add_assoc] at hall
  refine ⟨message, ?_⟩
  rw [hall, hmore, Received.after, List.append_nil, List.map_map]
  rfl

end

/-- **A frame with another word** raises. -/
theorem raises_altered {header trailer payload : List UInt8} (hheader : header.length = 4)
    (htrailer : trailer.length = 4) (hsize : payload.length < 2 ^ 32)
    (halter : header ≠ B.toNetwork pothosRPCHeaderWord ∨ trailer ≠ B.toNetwork pothosRPCTrailerWord)
    (rest : List UInt8) (broken : Bool) : Raises B ⟨frameOf B header trailer payload ++ rest, broken⟩ := by
  have hread := readFrame_frameOf (B := B) hheader htrailer hsize rest broken
  by_cases hword : B.fromNetwork header ≠ pothosRPCHeaderWord
  · rw [if_pos hword] at hread
    exact ⟨_, hread⟩
  · have hne : trailer ≠ B.toNetwork pothosRPCTrailerWord :=
      halter.resolve_left fun hne => hword (B.fromNetwork_ne hheader hne)
    rw [if_neg hword, if_pos (B.fromNetwork_ne htrailer hne)] at hread
    exact ⟨_, hread⟩

theorem readPayload_short {payloadBytes : Nat} {s : IStream} (h : s.bytes.length < payloadBytes + 4) :
    ∃ message, readPayload B payloadBytes s = .error (recvError message) := by
  by_cases hshort : s.bytes.length < payloadBytes
  · obtain ⟨message, hread⟩ := IStream.read_short hshort
    exact ⟨message, by rw [readPayload, hread]; rfl⟩
  · have hread : s.read payloadBytes = .ok (s.bytes.take payloadBytes, { s with bytes := s.bytes.drop payloadBytes }) :=
      if_pos (not_lt.mp hshort)
    have hrest : (s.bytes.drop payloadBytes).length < 4 := by
      rw [List.length_drop]
      omega
    obtain ⟨message, hlast⟩ := IStream.read_short (s := { s with bytes := s.bytes.drop payloadBytes }) hrest
    refine ⟨message, ?_⟩
    rw [readPayload, hread]
    simp only [bind, Except.bind, hlast]

/-- **A frame that is cut** raises, wherever the cut is. -/
theorem raises_cut {payload : List UInt8} (hsize : payload.length < 2 ^ 32) {k : Nat}
    (hk : k < (frame B payload).length) (broken : Bool) : Raises B ⟨(frame B payload).take k, broken⟩ := by
  have hlen : (frame B payload).length = 8 + (payload.length + 4) := by
    simp only [frame, frameOf, List.length_append, B.toNetwork_length]
    omega
  by_cases hheader : k < 8
  · have hshort : ((frame B payload).take k).length < 8 := by
      rw [List.length_take]
      omega
    obtain ⟨message, hread⟩ := IStream.read_short (s := ⟨(frame B payload).take k, broken⟩) hshort
    have hframe : readFrame B ⟨(frame B payload).take k, broken⟩ = .error (recvError message) := by
      rw [readFrame, hread]
      rfl
    exact ⟨message, hframe⟩
  · have htake : (frame B payload).take k = B.toNetwork pothosRPCHeaderWord ++ (B.toNetwork payload.length ++
        (payload ++ B.toNetwork pothosRPCTrailerWord).take (k - 8)) := by
      rw [frame, frameOf, List.take_append, List.take_append,
        List.take_of_length_le (by rw [B.toNetwork_length]; omega),
        List.take_of_length_le (by rw [B.toNetwork_length, B.toNetwork_length]; omega)]
      simp only [B.toNetwork_length, Nat.sub_sub]
    have hshort : ((payload ++ B.toNetwork pothosRPCTrailerWord).take (k - 8)).length < payload.length + 4 := by
      rw [List.length_take]
      omega
    obtain ⟨message, hread⟩ :=
      readPayload_short (s := ⟨(payload ++ B.toNetwork pothosRPCTrailerWord).take (k - 8), broken⟩) hshort
    have hframe : readFrame B ⟨(frame B payload).take k, broken⟩ = .error (recvError message) := by
      rw [htake, readFrame_header (B.toNetwork_length _) hsize, B.fromNetwork_toNetwork _ words_lt.1, hread]
      simp
    exact ⟨message, hframe⟩

/-- A stream that is cut is some whole frames, and a frame that is cut. -/
theorem cut_frames {requests : List (List WriteCall)} {cut : List UInt8}
    (hcut : cut <+: (requests.map payload).flatMap (frame B)) (hne : cut ≠ (requests.map payload).flatMap (frame B)) :
    ∃ before calls after k, requests = before ++ calls :: after ∧ k < (frame B (payload calls)).length ∧
      cut = (before.map payload).flatMap (frame B) ++ (frame B (payload calls)).take k := by
  induction requests generalizing cut with
  | nil => exact absurd (List.prefix_nil.mp hcut) hne
  | cons calls requests ih =>
      rw [List.map_cons, List.flatMap_cons] at hcut hne
      by_cases hk : cut.length < (frame B (payload calls)).length
      · refine ⟨[], calls, requests, cut.length, rfl, hk, ?_⟩
        have htake := List.prefix_iff_eq_take.mp hcut
        rw [List.take_append_of_le_length hk.le] at htake
        exact htake
      · obtain ⟨rest, rfl⟩ : ∃ rest, cut = frame B (payload calls) ++ rest := by
          obtain ⟨rest, hrest⟩ := List.prefix_of_prefix_length_le (List.prefix_append _ _) hcut (not_lt.mp hk)
          exact ⟨rest, hrest.symm⟩
        obtain ⟨before, last, after, k, hsplit, hlt, hbytes⟩ :=
          ih ((List.prefix_append_right_inj _).mp hcut) fun h => hne (by rw [h])
        exact ⟨calls :: before, last, after, k, by rw [hsplit]; rfl, hlt, by
          rw [hbytes, List.map_cons, List.flatMap_cons, List.append_assoc]⟩

/-! ### The payload reader -/

/-- A position in a text: what is before it and what is behind it. -/
structure Cursor where
  before : List UInt8
  rest : List UInt8
  deriving Repr, DecidableEq

namespace Cursor

open Ibuf (ReadCall)

def text (c : Cursor) : List UInt8 := c.before ++ c.rest

/-- The position some bytes further on, or at the end. -/
def skip (c : Cursor) (n : Nat) : Cursor := ⟨c.before ++ c.rest.take n, c.rest.drop n⟩

/-- What a call is to give, and where it is to leave the position: `underflow` looks at the
next byte, `uflow` and `xsgetn` take bytes off, and `pbackfail` steps back over the byte that
it is told. -/
def call (c : Cursor) : ReadCall → List UInt8 × Cursor
  | .underflow => (c.rest.take 1, c)
  | .uflow => (c.rest.take 1, c.skip 1)
  | .xsgetn n => (c.rest.take n, c.skip n)
  | .pbackfail none => ([], c)
  | .pbackfail (some t) =>
      if c.before.getLast? = some t then ([t], ⟨c.before.dropLast, t :: c.rest⟩) else ([], c)

def calls (c : Cursor) : List ReadCall → List (ReadCall × List UInt8) × Cursor
  | [] => ([], c)
  | r :: reads =>
      let (bytes, c) := c.call r
      let (given, c) := c.calls reads
      ((r, bytes) :: given, c)

/-- The bytes that a call gives and takes off. -/
def taken : ReadCall × List UInt8 → List UInt8
  | (.uflow, bytes) => bytes
  | (.xsgetn _, bytes) => bytes
  | _ => []

/-- The number of bytes that a call asks for and takes off. -/
def demanded : ReadCall → Nat
  | .uflow => 1
  | .xsgetn n => n
  | _ => 0

variable {c : Cursor}

@[simp] theorem skip_text (n : Nat) : (c.skip n).text = c.text := by
  rw [text, skip, List.append_assoc, List.take_append_drop, text]

theorem take_infix (n : Nat) : c.rest.take n <:+: c.text :=
  (List.take_prefix n c.rest).isInfix.trans (List.suffix_append c.before c.rest).isInfix

/-- No call changes the text. -/
theorem call_text (r : ReadCall) : (c.call r).2.text = c.text := by
  cases r with
  | underflow => rfl
  | uflow => exact skip_text 1
  | xsgetn n => exact skip_text n
  | pbackfail t =>
      cases t with
      | none => rfl
      | some t =>
          rw [call]
          split
          · next hlast =>
              rw [text, text, ← List.dropLast_append_getLast? t hlast, List.append_assoc]
              simp
          · rfl

/-- What a call gives is in the text. -/
theorem call_infix (r : ReadCall) : (c.call r).1 <:+: c.text := by
  cases r with
  | underflow => exact take_infix 1
  | uflow => exact take_infix 1
  | xsgetn n => exact take_infix n
  | pbackfail t =>
      cases t with
      | none => exact List.nil_infix
      | some t =>
          rw [call]
          split
          · next hlast =>
              have hsuffix : [t] <:+ c.before := ⟨c.before.dropLast, List.dropLast_append_getLast? t hlast⟩
              exact hsuffix.isInfix.trans (List.prefix_append c.before c.rest).isInfix
          · exact List.nil_infix

/-- Going forward, what is taken off comes off the rest. -/
theorem call_forward {r : ReadCall} (h : ∀ t, r ≠ .pbackfail t) :
    taken (r, (c.call r).1) = c.rest.take (demanded r) ∧ (c.call r).2.rest = c.rest.drop (demanded r) := by
  cases r with
  | underflow => exact ⟨rfl, rfl⟩
  | uflow => exact ⟨rfl, rfl⟩
  | xsgetn n => exact ⟨rfl, rfl⟩
  | pbackfail t => exact absurd rfl (h t)

theorem calls_infix (reads : List ReadCall) : ∀ r ∈ (c.calls reads).1, r.2 <:+: c.text := by
  induction reads generalizing c with
  | nil =>
      intro r hr
      cases hr
  | cons r reads ih =>
      intro r' hr'
      rcases List.mem_cons.mp hr' with rfl | hr'
      · exact call_infix r
      · exact call_text (c := c) r ▸ ih r' hr'

/-- **Calls that only go forward** take off the bytes of the rest in order, as many as they ask
for or as there are. -/
theorem calls_forward {reads : List ReadCall} (h : ∀ t, .pbackfail t ∉ reads) :
    (c.calls reads).1.flatMap taken = c.rest.take (reads.map demanded).sum := by
  induction reads generalizing c with
  | nil => exact List.take_zero.symm
  | cons r reads ih =>
      obtain ⟨htaken, hrest⟩ := call_forward (c := c) fun t hr => h t (hr ▸ List.mem_cons_self ..)
      have ih := ih (c := (c.call r).2) fun t ht => h t (List.mem_cons_of_mem _ ht)
      rw [hrest] at ih
      rw [calls, List.flatMap_cons, htaken, ih, List.map_cons, List.sum_cons, List.take_add]

end Cursor

namespace Ibuf

/-- The buffer stands at the position of the cursor. -/
structure At (b : Ibuf) (c : Cursor) : Prop where
  payloadData : b.payloadData = c.text
  bytesRead : b.bytesRead = c.before.length

theorem at_make (payload : List UInt8) : (make payload).At ⟨[], payload⟩ := ⟨rfl, rfl⟩

section
variable {b : Ibuf} {c : Cursor}

theorem At.showmanyc (hb : b.At c) : b.showmanyc = c.rest.length := by
  rw [Ibuf.showmanyc, hb.payloadData, hb.bytesRead, Cursor.text, List.length_append]
  omega

theorem At.showmanyc_nil (hb : b.At c) (h : c.rest = []) : b.showmanyc = 0 := by
  rw [hb.showmanyc, h]
  rfl

theorem At.showmanyc_cons (hb : b.At c) {x : UInt8} {rest : List UInt8} (h : c.rest = x :: rest) :
    b.showmanyc ≠ 0 := by
  rw [hb.showmanyc, h, List.length_cons]
  omega

/-- The next byte. -/
theorem At.charAt (hb : b.At c) {x : UInt8} {rest : List UInt8} (h : c.rest = x :: rest) :
    b.charAt b.bytesRead = .ok x := by
  rw [Ibuf.charAt, hb.payloadData, hb.bytesRead, Cursor.text, h, List.getElem?_append_right (Nat.le_refl _),
    Nat.sub_self, List.getElem?_cons_zero]

/-- The byte before. -/
theorem At.charAt_pred (hb : b.At c) {t : UInt8} (h : c.before.getLast? = some t) :
    b.charAt (b.bytesRead - 1) = .ok t := by
  have hpos : c.before.length - 1 < c.before.length := by
    cases hbefore : c.before with
    | nil => rw [hbefore] at h; cases h
    | cons x before => exact Nat.lt_succ_self _
  rw [List.getLast?_eq_getElem?] at h
  rw [Ibuf.charAt, hb.payloadData, hb.bytesRead, Cursor.text, List.getElem?_append_left hpos, h]

theorem At.skip (hb : b.At c) {n : Nat} (hn : n ≤ c.rest.length) :
    At { b with bytesRead := b.bytesRead + n } (c.skip n) where
  payloadData := hb.payloadData.trans (Cursor.skip_text n).symm
  bytesRead := by
    show b.bytesRead + n = (c.before ++ c.rest.take n).length
    rw [List.length_append, List.length_take, Nat.min_eq_left hn, hb.bytesRead]

theorem At.underflow (hb : b.At c) : ∃ x, b.underflow = .ok x ∧ x.toList = c.rest.take 1 := by
  cases hrest : c.rest with
  | nil => exact ⟨none, if_pos (hb.showmanyc_nil hrest), rfl⟩
  | cons x rest =>
      refine ⟨some x, ?_, rfl⟩
      rw [Ibuf.underflow, if_neg (hb.showmanyc_cons hrest), hb.charAt hrest]
      rfl

theorem At.uflow (hb : b.At c) :
    ∃ x b', b.uflow = .ok (x, b') ∧ x.toList = c.rest.take 1 ∧ b'.At (c.skip 1) := by
  cases hrest : c.rest with
  | nil =>
      refine ⟨none, b, if_pos (hb.showmanyc_nil hrest), rfl, ?_⟩
      rw [Cursor.skip, hrest, List.take_nil, List.drop_nil, List.append_nil, ← hrest]
      exact hb
  | cons x rest =>
      refine ⟨some x, { b with bytesRead := b.bytesRead + 1 }, ?_, rfl, hb.skip ?_⟩
      · rw [Ibuf.uflow, if_neg (hb.showmanyc_cons hrest), hb.charAt hrest]
        rfl
      · rw [hrest, List.length_cons]
        exact Nat.le_add_left 1 _

theorem At.xsgetn (hb : b.At c) (n : Nat) :
    ∃ count b', b.xsgetn n = .ok (count, c.rest.take n, b') ∧ b'.At (c.skip n) := by
  by_cases hzero : b.showmanyc = 0
  · have hrest : c.rest = [] := by
      rw [hb.showmanyc] at hzero
      exact List.length_eq_zero_iff.mp (by omega)
    refine ⟨-1, b, ?_, ?_⟩
    · rw [Ibuf.xsgetn, hrest, List.take_nil]
      exact if_pos hzero
    · rw [Cursor.skip, hrest, List.take_nil, List.drop_nil, List.append_nil, ← hrest]
      exact hb
  · have hcount : (min (n : Int) b.showmanyc).toNat = min n c.rest.length := by
      rw [hb.showmanyc]
      omega
    have hroom : b.bytesRead + min n c.rest.length ≤ b.payloadData.length := by
      rw [hb.payloadData, hb.bytesRead, Cursor.text, List.length_append]
      omega
    have hdrop : b.payloadData.drop b.bytesRead = c.rest := by
      rw [hb.payloadData, hb.bytesRead, Cursor.text, List.drop_left]
    have hskip : c.skip (min n c.rest.length) = c.skip n := by
      rw [Cursor.skip, Cursor.skip, ← List.take_eq_take_min, ← List.drop_eq_drop_min]
    refine ⟨(min n c.rest.length : Nat), { b with bytesRead := b.bytesRead + min n c.rest.length }, ?_,
      hskip ▸ hb.skip (Nat.min_le_right _ _)⟩
    rw [Ibuf.xsgetn]
    simp only [if_neg hzero, hcount, if_pos hroom, hdrop, ← List.take_eq_take_min]

theorem At.pbackfail (hb : b.At c) (t : Option UInt8) :
    ∃ x b', b.pbackfail t = .ok (x, b') ∧ x.toList = (c.call (.pbackfail t)).1 ∧ b'.At (c.call (.pbackfail t)).2 := by
  cases t with
  | none => exact ⟨none, b, rfl, rfl, hb⟩
  | some t =>
      cases hlast : c.before.getLast? with
      | none =>
          have hstart : b.bytesRead = 0 := by
            rw [hb.bytesRead, List.getLast?_eq_none_iff.mp hlast]
            rfl
          rw [Cursor.call, hlast, if_neg (by simp)]
          exact ⟨none, b, if_pos hstart, rfl, hb⟩
      | some x =>
          have hbefore := List.dropLast_append_getLast? x hlast
          have hlen := congrArg List.length hbefore
          rw [List.length_append, List.length_singleton, ← hb.bytesRead] at hlen
          have hback : b.pbackfail (some t) = if t ≠ x then .ok (none, b)
              else .ok (some t, { b with bytesRead := b.bytesRead - 1 }) := by
            rw [Ibuf.pbackfail, if_neg (by omega), hb.charAt_pred hlast]
            rfl
          rw [hback, Cursor.call, hlast]
          by_cases hsame : x = t
          · subst hsame
            rw [if_neg (not_not.mpr rfl), if_pos rfl]
            refine ⟨some x, _, rfl, rfl, ?_, ?_⟩
            · rw [hb.payloadData, Cursor.text, Cursor.text, ← hbefore, List.append_assoc]
              simp
            · show b.bytesRead - 1 = c.before.dropLast.length
              omega
          · rw [if_pos (Ne.symm hsame), if_neg (fun h => hsame (Option.some.inj h))]
            exact ⟨none, b, rfl, rfl, hb⟩

/-- **One call** gives what the cursor says. -/
theorem At.call (hb : b.At c) (r : ReadCall) : ∃ b', b.call r = .ok ((c.call r).1, b') ∧ b'.At (c.call r).2 := by
  cases r with
  | underflow =>
      obtain ⟨x, hcall, hx⟩ := hb.underflow
      exact ⟨b, by rw [Ibuf.call, hcall, Cursor.call, ← hx]; rfl, hb⟩
  | uflow =>
      obtain ⟨x, b', hcall, hx, hb'⟩ := hb.uflow
      exact ⟨b', by rw [Ibuf.call, hcall, Cursor.call, ← hx]; rfl, hb'⟩
  | pbackfail t =>
      obtain ⟨x, b', hcall, hx, hb'⟩ := hb.pbackfail t
      exact ⟨b', by rw [Ibuf.call, hcall, ← hx]; rfl, hb'⟩
  | xsgetn n =>
      obtain ⟨count, b', hcall, hb'⟩ := hb.xsgetn n
      exact ⟨b', by rw [Ibuf.call, hcall]; rfl, hb'⟩

/-- **Any calls.** -/
theorem At.calls (hb : b.At c) (reads : List ReadCall) :
    ∃ b', b.calls reads = .ok ((c.calls reads).1, b') ∧ b'.At (c.calls reads).2 := by
  induction reads generalizing b c with
  | nil => exact ⟨b, rfl, hb⟩
  | cons r reads ih =>
      obtain ⟨b₁, hcall, hb₁⟩ := hb.call r
      obtain ⟨b₂, hcalls, hb₂⟩ := ih hb₁
      refine ⟨b₂, ?_, hb₂⟩
      rw [Ibuf.calls, hcall]
      simp only [bind, Except.bind, hcalls]
      rfl

end

end Ibuf

/-- What the deserialiser's stream buffer gives of a payload, whatever calls it gets: what a
cursor in the payload gives; so bytes of the payload only, and, going forward, all of them in
order. -/
structure Ibuf.Yields (b : Ibuf) (payload : List UInt8) : Prop where
  cursor : ∀ reads, ∃ b', b.calls reads = .ok ((Cursor.calls ⟨[], payload⟩ reads).1, b') ∧
    b'.showmanyc = (Cursor.calls ⟨[], payload⟩ reads).2.rest.length
  inside : ∀ reads given b', b.calls reads = .ok (given, b') → ∀ r ∈ given, r.2 <:+: payload
  forward : ∀ reads given b', (∀ t, .pbackfail t ∉ reads) → b.calls reads = .ok (given, b') →
    given.flatMap Cursor.taken = payload.take (reads.map Cursor.demanded).sum

theorem Ibuf.make_yields (payload : List UInt8) : (make payload).Yields payload where
  cursor := by
    intro reads
    obtain ⟨b', hcalls, hb'⟩ := (at_make payload).calls reads
    exact ⟨b', hcalls, hb'.showmanyc⟩
  inside := by
    intro reads given b' hcalls
    obtain ⟨b'', hcalls', -⟩ := (at_make payload).calls reads
    cases hcalls.symm.trans hcalls'
    exact Cursor.calls_infix reads
  forward := by
    intro reads given b' hreads hcalls
    obtain ⟨b'', hcalls', -⟩ := (at_make payload).calls reads
    cases hcalls.symm.trans hcalls'
    exact Cursor.calls_forward hreads

/-- **Datagrams.** Requests that are serialised by any calls, with payloads of less than
`2 ^ 32` bytes, are received as they were sent: the deserialiser is handed each payload, in
order, with nothing left over. On a stream that is cut, or has another header or trailer word
in one frame, it is handed the payloads before that frame, and the receive of that frame
raises. The stream buffer that it is handed gives it the bytes of its payload. -/
theorem datagrams_framed (B : ByteOrder) (requests : List (List WriteCall))
    (hsize : ∀ calls ∈ requests, (payload calls).length < 2 ^ 32) (broken : Bool) {α : Type}
    (deserialize : Ibuf → α) :
    ∃ os, sendDatagrams B [] requests = .ok os ∧
      recvDatagrams B deserialize requests.length ⟨os, broken⟩ =
        ⟨requests.map fun calls => Ibuf.make (payload calls),
          .ok (requests.map fun calls => deserialize (Ibuf.make (payload calls)), ⟨[], broken⟩)⟩ ∧
      (∀ cut, cut <+: os → cut ≠ os → ∃ before calls after sent sent' message,
        requests = before ++ calls :: after ∧ sendDatagrams B [] before = .ok sent ∧ sent <+: cut ∧
          sendDatagram B sent calls = .ok sent' ∧ cut.length < sent'.length ∧
          recvDatagrams B deserialize requests.length ⟨cut, broken⟩ =
            ⟨before.map fun calls => Ibuf.make (payload calls), .error (recvError message)⟩) ∧
      (∀ before calls after header trailer, requests = before ++ calls :: after →
        header.length = 4 → trailer.length = 4 →
        (header ≠ B.toNetwork pothosRPCHeaderWord ∨ trailer ≠ B.toNetwork pothosRPCTrailerWord) →
        ∃ sent rest message, os = sent ++ (frame B (payload calls) ++ rest) ∧ sendDatagrams B [] before = .ok sent ∧
          recvDatagrams B deserialize requests.length
              ⟨sent ++ (frameOf B header trailer (payload calls) ++ rest), broken⟩ =
            ⟨before.map fun calls => Ibuf.make (payload calls), .error (recvError message)⟩) ∧
      ∀ calls ∈ requests, (Ibuf.make (payload calls)).Yields (payload calls) := by
  have hsent := sendDatagrams_eq (B := B) [] hsize
  rw [List.nil_append] at hsent
  -- a frame on which the receive raises, after the frames of the requests before
  have hraises {before after : List (List WriteCall)} {calls : List WriteCall} {rest : List UInt8}
      (hsplit : requests = before ++ calls :: after) (h : Raises B ⟨rest, broken⟩) :
      sendDatagrams B [] before = .ok ((before.map payload).flatMap (frame B)) ∧
        ∃ message,
          recvDatagrams B deserialize requests.length ⟨(before.map payload).flatMap (frame B) ++ rest, broken⟩ =
            ⟨before.map fun calls => Ibuf.make (payload calls), .error (recvError message)⟩ := by
    have hbefore : ∀ c ∈ before, (payload c).length < 2 ^ 32 := fun c hc =>
      hsize c (hsplit ▸ List.mem_append_left _ hc)
    have hcount : before.length < requests.length := by
      rw [hsplit, List.length_append, List.length_cons]
      omega
    exact ⟨sendDatagrams_eq [] hbefore, h.after_frames deserialize hbefore hcount⟩
  refine ⟨_, hsent, ?_, ?_, ?_, fun calls _ => Ibuf.make_yields (payload calls)⟩
  · have hall := recvDatagrams_frames (B := B) deserialize (payload_lt hsize) 0 [] broken
    rw [List.length_map, Nat.add_zero, List.append_nil] at hall
    rw [hall, Received.after, recvDatagrams, List.map_map, List.append_nil]
    simp only [Except.map, List.append_nil, List.map_map]
    rfl
  · intro cut hcut hne
    obtain ⟨before, calls, after, k, hsplit, hk, rfl⟩ := cut_frames hcut hne
    have hcalls : (payload calls).length < 2 ^ 32 := hsize calls (by rw [hsplit]; simp)
    obtain ⟨hbefore, message, hrecv⟩ := hraises hsplit (raises_cut hcalls hk broken)
    refine ⟨before, calls, after, _, _, message, hsplit, hbefore, List.prefix_append _ _, sendDatagram_eq _ hcalls,
      ?_, hrecv⟩
    rw [List.length_append, List.length_append, List.length_take]
    omega
  · intro before calls after header trailer hsplit hheader htrailer halter
    have hcalls : (payload calls).length < 2 ^ 32 := hsize calls (by rw [hsplit]; simp)
    obtain ⟨hbefore, message, hrecv⟩ := hraises hsplit
      (raises_altered hheader htrailer hcalls halter ((after.map payload).flatMap (frame B)) broken)
    refine ⟨_, _, message, ?_, hbefore, hrecv⟩
    rw [hsplit, List.map_append, List.map_cons, List.flatMap_append, List.flatMap_cons]

/-- The network's order: the most significant byte first. -/
def networkOrder : ByteOrder where
  toNetwork := fun word => [.ofNat (word / 2 ^ 24), .ofNat (word / 2 ^ 16), .ofNat (word / 2 ^ 8), .ofNat word]
  fromNetwork := fun bytes => bytes.foldl (fun word byte => word * 2 ^ 8 + byte.toNat) 0
  toNetwork_length := fun _ => rfl
  fromNetwork_toNetwork := by
    intro word h
    simp only [List.foldl_cons, List.foldl_nil, UInt8.toNat_ofNat']
    omega
  toNetwork_fromNetwork := by
    intro bytes h
    obtain ⟨a, b, c, d, rfl⟩ : ∃ a b c d, bytes = [a, b, c, d] := by
      match bytes, h with
      | [a, b, c, d], _ => exact ⟨a, b, c, d, rfl⟩
    have ha := a.toNat_lt
    have hb := b.toNat_lt
    have hc := c.toNat_lt
    have hd := d.toNat_lt
    have hbyte : ∀ (x : UInt8) (n : Nat), n % 256 = x.toNat → UInt8.ofNat n = x := by
      intro x n hn
      rw [← UInt8.toNat_inj, UInt8.toNat_ofNat', ← hn]
    simp only [List.foldl_cons, List.foldl_nil, List.cons.injEq, and_true]
    refine ⟨hbyte a _ ?_, hbyte b _ ?_, hbyte c _ ?_, hbyte d _ ?_⟩ <;> omega

/-- Two requests, one of them empty. The deserialiser takes two bytes, puts the second back and
takes the rest. -/
theorem datagrams_framed_two :
    ∃ os, sendDatagrams networkOrder [] [[.xsputn [1, 2], .overflow (some 3)], []] = .ok os ∧
      recvDatagrams networkOrder
          (fun b => (b.calls [.xsgetn 2, .pbackfail (some 2), .uflow, .xsgetn 9]).map (·.1)) 2 ⟨os, false⟩ =
        ⟨[Ibuf.make [1, 2, 3], Ibuf.make []],
          .ok ([.ok [(.xsgetn 2, [1, 2]), (.pbackfail (some 2), [2]), (.uflow, [2]), (.xsgetn 9, [3])],
            .ok [(.xsgetn 2, []), (.pbackfail (some 2), []), (.uflow, []), (.xsgetn 9, [])]], ⟨[], false⟩)⟩ := by
  have hsize : ∀ calls ∈ [[WriteCall.xsputn [1, 2], .overflow (some 3)], []], (payload calls).length < 2 ^ 32 := by
    decide
  obtain ⟨os, hsend, hrecv, -⟩ := datagrams_framed networkOrder _ hsize false
    fun b => (b.calls [.xsgetn 2, .pbackfail (some 2), .uflow, .xsgetn 9]).map (·.1)
  exact ⟨os, hsend, hrecv⟩

end PothosCore.Remote
