import PothosCore.Archive.StreamArchiver
import PothosCore.Lib.Leb128

/-!
# PothosCore.Archive.LoadTermination

Which streams a load gets through.

The loop of an integer goes on while the byte it holds has the continuation bit, and at
the end of the stream that byte no longer changes. So a load ends, whatever the locals
that it did not initialise hold, exactly when each integer it calls for is whole: its
last byte comes before the stream ends. `Whole` says so of a stream as a grammar, with
no loop and no local in it.
-/

namespace PothosCore.Archive

open PothosCore.Lib

/-! ### Whole streams -/

/-- The word that groups of seven bits make, the first of them shifted by `shift`. -/
def leb128 (w : Nat) : Nat → List UInt8 → BitVec w
  | _, [] => 0#w
  | shift, b :: bs =>
      BitVec.ofNat w (b &&& 0x7f).toNat <<< shift ||| leb128 w ((shift + 7) % 2 ^ 32) bs

/-- An integer at the front of a stream: bytes with the continuation bit, one without,
and what follows. -/
structure Front (bytes : Stream) (group : List UInt8) (rest : Stream) : Prop where
  split : ∃ init last, group = init ++ [last] ∧ (∀ b ∈ init, 128 ≤ b.toNat) ∧ last.toNat < 128
  append : bytes = group ++ rest

/-- The stream holds what the format calls for with every integer whole, up to where
`out` begins; or up to the hash of an entry that is not there, if `out` is `none`. The
bytes of other values may be cut off. -/
inductive Whole (find : EntryMap) (ver : BitVec 32) : Format → Stream → Option Stream → Prop
  | bool (bytes : Stream) : Whole find ver .bool bytes (some bytes.tail)
  | char (bytes : Stream) : Whole find ver .char bytes (some bytes.tail)
  | short (bytes : Stream) : Whole find ver .short bytes (some (bytes.drop 2))
  | integer {ty : IntType} {bytes group rest : Stream} (h : Front bytes group rest) :
      Whole find ver (.integer ty) bytes (some rest)
  | string {bytes group rest : Stream} (h : Front bytes group rest) :
      Whole find ver .string bytes (some (rest.drop (leb128 32 0 group).toNat))
  | elements_zero (elem : Format) (bytes : Stream) :
      Whole find ver (.elements 0 elem) bytes (some bytes)
  | elements_refused {count : Nat} {elem : Format} {bytes : Stream}
      (h : Whole find ver elem bytes none) : Whole find ver (.elements (count + 1) elem) bytes none
  | elements_succ {count : Nat} {elem : Format} {bytes mid : Stream} {out : Option Stream}
      (h : Whole find ver elem bytes (some mid)) (hs : Whole find ver (.elements count elem) mid out) :
      Whole find ver (.elements (count + 1) elem) bytes out
  | vector {elem : Format} {bytes group rest : Stream} {out : Option Stream}
      (h : Front bytes group rest)
      (hs : Whole find ver (.elements (leb128 32 0 group).toNat elem) rest out) :
      Whole find ver (.vector elem) bytes out
  | pair_refused {first second : Format} {bytes : Stream} (h : Whole find ver first bytes none) :
      Whole find ver (.pair first second) bytes none
  | pair {first second : Format} {bytes mid : Stream} {out : Option Stream}
      (h : Whole find ver first bytes (some mid)) (hs : Whole find ver second mid out) :
      Whole find ver (.pair first second) bytes out
  | pointer_refused {bytes group rest : Stream} (h : Front bytes group rest)
      (hfind : find (leb128 64 0 group) = none) : Whole find ver .pointer bytes none
  | pointer {bytes group rest : Stream} {out : Option Stream} {entry : Format}
      (h : Front bytes group rest) (hfind : find (leb128 64 0 group) = some entry)
      (hs : Whole find ver entry rest out) : Whole find ver .pointer bytes out
  | object_null {flag : UInt8} (hflag : flag ≠ 0) (rest : Stream) :
      Whole find ver .object (flag :: rest) (some rest)
  | object {rest : Stream} {out : Option Stream} (hs : Whole find ver .pointer rest out) :
      Whole find ver .object (0 :: rest) out
  | bufferChunk_null {flag : UInt8} (hflag : flag ≠ 0) (rest : Stream) :
      Whole find ver .bufferChunk (flag :: rest) (some rest)
  | bufferChunk {rest : Stream} {out : Option Stream}
      (hs : Whole find ver (.pair .string .dtype) rest out) :
      Whole find ver .bufferChunk (0 :: rest) out
  | pluginRegistryInfoDump {bytes : Stream} {out : Option Stream}
      (hs : Whole find ver (.pluginRegistryInfoDumpFields ver) bytes out) :
      Whole find ver .pluginRegistryInfoDump bytes out

/-- The same for an archive, with its version at the front. -/
def WholeArchive (find : EntryMap) (format : Format) (bytes : Stream) : Prop :=
  ∃ group rest, Front bytes group rest ∧ ∃ out, Whole find (leb128 32 0 group) format rest out

/-! ### The loop of an integer -/

theorem more_iff (b : UInt8) : b &&& more ≠ 0 ↔ 128 ≤ b.toNat := by
  rw [ne_eq, more, and_0x80_eq_zero, Nat.not_lt]

theorem loadLoop_error {w : Nat} {fuel : Nat} {s : Load w} {e : Fault}
    (h : loadLoop fuel s = .error e) : e = .diverged := by
  induction fuel generalizing s with
  | zero => exact (Except.error.inj h).symm
  | succ fuel ih =>
      simp only [loadLoop] at h
      split at h
      · exact ih h
      · cases h

theorem loadLoop_cons {w fuel : Nat} {t : BitVec w} {shift : Nat} {byte : UInt8} {d : Bool}
    {b : UInt8} {bytes : Stream} :
    loadLoop (fuel + 1) ⟨t, shift, byte, d, b :: bytes⟩ =
      let s := ⟨t ||| BitVec.ofNat w (b &&& 0x7f).toNat <<< shift, (shift + 7) % 2 ^ 32, b,
        d && decide (shift < w), bytes⟩
      if 128 ≤ b.toNat then loadLoop fuel s else .ok s := by
  rw [loadLoop]
  simp only [Load.round, readByte, more_iff]

theorem signExtend_stream {w : Nat} (s : Load w) : (signExtend s).stream = s.stream := by
  unfold signExtend
  split <;> rfl

/-- With no bytes left the loop spins on the byte it has. -/
theorem loadLoop_spins {w : Nat} (fuel : Nat) {t : BitVec w} {shift : Nat} {byte : UInt8} {d : Bool}
    (hbyte : 128 ≤ byte.toNat) : loadLoop fuel ⟨t, shift, byte, d, []⟩ = .error .diverged := by
  induction fuel generalizing t shift d with
  | zero => rfl
  | succ fuel ih =>
      rw [loadLoop]
      simp only [Load.round, readByte, (more_iff byte).mpr hbyte, ne_eq, not_false_eq_true, if_true]
      exact ih

/-- An integer that is whole is loaded. -/
theorem loadLoop_front {w : Nat} {init : List UInt8} {last : UInt8} {rest : Stream}
    (hinit : ∀ b ∈ init, 128 ≤ b.toNat) (hlast : last.toNat < 128) {fuel : Nat}
    (hfuel : init.length < fuel) {t : BitVec w} {shift : Nat} {byte : UInt8} {d : Bool} :
    ∃ r, loadLoop fuel ⟨t, shift, byte, d, init ++ last :: rest⟩ = .ok r ∧
      r.t = t ||| leb128 w shift (init ++ [last]) ∧ r.stream = rest := by
  induction init generalizing fuel t shift byte d with
  | nil =>
      cases fuel with
      | zero => cases hfuel
      | succ fuel =>
          rw [List.nil_append, loadLoop_cons]
          simp only [if_neg (Nat.not_le.mpr hlast)]
          refine ⟨_, rfl, ?_, rfl⟩
          rw [List.nil_append, leb128, leb128, BitVec.or_zero]
  | cons b init ih =>
      cases fuel with
      | zero => cases hfuel
      | succ fuel =>
          rw [List.cons_append, loadLoop_cons]
          simp only [if_pos (hinit b List.mem_cons_self)]
          obtain ⟨r, hr, ht, hrest⟩ := ih (fun x hx => hinit x (List.mem_cons_of_mem b hx))
            (Nat.lt_of_succ_lt_succ hfuel)
          refine ⟨r, hr, ?_, hrest⟩
          rw [ht, List.cons_append, leb128, BitVec.or_assoc]

/-- A loop that ends, and that began with a byte to go on with, found a whole integer. -/
theorem front_of_loadLoop {w fuel : Nat} {t : BitVec w} {shift : Nat} {byte : UInt8} {d : Bool}
    {bytes : Stream} {r : Load w} (hbyte : 128 ≤ byte.toNat)
    (h : loadLoop fuel ⟨t, shift, byte, d, bytes⟩ = .ok r) :
    ∃ group, Front bytes group r.stream ∧ r.t = t ||| leb128 w shift group := by
  induction bytes generalizing fuel t shift byte d with
  | nil =>
      rw [loadLoop_spins fuel hbyte] at h
      cases h
  | cons b bytes ih =>
      cases fuel with
      | zero => cases h
      | succ fuel =>
          rw [loadLoop_cons] at h
          by_cases hgo : 128 ≤ b.toNat
          · simp only [if_pos hgo] at h
            obtain ⟨group, ⟨⟨init, last, rfl, hinit, hlast⟩, happend⟩, ht⟩ := ih hgo h
            refine ⟨b :: (init ++ [last]), ⟨⟨b :: init, last, rfl, ?_, hlast⟩, ?_⟩, ?_⟩
            · intro x hx
              cases hx with
              | head => exact hgo
              | tail _ hx => exact hinit x hx
            · rw [happend, List.cons_append]
            · rw [ht, leb128, BitVec.or_assoc]
          · simp only [if_neg hgo] at h
            cases h
            refine ⟨[b], ⟨⟨[], b, rfl, fun _ h => (by cases h), Nat.not_le.mp hgo⟩, rfl⟩, ?_⟩
            rw [leb128, leb128, BitVec.or_zero]

/-! ### Integers in an archive -/

theorem loadInteger_front (ty : IntType) {bytes group rest : Stream} (h : Front bytes group rest) :
    ∃ n, ∀ fuel, n ≤ fuel → ∀ s : IStream, s.bytes = bytes → ∃ t s', loadInteger ty fuel s = .ok (t, s') ∧
      s'.bytes = rest ∧ (ty.signed = false → t = leb128 ty.bits 0 group) := by
  obtain ⟨⟨init, last, rfl, hinit, hlast⟩, happend⟩ := h
  refine ⟨init.length + 1, ?_⟩
  intro fuel hfuel s hs
  have hloop : ∃ r, loadLoop fuel ⟨(0 : BitVec ty.bits), 0, s.byte 0, true, init ++ last :: rest⟩ = .ok r ∧
      r.t = 0 ||| leb128 ty.bits 0 (init ++ [last]) ∧ r.stream = rest := loadLoop_front hinit hlast hfuel
  obtain ⟨r, hr, ht, hrest⟩ := hloop
  rw [List.append_assoc, List.singleton_append] at happend
  rw [loadInteger, load, hs, happend, hr]
  refine ⟨_, _, rfl, ?_, ?_⟩
  · show (if ty.signed then signExtend r else r).stream = rest
    rw [apply_ite Load.stream, signExtend_stream, ite_self, hrest]
  · intro hty
    show (if ty.signed then signExtend r else r).t = _
    rw [if_neg (by simp [hty]), ht]
    exact BitVec.zero_or

/-- The locals that keep a load going at the end of the stream: the null flags read
there say that something follows, and the integers there never stop. -/
structure IStream.Hostile (s : IStream) : Prop where
  flag : ∀ n, s.flag n = 0
  byte : ∀ n, s.byte n = 0xff

theorem front_of_loadInteger {ty : IntType} {fuel : Nat} {s s' : IStream} {t : BitVec ty.bits}
    (hs : s.Hostile) (h : loadInteger ty fuel s = .ok (t, s')) :
    s'.Hostile ∧ ∃ group, Front s.bytes group s'.bytes ∧
      (ty.signed = false → t = leb128 ty.bits 0 group) := by
  rw [loadInteger, load] at h
  cases hloop : loadLoop fuel ⟨(0 : BitVec ty.bits), 0, s.byte 0, true, s.bytes⟩ with
  | error e =>
      rw [hloop] at h
      cases h
  | ok r =>
      rw [hloop] at h
      cases h
      have hbyte : 128 ≤ (s.byte 0).toNat := by
        rw [hs.byte 0]
        decide
      obtain ⟨group, hfront, ht⟩ := front_of_loadLoop hbyte hloop
      refine ⟨⟨hs.flag, fun n => hs.byte (n + 1)⟩, group, ?_, ?_⟩
      · show Front s.bytes group (if ty.signed then signExtend r else r).stream
        rwa [apply_ite Load.stream, signExtend_stream, ite_self]
      · intro hty
        show (if ty.signed then signExtend r else r).t = _
        rw [if_neg (by simp [hty]), ht]
        exact BitVec.zero_or

theorem loadInteger_error {ty : IntType} {fuel : Nat} {s : IStream} {e : Fault}
    (h : loadInteger ty fuel s = .error e) : e = .diverged := by
  rw [loadInteger, load] at h
  cases hloop : loadLoop fuel ⟨(0 : BitVec ty.bits), 0, s.byte 0, true, s.bytes⟩ with
  | error e' =>
      rw [hloop] at h
      cases h
      exact loadLoop_error hloop
  | ok r =>
      rw [hloop] at h
      cases h

/-! ### Whole streams are got through -/

/-- The load returned, and left the stream at `out`; or it threw that an entry is not
there, if `out` is `none`. -/
def Ends {α : Type} (r : Except Fault (α × IStream)) : Option Stream → Prop
  | some rest => ∃ v s, r = .ok (v, s) ∧ s.bytes = rest
  | none => ∃ hash, r = .error (noEntry hash)

theorem Ends.map {α β : Type} {r : Except Fault (α × IStream)} {out : Option Stream} (h : Ends r out)
    (f : α → β) : Ends (r >>= fun p => .ok (f p.1, p.2)) out := by
  cases out with
  | none =>
      obtain ⟨hash, rfl⟩ := h
      exact ⟨hash, rfl⟩
  | some rest =>
      obtain ⟨v, s, rfl, hs⟩ := h
      exact ⟨f v, s, rfl, hs⟩

theorem readByte_stream (byte : UInt8) (bytes : Stream) : (readByte byte bytes).2 = bytes.tail := by
  cases bytes <;> rfl

theorem loadBool_cons {s : IStream} {flag : UInt8} {rest : Stream} (hs : s.bytes = flag :: rest) :
    (loadBool s).1 = (flag != 0) ∧ (loadBool s).2.bytes = rest := by
  simp only [loadBool, hs, readByte]
  exact ⟨trivial, trivial⟩

section
variable {find : EntryMap} {ver : BitVec 32}

/-- With enough fuel, every load of the format from these bytes ends at `out`. -/
def GetsThrough (find : EntryMap) (ver : BitVec 32) (format : Format) (bytes : Stream)
    (out : Option Stream) : Prop :=
  ∃ n, ∀ fuel, n ≤ fuel → ∀ s : IStream, s.bytes = bytes → Ends (loadFormat find ver fuel format s) out

/-- The first of the calls takes one off the fuel. -/
theorem GetsThrough.of_succ {format : Format} {bytes : Stream} {out : Option Stream} (n : Nat)
    (h : ∀ fuel, n ≤ fuel → ∀ s : IStream, s.bytes = bytes →
      Ends (loadFormat find ver (fuel + 1) format s) out) : GetsThrough find ver format bytes out := by
  refine ⟨n + 1, ?_⟩
  intro fuel hfuel s hs
  cases fuel with
  | zero => cases hfuel
  | succ fuel => exact h fuel (Nat.le_of_succ_le_succ hfuel) s hs

/-- **A whole stream is got through**, whatever the locals hold. -/
theorem Whole.getsThrough {format : Format} {bytes : Stream} {out : Option Stream}
    (h : Whole find ver format bytes out) : GetsThrough find ver format bytes out := by
  induction h with
  | bool bytes =>
      refine .of_succ 0 (fun fuel _ s hs => ⟨_, _, rfl, ?_⟩)
      rw [← hs]
      exact readByte_stream _ _
  | char bytes =>
      refine .of_succ 0 (fun fuel _ s hs => ⟨_, _, rfl, ?_⟩)
      rw [← hs]
      exact readByte_stream _ _
  | short bytes =>
      refine .of_succ 0 (fun fuel _ s hs => ⟨_, _, rfl, ?_⟩)
      rw [← hs]
      rfl
  | @integer ty bytes group rest hfront =>
      obtain ⟨n, hn⟩ := loadInteger_front ty hfront
      refine .of_succ n (fun fuel hfuel s hs => ?_)
      obtain ⟨t, s', ht, hrest, -⟩ := hn fuel hfuel s hs
      rw [loadFormat, ht]
      exact ⟨_, _, rfl, hrest⟩
  | string hfront =>
      obtain ⟨n, hn⟩ := loadInteger_front .unsignedInt hfront
      refine .of_succ n (fun fuel hfuel s hs => ?_)
      obtain ⟨t, s', ht, rfl, hsize⟩ := hn fuel hfuel s hs
      rw [loadFormat, loadString, ht]
      refine ⟨_, _, rfl, ?_⟩
      show s'.bytes.drop (List.replicate t.toNat 0).length = _
      rw [List.length_replicate, hsize rfl]
      rfl
  | elements_zero elem bytes => exact .of_succ 0 (fun fuel _ s hs => ⟨_, _, rfl, hs⟩)
  | elements_refused h ih =>
      obtain ⟨n, hn⟩ := ih
      refine .of_succ n (fun fuel hfuel s hs => ?_)
      obtain ⟨hash, hend⟩ := hn fuel hfuel s hs
      rw [loadFormat, hend]
      exact ⟨hash, rfl⟩
  | elements_succ h hs ih ihs =>
      obtain ⟨n, hn⟩ := ih
      obtain ⟨m, hm⟩ := ihs
      refine .of_succ (n + m) (fun fuel hfuel s hs => ?_)
      obtain ⟨v, s', hv, hmid⟩ := hn fuel (by omega) s hs
      rw [loadFormat, hv]
      exact (hm fuel (by omega) s' hmid).map (Value.cons v)
  | vector h hs ih =>
      obtain ⟨n, hn⟩ := loadInteger_front .unsignedInt h
      obtain ⟨m, hm⟩ := ih
      refine .of_succ (n + m) (fun fuel hfuel s hs => ?_)
      obtain ⟨t, s', ht, hrest, hsize⟩ := hn fuel (by omega) s hs
      rw [loadFormat, ht]
      show Ends (loadFormat find ver fuel (.elements t.toNat _) s') _
      rw [hsize rfl]
      exact hm fuel (by omega) s' hrest
  | pair_refused h ih =>
      obtain ⟨n, hn⟩ := ih
      refine .of_succ n (fun fuel hfuel s hs => ?_)
      obtain ⟨hash, hend⟩ := hn fuel hfuel s hs
      rw [loadFormat, hend]
      exact ⟨hash, rfl⟩
  | pair h hs ih ihs =>
      obtain ⟨n, hn⟩ := ih
      obtain ⟨m, hm⟩ := ihs
      refine .of_succ (n + m) (fun fuel hfuel s hs => ?_)
      obtain ⟨v, s', hv, hmid⟩ := hn fuel (by omega) s hs
      rw [loadFormat, hv]
      exact (hm fuel (by omega) s' hmid).map (Value.cons v)
  | pointer_refused h hfind =>
      obtain ⟨n, hn⟩ := loadInteger_front .unsignedLongLong h
      refine .of_succ n (fun fuel hfuel s hs => ?_)
      obtain ⟨t, s', ht, -, hhash⟩ := hn fuel hfuel s hs
      have hnone : find t = none := by rw [hhash rfl]; exact hfind
      rw [loadFormat, ht]
      refine ⟨t, ?_⟩
      dsimp only [bind, Except.bind]
      rw [hnone]
  | @pointer _ _ _ _ entry h hfind hs ih =>
      obtain ⟨n, hn⟩ := loadInteger_front .unsignedLongLong h
      obtain ⟨m, hm⟩ := ih
      refine .of_succ (n + m) (fun fuel hfuel s hs => ?_)
      obtain ⟨t, s', ht, hrest, hhash⟩ := hn fuel (by omega) s hs
      have hsome : find t = some entry := by rw [hhash rfl]; exact hfind
      rw [loadFormat, ht]
      dsimp only [bind, Except.bind]
      rw [hsome]
      exact (hm fuel (by omega) s' hrest).map (Value.entry t)
  | @object_null flag hflag rest =>
      refine .of_succ 0 (fun fuel _ s hs => ?_)
      obtain ⟨hnull, hrest⟩ := loadBool_cons hs
      rw [loadFormat]
      simp only [hnull, bne_iff_ne.mpr hflag, if_true]
      exact ⟨_, _, rfl, hrest⟩
  | object hs ih =>
      obtain ⟨n, hn⟩ := ih
      refine .of_succ n (fun fuel hfuel s hs => ?_)
      obtain ⟨hnull, hrest⟩ := loadBool_cons hs
      rw [loadFormat]
      simp only [hnull, bne_self_eq_false, Bool.false_eq_true, if_false]
      exact hn fuel hfuel _ hrest
  | @bufferChunk_null flag hflag rest =>
      refine .of_succ 0 (fun fuel _ s hs => ?_)
      obtain ⟨hnull, hrest⟩ := loadBool_cons hs
      rw [loadFormat]
      simp only [hnull, bne_iff_ne.mpr hflag, if_true]
      exact ⟨_, _, rfl, hrest⟩
  | bufferChunk hs ih =>
      obtain ⟨n, hn⟩ := ih
      refine .of_succ n (fun fuel hfuel s hs => ?_)
      obtain ⟨hnull, hrest⟩ := loadBool_cons hs
      rw [loadFormat]
      simp only [hnull, bne_self_eq_false, Bool.false_eq_true, if_false]
      exact hn fuel hfuel _ hrest
  | pluginRegistryInfoDump hs ih =>
      obtain ⟨n, hn⟩ := ih
      exact .of_succ n (fun fuel hfuel s hs => hn fuel hfuel s hs)

/-! ### Only whole streams are got through -/

theorem Front.not_nil {group rest : Stream} : ¬ Front [] group rest := by
  rintro ⟨⟨init, last, rfl, -, -⟩, happend⟩
  simp at happend

theorem Whole.pointer_ne_nil {out : Option Stream} : ¬ Whole find ver .pointer [] out := by
  intro h
  cases h with
  | pointer_refused h hfind => exact h.not_nil
  | pointer h hfind hs => exact h.not_nil

theorem Whole.string_ne_nil {g : Format} {out : Option Stream} :
    ¬ Whole find ver (.pair .string g) [] out := by
  intro h
  cases h with
  | pair_refused h => cases h
  | pair h hs =>
      cases h with
      | string h => exact h.not_nil

/-- What a hostile load that does not spin shows about its stream. -/
def Got (find : EntryMap) (ver : BitVec 32) (format : Format) (bytes : Stream) :
    Except Fault (Value × IStream) → Prop
  | .ok (_, s) => Whole find ver format bytes (some s.bytes) ∧ s.Hostile
  | .error e => e = .diverged ∨ Whole find ver format bytes none

theorem Got.imp {first format : Format} {bytes rest : Stream} {r : Except Fault (Value × IStream)}
    (h : Got find ver first rest r)
    (hw : ∀ out, Whole find ver first rest out → Whole find ver format bytes out) :
    Got find ver format bytes r := by
  cases r with
  | error e => exact h.imp_right (hw none)
  | ok p => exact ⟨hw _ h.1, h.2⟩

theorem Got.map {format : Format} {bytes : Stream} {r : Except Fault (Value × IStream)}
    (h : Got find ver format bytes r) (f : Value → Value) :
    Got find ver format bytes (do
      let (v, s) ← r
      .ok (f v, s)) := by
  cases r with
  | error e => exact h
  | ok p => exact h

/-- A null flag, and a value if it is not set. At the end of the stream a hostile flag
is not set. -/
theorem got_nullable {some' nullable : Format} {s : IStream} (hs : s.Hostile)
    {k : IStream → Except Fault (Value × IStream)}
    (hk : ∀ s : IStream, s.Hostile → Got find ver some' s.bytes (k s))
    (hnull : ∀ {flag : UInt8}, flag ≠ 0 → ∀ rest, Whole find ver nullable (flag :: rest) (some rest))
    (hsome : ∀ rest out, Whole find ver some' rest out → Whole find ver nullable (0 :: rest) out)
    (hend : ∀ out, Whole find ver some' [] out → Whole find ver nullable [] out) :
    Got find ver nullable s.bytes
      (let (isNull, s) := loadBool s
        if isNull then .ok (.null, s) else k s) := by
  have hs' : (loadBool s).2.Hostile := ⟨fun n => hs.flag (n + 1), hs.byte⟩
  show Got find ver nullable s.bytes
    (if (loadBool s).1 then .ok (.null, (loadBool s).2) else k (loadBool s).2)
  have hrest := hk _ hs'
  cases hbytes : s.bytes with
  | nil =>
      have hflag : (loadBool s).1 = false := by simp [loadBool, hbytes, readByte, hs.flag 0]
      have hnil : (loadBool s).2.bytes = [] := by simp [loadBool, hbytes, readByte]
      rw [hnil] at hrest
      rw [hflag]
      exact hrest.imp hend
  | cons flag rest =>
      obtain ⟨hflag, htail⟩ := loadBool_cons hbytes
      rw [htail] at hrest
      rw [hflag]
      by_cases hzero : flag = 0
      · subst hzero
        exact hrest.imp (hsome rest)
      · rw [if_pos (bne_iff_ne.mpr hzero)]
        refine ⟨?_, hs'⟩
        rw [htail]
        exact hnull hzero rest

/-- Two loads in a row. -/
theorem Got.seq {first second both : Format} {bytes : Stream} {r : Except Fault (Value × IStream)}
    {k : IStream → Except Fault (Value × IStream)} (h : Got find ver first bytes r)
    (hk : ∀ s : IStream, s.Hostile → Got find ver second s.bytes (k s))
    (hrefused : Whole find ver first bytes none → Whole find ver both bytes none)
    (hboth : ∀ mid out, Whole find ver first bytes (some mid) → Whole find ver second mid out →
      Whole find ver both bytes out) :
    Got find ver both bytes (do
      let (v, s) ← r
      let (vs, s) ← k s
      .ok (.cons v vs, s)) := by
  cases r with
  | error e => exact h.imp_right hrefused
  | ok p =>
      obtain ⟨v, s⟩ := p
      have hsecond := hk s h.2
      show Got find ver both bytes ((k s) >>= _)
      cases hrun : k s with
      | error e =>
          rw [hrun] at hsecond
          exact hsecond.imp_right (hboth s.bytes none h.1)
      | ok q =>
          rw [hrun] at hsecond
          exact ⟨hboth s.bytes _ h.1 hsecond.1, hsecond.2⟩

/-- **Only a whole stream is got through**, if the locals are hostile. -/
theorem got_loadFormat (fuel : Nat) {format : Format} {s : IStream} (hs : s.Hostile) :
    Got find ver format s.bytes (loadFormat find ver fuel format s) := by
  induction fuel generalizing format s with
  | zero => exact .inl rfl
  | succ fuel ih =>
      cases format with
      | bool =>
          refine ⟨?_, fun n => hs.flag (n + 1), hs.byte⟩
          rw [show (loadBool s).2.bytes = s.bytes.tail from readByte_stream _ _]
          exact .bool s.bytes
      | char =>
          refine ⟨?_, hs.flag, fun n => hs.byte (n + 1)⟩
          rw [show (loadChar s).2.bytes = s.bytes.tail from readByte_stream _ _]
          exact .char s.bytes
      | short => exact ⟨.short s.bytes, hs.flag, fun n => hs.byte (n + 2)⟩
      | integer ty =>
          rw [loadFormat]
          cases hload : loadInteger ty fuel s with
          | error e => exact .inl (loadInteger_error hload)
          | ok p =>
              obtain ⟨hs', group, hfront, -⟩ := front_of_loadInteger hs hload
              exact ⟨.integer hfront, hs'⟩
      | string =>
          rw [loadFormat, loadString]
          cases hload : loadInteger .unsignedInt fuel s with
          | error e => exact .inl (loadInteger_error hload)
          | ok p =>
              obtain ⟨t, s'⟩ := p
              obtain ⟨hs', group, hfront, hsize⟩ := front_of_loadInteger hs hload
              refine ⟨?_, hs'.flag, hs'.byte⟩
              show Whole find ver .string s.bytes
                (some (s'.bytes.drop (List.replicate t.toNat 0).length))
              rw [List.length_replicate, hsize rfl]
              exact .string hfront
      | elements count elem =>
          cases count with
          | zero => exact ⟨.elements_zero elem s.bytes, hs⟩
          | succ count =>
              rw [loadFormat]
              exact (ih hs).seq (fun s hs => ih hs) .elements_refused (fun mid out => .elements_succ)
      | vector elem =>
          rw [loadFormat]
          cases hload : loadInteger .unsignedInt fuel s with
          | error e => exact .inl (loadInteger_error hload)
          | ok p =>
              obtain ⟨t, s'⟩ := p
              obtain ⟨hs', group, hfront, hsize⟩ := front_of_loadInteger hs hload
              have hgot : Got find ver (.elements t.toNat elem) s'.bytes _ := ih hs'
              show Got find ver (.vector elem) s.bytes (loadFormat find ver fuel (.elements t.toNat elem) s')
              rw [hsize rfl] at hgot ⊢
              exact hgot.imp (fun out => .vector hfront)
      | pair first second =>
          rw [loadFormat]
          exact (ih hs).seq (fun s hs => ih hs) .pair_refused (fun mid out => .pair)
      | pointer =>
          rw [loadFormat]
          cases hload : loadInteger .unsignedLongLong fuel s with
          | error e => exact .inl (loadInteger_error hload)
          | ok p =>
              obtain ⟨t, s'⟩ := p
              obtain ⟨hs', group, hfront, hhash⟩ := front_of_loadInteger hs hload
              rw [show (t : BitVec 64) = leb128 64 0 group from hhash rfl]
              dsimp only [bind, Except.bind]
              cases hfind : find (leb128 64 0 group) with
              | none => exact .inr (.pointer_refused hfront hfind)
              | some entry => exact ((ih hs').map _).imp (fun out => .pointer hfront hfind)
      | object =>
          rw [loadFormat]
          exact got_nullable hs (fun s hs => ih hs) .object_null (fun rest out => .object)
            (fun out h => absurd h Whole.pointer_ne_nil)
      | bufferChunk =>
          rw [loadFormat]
          exact got_nullable hs (fun s hs => ih hs) .bufferChunk_null (fun rest out => .bufferChunk)
            (fun out h => absurd h Whole.string_ne_nil)
      | pluginRegistryInfoDump => exact (ih hs).imp (fun out => .pluginRegistryInfoDump)

end

/-! ### Which streams are got through -/

theorem exists_front {bytes : Stream} (h : ∃ b ∈ bytes, b.toNat < 128) :
    ∃ group rest, Front bytes group rest := by
  induction bytes with
  | nil =>
      obtain ⟨b, hb, -⟩ := h
      cases hb
  | cons b bytes ih =>
      by_cases hb : b.toNat < 128
      · exact ⟨[b], bytes, ⟨⟨[], b, rfl, fun _ h => (by cases h), hb⟩, rfl⟩⟩
      · have htail : ∃ c ∈ bytes, c.toNat < 128 := by
          obtain ⟨c, hc, hlt⟩ := h
          cases hc with
          | head => exact absurd hlt hb
          | tail _ hc => exact ⟨c, hc, hlt⟩
        obtain ⟨group, rest, ⟨init, last, rfl, hinit, hlast⟩, rfl⟩ := ih htail
        refine ⟨b :: (init ++ [last]), rest, ⟨⟨b :: init, last, rfl, ?_, hlast⟩, rfl⟩⟩
        intro x hx
        cases hx with
        | head => exact Nat.not_lt.mp hb
        | tail _ hx => exact hinit x hx

theorem Front.exists_last {bytes group rest : Stream} (h : Front bytes group rest) :
    ∃ b ∈ bytes, b.toNat < 128 := by
  obtain ⟨⟨init, last, rfl, -, hlast⟩, rfl⟩ := h
  exact ⟨last, by simp, hlast⟩

/-- Whatever the locals hold, the load returns or throws. -/
def Stops {α : Type} (run : Nat → IStream → Except Fault α) (bytes : Stream) : Prop :=
  ∀ flag byte : Nat → UInt8, ∃ fuel, run fuel ⟨bytes, flag, byte⟩ ≠ .error .diverged

/-- All locals are hostile. -/
def hostile (bytes : Stream) : IStream := ⟨bytes, fun _ => 0, fun _ => 0xff⟩

theorem hostile_hostile (bytes : Stream) : (hostile bytes).Hostile := ⟨fun _ => rfl, fun _ => rfl⟩

theorem stops_loadInteger_iff (ty : IntType) (bytes : Stream) :
    Stops (loadInteger ty) bytes ↔ ∃ b ∈ bytes, b.toNat < 128 := by
  constructor
  · intro h
    obtain ⟨fuel, hfuel⟩ := h (fun _ => 0) (fun _ => 0xff)
    cases hload : loadInteger ty fuel (hostile bytes) with
    | error e =>
        cases loadInteger_error hload
        exact absurd hload hfuel
    | ok p =>
        obtain ⟨-, group, hfront, -⟩ := front_of_loadInteger (hostile_hostile bytes) hload
        exact hfront.exists_last
  · intro h flag byte
    obtain ⟨group, rest, hfront⟩ := exists_front h
    obtain ⟨n, hn⟩ := loadInteger_front ty hfront
    obtain ⟨t, s, hload, -⟩ := hn n (Nat.le_refl n) ⟨bytes, flag, byte⟩ rfl
    exact ⟨n, by simp [hload]⟩

theorem Ends.ne_diverged {α : Type} {r : Except Fault (α × IStream)} {out : Option Stream}
    (h : Ends r out) : r ≠ .error .diverged := by
  cases out with
  | none =>
      obtain ⟨hash, rfl⟩ := h
      simp [noEntry]
  | some rest =>
      obtain ⟨v, s, rfl, -⟩ := h
      simp

theorem stops_loadArchive_iff (find : EntryMap) (format : Format) (bytes : Stream) :
    Stops (fun fuel => loadArchive find fuel format) bytes ↔ WholeArchive find format bytes := by
  constructor
  · intro h
    obtain ⟨fuel, hfuel⟩ := h (fun _ => 0) (fun _ => 0xff)
    have hfuel : loadArchive find fuel format (hostile bytes) ≠ .error .diverged := hfuel
    rw [loadArchive] at hfuel
    cases hload : loadInteger .unsignedInt fuel (hostile bytes) with
    | error e =>
        cases loadInteger_error hload
        rw [hload] at hfuel
        exact absurd rfl hfuel
    | ok p =>
        obtain ⟨ver, s⟩ := p
        obtain ⟨hs, group, hfront, hver⟩ := front_of_loadInteger (hostile_hostile bytes) hload
        have hgot : Got find ver format s.bytes _ := got_loadFormat fuel hs
        rw [hload] at hfuel
        have hfuel : loadFormat find ver fuel format s ≠ .error .diverged := hfuel
        rw [show (ver : BitVec 32) = leb128 32 0 group from hver rfl] at hgot hfuel
        refine ⟨group, s.bytes, hfront, ?_⟩
        cases hrun : loadFormat find (leb128 32 0 group) fuel format s with
        | error e =>
            rw [hrun] at hgot hfuel
            rcases hgot with rfl | hwhole
            · exact absurd rfl hfuel
            · exact ⟨none, hwhole⟩
        | ok q =>
            rw [hrun] at hgot
            exact ⟨_, hgot.1⟩
  · rintro ⟨group, rest, hfront, out, hwhole⟩ flag byte
    obtain ⟨n, hn⟩ := loadInteger_front .unsignedInt hfront
    obtain ⟨m, hm⟩ := hwhole.getsThrough
    obtain ⟨ver, s, hload, hrest, hver⟩ := hn (n + m) (Nat.le_add_right n m) ⟨bytes, flag, byte⟩ rfl
    refine ⟨n + m, ?_⟩
    show loadArchive find (n + m) format ⟨bytes, flag, byte⟩ ≠ _
    rw [loadArchive, hload]
    show loadFormat find ver (n + m) format s ≠ _
    rw [show (ver : BitVec 32) = leb128 32 0 group from hver rfl]
    exact (hm (n + m) (Nat.le_add_left m n) s hrest).ne_diverged

theorem deserialize_diverged_iff (find : EntryMap) (fuel : Nat) (s : IStream) :
    deserialize find fuel s = .error .diverged ↔ loadArchive find fuel .object s = .error .diverged := by
  rw [deserialize]
  split
  next h => simp [h]
  next => exact Iff.rfl

/-- **Which loads end**: that of an integer when some byte is without the continuation
bit; that of an archive, and of an `Object` from one, when each integer it calls for is
whole. -/
theorem stops_iff_whole (find : EntryMap) (bytes : Stream) :
    (∀ ty, Stops (loadInteger ty) bytes ↔ ∃ b ∈ bytes, b.toNat < 128) ∧
    (∀ format, Stops (fun fuel => loadArchive find fuel format) bytes ↔ WholeArchive find format bytes) ∧
    (Stops (deserialize find) bytes ↔ WholeArchive find .object bytes) := by
  refine ⟨fun ty => stops_loadInteger_iff ty bytes, fun format => stops_loadArchive_iff find format bytes, ?_⟩
  rw [← stops_loadArchive_iff]
  simp only [Stops, ne_eq, deserialize_diverged_iff]

/-- An archive that is cut off in its only value, an `int` of two bytes: the loop goes on
with the first of them for ever. -/
theorem not_stops_cut_int :
    ¬ ∀ (find : EntryMap) (format : Format) (bytes : Stream),
      Stops (fun fuel => loadArchive find fuel format) bytes := by
  intro h
  obtain ⟨fuel, hfuel⟩ := h (fun _ => none) (.integer .int) [2, 0x80] (fun _ => 0) (fun _ => 0)
  refine hfuel ?_
  have hspins : ∀ fuel byte, loadLoop fuel ⟨(0 : BitVec 32), 0, byte, true, [0x80]⟩ =
      .error .diverged := by
    intro fuel byte
    cases fuel with
    | zero => rfl
    | succ fuel => rw [loadLoop_cons]; exact loadLoop_spins fuel (by decide)
  cases fuel with
  | zero => rfl
  | succ fuel =>
      show (loadInteger .int fuel _ >>= _) = _
      rw [loadInteger, load]
      show ((loadLoop fuel ⟨(0 : BitVec 32), 0, 0, true, [0x80]⟩ >>= _) >>= _) >>= _ = _
      rw [hspins]
      rfl

end PothosCore.Archive
