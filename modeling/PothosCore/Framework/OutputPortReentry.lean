import PothosCore.Framework.OutputPortRuns

/-!
# PothosCore.Framework.OutputPortReentry

The lock of the buffer manager, from `init` on. A pop under the lock drops the references
of the queue and of the cached front on the buffer that it uses up; the lock is not taken
again as long as the worker still refers to that buffer. `_buffer` does so for the first
pop of a call of `work`, and for the second only if the first one re-used the front.
-/

namespace PothosCore.Framework

open PothosCore.Lib

namespace PortSystem

section
variable {M : Type} [LawfulManager M]

/-- A port that gets a manager to whose buffers only the manager refers. -/
theorem Guarded.start {m : M} {h : Heap} {first numBuffers : Nat}
    (hfronted : CountedManager.Fronted (CountedManager.InRow first numBuffers) m h)
    (hcounter : ∀ mb, CountedManager.InRow first numBuffers mb →
      (h.impl mb).counter = (CountedManager.refs m).count mb) (dtype : DType) (readBeforeWrite : Bool) :
    (bufferManagerSetup m h first numBuffers dtype readBeforeWrite).Guarded := by
  have hknown : ∀ mb, (bufferManagerSetup m h first numBuffers dtype readBeforeWrite).known mb =
      (CountedManager.refs m).count mb := by
    intro mb
    rw [known_eq]
    simp [bufferManagerSetup]
  refine ⟨⟨hfronted, ⟨fun mb hmb => ?_, List.nodup_nil, fun mb hmb => ?_⟩, fun mb _ => ?_, trivial, rfl⟩,
    fun _ _ mb hmb => ?_, fun hborrowed => ?_⟩
  · have hcount := hcounter mb hmb
    rw [hknown]
    simpa [bufferManagerSetup] using hcount
  · cases hmb
  · rw [slack_of_unlocked rfl, hknown]
    omega
  · cases hmb
  · cases hborrowed

end

/-- Two generic buffers of four bytes. -/
def twoBuffers : Except Fault (GenericBufferManager × Heap) :=
  GenericBufferManager.init ⟨2, 4⟩ ⟨64, 8, 0⟩ 0 .empty

/-- A run of a port with these buffers. -/
def runTwoBuffers (f : PortSystem GenericBufferManager → Action → Option (PortSystem GenericBufferManager))
    (as : List Action) : Option (PortSystem GenericBufferManager) :=
  twoBuffers.toOption.bind fun r => runPartial f (bufferManagerSetup r.1 r.2 0 2 ⟨1, 1, 1⟩ false) as

theorem exec_of_runTwoBuffers {f : PortSystem GenericBufferManager → Action → Option (PortSystem GenericBufferManager)}
    {as : List Action} {s : PortSystem GenericBufferManager} (h : runTwoBuffers f as = some s) :
    ∃ m h', twoBuffers = .ok (m, h') ∧ Exec (ofPartial f) (bufferManagerSetup m h' 0 2 ⟨1, 1, 1⟩ false) as s := by
  unfold runTwoBuffers at h
  cases hinit : twoBuffers with
  | error e =>
      rw [hinit] at h
      cases h
  | ok r =>
      rw [hinit] at h
      exact ⟨r.1, r.2, rfl, exec_of_runPartial h⟩

/-- A call of `work` that takes a byte, and then uses the buffer up. -/
def consumingWork : List Action :=
  [.preWork true, .locked, .popElements 1, .locked, .locked, .locked, .locked, .popElements 3, .locked, .locked,
    .locked, .locked, .locked, .postWork, .send, .push 0]

/-- A call of `work` that pops half of the front, twice. -/
def poppingWork : List Action :=
  [.preWork true, .locked, .popElements 2, .locked, .locked, .locked, .locked, .locked, .popElements 2, .locked,
    .locked]

end PortSystem

end PothosCore.Framework
