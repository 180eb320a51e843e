import Mathlib.Data.List.Basic

/-!
# PothosCore.Lib.Reader

Readers of a state that gives a list of symbols, and fails or returns a value and the next
state. A reader may have a bound on what it may use up; `Reads` says that it reads a value
from some symbols and leaves exactly what follows them, once the bound is large enough. The
rules compose readers one after the other and in loops.
-/

namespace PothosCore.Lib

universe u

variable {σ α γ : Type u} {β ε : Type*}

/-- With a bound that is large enough, the reader takes the symbols off and returns the
value, whatever follows them. -/
def Reads (view : σ → List β) (read : Nat → σ → Except ε (α × σ)) (symbols : List β) (a : α) : Prop :=
  ∃ n, ∀ bound, n ≤ bound → ∀ rest s, view s = symbols ++ rest →
    ∃ s', read bound s = .ok (a, s') ∧ view s' = rest

/-- Read a number of times, and add what was read. -/
def readLoop (read : σ → Except ε (α × σ)) (add : γ → α → γ) : Nat → γ → σ → Except ε (γ × σ)
  | 0, acc, s => .ok (acc, s)
  | count + 1, acc, s => do
      let (a, s) ← read s
      readLoop read add count (add acc a) s

/-- One reader, then the one that is chosen by what was read. -/
def andThen (read : Nat → σ → Except ε (α × σ)) (next : α → Nat → σ → Except ε (γ × σ)) (bound : Nat) (s : σ) :
    Except ε (γ × σ) := do
  let (a, s) ← read bound s
  next a bound s

/-- A reader, and a function of what was read. -/
def mapped (f : α → γ) (read : Nat → σ → Except ε (α × σ)) : Nat → σ → Except ε (γ × σ) :=
  andThen read fun a _ s => .ok (f a, s)

namespace Reads

variable {view : σ → List β} {read : Nat → σ → Except ε (α × σ)} {symbols : List β} {a : α}

theorem pure (a : α) : Reads (ε := ε) view (fun _ s => .ok (a, s)) [] a :=
  ⟨0, fun _ _ _ s hs => ⟨s, rfl, hs⟩⟩

/-- A reader that needs no bound. -/
theorem of_total {next : σ → α × σ}
    (h : ∀ rest s, view s = symbols ++ rest → (next s).1 = a ∧ view (next s).2 = rest) :
    Reads (ε := ε) view (fun _ s => .ok (next s)) symbols a := by
  refine ⟨0, fun _ _ rest s hs => ⟨(next s).2, ?_, (h rest s hs).2⟩⟩
  rw [← (h rest s hs).1]

/-- What is read from some symbols is unique. -/
theorem unique {b : α} (h : Reads view read symbols a) (h' : Reads view read symbols b) (s : σ)
    (hs : view s = symbols) : a = b := by
  obtain ⟨n, hn⟩ := h
  obtain ⟨m, hm⟩ := h'
  obtain ⟨s₁, hread, -⟩ := hn (max n m) (by omega) [] s (by rw [hs, List.append_nil])
  obtain ⟨s₂, hread', -⟩ := hm (max n m) (by omega) [] s (by rw [hs, List.append_nil])
  rw [hread] at hread'
  exact congrArg Prod.fst (Except.ok.inj hread')

/-- One reader after the other. -/
theorem bind {k : α → Nat → σ → Except ε (γ × σ)} {symbols' : List β} {c : γ}
    (h : Reads view read symbols a) (hk : Reads view (k a) symbols' c) :
    Reads view (andThen read k) (symbols ++ symbols') c := by
  obtain ⟨n, hn⟩ := h
  obtain ⟨m, hm⟩ := hk
  refine ⟨max n m, fun bound hbound rest s hs => ?_⟩
  obtain ⟨s₁, hread, hs₁⟩ := hn bound (by omega) (symbols' ++ rest) s (by rw [hs, List.append_assoc])
  obtain ⟨s₂, hnext, hs₂⟩ := hm bound (by omega) rest s₁ hs₁
  refine ⟨s₂, ?_, hs₂⟩
  simp only [andThen, hread]
  exact hnext

/-- One reader after one that cannot fail. -/
theorem bind_total {next : σ → α × σ} {k : α → Nat → σ → Except ε (γ × σ)} {symbols' : List β} {c : γ}
    (h : Reads (ε := ε) view (fun _ s => .ok (next s)) symbols a) (hk : Reads view (k a) symbols' c) :
    Reads view (fun bound s => k (next s).1 bound (next s).2) (symbols ++ symbols') c :=
  h.bind hk

/-- What is read is turned into something else. -/
theorem map {f : α → γ} (h : Reads view read symbols a) :
    Reads view (mapped f read) symbols (f a) := by
  have hbind := h.bind (k := fun a _ s => .ok (f a, s)) (pure (f a))
  rwa [List.append_nil] at hbind

/-- A reader that hands a smaller bound on. -/
theorem succ (h : Reads view (fun bound => read (bound + 1)) symbols a) : Reads view read symbols a := by
  obtain ⟨n, hn⟩ := h
  refine ⟨n + 1, fun bound hbound => ?_⟩
  obtain ⟨bound, rfl⟩ := Nat.exists_eq_add_of_le' (Nat.le_trans (Nat.le_add_left 1 n) hbound)
  exact hn bound (by omega)

theorem loop_nil {add : γ → α → γ} (acc : γ) :
    Reads view (fun bound => readLoop (read bound) add 0 acc) [] acc :=
  pure acc

theorem loop_cons {add : γ → α → γ} {count : Nat} {acc c : γ} {symbols' : List β}
    (h : Reads view read symbols a)
    (hrest : Reads view (fun bound => readLoop (read bound) add count (add acc a)) symbols' c) :
    Reads view (fun bound => readLoop (read bound) add (count + 1) acc) (symbols ++ symbols') c :=
  h.bind (k := fun a bound s => readLoop (read bound) add count (add acc a) s) hrest

end Reads

end PothosCore.Lib
