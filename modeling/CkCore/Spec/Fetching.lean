import CkCore.Model.BufferedStream

namespace CkCore
open Lib

section
variable {σ : Type}

/-- A source that may fail or deliver any part of what is asked for, and
reports which; a failed read may leave anything in the caller's buffer. -/
def Truthful (src : InStream σ) : Prop :=
  ∀ s n, ∃ r s', src.read s n = .ok (r, s') ∧ r.data.length ≤ n ∧
    (r.ret = -1 ∨ r.ret = r.data.length)

/-- A source together with the bytes read from it so far. -/
def InStream.recorded (src : InStream σ) : InStream (σ × List Byte) where
  read p n := do
    let (r, s) ← src.read p.1 n
    return (r, (s, if r.ret = -1 then p.2 else p.2 ++ r.data))
  size p := src.size p.1
  «end» p := src.end p.1
  seek p distance whence := do
    let (ok, s) ← src.seek p.1 distance whence
    return (ok, (s, p.2))

/-- A source over fixed content that answers each read from a script: nothing
for a failure, else the most it delivers; after the script, all asked for. -/
def scriptedIn : InStream (List (Option Nat) × List Byte) where
  read
    | (none :: script, content), _ => .ok (⟨-1, []⟩, (script, content))
    | (some piece :: script, content), n =>
      .ok (⟨(content.take (min piece n)).length, content.take (min piece n)⟩,
        (script, content.drop (min piece n)))
    | ([], content), n =>
      .ok (⟨(content.take n).length, content.take n⟩, ([], content.drop n))
  size p := p.2.length
  «end» p := p.2.isEmpty
  seek p _ _ := .ok (false, p)

theorem scriptedIn_truthful : Truthful scriptedIn := by
  rintro ⟨script, content⟩ n
  cases script with
  | nil => exact ⟨_, _, rfl, List.length_take_le _ _, Or.inr rfl⟩
  | cons answer script =>
    cases answer with
    | none => exact ⟨_, _, rfl, Nat.zero_le _, Or.inl rfl⟩
    | some piece =>
      refine ⟨_, _, rfl, ?_, Or.inr rfl⟩
      rw [List.length_take]
      omega

/-- How fetching for a request comes to an end. -/
inductive Ending where
  | full
  | ended
  | failed
deriving DecidableEq

/-- Reads of `n` bytes from the source for a request of `need` bytes: the bytes
delivered, how it ended, and the source afterwards. -/
inductive InStream.Fetched (src : InStream σ) (n : Nat) :
    σ → Nat → List Byte → Ending → σ → Prop where
  | full (s : σ) : Fetched src n s 0 [] .full s
  | ended {s : σ} {need : Nat} (want : 0 < need) (last : src.end s = true) :
      Fetched src n s need [] .ended s
  | failed {s s' : σ} {need : Nat} {r : ReadResult} (want : 0 < need)
      (more : src.end s = false) (read : src.read s n = .ok (r, s')) (fail : r.ret = -1) :
      Fetched src n s need [] .failed s'
  | more {s s' s'' : σ} {need : Nat} {data bytes : List Byte} {e : Ending} (want : 0 < need)
      (more : src.end s = false) (read : src.read s n = .ok (⟨data.length, data⟩, s'))
      (rest : Fetched src n s' (need - data.length) bytes e s'') :
      Fetched src n s need (data ++ bytes) e s''

end

namespace BufferedInStream
variable {σ : Type}

/-- The bytes fetched and not yet handed to a caller. -/
def held (b : BufferedInStream σ) : List Byte := (b.buffer.drop b.bufferPos).take b.bufferData

/-- The states between calls of read, with all bytes handed to the callers. -/
inductive Reached (src : InStream σ) (b₀ : BufferedInStream σ) :
    BufferedInStream σ → List Byte → Prop where
  | start : Reached src b₀ b₀ []
  | read {b b' : BufferedInStream σ} {delivered : List Byte} {res : ReadResult}
      (fuel count : Nat) (before : Reached src b₀ b delivered)
      (call : b.read src fuel count = .ok (res, b')) : Reached src b₀ b' (delivered ++ res.data)

end BufferedInStream

end CkCore
