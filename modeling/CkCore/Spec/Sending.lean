import Mathlib.Algebra.Ring.Int.Defs
import CkCore.Model.Canexstream

namespace CkCore
open Lib Copy

section
variable {σ τ π : Type}

/-- The progress after some amounts were reported, the user not having
cancelled whenever that was asked in between. -/
inductive Progresser.Told (progresser : Progresser π) (p : π) : List Int → π → Prop where
  | none : Told progresser p [] p
  | asked {p' : π} {amounts : List Int} (before : Told progresser p amounts p')
      (go : (progresser.cancelled p').1 = false) :
      Told progresser p amounts (progresser.cancelled p').2
  | told {p' : π} {amounts : List Int} (before : Told progresser p amounts p') (n : Int) :
      Told progresser p (amounts ++ [n]) (progresser.update p' n)

theorem Progresser.Told.trans {progresser : Progresser π} {p p' p'' : π}
    {amounts later : List Int} (h : progresser.Told p amounts p')
    (hl : progresser.Told p' later p'') : progresser.Told p (amounts ++ later) p'' := by
  induction hl with
  | none => simpa using h
  | asked before go ih => exact ih.asked go
  | told before n ih =>
    rw [← List.append_assoc]
    exact ih.told n

/-- Progress with the sum of the amounts reported, and whether the user was
ever found to have cancelled. -/
structure Noted (π : Type) where
  progress : π
  reported : Int
  cancelled : Bool
deriving DecidableEq

def Progresser.noted (progresser : Progresser π) : Progresser (Noted π) where
  cancelled p :=
    let (cancelled, progress) := progresser.cancelled p.progress
    (cancelled, ⟨progress, p.reported, p.cancelled || cancelled⟩)
  update p n := ⟨progresser.update p.progress n, p.reported + n, p.cancelled⟩

theorem Progresser.Told.noted {progresser : Progresser π} {p p' : Noted π} {amounts : List Int}
    (h : progresser.noted.Told p amounts p') :
    p'.reported = p.reported + amounts.sum ∧ p'.cancelled = p.cancelled := by
  induction h with
  | none => simp
  | asked before go ih =>
    simp only [Progresser.noted] at go ⊢
    simp [go, ih]
  | told before n ih => simp [Progresser.noted, ih, Int.add_assoc]

/-- How many bytes the last of the parts has; none when there are no parts. -/
def lastLength (parts : List (List Byte)) : Nat :=
  (parts.getLast?.map List.length).getD 0

@[simp] theorem lastLength_snoc (parts : List (List Byte)) (part : List Byte) :
    lastLength (parts ++ [part]) = part.length := by
  simp [lastLength]

/-- How many writes it takes to send some bytes out of the buffer. -/
def blocks (size : Nat) : Nat := (size + (bufferSize - 1)) / bufferSize

/-- What the loop that sends the source has done after some parts. -/
structure Copy.Sending.Sent (src : InStream σ) (progresser : Progresser π)
    (received : τ → List Byte)
    (first : Sending σ τ π) (parts : List (List Byte)) (c : Sending σ τ π) : Prop where
  buffer : c.buffer.length = bufferSize
  reads : src.Reads bufferSize first.size first.source parts c.source
  size : c.size = first.size - parts.flatten.length
  sink : received c.sink = received first.sink ++ parts.flatten
  told : progresser.Told first.progress (parts.map fun part => (part.length : Int)) c.progress
  res : c.res = lastLength parts

/-- What the two padding loops have done; they report different amounts. -/
structure Copy.Sending.Padded (progresser : Progresser π) (received : τ → List Byte)
    (first c x : Sending σ τ π) : Prop where
  buffer : c.buffer.length = bufferSize
  buffer' : x.buffer.length = bufferSize
  source : c.source = first.source
  source' : x.source = first.source
  sink : x.sink = c.sink
  size : x.size = c.size
  size_le : c.size ≤ first.size
  zeros : received c.sink = received first.sink ++ List.replicate (first.size - c.size) 0
  told : ∃ amounts : List Int, progresser.Told first.progress amounts c.progress ∧
    amounts.sum = (first.size - c.size : Nat)
  told' : ∃ count, blocks first.size = count + blocks c.size ∧
    progresser.Told first.progress (List.replicate count first.res) x.progress
  res : x.res = first.res

/-- The two copies end alike: true for returning without a throw, and the
streams are left alone in the same states. -/
structure Agree (c : Copied σ τ π) (x : Canexstream.Canexed σ τ π) : Prop where
  ret : c.ret = true ↔ x.thrown = none
  source : x.source = c.source
  sink : x.sink = c.sink

/-- The two copies of a given size have both come to their end: what was read,
what the sink received and what was reported. -/
structure Completed (src : InStream σ) (progresser : Progresser π) (received : τ → List Byte)
    (s : σ) (t : τ) (p : π) (size : Nat) (parts : List (List Byte))
    (c : Copied σ τ π) (x : Canexstream.Canexed σ τ π) : Prop extends Agree c x where
  done : c.ret = true
  reads : src.Reads bufferSize size s parts c.source
  ended : src.end c.source = true ∨ parts.flatten.length = size
  zeros : received c.sink = received t ++ parts.flatten ++
    List.replicate (size - parts.flatten.length) 0
  told : ∃ amounts : List Int, progresser.Told p amounts c.progress ∧ amounts.sum = size
  told' : progresser.Told p ((parts.map fun part => (part.length : Int)) ++
    List.replicate (blocks (size - parts.flatten.length)) (lastLength parts : Int)) x.progress

end

/-- The amounts read sum up to what was read. -/
theorem lengths_sum (parts : List (List Byte)) :
    (parts.map fun part => (part.length : Int)).sum = parts.flatten.length := by
  induction parts with
  | nil => rfl
  | cons part parts ih =>
    rw [List.map_cons, List.sum_cons, ih, List.flatten_cons, List.length_append]
    rfl

theorem replicate_sum (count n : Nat) :
    (List.replicate count (n : Int)).sum = (count * n : Nat) := by
  induction count with
  | zero => simp
  | succ count ih =>
    rw [List.replicate_succ, List.sum_cons, ih, Nat.succ_mul]
    omega

theorem amount_eq (size : Nat) : amount size = min size bufferSize := by
  unfold amount
  split
  · rename_i h
    have hw : bufferSize < word := by decide
    rw [toWord_nat (by omega)]
    omega
  · omega

/-- The buffer filled with zeros, and the front of it. -/
theorem buffer_zeros {buffer : List Byte} (h : buffer.length = bufferSize) {n : Nat}
    (hn : n ≤ bufferSize) :
    store buffer 0 (List.replicate bufferSize 0) = .ok (List.replicate bufferSize (0 : Byte)) ∧
      load (List.replicate bufferSize (0 : Byte)) 0 n = .ok (List.replicate n 0) := by
  have hlength : (List.replicate bufferSize (0 : Byte)).length = bufferSize := List.length_replicate
  constructor
  · rw [store_ok (by omega), List.take_zero, List.nil_append, hlength,
      List.drop_eq_nil_of_le (by omega), List.append_nil]
  · rw [load_ok (by omega), List.drop_zero, List.take_replicate, Nat.min_eq_left hn]

theorem subLong_eq {size n : Nat} (hs : size < longWord) (hn : n ≤ size) :
    subLong size n = size - n := by
  unfold subLong
  rw [← Int.natCast_sub hn, ← Int.natCast_emod, Nat.mod_eq_of_lt (by omega)]
  rfl

theorem blocks_zero : blocks 0 = 0 := by decide

/-- One more write for the rest of the bytes. -/
theorem blocks_step {size : Nat} (h : 0 < size) :
    blocks size = blocks (size - min size bufferSize) + 1 := by
  unfold blocks bufferSize
  omega

end CkCore
