import CkCore.Model.Stream

namespace CkCore
open Lib

/-- The calls a client makes on an input stream. -/
inductive Call where
  | read (count : Nat)
  | end
  | seek (distance : Nat) (whence : StreamWhence)
deriving DecidableEq, Repr

inductive Answer where
  | read (result : ReadResult)
  | flag (value : Bool)
deriving DecidableEq, Repr

section
variable {σ : Type}

def InStream.call (src : InStream σ) (s : σ) : Call → Except Fault (Answer × σ)
  | .read count => do
    let (r, s') ← src.read s count
    return (.read r, s')
  | .end => .ok (.flag (src.end s), s)
  | .seek distance whence => do
    let (b, s') ← src.seek s distance whence
    return (.flag b, s')

/-- Everything a client sees of a sequence of calls. -/
def InStream.calls (src : InStream σ) (s : σ) : List Call → Except Fault (List Answer)
  | [] => .ok []
  | c :: cs => do
    let (a, s') ← src.call s c
    let rest ← src.calls s' cs
    return a :: rest

end

namespace Cursor

/-- The bytes a cursor at `pos` delivers when asked for `count` of them. -/
def slice (content : List Byte) (pos count : Nat) : List Byte :=
  (content.drop pos).take count

def target (pos distance : Nat) : StreamWhence → Nat
  | .current => pos + distance
  | .begin => distance

/-- A plain cursor over a byte sequence: what each call answers and where it
leaves the cursor. -/
def call (content : List Byte) (pos : Nat) : Call → Answer × Nat
  | .read count =>
    let data := slice content pos count
    (.read ⟨data.length, data⟩, pos + data.length)
  | .end => (.flag (pos == content.length), pos)
  | .seek distance whence => (.flag true, target pos distance whence)

def calls (content : List Byte) (pos : Nat) : List Call → List Answer
  | [] => []
  | c :: cs => (call content pos c).1 :: calls content (call content pos c).2 cs

/-- A cursor that seeks may take past the end, where nothing is left to read. -/
def callBeyond (content : List Byte) (pos : Nat) : Call → Answer × Nat
  | .end => (.flag (pos ≥ content.length), pos)
  | c => call content pos c

/-- Arguments are 32-bit words and every seek target stays within the content. -/
def Within (content : List Byte) (pos : Nat) : List Call → Prop
  | [] => True
  | c :: cs =>
    (match c with
      | .read count => count < word
      | .end => True
      | .seek distance whence => distance < word ∧ target pos distance whence ≤ content.length) ∧
    Within content (call content pos c).2 cs

theorem slice_length (content : List Byte) (pos count : Nat) :
    (slice content pos count).length = min count (content.length - pos) := by
  simp [slice]

/-- A delivered prefix of the rest of the content is a slice. -/
theorem slice_of_prefix {content data : List Byte} {pos : Nat}
    (h : data <+: content.drop pos) : data = slice content pos data.length :=
  List.prefix_iff_eq_take.mp h

theorem slice_append (content : List Byte) (pos m n : Nat) :
    slice content pos m ++ slice content (pos + m) n = slice content pos (m + n) := by
  unfold slice
  rw [← List.drop_drop, List.take_add]

/-- Asking for more than is left delivers what is left. -/
theorem slice_clip {content : List Byte} {pos m n : Nat} (hm : content.length ≤ pos + m)
    (hn : m ≤ n) : slice content pos n = slice content pos m := by
  unfold slice
  rw [List.take_of_length_le (by simp only [List.length_drop]; omega),
    List.take_of_length_le (by simp only [List.length_drop]; omega)]

theorem slice_inside {content : List Byte} {pos n : Nat} (h : pos + n ≤ content.length) :
    (slice content pos n).length = n := by
  rw [slice_length, Nat.min_eq_left (by omega)]

end Cursor

end CkCore
